/-!
# Quoted labels

The text between the quotes of a label in a graph description.  A backslash
goes before a quote, a backslash and an angle bracket; a line feed is written
as `\n`; a carriage return is dropped.
-/

namespace ThreeAddress
namespace Label

/-- What stands for one character inside a label. -/
def escapeChar (c : Char) : List Char :=
  if c = '\\' then ['\\', '\\']
  else if c = '"' then ['\\', '"']
  else if c = '\n' then ['\\', 'n']
  else if c = '\r' then []
  else if c = '<' then ['\\', '<']
  else if c = '>' then ['\\', '>']
  else [c]

/-- The text of a label that shows `s`. -/
def escape (s : String) : String :=
  String.ofList (s.toList.flatMap escapeChar)

end Label
end ThreeAddress
