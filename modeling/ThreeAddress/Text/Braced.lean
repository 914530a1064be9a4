/-!
# Braced lists

The written form of a set: its members between braces, divided by a comma and a
blank.
-/

namespace ThreeAddress

/-- The items between braces. -/
def braced (items : List String) : String :=
  "\x7b" ++ String.intercalate ", " items ++ "\x7d"

end ThreeAddress
