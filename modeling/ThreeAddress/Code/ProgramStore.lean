import Std.Data.HashMap
import ThreeAddress.Code.Program

/-!
# Program stores

A store keeps a program together with two tables: the positions of the handles
and the variables of the names.  Instructions and names are found through the
tables alone.  What changes the instructions or the names must change the tables
as well: a push enters one handle, a removal shifts the instructions behind it
and makes the table of handles anew, and a store that is built over the names of
another one takes over its table of names.
-/

namespace ThreeAddress

/-- A program with the positions of its handles and the variables of its names. -/
structure ProgramStore where
  instrs : Array Instruction
  index : Std.HashMap InstrId Nat
  names : Array String
  byName : Std.HashMap String VarId

namespace ProgramStore

/-- The store without instructions and variables. -/
def empty : ProgramStore :=
  ⟨#[], ∅, #[], ∅⟩

/-- The program without the tables. -/
def program (s : ProgramStore) : Program :=
  ⟨s.instrs, s.names⟩

/-- The number of instructions. -/
def size (s : ProgramStore) : Nat :=
  s.instrs.size

/-- The number of variables. -/
def varCount (s : ProgramStore) : Nat :=
  s.names.size

/-- The handles of the instructions, in order. -/
def ids (s : ProgramStore) : List InstrId :=
  s.instrs.toList.map Instruction.id

/-- The variable of a name. -/
def lookup? (s : ProgramStore) (name : String) : Option VarId :=
  s.byName[name]?

/-- The name of a variable. -/
def name? (s : ProgramStore) (v : VarId) : Option String :=
  s.names[v.index]?

/-- The variable of a name, entering the name into the table if it is new. -/
def intern (s : ProgramStore) (name : String) : VarId × ProgramStore :=
  match s.byName[name]? with
  | some v => (v, s)
  | none =>
      let v := VarId.ofIndex s.varCount
      (v, { s with
        names := s.names.push name
        byName := s.byName.insert name v })

/-- The position of an instruction. -/
def position? (s : ProgramStore) (id : InstrId) : Option Nat :=
  s.index[id]?

/-- The instruction of a handle.  The position in the table is not checked: one
behind the last instruction would give an instruction that the store does not
hold. -/
def get? (s : ProgramStore) (id : InstrId) : Option Instruction :=
  s.index[id]?.map fun k => s.instrs[k]!

/-- The instruction at a position. -/
def at? (s : ProgramStore) (position : Nat) : Option Instruction :=
  s.instrs[position]?

/-- The store with an instruction at the end. -/
def append (s : ProgramStore) (instr : Instruction) : ProgramStore :=
  { s with
    index := s.index.insert instr.id s.size
    instrs := s.instrs.push instr }

/-- Appends an instruction and answers with its handle.  The handle must be new
and the variables must be interned. -/
def push
    (s : ProgramStore) (instr : Instruction) :
    Except Error InstrId × ProgramStore :=
  if s.index.contains instr.id then
    (.error (.duplicateInstruction instr.id), s)
  else
    match s.program.stranger? instr with
    | some v => (.error (.uninternedVariable instr.id v), s)
    | none => (.ok instr.id, s.append instr)

/-- Appends instructions in order, up to the first that is refused. -/
def pushAll (s : ProgramStore) : List Instruction → Except Error ProgramStore
  | [] => .ok s
  | instr :: rest =>
      match s.push instr with
      | (.ok _, next) => next.pushAll rest
      | (.error e, _) => .error e

/-- The store over the same variables without instructions. -/
def clear (s : ProgramStore) : ProgramStore :=
  { empty with names := s.names, byName := s.byName }

/-- A store over the variables of `s` with the given instructions. -/
def withInstructions
    (s : ProgramStore) (instrs : List Instruction) :
    Except Error ProgramStore :=
  s.clear.pushAll instrs

/-- The positions of the handles of some instructions. -/
def positions (instrs : Array Instruction) : Std.HashMap InstrId Nat :=
  .ofList (instrs.toList.zipIdx.map fun entry => (entry.1.id, entry.2))

/-- The store with its table of handles made anew. -/
def reindex (s : ProgramStore) : ProgramStore :=
  { s with index := positions s.instrs }

/-- Removes the instructions of the given handles and says how many there
were. -/
def remove (s : ProgramStore) (ids : List InstrId) : Nat × ProgramStore :=
  let kept := s.instrs.filter fun instr => !ids.contains instr.id
  let rest := reindex { s with instrs := kept }
  (s.size - rest.size, rest)

/-- The store without the instructions of the given handles. -/
def without (s : ProgramStore) (ids : List InstrId) : ProgramStore :=
  (s.remove ids).2

end ProgramStore

end ThreeAddress
