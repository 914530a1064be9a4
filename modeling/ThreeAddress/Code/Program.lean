import ThreeAddress.Code.Instruction
import ThreeAddress.Error

/-!
# Programs

A program is a sequence of instructions with distinct handles over a table of
distinct variable names.  `Program.push` is the only way in for instructions
and refuses what would break this.  Handles and names are found by search here;
`ProgramStore` finds them through tables.
-/

namespace ThreeAddress

/-- Instructions in order, and the names of the variables they may use. -/
structure Program where
  instrs : Array Instruction
  names : Array String
deriving DecidableEq, Repr, Inhabited

namespace Program

/-- The program without instructions and variables. -/
def empty : Program :=
  ⟨#[], #[]⟩

/-- The number of instructions. -/
def size (p : Program) : Nat :=
  p.instrs.size

/-- Whether the program has no instructions. -/
def isEmpty (p : Program) : Bool :=
  p.instrs.isEmpty

/-- The number of variables. -/
def varCount (p : Program) : Nat :=
  p.names.size

/-- The handles of the instructions, in order. -/
def ids (p : Program) : List InstrId :=
  p.instrs.toList.map Instruction.id

/-- The variable of a name. -/
def lookup? (p : Program) (name : String) : Option VarId :=
  (p.names.idxOf? name).map VarId.ofIndex

/-- The name of a variable. -/
def name? (p : Program) (v : VarId) : Option String :=
  p.names[v.index]?

/-- The name of a variable, or its plain text if it has none. -/
def nameOf (p : Program) (v : VarId) : String :=
  (p.name? v).getD v.text

/-- The variable of a name, entering the name into the table if it is new. -/
def intern (p : Program) (name : String) : VarId × Program :=
  match p.lookup? name with
  | some v => (v, p)
  | none =>
      (VarId.ofIndex p.varCount, { p with names := p.names.push name })

/-- The program without instructions over a list of names. -/
def ofNames (names : List String) : Program :=
  names.foldl (fun p name => (p.intern name).2) empty

/-- The position of an instruction. -/
def position? (p : Program) (id : InstrId) : Option Nat :=
  p.instrs.findIdx? fun instr => instr.id == id

/-- The instruction of a handle. -/
def get? (p : Program) (id : InstrId) : Option Instruction :=
  p.instrs.find? fun instr => instr.id == id

/-- The instruction at a position. -/
def at? (p : Program) (position : Nat) : Option Instruction :=
  p.instrs[position]?

/-- Whether the program has an instruction of this handle. -/
def contains (p : Program) (id : InstrId) : Bool :=
  p.instrs.any fun instr => instr.id == id

/-- The first variable of an instruction that the program has not interned. -/
def stranger? (p : Program) (instr : Instruction) : Option VarId :=
  instr.vars.find? fun v => decide (p.varCount ≤ v.index)

/-- Appends an instruction.  Its handle must be new and its variables must be
interned. -/
def push (p : Program) (instr : Instruction) : Except Error Program :=
  if p.contains instr.id then
    .error (.duplicateInstruction instr.id)
  else
    match p.stranger? instr with
    | some v => .error (.uninternedVariable instr.id v)
    | none => .ok { p with instrs := p.instrs.push instr }

/-- Appends instructions in order, up to the first that is refused. -/
def pushAll
    (p : Program) (instrs : List Instruction) :
    Except Error Program :=
  instrs.foldlM push p

/-- A program over the variables of `p` with the given instructions. -/
def withInstructions
    (p : Program) (instrs : List Instruction) :
    Except Error Program :=
  pushAll { p with instrs := #[] } instrs

theorem push_instrs
    {p q : Program} {instr : Instruction} (h : p.push instr = .ok q) :
    q.instrs = p.instrs.push instr := by
  rw [push] at h
  split at h
  · simp at h
  · split at h
    · simp at h
    · obtain rfl := Except.ok.inj h
      rfl

theorem push_names
    {p q : Program} {instr : Instruction} (h : p.push instr = .ok q) :
    q.names = p.names := by
  rw [push] at h
  split at h
  · simp at h
  · split at h
    · simp at h
    · obtain rfl := Except.ok.inj h
      rfl

theorem pushAll_instrs
    {p q : Program} {instrs : List Instruction}
    (h : p.pushAll instrs = .ok q) :
    q.instrs.toList = p.instrs.toList ++ instrs := by
  induction instrs generalizing p with
  | nil =>
      obtain rfl := Except.ok.inj h
      simp
  | cons instr rest ih =>
      cases hpush : p.push instr with
      | error e => simp [pushAll, hpush, bind, Except.bind] at h
      | ok next =>
          have hrest : next.pushAll rest = .ok q := by
            simpa [pushAll, hpush, bind, Except.bind] using h
          rw [ih hrest, push_instrs hpush]
          simp

theorem withInstructions_instrs
    {p q : Program} {instrs : List Instruction}
    (h : p.withInstructions instrs = .ok q) :
    q.instrs.toList = instrs := by
  simpa using pushAll_instrs h

/-- The program without the instructions of the given handles. -/
def without (p : Program) (ids : List InstrId) : Program :=
  { p with instrs := p.instrs.filter fun instr => !ids.contains instr.id }

/-- Removes the instructions of the given handles and says how many there
were. -/
def remove (p : Program) (ids : List InstrId) : Nat × Program :=
  let rest := p.without ids
  (p.size - rest.size, rest)

/-- The text of an instruction with the program's names. -/
def instrText (p : Program) (instr : Instruction) : String :=
  instr.text p.nameOf

/-- The line of a listing: a star if the instruction is labelled, its handle,
and its text. -/
def line (p : Program) (instr : Instruction) : String :=
  (if instr.labelled then "*" else " ") ++ instr.id.text ++ " : " ++
    p.instrText instr ++ "\n"

/-- All lines of the program. -/
def listing (p : Program) : String :=
  String.join (p.instrs.toList.map p.line)

end Program

end ThreeAddress
