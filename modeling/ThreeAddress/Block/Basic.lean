import Std.Data.ExtTreeSet
import ThreeAddress.Code.Program

/-!
# Basic blocks

A block is a run of instructions that control enters at the first and leaves
after the last.  `partition` cuts a program before every labelled instruction
and after every jump.
-/

namespace ThreeAddress

/-- A finite set of nodes. -/
abbrev NodeSet := Std.ExtTreeSet NodeId

/-- A run of instructions, with the blocks before and after it. -/
structure Block where
  id : NodeId
  instrs : List InstrId
  predecessors : NodeSet
  successors : NodeSet
deriving DecidableEq

namespace Block

/-- A block that is not yet related to others. -/
def ofInstrs (id : NodeId) (instrs : List InstrId) : Block :=
  ⟨id, instrs, ∅, ∅⟩

/-- The first instruction. -/
def leader? (b : Block) : Option InstrId :=
  b.instrs.head?

/-- The last instruction. -/
def terminator? (b : Block) : Option InstrId :=
  b.instrs.getLast?

/-- Whether an instruction stands in the block. -/
def contains (b : Block) (id : InstrId) : Bool :=
  b.instrs.contains id

/-- The instructions of a block, as the program has them now. -/
def resolve (p : Program) (b : Block) : Except Error (List Instruction) :=
  b.instrs.mapM fun id =>
    match p.get? id with
    | some instr => .ok instr
    | none => .error (.unresolvedInstruction b.id id)

/-- A program cut up to some instruction: the blocks so far, the run that is still
open, and whether the last instruction is a jump. -/
structure Cut where
  blocks : Array Block
  pending : Array InstrId
  afterJump : Bool

namespace Cut

/-- Nothing is cut, and no run is open. -/
def start : Cut :=
  ⟨#[], #[], false⟩

/-- Makes a block of the open run, if there is one. -/
def flush (c : Cut) : Cut :=
  if c.pending.isEmpty then
    c
  else
    { c with
      blocks := c.blocks.push (ofInstrs c.blocks.size c.pending.toList)
      pending := #[] }

/-- Adds an instruction to the open run.  A labelled instruction, and one after a
jump, begins a new run; the first instruction finds none open. -/
def step (c : Cut) (instr : Instruction) : Cut :=
  let before := if instr.labelled || c.afterJump then c.flush else c
  { before with
    pending := before.pending.push instr.id
    afterJump := instr.isJump }

end Cut

/-- The blocks of a program, numbered in order. -/
def partition (p : Program) : List Block :=
  (p.instrs.toList.foldl Cut.step .start).flush.blocks.toList

end Block

end ThreeAddress
