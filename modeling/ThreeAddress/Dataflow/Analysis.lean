import ThreeAddress.Code.Instruction

/-!
# Analyses

An analysis says what facts hold where control enters, how an instruction
changes facts, and how facts from several sides are combined.  The solver needs
nothing else.
-/

namespace ThreeAddress

/-- Whether facts move with control or against it. -/
inductive Direction
  | forward
  | backward
deriving DecidableEq, Repr

/-- Facts of type `α` and how they move through instructions. -/
structure Analysis (α : Type) where
  name : String
  direction : Direction
  /-- The fact where facts enter the program. -/
  boundary : α
  /-- The fact assumed elsewhere before the first pass. -/
  initial : α
  /-- What holds where facts arrive from two sides. -/
  meet : α → α → α
  /-- What holds beyond an instruction. -/
  transfer : Instruction → α → α
  /-- How often a fact can change. -/
  height : Nat

namespace Analysis

variable {α : Type}

/-- What holds beyond a run of instructions. -/
def through (a : Analysis α) (code : List Instruction) (fact : α) : α :=
  code.foldl (fun x instr => a.transfer instr x) fact

/-- The facts before and beyond each instruction of a run. -/
def trail
    (a : Analysis α) : List Instruction → α → List (InstrId × α × α)
  | [], _ => []
  | instr :: rest, fact =>
      let beyond := a.transfer instr fact
      (instr.id, fact, beyond) :: a.trail rest beyond

/-- What holds where several facts arrive, combined from left to right. -/
def meetAll (a : Analysis α) (seed : Option α) (facts : List α) : Option α :=
  facts.foldl
    (fun acc fact =>
      match acc with
      | none => some fact
      | some before => some (a.meet before fact))
    seed

end Analysis

end ThreeAddress
