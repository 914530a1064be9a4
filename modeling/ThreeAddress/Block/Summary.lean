import ThreeAddress.Block.Basic
import ThreeAddress.Fact.BitSet

/-!
# What a block defines and exposes

The summary of a block: the variables that it assigns, and the variables that it
reads before assigning them.
-/

namespace ThreeAddress

/-- The variables that a block defines, and those that it reads from before. -/
structure Summary where
  defs : VarSet
  exposed : VarSet
deriving DecidableEq, Repr

namespace Summary

/-- The summary of no instructions over `n` variables. -/
def empty (n : Nat) : Summary :=
  ⟨.empty n, .empty n⟩

/-- Adds an instruction at the end: its reads first, then its definition. -/
def add (s : Summary) (instr : Instruction) : Summary :=
  let unmet := instr.used.filter fun v => !s.defs.contains v.index
  { defs := instr.defined?.elim s.defs fun v => s.defs.insert v.index
    exposed := unmet.foldl (fun acc v => acc.insert v.index) s.exposed }

/-- The summary of a block. -/
def ofBlock (p : Program) (b : Block) : Except Error Summary := do
  return (← b.resolve p).foldl add (empty p.varCount)

end Summary

end ThreeAddress
