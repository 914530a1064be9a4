import ThreeAddress.Dataflow.Solution
import ThreeAddress.Fact.SiteSet

/-!
# Reaching definitions

Which assignments may have given the variables their current values.  An
assignment to a variable displaces all other assignments to it.
-/

namespace ThreeAddress
namespace ReachingDefinitions

/-- The instructions of a program that define a variable, in order. -/
def sitesOf (p : Program) (v : VarId) : List InstrId :=
  (p.instrs.toList.filter fun instr => instr.defined? == some v).map
    Instruction.id

/-- The number of definitions in a program. -/
def count (p : Program) : Nat :=
  p.instrs.countP fun instr => instr.defined?.isSome

/-- The definitions that reach beyond an instruction. -/
def transfer (p : Program) (instr : Instruction) (sites : SiteSet) : SiteSet :=
  match instr.defined? with
  | some v => (SiteSet.eraseAll sites (sitesOf p v)).insert instr.id
  | none => sites

/-- The analysis of the definitions of a program. -/
def analysis (p : Program) : Analysis SiteSet where
  name := "reaching-definitions"
  direction := .forward
  boundary := ∅
  initial := ∅
  meet s t := s ∪ t
  transfer := transfer p
  height := count p + 1

/-- The reaching definitions of a program on a flow graph, where the definitions
are those of `source`. -/
def solve
    (source : Program) (settings : Settings) (p : Program) (g : FlowGraph) :
    Except Error (Solution SiteSet) :=
  Solution.solve (analysis source) settings p g

end ReachingDefinitions
end ThreeAddress
