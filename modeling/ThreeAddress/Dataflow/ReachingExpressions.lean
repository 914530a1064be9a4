import ThreeAddress.Dataflow.Solution
import ThreeAddress.Fact.SiteSet

/-!
# Reaching expressions

Which expressions have been computed on the way, with no operand assigned since.
Under intersection a site must arrive along every path, under union along some
path.  An assignment displaces the expressions that read its target, itself
included.
-/

namespace ThreeAddress
namespace ReachingExpressions

/-- The expression sites of a program, in order. -/
def sites (p : Program) : List Instruction :=
  p.instrs.toList.filter Instruction.isExpression

/-- The set of all expression sites of a program. -/
def allSites (p : Program) : SiteSet :=
  SiteSet.ofList ((sites p).map Instruction.id)

/-- The expression sites of a program that read a variable. -/
def readersOf (p : Program) (v : VarId) : List InstrId :=
  ((sites p).filter fun instr => instr.reads v).map Instruction.id

/-- The expressions that reach beyond an instruction. -/
def transfer (p : Program) (instr : Instruction) (sites : SiteSet) : SiteSet :=
  match instr.defined? with
  | none => sites
  | some v =>
      let kept := SiteSet.eraseAll sites (readersOf p v)
      if instr.isExpression && !instr.reads v then
        kept.insert instr.id
      else
        kept

/-- The sites assumed before the first pass. -/
def initial (p : Program) : SiteMeet → SiteSet
  | .intersection => allSites p
  | .union => ∅

/-- The sites that arrive from two sides. -/
def meet : SiteMeet → SiteSet → SiteSet → SiteSet
  | .intersection, s, t => s ∩ t
  | .union, s, t => s ∪ t

/-- The analysis of the expressions of a program. -/
def analysis (p : Program) (kind : SiteMeet) : Analysis SiteSet where
  name := "reaching-expressions"
  direction := .forward
  boundary := ∅
  initial := initial p kind
  meet := meet kind
  transfer := transfer p
  height := (allSites p).size + 1

/-- The reaching expressions of a program on a flow graph, where the sites are
those of `source`. -/
def solve
    (source : Program) (settings : Settings) (p : Program) (g : FlowGraph) :
    Except Error (Solution SiteSet) :=
  Solution.solve (analysis source settings.meet) settings p g

end ReachingExpressions
end ThreeAddress
