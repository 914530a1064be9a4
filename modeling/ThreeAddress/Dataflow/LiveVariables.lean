import ThreeAddress.Dataflow.Solution
import ThreeAddress.Fact.BitSet

/-!
# Live variables

Which variables may be read before they are assigned again.  Facts move against
control: an instruction ends the life of the variable that it writes, and begins
that of the variables that it reads.
-/

namespace ThreeAddress
namespace LiveVariables

/-- The variables that are live before an instruction. -/
def transfer (instr : Instruction) (live : VarSet) : VarSet :=
  let rest := instr.defined?.elim live fun v => live.erase v.index
  instr.used.foldl (fun acc v => acc.insert v.index) rest

/-- Refuses an instruction with a variable outside a set of this capacity. -/
def accept (capacity : Nat) (instr : Instruction) : Except Error Unit :=
  instr.vars.forM fun v =>
    if v.index < capacity then
      .ok ()
    else
      .error (.outOfCapacity v.index capacity)

/-- The variables that are live before an instruction, if the set has room for
the variables of the instruction. -/
def transfer? (instr : Instruction) (live : VarSet) : Except Error VarSet := do
  accept live.capacity instr
  return transfer instr live

/-- Whether a variable is live. -/
def isLive (live : VarSet) (v : VarId) : Bool :=
  live.contains v.index

/-- The analysis of the variables of a program. -/
def analysis (p : Program) : Analysis VarSet where
  name := "live-variables"
  direction := .backward
  boundary := .empty p.varCount
  initial := .empty p.varCount
  meet := BitSet.union
  transfer := transfer
  height := p.varCount + 1

/-- The live variables of a program on a flow graph, where the variables are
those of `source`. -/
def solve
    (source : Program) (settings : Settings) (p : Program) (g : FlowGraph) :
    Except Error (Solution VarSet) :=
  Solution.solveWithin (accept source.varCount) (analysis source)
    settings p g

end LiveVariables
end ThreeAddress
