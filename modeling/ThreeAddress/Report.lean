import ThreeAddress.Dataflow.ConstantPropagation
import ThreeAddress.Dataflow.LiveVariables
import ThreeAddress.Dataflow.ReachingDefinitions
import ThreeAddress.Dataflow.ReachingExpressions
import ThreeAddress.FlowGraph.Structure

/-!
# Reports

A report holds the results of selected analyses over one program, and writes
them out instruction by instruction.
-/

namespace ThreeAddress

/-- Which analyses a report holds. -/
structure Selection where
  definitions : Bool
  expressions : Bool
  constants : Bool
  live : Bool
deriving DecidableEq, Repr

namespace Selection

/-- The forward analyses. -/
def default : Selection :=
  ⟨true, true, true, false⟩

/-- The analyses of a bit mask.  Bits beyond the fourth mean nothing. -/
def ofBits (bits : Nat) : Selection :=
  ⟨bits.testBit 0, bits.testBit 1, bits.testBit 2, bits.testBit 3⟩

/-- The bit mask of the selection. -/
def toBits (s : Selection) : Nat :=
  s.definitions.toNat + 2 * s.expressions.toNat + 4 * s.constants.toNat +
    8 * s.live.toNat

end Selection

/-- The results of the selected analyses of a program. -/
structure Report where
  program : Program
  graph : FlowGraph
  definitions : Option (Solution SiteSet)
  expressions : Option (Solution SiteSet)
  constants : Option (Solution ConstEnv)
  live : Option (Solution VarSet)

namespace Report

/-- The result of an analysis, if it is selected. -/
def solveIf
    {α : Type} (selected : Bool)
    (solve : Settings → Program → FlowGraph → Except Error (Solution α))
    (settings : Settings) (p : Program) (g : FlowGraph) :
    Except Error (Option (Solution α)) := do
  if selected then
    return some (← solve settings p g)
  else
    return none

/-- Runs the selected analyses. -/
def run
    (selection : Selection) (settings : Settings) (p : Program) :
    Except Error Report := do
  let g ← FlowGraph.ofProgram p
  let definitions ← solveIf selection.definitions
    (ReachingDefinitions.solve p) settings p g
  let expressions ← solveIf selection.expressions
    (ReachingExpressions.solve p) settings p g
  let constants ← solveIf selection.constants
    (ConstantPropagation.solve p) settings p g
  let live ← solveIf selection.live (LiveVariables.solve p) settings p g
  return ⟨p, g, definitions, expressions, constants, live⟩

/-- Whether the flow graph of the program is reducible. -/
def isReducible (r : Report) : Bool :=
  r.graph.isReducible

/-- The lines of an instruction: its text, and the facts before and after it. -/
def instructionLines
    {α : Type} (p : Program) (write : α → String) (instr : Instruction)
    (facts : InOut α) : String :=
  instr.id.text ++ " : " ++ p.instrText instr ++ "\n" ++
    "    IN  " ++ write facts.input ++ "\n" ++
    "    OUT " ++ write facts.output ++ "\n"

/-- The section of an analysis. -/
def sectionText
    {α : Type} (p : Program) (name : String) (write : α → String)
    (solution : Option (Solution α)) : String :=
  match solution with
  | none => ""
  | some s =>
      s!"== {name} ({s.passes} passes) ==\n" ++
        String.join (p.instrs.toList.filterMap fun instr =>
          (s.at? instr.id).map (instructionLines p write instr))

/-- The text of a report. -/
def text (r : Report) : String :=
  let p := r.program
  let shape := if r.isReducible then "reducible" else "irreducible"
  s!"{r.graph.blockCount} blocks, {r.graph.edgeCount} edges, {shape}\n" ++
    sectionText p (ReachingDefinitions.analysis p).name SiteSet.text
      r.definitions ++
    sectionText p (ReachingExpressions.analysis p .intersection).name
      SiteSet.text r.expressions ++
    sectionText p (ConstantPropagation.analysis p).name
      (ConstEnv.text p.nameOf) r.constants ++
    sectionText p (LiveVariables.analysis p).name (VarSet.text p.nameOf)
      r.live

end Report

end ThreeAddress
