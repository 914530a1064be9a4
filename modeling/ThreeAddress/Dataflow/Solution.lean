import Std.Data.TreeMap
import ThreeAddress.Dataflow.Flow
import ThreeAddress.Dataflow.Settings

/-!
# Solving an analysis

The solver visits all blocks in turn, pass after pass.  At a block it combines
the facts that leave the feeders, together with the boundary fact if facts enter
there, and sends the result through the block's code; a block at which nothing
arrives keeps its fact.  A pass that changes nothing ends the search.  The facts
around single instructions follow from those at the blocks.
-/

namespace ThreeAddress

/-- The facts at the two ends of a block, in the direction of flow. -/
structure BlockFact (α : Type) where
  entering : α
  leaving : α
deriving DecidableEq, Repr

/-- The facts before and after an instruction or a block, in the direction of
control. -/
structure InOut (α : Type) where
  input : α
  output : α
deriving DecidableEq, Repr

/-- The facts of a program. -/
structure Solution (α : Type) where
  /-- The facts around each block. -/
  blocks : Array (InOut α)
  /-- The facts around each instruction. -/
  instructions : Std.TreeMap InstrId (InOut α)
  /-- The number of passes made, the last one included. -/
  passes : Nat

/-- Facts in the direction of control, from facts in the direction of flow. -/
def Direction.orient
    {α : Type} (d : Direction) (first second : α) : InOut α :=
  match d with
  | forward => ⟨first, second⟩
  | backward => ⟨second, first⟩

namespace Flow

variable {α : Type}

/-- The facts before the first pass. -/
def start (f : Flow) (a : Analysis α) : Array (BlockFact α) :=
  Array.ofFn fun b : Fin f.size =>
    ⟨if f.atBoundary b then a.boundary else a.initial, a.initial⟩

/-- The fact that arrives at a block. -/
def arriving
    (f : Flow) (a : Analysis α) (facts : Array (BlockFact α)) (b : NodeId) :
    Option α :=
  a.meetAll (if f.atBoundary b then some a.boundary else none)
    ((f.feeders b).filterMap fun n => facts[n]?.map BlockFact.leaving)

/-- Renews the facts of a block. -/
def visit
    (f : Flow) (a : Analysis α) (facts : Array (BlockFact α)) (b : NodeId) :
    Array (BlockFact α) :=
  let arrived := f.arriving a facts b
  facts.modify b fun fact =>
    let entering := arrived.getD fact.entering
    ⟨entering, a.through (f.code b) entering⟩

/-- Renews the facts of all blocks in turn. -/
def pass
    (f : Flow) (a : Analysis α) (facts : Array (BlockFact α)) :
    Array (BlockFact α) :=
  f.order.foldl (f.visit a) facts

/-- Passes until nothing changes, at most `limit` of them after the `passes`
made so far. -/
def iterate
    [DecidableEq α] (f : Flow) (a : Analysis α) (limit passes : Nat)
    (facts : Array (BlockFact α)) :
    Except Error (Array (BlockFact α) × Nat) :=
  match limit with
  | 0 => .error (.nonConvergence a.name passes)
  | limit + 1 =>
      let next := f.pass a facts
      if next = facts then
        .ok (facts, passes + 1)
      else
        f.iterate a limit (passes + 1) next

/-- The facts around the instructions of every block.  An instruction that
stands in several places has the facts of the last one. -/
def instructionFacts
    (f : Flow) (a : Analysis α) (facts : Array (BlockFact α)) :
    Std.TreeMap InstrId (InOut α) :=
  let trails := facts.toList.zipIdx.flatMap fun (fact, b) =>
    a.trail (f.code b) fact.entering
  trails.foldl
    (fun found (id, first, second) =>
      found.insert id (a.direction.orient first second))
    ∅

/-- The facts of all blocks and instructions, if the passes allowed reach
them. -/
def solve
    [DecidableEq α] (f : Flow) (a : Analysis α) (settings : Settings) :
    Except Error (Solution α) := do
  let limit := settings.passLimit f.size a.height
  let (facts, passes) ← f.iterate a limit 0 (f.start a)
  return {
    blocks := facts.map fun fact =>
      a.direction.orient fact.entering fact.leaving
    instructions := f.instructionFacts a facts
    passes }

/-- Refuses the first instruction that a test refuses, in the order of a
pass. -/
def check
    (f : Flow) (accept : Instruction → Except Error Unit) :
    Except Error Unit :=
  f.order.forM fun b => (f.code b).forM accept

end Flow

namespace Solution

variable {α : Type}

/-- Solves an analysis on a flow graph, with the instructions of a program. -/
def solve
    [DecidableEq α] (a : Analysis α) (settings : Settings) (p : Program)
    (g : FlowGraph) : Except Error (Solution α) := do
  (← Flow.ofGraph a.direction p g).solve a settings

/-- Solves an analysis whose facts can express only instructions that pass a
test.  The first pass, if there is one, meets all instructions. -/
def solveWithin
    [DecidableEq α] (accept : Instruction → Except Error Unit)
    (a : Analysis α) (settings : Settings) (p : Program) (g : FlowGraph) :
    Except Error (Solution α) := do
  let f ← Flow.ofGraph a.direction p g
  unless settings.passLimit f.size a.height = 0 do
    f.check accept
  f.solve a settings

/-- The facts around an instruction. -/
def at? (s : Solution α) (id : InstrId) : Option (InOut α) :=
  s.instructions[id]?

end Solution

end ThreeAddress
