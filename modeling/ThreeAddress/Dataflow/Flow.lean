import ThreeAddress.Dataflow.Analysis
import ThreeAddress.FlowGraph.Basic

/-!
# Flow graphs as an analysis sees them

A flow graph turned so that facts always move from feeders to a block and then
through its code: as it stands for a forward analysis, and back to front for a
backward one.  The solver is written once, for both directions.
-/

namespace ThreeAddress

/-- The way that facts take through the blocks of a flow graph. -/
structure Flow where
  /-- The number of blocks. -/
  size : Nat
  /-- The instructions of a block, in the order in which facts pass them. -/
  code : NodeId → List Instruction
  /-- The blocks whose facts arrive at a block. -/
  feeders : NodeId → List NodeId
  /-- Whether facts enter the program at a block. -/
  atBoundary : NodeId → Bool
  /-- The order in which a pass visits the blocks. -/
  order : List NodeId

namespace Flow

/-- The way that facts move with control. -/
def forward (g : FlowGraph) (code : List (List Instruction)) : Flow where
  size := g.blockCount
  code b := code.getD b []
  feeders := g.graph.predecessors
  atBoundary b := b == FlowGraph.entry
  order := List.range g.blockCount

/-- The way that facts move against control. -/
def backward (g : FlowGraph) (code : List (List Instruction)) : Flow where
  size := g.blockCount
  code b := (code.getD b []).reverse
  feeders := g.graph.successors
  atBoundary b := (g.graph.successors b).isEmpty
  order := (List.range g.blockCount).reverse

/-- The way that facts take through a flow graph, with the instructions that a
program has for its blocks now. -/
def ofGraph
    (direction : Direction) (p : Program) (g : FlowGraph) :
    Except Error Flow := do
  let code ← g.blocks.mapM (Block.resolve p)
  return match direction with
    | .forward => forward g code
    | .backward => backward g code

end Flow

end ThreeAddress
