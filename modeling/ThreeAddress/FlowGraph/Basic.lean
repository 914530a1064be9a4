import ThreeAddress.Block.Basic
import ThreeAddress.Digraph.Basic

/-!
# Flow graphs

The control-flow graph of a program: one node per block, in program order, and
an edge wherever control may pass from the last instruction of one block to the
first of another.  Two blocks are joined by at most one edge; where a branch and
the fall-through lead to the same block, the branch gives the edge its kind.
-/

namespace ThreeAddress

/-- Why control may pass along an edge. -/
inductive EdgeKind
  | jump
  | taken
  | fallthrough
deriving DecidableEq, Repr

namespace EdgeKind

/-- Whether control passes along the edge by a jump. -/
def isJump : EdgeKind → Bool
  | jump | taken => true
  | fallthrough => false

end EdgeKind

/-- Blocks joined by the ways control may take between them. -/
structure FlowGraph where
  graph : Digraph Block EdgeKind

namespace FlowGraph

/-- The block where control enters. -/
def entry : NodeId :=
  0

/-- The blocks in order. -/
def blocks (g : FlowGraph) : List Block :=
  g.graph.nodes.toList

/-- The number of blocks. -/
def blockCount (g : FlowGraph) : Nat :=
  g.graph.nodeCount

/-- The number of edges. -/
def edgeCount (g : FlowGraph) : Nat :=
  g.graph.edgeCount

/-- The blocks that control leaves nowhere, in order. -/
def exits (g : FlowGraph) : List NodeId :=
  (List.range g.blockCount).filter fun node => g.graph.outDegree node == 0

/-- The block in which an instruction stands.  If it stands in several, the last
one counts. -/
def locate? (blocks : List Block) (id : InstrId) : Option NodeId :=
  (blocks.zipIdx.reverse.find? fun (b, _) => b.contains id).map Prod.snd

/-- The block of the graph in which an instruction stands. -/
def blockOf? (g : FlowGraph) (id : InstrId) : Option NodeId :=
  locate? g.blocks id

/-- The block to which a jump leads. -/
def destination
    (blocks : List Block) (jump target : InstrId) :
    Except Error NodeId :=
  match locate? blocks target with
  | some node => .ok node
  | none => .error (.unresolvedJump jump target)

/-- The block after block `source`, where control arrives without a jump. -/
def next (blocks : List Block) (source : NodeId) : List (NodeId × EdgeKind) :=
  if source + 1 < blocks.length then [(source + 1, .fallthrough)] else []

/-- Where control may pass from block `source`, which ends with instruction
`last`. -/
def arcsAfter
    (p : Program) (blocks : List Block) (source : NodeId) (last : InstrId) :
    Except Error (List (NodeId × EdgeKind)) :=
  match p.get? last with
  | none => .error (.missingTerminator last source)
  | some instr =>
      match instr.statement with
      | .goto target => do
          return [(← destination blocks last target, .jump)]
      | .branch _ target => do
          return (← destination blocks last target, .taken) ::
            next blocks source
      | _ => .ok (next blocks source)

/-- Where control may pass from block `source`. -/
def arcs
    (p : Program) (blocks : List Block) (source : NodeId) (b : Block) :
    Except Error (List (NodeId × EdgeKind)) :=
  match b.terminator? with
  | some last => arcsAfter p blocks source last
  | none => .ok []

/-- Adds an edge unless the two nodes are joined already. -/
def connect
    (source : NodeId) (g : Digraph Block EdgeKind)
    (arc : NodeId × EdgeKind) : Except Error (Digraph Block EdgeKind) :=
  match g.findEdge? source arc.1 with
  | some _ => .ok g
  | none => g.addEdge source arc.1 arc.2

/-- Adds the edges that leave one block. -/
def connectBlock
    (p : Program) (blocks : List Block) (g : Digraph Block EdgeKind) :
    Block × NodeId → Except Error (Digraph Block EdgeKind)
  | (b, source) => do
      (← arcs p blocks source b).foldlM (connect source) g

/-- Enters the neighbours of every node into its block, beside those that the
block has already. -/
def relate (g : Digraph Block EdgeKind) : Digraph Block EdgeKind :=
  { g with
    nodes := g.nodes.mapIdx fun node b =>
      { b with
        predecessors := b.predecessors.insertMany (g.predecessors node)
        successors := b.successors.insertMany (g.successors node) } }

/-- The blocks, numbered in order. -/
def renumber (blocks : List Block) : List Block :=
  blocks.zipIdx.map fun (b, node) => { b with id := node }

/-- Refuses a block without instructions. -/
def checkBlock (b : Block) : Except Error Unit :=
  if b.instrs.isEmpty then .error (.emptyBlock b.id) else .ok ()

/-- The flow graph over given blocks of a program.  The blocks keep the
neighbours that they come with. -/
def ofBlocks (p : Program) (blocks : List Block) : Except Error FlowGraph :=
  if blocks.isEmpty then
    .error .noBlocks
  else do
    blocks.forM checkBlock
    let blocks := renumber blocks
    let isolated := blocks.foldl Digraph.addNode .empty
    let joined ← blocks.zipIdx.foldlM (connectBlock p blocks) isolated
    return ⟨relate joined⟩

/-- The flow graph of a program. -/
def ofProgram (p : Program) : Except Error FlowGraph :=
  let blocks := Block.partition p
  if blocks.isEmpty then .error .emptyProgram else ofBlocks p blocks

end FlowGraph

end ThreeAddress
