import ThreeAddress.FlowGraph.Structure
import ThreeAddress.Text.Label

/-!
# Drawing a flow graph

The description of a flow graph in the DOT language: a box per block with its
instructions, and an arrow per edge, red for back edges and dashed for cross
edges.
-/

namespace ThreeAddress
namespace FlowGraph

/-- The end of a left-aligned line within a label. -/
def labelBreak : String :=
  "\\l"

/-- The label of a block: its name and its instructions, a line each. -/
def blockLabel (p : Program) (b : Block) : String :=
  let heading := NodeId.text b.id ++ if b.id = entry then " (entry)" else ""
  let lines := (b.instrs.filterMap p.get?).map fun instr =>
    Label.escape (instr.id.text ++ ": " ++ p.instrText instr)
  String.join ((heading :: lines).map (· ++ labelBreak))

/-- The box of a block. -/
def blockLine (p : Program) (b : Block) : String :=
  s!"    {NodeId.text b.id} [label=\"" ++ blockLabel p b ++ "\"];\n"

/-- The caption of an edge. -/
def kindText : EdgeKind → String
  | .jump => "goto"
  | .taken => "taken"
  | .fallthrough => "fall"

/-- The looks of an edge. -/
def classStyle : EdgeClass → String
  | .tree => ""
  | .back => ", color=red"
  | .cross => ", style=dashed"

/-- The arrow of an edge. -/
def edgeLine (c : EdgeClass) (e : Edge EdgeKind) : String :=
  s!"    {NodeId.text e.source} -> {NodeId.text e.target} [label=\"" ++
    kindText e.data ++ "\"" ++ classStyle c ++ "];\n"

/-- The caption of the whole drawing. -/
def titleLines (title : Option String) : String :=
  match title with
  | some name =>
      "    label=\"" ++ Label.escape name ++ "\";\n    labelloc=t;\n"
  | none => ""

/-- The description of a flow graph, with the instructions of a program. -/
def toDot (g : FlowGraph) (p : Program) (title : Option String) : String :=
  let tree := g.spanningTree
  "digraph CFG \x7b\n" ++ titleLines title ++
    "    node [shape=box, fontname=\"Courier\", fontsize=10];\n\n" ++
    String.join (g.blocks.map (blockLine p)) ++ "\n" ++
    String.join (g.graph.edges.toList.zipIdx.map fun (e, edge) =>
      edgeLine (tree.classOf edge e) e) ++
    "\x7d\n"

end FlowGraph
end ThreeAddress
