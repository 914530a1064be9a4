/-!
# Nodes and edges of a directed graph

Nodes and edges are numbered from zero in the order in which they were added,
so that a node or an edge is its position.
-/

namespace ThreeAddress

/-- The position of a node. -/
abbrev NodeId := Nat

/-- The position of an edge. -/
abbrev EdgeId := Nat

/-- The text of a node, such as `B2`.  Nodes of flow graphs are blocks. -/
def NodeId.text (node : NodeId) : String :=
  s!"B{node}"

/-- The text of the bare node handle, such as `NodeId(2)`. -/
def NodeId.handleText (node : NodeId) : String :=
  s!"NodeId({node})"

/-- The text of an edge, such as `e4`. -/
def EdgeId.text (edge : EdgeId) : String :=
  s!"e{edge}"

/-- The text of the bare edge handle, such as `EdgeId(4)`. -/
def EdgeId.handleText (edge : EdgeId) : String :=
  s!"EdgeId({edge})"

end ThreeAddress
