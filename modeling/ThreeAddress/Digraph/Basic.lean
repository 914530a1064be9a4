import ThreeAddress.Error

/-!
# Directed graphs

A directed multigraph with data on nodes and edges.  Edges are stored once, in
the order in which they were added; every node lists its outgoing and incoming
edges in that order.  Parallel edges and loops are allowed.
-/

namespace ThreeAddress

/-- An edge and its data. -/
structure Edge (ε : Type) where
  source : NodeId
  target : NodeId
  data : ε
deriving DecidableEq, Repr

/-- A directed multigraph.  Nodes and edges are named by their positions. -/
structure Digraph (ν ε : Type) where
  nodes : Array ν
  edges : Array (Edge ε)
  outgoing : Array (List EdgeId)
  incoming : Array (List EdgeId)

namespace Digraph

variable {ν ε : Type}

/-- The graph without nodes. -/
def empty : Digraph ν ε :=
  ⟨#[], #[], #[], #[]⟩

/-- The number of nodes. -/
def nodeCount (g : Digraph ν ε) : Nat :=
  g.nodes.size

/-- The number of edges. -/
def edgeCount (g : Digraph ν ε) : Nat :=
  g.edges.size

/-- Adds a node without edges; it takes the next position. -/
def addNode (g : Digraph ν ε) (data : ν) : Digraph ν ε :=
  { g with
    nodes := g.nodes.push data
    outgoing := g.outgoing.push []
    incoming := g.incoming.push [] }

/-- Refuses a node that the graph lacks. -/
def checkNode
    (g : Digraph ν ε) (endpoint : Endpoint) (node : NodeId) :
    Except Error Unit :=
  if node < g.nodeCount then
    .ok ()
  else
    .error (.missingNode endpoint node g.nodeCount)

/-- Adds an edge between two nodes of the graph; it takes the next position. -/
def addEdge
    (g : Digraph ν ε) (source target : NodeId) (data : ε) :
    Except Error (Digraph ν ε) := do
  g.checkNode .source source
  g.checkNode .target target
  return { g with
    edges := g.edges.push ⟨source, target, data⟩
    outgoing := g.outgoing.modify source (· ++ [g.edgeCount])
    incoming := g.incoming.modify target (· ++ [g.edgeCount]) }

/-- Replaces the data of a node. -/
def setNode (g : Digraph ν ε) (node : NodeId) (data : ν) : Digraph ν ε :=
  { g with nodes := g.nodes.setIfInBounds node data }

/-- The data of a node. -/
def node? (g : Digraph ν ε) (node : NodeId) : Option ν :=
  g.nodes[node]?

/-- An edge with its ends. -/
def edge? (g : Digraph ν ε) (edge : EdgeId) : Option (Edge ε) :=
  g.edges[edge]?

/-- The edges that leave a node, oldest first. -/
def outEdges (g : Digraph ν ε) (node : NodeId) : List EdgeId :=
  g.outgoing.getD node []

/-- The edges that enter a node, oldest first. -/
def inEdges (g : Digraph ν ε) (node : NodeId) : List EdgeId :=
  g.incoming.getD node []

/-- The number of edges that leave a node. -/
def outDegree (g : Digraph ν ε) (node : NodeId) : Nat :=
  (g.outEdges node).length

/-- The number of edges that enter a node. -/
def inDegree (g : Digraph ν ε) (node : NodeId) : Nat :=
  (g.inEdges node).length

/-- The ends of the edges that leave a node, in edge order. -/
def successors (g : Digraph ν ε) (node : NodeId) : List NodeId :=
  (g.outEdges node).filterMap fun e => (g.edge? e).map Edge.target

/-- The origins of the edges that enter a node, in edge order. -/
def predecessors (g : Digraph ν ε) (node : NodeId) : List NodeId :=
  (g.inEdges node).filterMap fun e => (g.edge? e).map Edge.source

/-- The oldest edge from one node to another. -/
def findEdge? (g : Digraph ν ε) (source target : NodeId) : Option EdgeId :=
  (g.outEdges source).find? fun e =>
    (g.edge? e).any fun edge => edge.target == target

end Digraph

end ThreeAddress
