import ThreeAddress.FlowGraph.Basic
import ThreeAddress.Digraph.SpanningTree
import ThreeAddress.Digraph.Dominators

/-!
# Loops of a flow graph

The spanning tree, the dominators and the back edges of a flow graph from its
entry.  A flow graph is reducible if every back edge leads to a block that
dominates its source.
-/

namespace ThreeAddress
namespace FlowGraph

/-- The depth-first spanning tree from the entry. -/
def spanningTree (g : FlowGraph) : SpanningTree :=
  .ofGraph g.graph entry

/-- The dominators from the entry. -/
def dominators (g : FlowGraph) : Dominators :=
  .ofGraph g.graph entry

/-- The class of the edge from one block to another. -/
def edgeClass? (g : FlowGraph) (source target : NodeId) : Option EdgeClass := do
  let edge ← g.graph.findEdge? source target
  let e ← g.graph.edge? edge
  return g.spanningTree.classOf edge e

/-- The ends of the back edges, in edge order. -/
def backEdges (g : FlowGraph) : List (NodeId × NodeId) :=
  (g.spanningTree.edgesOf g.graph .back).filterMap fun edge =>
    (g.graph.edge? edge).map fun e => (e.source, e.target)

/-- Whether every back edge leads to a dominator of its source. -/
def isReducible (g : FlowGraph) : Bool :=
  let dominators := g.dominators
  g.backEdges.all fun (source, target) => dominators.dominates target source

end FlowGraph
end ThreeAddress
