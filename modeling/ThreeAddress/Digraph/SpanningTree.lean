import ThreeAddress.Digraph.Search

/-!
# Depth-first spanning trees and edge classes

A depth-first search from an entry numbers each node that it reaches, once on
entering and once on leaving it.  Node `a` is an ancestor of node `n` in the
tree of edges that first reached a node when `a` is entered no later and left no
earlier than `n`.  Each edge is then a tree edge, a back edge to an ancestor of
its source, or a cross edge.
-/

namespace ThreeAddress

/-- The role of an edge with respect to a spanning tree. -/
inductive EdgeClass
  | tree
  | back
  | cross
deriving DecidableEq, Repr

namespace EdgeClass

def text : EdgeClass → String
  | tree => "tree"
  | back => "back"
  | cross => "cross"

end EdgeClass

/-- The numbering of a depth-first search, by node, and its tree edges. -/
structure SpanningTree where
  pre : Array (Option Nat)
  post : Array (Option Nat)
  parent : Array (Option NodeId)
  treeEdge : Array Bool
  entered : Nat
  left : Nat
deriving DecidableEq, Repr

namespace SpanningTree

variable {ν ε : Type}

/-- The tree of a search that has not begun. -/
def blank (g : Digraph ν ε) : SpanningTree where
  pre := Array.replicate g.nodeCount none
  post := Array.replicate g.nodeCount none
  parent := Array.replicate g.nodeCount none
  treeEdge := Array.replicate g.edgeCount false
  entered := 0
  left := 0

/-- Whether a node exists and has not been entered. -/
def fresh (t : SpanningTree) (node : NodeId) : Bool :=
  t.pre[node]? == some none

/-- Numbers a node on entering it. -/
def enter (t : SpanningTree) (node : NodeId) : SpanningTree :=
  { t with
    pre := t.pre.setIfInBounds node (some t.entered)
    entered := t.entered + 1 }

/-- Records the edge through which a node is about to be entered. -/
def attach
    (t : SpanningTree) (parent : NodeId) (edge : EdgeId) (node : NodeId) :
    SpanningTree :=
  { t with
    parent := t.parent.setIfInBounds node (some parent)
    treeEdge := t.treeEdge.setIfInBounds edge true }

/-- Numbers a node on leaving it. -/
def leave (t : SpanningTree) (node : NodeId) : SpanningTree :=
  { t with
    post := t.post.setIfInBounds node (some t.left)
    left := t.left + 1 }

/-- The number of nodes not yet entered. -/
def remaining (t : SpanningTree) : Nat :=
  t.pre.countP Option.isNone

theorem remaining_enter_lt
    {t : SpanningTree} {node : NodeId} (h : t.fresh node = true) :
    (t.enter node).remaining < t.remaining := by
  obtain ⟨hlt, hnone⟩ := Array.getElem?_eq_some_iff.mp (beq_iff_eq.mp h)
  simp only [enter, remaining, Array.setIfInBounds_def, dif_pos hlt]
  exact countP_set_lt hlt (by simp [hnone]) rfl

/-- Continues a search whose current path is `path`, each node with the edges
that it has yet to try. -/
def grow
    (g : Digraph ν ε) (path : List (NodeId × List EdgeId))
    (t : SpanningTree) : SpanningTree :=
  match path with
  | [] => t
  | (node, []) :: rest => grow g rest (t.leave node)
  | (node, edge :: untried) :: rest =>
      match g.edge? edge with
      | none => grow g ((node, untried) :: rest) t
      | some e =>
          if _h : t.fresh e.target = true then
            grow g
              ((e.target, g.outEdges e.target) :: (node, untried) :: rest)
              ((t.attach node edge e.target).enter e.target)
          else
            grow g ((node, untried) :: rest) t
termination_by (t.remaining, Digraph.pathSize path)
decreasing_by
  · exact Prod.Lex.right _ (by simp [Digraph.pathSize])
  · exact Prod.Lex.right _ (by simp [Digraph.pathSize])
  · have hfresh : (t.attach node edge e.target).fresh e.target = true := _h
    exact Prod.Lex.left _ _ (remaining_enter_lt hfresh)
  · exact Prod.Lex.right _ (by simp [Digraph.pathSize])

/-- The spanning tree of a graph from an entry. -/
def ofGraph (g : Digraph ν ε) (entry : NodeId) : SpanningTree :=
  let t := blank g
  if t.fresh entry then
    grow g [(entry, g.outEdges entry)] (t.enter entry)
  else
    t

/-- When a node was entered. -/
def pre? (t : SpanningTree) (node : NodeId) : Option Nat :=
  t.pre.getD node none

/-- When a node was left. -/
def post? (t : SpanningTree) (node : NodeId) : Option Nat :=
  t.post.getD node none

/-- The node from which a node was entered. -/
def parent? (t : SpanningTree) (node : NodeId) : Option NodeId :=
  t.parent.getD node none

/-- Whether the search entered a node through this edge. -/
def isTreeEdge (t : SpanningTree) (edge : EdgeId) : Bool :=
  t.treeEdge.getD edge false

/-- Whether `a` lies on the tree path to `n`, or is `n` itself. -/
def isAncestor (t : SpanningTree) (a n : NodeId) : Bool :=
  match t.pre? a, t.pre? n, t.post? a, t.post? n with
  | some preA, some preN, some postA, some postN =>
      decide (preA ≤ preN ∧ postN ≤ postA)
  | _, _, _, _ => false

/-- The class of an edge. -/
def classOf (t : SpanningTree) (edge : EdgeId) (e : Edge ε) : EdgeClass :=
  if t.isTreeEdge edge then .tree
  else if t.isAncestor e.target e.source then .back
  else .cross

/-- The classes of all edges, in edge order. -/
def classes (t : SpanningTree) (g : Digraph ν ε) : List EdgeClass :=
  g.edges.toList.zipIdx.map fun (e, edge) => t.classOf edge e

/-- The edges of a class, in ascending order. -/
def edgesOf
    (t : SpanningTree) (g : Digraph ν ε) (c : EdgeClass) :
    List EdgeId :=
  (t.classes g).zipIdx.filterMap fun (d, edge) =>
    if d = c then some edge else none

end SpanningTree

end ThreeAddress
