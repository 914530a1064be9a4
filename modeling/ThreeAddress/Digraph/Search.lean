import ThreeAddress.Digraph.Basic
import ThreeAddress.Fact.BitSet

/-!
# Depth-first orders

Two searches from a start node.  `preorder` keeps a list of nodes still to be
visited and lists a node when it is taken from that list.  `postorder` keeps the
nodes on the current path, each with the successors still to be tried, and
lists a node when no successor is left.  Both try successors in edge order, and
both list nothing if the graph lacks the start node.
-/

namespace ThreeAddress

/-- Replacing an entry that has a property by one that lacks it lowers the
number of entries with the property. -/
theorem countP_set_lt
    {α : Type} {p : α → Bool} {xs : Array α} {i : Nat} {a : α}
    (hi : i < xs.size) (hold : p xs[i] = true) (hnew : p a = false) :
    (xs.set i a).countP p < xs.countP p := by
  have hpos : 0 < xs.countP p :=
    Array.countP_pos_iff.mpr ⟨xs[i], Array.getElem_mem hi, hold⟩
  rw [Array.countP_set, if_pos hold, if_neg (Bool.eq_false_iff.mp hnew)]
  exact Nat.sub_lt hpos Nat.one_pos

/-- Which nodes a search has visited. -/
abbrev Marks := Array Bool

namespace Marks

/-- Marks of a search that has visited none of `n` nodes. -/
def none (n : Nat) : Marks :=
  Array.replicate n false

/-- Whether a node exists and has not been visited. -/
def fresh (marks : Marks) (node : NodeId) : Bool :=
  marks[node]? == some false

/-- Marks a node as visited. -/
def visit (marks : Marks) (node : NodeId) : Marks :=
  marks.setIfInBounds node true

/-- The number of nodes not yet visited. -/
def remaining (marks : Marks) : Nat :=
  marks.countP (! ·)

theorem remaining_visit_lt
    {marks : Marks} {node : NodeId} (h : marks.fresh node = true) :
    (marks.visit node).remaining < marks.remaining := by
  obtain ⟨hlt, hfalse⟩ := Array.getElem?_eq_some_iff.mp (beq_iff_eq.mp h)
  rw [visit, Array.setIfInBounds_def, dif_pos hlt]
  exact countP_set_lt hlt (by simp [hfalse]) rfl

end Marks

namespace Digraph

variable {ν ε : Type}

/-- Lists nodes in the order in which they are taken from `pending`.  A node may
be pending more than once and is passed over when it comes up again. -/
def preorderFrom
    (g : Digraph ν ε) (pending : List NodeId) (marks : Marks) :
    List NodeId :=
  match pending with
  | [] => []
  | node :: rest =>
      if _h : marks.fresh node = true then
        node :: preorderFrom g
          ((g.successors node).filter (marks.visit node).fresh ++ rest)
          (marks.visit node)
      else
        preorderFrom g rest marks
termination_by (marks.remaining, pending.length)
decreasing_by
  · exact Prod.Lex.left _ _ (Marks.remaining_visit_lt _h)
  · exact Prod.Lex.right _ (Nat.lt_succ_self _)

/-- The nodes that can be reached from `start`, each before what is first
reached through it. -/
def preorder (g : Digraph ν ε) (start : NodeId) : List NodeId :=
  g.preorderFrom [start] (Marks.none g.nodeCount)

/-- The number of steps that a path with untried successors still allows. -/
def pathSize {α : Type} (path : List (NodeId × List α)) : Nat :=
  path.length + (path.flatMap Prod.snd).length

/-- Lists nodes in the order in which their untried successors run out. -/
def postorderFrom
    (g : Digraph ν ε) (path : List (NodeId × List NodeId)) (marks : Marks) :
    List NodeId :=
  match path with
  | [] => []
  | (node, []) :: rest => node :: postorderFrom g rest marks
  | (node, next :: untried) :: rest =>
      if _h : marks.fresh next = true then
        postorderFrom g
          ((next, g.successors next) :: (node, untried) :: rest)
          (marks.visit next)
      else
        postorderFrom g ((node, untried) :: rest) marks
termination_by (marks.remaining, pathSize path)
decreasing_by
  · exact Prod.Lex.right _ (by simp [pathSize])
  · exact Prod.Lex.left _ _ (Marks.remaining_visit_lt _h)
  · exact Prod.Lex.right _ (by simp [pathSize])

/-- The nodes that can be reached from `start`, each after what is first
reached through it. -/
def postorder (g : Digraph ν ε) (start : NodeId) : List NodeId :=
  let marks := Marks.none g.nodeCount
  if marks.fresh start then
    g.postorderFrom [(start, g.successors start)] (marks.visit start)
  else
    []

/-- The postorder, last node first. -/
def reversePostorder (g : Digraph ν ε) (start : NodeId) : List NodeId :=
  (g.postorder start).reverse

/-- The set of nodes that can be reached from `start`. -/
def reachable (g : Digraph ν ε) (start : NodeId) : BitSet :=
  (g.preorder start).foldl BitSet.insert (.empty g.nodeCount)

end Digraph

end ThreeAddress
