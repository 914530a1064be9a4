import ThreeAddress.Proofs.Digraph.DepthFirst
import ThreeAddress.Proofs.Digraph.Reachability

/-!
# The orders of a depth-first search

Three searches from one node go through the graph in the same way.  The first
takes nodes from a list of pending ones, which may hold a node many times, and
marks a node when it is taken.  The other two keep the current path and mark a
node when they come upon it; one lists nodes as they are left, the other numbers
them.  The pending nodes of the first are at each moment the targets that the
path of the others has yet to try, but for nodes that have been visited.  So the
two lists are the orders of the numbers.
-/

namespace ThreeAddress

/-- The list holds the nodes that have a number, in the order of the numbers,
which count from zero. -/
def Enumerates (order : List NodeId) (number : NodeId → Option Nat) : Prop :=
  ∀ u k, order[k]? = some u ↔ number u = some k

namespace Enumerates

variable {order : List NodeId} {number : NodeId → Option Nat}

theorem nil (h : ∀ u, number u = none) : Enumerates [] number := by
  intro u k
  simp [h u]

theorem mem_iff (h : Enumerates order number) {u : NodeId} :
    u ∈ order ↔ ∃ k, number u = some k := by
  rw [List.mem_iff_getElem?]
  exact exists_congr (h u)

theorem nodup (h : Enumerates order number) : order.Nodup := by
  rw [List.nodup_iff_getElem?_ne_getElem?]
  intro i j hij hj heq
  have hi : order[i]? = some order[j] := by
    rw [heq, List.getElem?_eq_getElem hj]
  have hnumber := (h _ j).mp (List.getElem?_eq_getElem hj)
  rw [(h _ i).mp hi] at hnumber
  exact Nat.ne_of_lt hij (Option.some.inj hnumber)

end Enumerates

/-- The list holds the nodes that have been given a number so far, and `next` is
the first number that is free. -/
structure Counts
    (order : List NodeId) (number : NodeId → Option Nat) (next : Nat) :
    Prop where
  enumerates : Enumerates order number
  length_eq : order.length = next

/-- A node without a number takes the first free one. -/
theorem Counts.concat
    {order : List NodeId} {number number' : NodeId → Option Nat} {next : Nat}
    (h : Counts order number next) {node : NodeId} (hnode : number node = none)
    (hnumber' : ∀ u, number' u = if u = node then some next else number u) :
    Counts (order ++ [node]) number' (next + 1) := by
  obtain ⟨hold, rfl⟩ := h
  refine ⟨?_, by simp⟩
  intro u k
  rw [hnumber', List.getElem?_append]
  by_cases hk : k < order.length
  · rw [if_pos hk, hold u k]
    by_cases hu : u = node
    · subst hu
      rw [if_pos rfl, hnode]
      simp [Nat.ne_of_gt hk]
    · rw [if_neg hu]
  · have hlate : number u ≠ some k := by
      intro hu
      exact hk (List.getElem?_eq_some_iff.mp ((hold u k).mpr hu)).1
    rw [if_neg hk, List.getElem?_singleton]
    by_cases hu : u = node
    · subst hu
      rw [if_pos rfl]
      simp
      omega
    · rw [if_neg hu]
      simp [hlate, Ne.symm hu]

/-! ## One step of the numbering search -/

namespace SpanningTree

variable {ν ε : Type}

theorem counts_enter
    {t : SpanningTree} {order : List NodeId}
    (h : Counts order t.pre? t.entered) {node : NodeId}
    (hfresh : t.fresh node = true) :
    Counts (order ++ [node]) (t.enter node).pre? (t.enter node).entered := by
  obtain ⟨hlt, hnone⟩ := fresh_iff.mp hfresh
  exact h.concat hnone (pre?_enter hlt)

theorem counts_leave
    {g : Digraph ν ε} {t : SpanningTree} {order : List NodeId}
    (h : Counts order t.post? t.left) {node : NodeId} {rest : List NodeId}
    (hnumbered : Numbered g (node :: rest) t) :
    Counts (order ++ [node]) (t.leave node).post? (t.leave node).left := by
  have hnone := ((hnumbered.mem_path_iff node).mp List.mem_cons_self).2
  exact h.concat hnone
    (post?_leave (hnumbered.lt_of_mem_path List.mem_cons_self))

theorem fresh_enter_iff
    {t : SpanningTree} {node : NodeId} (h : t.fresh node = true) (u : NodeId) :
    (t.enter node).fresh u = true ↔ t.fresh u = true ∧ u ≠ node := by
  have hlt := (fresh_iff.mp h).1
  have hsize : (t.enter node).pre.size = t.pre.size := Array.size_setIfInBounds
  rw [fresh_iff, fresh_iff, pre?_enter hlt, hsize]
  by_cases hu : u = node
  · simp [hu]
  · simp [hu]

/-- Marks for the nodes that the search has entered. -/
def Marked (t : SpanningTree) (marks : Marks) : Prop :=
  ∀ u, marks.fresh u = true ↔ t.fresh u = true

theorem Marked.enter
    {t : SpanningTree} {marks : Marks} (h : t.Marked marks) {node : NodeId}
    (hfresh : t.fresh node = true) :
    (t.enter node).Marked (marks.visit node) := by
  intro u
  rw [Marks.fresh_visit, fresh_enter_iff hfresh, h u]

theorem marked_blank (g : Digraph ν ε) :
    (blank g).Marked (Marks.none g.nodeCount) := by
  intro u
  rw [Marks.fresh_none, fresh_iff, (numbered_blank g).size_pre]
  constructor
  · intro hu
    exact ⟨hu, (fresh_iff.mp (fresh_blank hu)).2⟩
  · exact And.left

end SpanningTree

namespace Digraph

open SpanningTree

variable {ν ε : Type} {g : Digraph ν ε}

/-! ## Pending nodes -/

theorem preorderFrom_of_not_fresh
    {node : NodeId} {rest : List NodeId} {marks : Marks}
    (h : ¬ marks.fresh node = true) :
    g.preorderFrom (node :: rest) marks = g.preorderFrom rest marks := by
  rw [preorderFrom, dif_neg h]

theorem preorderFrom_append_of_not_fresh
    {stale rest : List NodeId} {marks : Marks}
    (h : ∀ u ∈ stale, ¬ marks.fresh u = true) :
    g.preorderFrom (stale ++ rest) marks = g.preorderFrom rest marks := by
  induction stale with
  | nil => rfl
  | cons node stale ih =>
      rw [List.forall_mem_cons] at h
      rw [List.cons_append, preorderFrom_of_not_fresh h.1, ih h.2]

theorem filter_fresh_visit (marks : Marks) (node : NodeId) (xs : List NodeId) :
    xs.filter (marks.visit node).fresh =
      (xs.filter marks.fresh).filter (marks.visit node).fresh := by
  rw [List.filter_filter]
  apply List.filter_congr
  intro u _
  rw [Bool.eq_iff_iff, Bool.and_eq_true, Marks.fresh_visit]
  tauto

/-- Pending nodes that have been visited make no difference. -/
theorem preorderFrom_congr
    {pending other : List NodeId} {marks : Marks}
    (h : other.filter marks.fresh = pending.filter marks.fresh) :
    g.preorderFrom other marks = g.preorderFrom pending marks := by
  fun_induction preorderFrom g pending marks generalizing other with
  | case1 marks =>
      have hstale : ∀ u ∈ other, ¬ marks.fresh u = true :=
        List.filter_eq_nil_iff.mp h
      have hdrop : g.preorderFrom (other ++ []) marks =
          g.preorderFrom [] marks :=
        preorderFrom_append_of_not_fresh hstale
      rw [List.append_nil] at hdrop
      rw [hdrop, preorderFrom]
  | case2 marks node rest hfresh ih =>
      -- the other list holds the same node after some that have been visited
      rw [List.filter_cons_of_pos hfresh, List.filter_eq_cons_iff] at h
      obtain ⟨stale, later, rfl, hstale, -, hlater⟩ := h
      rw [preorderFrom_append_of_not_fresh hstale, preorderFrom, dif_pos hfresh]
      congr 1
      apply ih
      rw [List.filter_append, List.filter_append,
        filter_fresh_visit marks node later, hlater, ← filter_fresh_visit]
  | case3 marks node rest hfresh ih =>
      rw [List.filter_cons_of_neg hfresh] at h
      exact ih h

/-- It does not matter that visited successors are left out. -/
theorem preorderFrom_of_fresh
    {node : NodeId} {rest : List NodeId} {marks : Marks}
    (h : marks.fresh node = true) :
    g.preorderFrom (node :: rest) marks =
      node :: g.preorderFrom (g.successors node ++ rest) (marks.visit node) := by
  rw [preorderFrom, dif_pos h]
  congr 1
  apply preorderFrom_congr
  simp [List.filter_append]

/-- The targets of a list of edges. -/
def targets (g : Digraph ν ε) (edges : List EdgeId) : List NodeId :=
  edges.filterMap fun e => (g.edge? e).map Edge.target

theorem targets_cons_of_none
    {edge : EdgeId} {edges : List EdgeId} (h : g.edge? edge = none) :
    g.targets (edge :: edges) = g.targets edges := by
  simp [targets, h]

theorem targets_cons_of_some
    {edge : EdgeId} {edges : List EdgeId} {e : Edge ε}
    (h : g.edge? edge = some e) :
    g.targets (edge :: edges) = e.target :: g.targets edges := by
  simp [targets, h]

/-! ## Entering -/

/-- The nodes that the path has yet to try, from its end. -/
def pending (g : Digraph ν ε) (path : List (NodeId × List EdgeId)) :
    List NodeId :=
  path.flatMap fun item => g.targets item.2

theorem pending_cons
    (item : NodeId × List EdgeId) (path : List (NodeId × List EdgeId)) :
    pending g (item :: path) = g.targets item.2 ++ pending g path :=
  List.flatMap_cons

/-- The rest of the search enters nodes in the order in which they are taken from
the pending ones. -/
theorem enumerates_pre?_grow
    (path : List (NodeId × List EdgeId)) {t : SpanningTree} {marks : Marks}
    (hmarks : t.Marked marks) {order : List NodeId}
    (horder : Counts order t.pre? t.entered) :
    Enumerates (order ++ g.preorderFrom (pending g path) marks)
      (grow g path t).pre? := by
  fun_induction grow g path t generalizing order marks with
  | case1 t =>
      rw [pending, List.flatMap_nil, preorderFrom, List.append_nil]
      exact horder.enumerates
  | case2 t node rest ih => exact ih hmarks horder
  | case3 t node edge untried rest hnone ih =>
      have hsame : pending g ((node, edge :: untried) :: rest) =
          pending g ((node, untried) :: rest) := by
        simp only [pending_cons, targets_cons_of_none hnone]
      rw [hsame]
      exact ih hmarks horder
  | case4 t node edge untried rest e hedge hfresh ih =>
      have hnext := ih
        (Marked.enter (t := t.attach node edge e.target) hmarks hfresh)
        (counts_enter (t := t.attach node edge e.target) horder hfresh)
      rw [pending_cons, List.append_assoc] at hnext
      rw [pending_cons, targets_cons_of_some hedge, List.cons_append,
        preorderFrom_of_fresh ((hmarks _).mpr hfresh)]
      exact hnext
  | case5 t node edge untried rest e hedge hfresh ih =>
      rw [pending_cons, targets_cons_of_some hedge, List.cons_append,
        preorderFrom_of_not_fresh (mt (hmarks _).mp hfresh)]
      exact ih hmarks horder

theorem enumerates_preorder (g : Digraph ν ε) (start : NodeId) :
    Enumerates (g.preorder start) (ofGraph g start).pre? := by
  have hnone : ∀ u, (blank g).pre? u = none := by
    intro u
    by_contra hsome
    exact not_entered_blank g u (Option.ne_none_iff_exists'.mp hsome)
  have hmarks := marked_blank g
  rw [preorder, ofGraph]
  by_cases hfresh : (blank g).fresh start = true
  · have hfirst : Counts [start] ((blank g).enter start).pre? 1 :=
      counts_enter ⟨Enumerates.nil hnone, rfl⟩ hfresh
    rw [if_pos hfresh, preorderFrom_of_fresh ((hmarks start).mpr hfresh)]
    exact enumerates_pre?_grow [(start, g.outEdges start)]
      (hmarks.enter hfresh) hfirst
  · rw [if_neg hfresh, preorderFrom_of_not_fresh (mt (hmarks start).mp hfresh),
      preorderFrom]
    exact Enumerates.nil hnone

/-! ## Leaving -/

/-- The path, with the nodes that it has yet to try. -/
def untriedNodes (g : Digraph ν ε) (path : List (NodeId × List EdgeId)) :
    List (NodeId × List NodeId) :=
  path.map fun item => (item.1, g.targets item.2)

/-- The rest of the search leaves nodes in the order in which their untried
successors run out. -/
theorem enumerates_post?_grow
    (path : List (NodeId × List EdgeId)) {t : SpanningTree} {marks : Marks}
    (hnumbered : Numbered g (path.map Prod.fst) t) (hmarks : t.Marked marks)
    {order : List NodeId} (horder : Counts order t.post? t.left) :
    Enumerates (order ++ g.postorderFrom (untriedNodes g path) marks)
      (grow g path t).post? := by
  fun_induction grow g path t generalizing order marks with
  | case1 t =>
      rw [untriedNodes, List.map_nil, postorderFrom, List.append_nil]
      exact horder.enumerates
  | case2 t node rest ih =>
      have hnext := ih hnumbered.leave hmarks (counts_leave horder hnumbered)
      rw [List.append_assoc] at hnext
      rw [untriedNodes, List.map_cons, targets, List.filterMap_nil,
        postorderFrom]
      exact hnext
  | case3 t node edge untried rest hnone ih =>
      rw [untriedNodes, List.map_cons, targets_cons_of_none hnone]
      exact ih hnumbered hmarks horder
  | case4 t node edge untried rest e hedge hfresh ih =>
      have hnext := ih (hnumbered.attach.enter hfresh)
        (Marked.enter (t := t.attach node edge e.target) hmarks hfresh) horder
      rw [untriedNodes, List.map_cons, targets_cons_of_some hedge,
        postorderFrom, dif_pos ((hmarks _).mpr hfresh)]
      exact hnext
  | case5 t node edge untried rest e hedge hfresh ih =>
      rw [untriedNodes, List.map_cons, targets_cons_of_some hedge,
        postorderFrom, dif_neg (mt (hmarks _).mp hfresh)]
      exact ih hnumbered hmarks horder

theorem enumerates_postorder (g : Digraph ν ε) (start : NodeId) :
    Enumerates (g.postorder start) (ofGraph g start).post? := by
  have hmarks := marked_blank g
  rw [postorder, ofGraph]
  by_cases hfresh : (blank g).fresh start = true
  · have hnumbered : Numbered g [start] ((blank g).enter start) :=
      (numbered_blank g).enter hfresh
    have hfirst : Counts [] ((blank g).enter start).post? 0 :=
      ⟨Enumerates.nil (post?_blank g), rfl⟩
    rw [if_pos hfresh, if_pos ((hmarks start).mpr hfresh)]
    exact enumerates_post?_grow [(start, g.outEdges start)] hnumbered
      (hmarks.enter hfresh) hfirst
  · rw [if_neg hfresh, if_neg (mt (hmarks start).mp hfresh)]
    exact Enumerates.nil (post?_blank g)

/-! ## What the searches find -/

theorem entered_ofGraph_iff
    (hg : g.WellFormed) {start u : NodeId} :
    (ofGraph g start).Entered u ↔ g.Reaches start u := by
  rw [← hg.mem_preorder_iff]
  exact (enumerates_preorder g start).mem_iff.symm

theorem exists_post?_ofGraph_iff
    (hg : g.WellFormed) {start u : NodeId} :
    (∃ k, (ofGraph g start).post? u = some k) ↔ g.Reaches start u := by
  rw [← entered_ofGraph_iff hg]
  by_cases hstart : start < g.nodeCount
  · have hgrows := grows_ofGraph hg hstart
    constructor
    · rintro ⟨k, hk⟩
      exact hgrows.entered_of_post? hk
    · exact hgrows.exists_post?
  · have hfresh : ¬ (blank g).fresh start = true := by
      rw [fresh_iff, (numbered_blank g).size_pre]
      exact fun h => hstart h.1
    rw [ofGraph, if_neg hfresh, post?_blank]
    simp [not_entered_blank]

theorem WellFormed.mem_postorder_iff
    (hg : g.WellFormed) {start node : NodeId} :
    node ∈ g.postorder start ↔ g.Reaches start node := by
  rw [(enumerates_postorder g start).mem_iff, exists_post?_ofGraph_iff hg]

/-- The nodes as they are taken from the pending ones stand in the order in which
the numbering search enters them, and the nodes as their successors run out in
the order in which it leaves them.  Each of the two lists holds every node that
can be reached exactly once and no other, and so does the set of reachable
nodes. -/
theorem searches_agree
    {g : Digraph ν ε} (hg : g.Grown) (start : NodeId) :
    (∀ u k, (g.preorder start)[k]? = some u ↔
        (ofGraph g start).pre? u = some k) ∧
      (∀ u k, (g.postorder start)[k]? = some u ↔
        (ofGraph g start).post? u = some k) ∧
      ((g.preorder start).Nodup ∧
        ∀ u, u ∈ g.preorder start ↔ g.Reaches start u) ∧
      ((g.postorder start).Nodup ∧
        ∀ u, u ∈ g.postorder start ↔ g.Reaches start u) ∧
      ∀ u, (g.reachable start).contains u = true ↔ g.Reaches start u := by
  have hpre := enumerates_preorder g start
  have hpost := enumerates_postorder g start
  exact ⟨hpre, hpost,
    ⟨hpre.nodup, fun _ => hg.wellFormed.mem_preorder_iff⟩,
    ⟨hpost.nodup, fun _ => hg.wellFormed.mem_postorder_iff⟩,
    fun _ => hg.wellFormed.contains_reachable_iff⟩

/-- Two ways lead around a loop, one of them by either of two edges; a node leads
to itself, and another leads into the loop from outside. -/
def twoWays : Digraph Unit Unit where
  nodes := #[(), (), (), (), ()]
  edges := #[⟨0, 1, ()⟩, ⟨0, 2, ()⟩, ⟨0, 1, ()⟩, ⟨1, 3, ()⟩, ⟨2, 3, ()⟩,
    ⟨3, 0, ()⟩, ⟨2, 2, ()⟩, ⟨4, 3, ()⟩]
  outgoing := #[[0, 1, 2], [3], [4, 6], [5], [7]]
  incoming := #[[5], [0, 2], [1, 6], [3, 4, 7], []]

theorem grown_twoWays : twoWays.Grown :=
  grown_of_ofPairs (n := 5)
    (show ofPairs 5 [(0, 1), (0, 2), (0, 1), (1, 3), (2, 3), (3, 0), (2, 2),
      (4, 3)] = .ok twoWays from rfl)

theorem preorder_twoWays : twoWays.preorder 0 = [0, 1, 3, 2] := by
  cbv

theorem reaches_twoWays {u : NodeId} (h : u ∈ [0, 1, 3, 2]) :
    twoWays.Reaches 0 u := by
  rwa [← grown_twoWays.wellFormed.mem_preorder_iff, preorder_twoWays]

theorem searches_agree_twoWays :
    twoWays.Grown ∧ twoWays.preorder 0 = [0, 1, 3, 2] ∧
      twoWays.postorder 0 = [3, 1, 2, 0] ∧
      (ofGraph twoWays 0).pre? 2 = some 3 ∧
      (ofGraph twoWays 0).post? 2 = some 2 ∧ twoWays.Reaches 0 2 ∧
      ¬ twoWays.Reaches 0 4 ∧ ¬ twoWays.Reaches 5 0 := by
  have hpost : twoWays.postorder 0 = [3, 1, 2, 0] := by cbv
  have hnone : twoWays.preorder 5 = [] := by cbv
  obtain ⟨hentered, hleft, ⟨-, hlisted⟩, -, -⟩ := searches_agree grown_twoWays 0
  refine ⟨grown_twoWays, preorder_twoWays, hpost, ?_, ?_, ?_, ?_, ?_⟩
  · rw [← hentered, preorder_twoWays]
    rfl
  · rw [← hleft, hpost]
    rfl
  · rw [← hlisted, preorder_twoWays]
    decide
  · rw [← hlisted, preorder_twoWays]
    decide
  · rw [← (searches_agree grown_twoWays 5).2.2.1.2, hnone]
    exact List.not_mem_nil

end Digraph
end ThreeAddress
