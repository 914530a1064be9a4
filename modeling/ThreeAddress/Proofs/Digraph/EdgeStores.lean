import Mathlib.Data.List.Induction
import Mathlib.Order.Bounds.Basic
import ThreeAddress.Proofs.Digraph.Paths

/-!
# The three edge stores of a directed graph

A graph keeps its edges in one store and twice more by position, in the lists of
edges that leave and that enter each node.  Whatever is asked of a graph, refused
requests included, the three agree: an edge stands once in the list of the node
that it leaves and once in the list of the node that it enters, nowhere else, and
lists are in the order of the store.  So the neighbours of a node occur as often as
there are edges, and the first edge found between two nodes is the oldest.
-/

namespace ThreeAddress
namespace Digraph

variable {ν ε : Type}

/-! ## Histories -/

/-- A change that is asked of a graph. -/
inductive Request (ν ε : Type)
  | addNode (data : ν)
  | setNode (node : NodeId) (data : ν)
  | addEdge (source target : NodeId) (data : ε)

/-- The graph after a request.  A request that is refused leaves the graph as it
is. -/
def perform (g : Digraph ν ε) : Request ν ε → Digraph ν ε
  | .addNode data => g.addNode data
  | .setNode node data => g.setNode node data
  | .addEdge source target data =>
      (g.addEdge source target data).toOption.getD g

/-- The graph after some requests, from the one without nodes. -/
def history (requests : List (Request ν ε)) : Digraph ν ε :=
  requests.foldl perform empty

theorem history_concat
    (requests : List (Request ν ε)) (request : Request ν ε) :
    history (requests ++ [request]) = (history requests).perform request :=
  List.foldl_concat perform empty request requests

theorem perform_addEdge_of_error
    {g : Digraph ν ε} {source target : NodeId} {data : ε} {e : Error}
    (h : g.addEdge source target data = .error e) :
    g.perform (.addEdge source target data) = g := by
  rw [perform, h]
  rfl

theorem Grown.perform
    {g : Digraph ν ε} (hg : g.Grown) (request : Request ν ε) :
    (g.perform request).Grown := by
  cases request with
  | addNode data => exact hg.addNode data
  | setNode node data => exact hg.setNode node data
  | addEdge source target data =>
      cases hadd : g.addEdge source target data with
      | error e => rwa [perform_addEdge_of_error hadd]
      | ok h =>
          rw [Digraph.perform, hadd]
          exact hg.addEdge hadd

theorem grown_history (requests : List (Request ν ε)) :
    (history requests).Grown := by
  induction requests using List.reverseRecOn with
  | nil => exact .empty
  | append_singleton requests request ih =>
      rw [history_concat]
      exact ih.perform request

/-- An edge is refused for the first of its ends that the graph lacks. -/
theorem addEdge_eq_error_iff
    {g : Digraph ν ε} {source target : NodeId} {data : ε} {e : Error} :
    g.addEdge source target data = .error e ↔
      (g.nodeCount ≤ source ∧ e = .missingNode .source source g.nodeCount) ∨
        (source < g.nodeCount ∧ g.nodeCount ≤ target ∧
          e = .missingNode .target target g.nodeCount) := by
  by_cases hsource : source < g.nodeCount
  · by_cases htarget : target < g.nodeCount
    · simp [addEdge, checkNode, hsource, htarget, bind, Except.bind, pure,
        Except.pure]
    · simp [addEdge, checkNode, hsource, htarget, bind, Except.bind,
        Nat.le_of_not_lt htarget, eq_comm]
  · simp [addEdge, checkNode, hsource, bind, Except.bind,
      Nat.le_of_not_lt hsource, eq_comm]

theorem exists_addEdge_eq_error_iff
    {g : Digraph ν ε} {source target : NodeId} {data : ε} :
    (∃ e, g.addEdge source target data = .error e) ↔
      g.nodeCount ≤ source ∨ g.nodeCount ≤ target := by
  simp only [addEdge_eq_error_iff]
  constructor
  · rintro ⟨e, ⟨hsource, -⟩ | ⟨-, htarget, -⟩⟩
    · exact Or.inl hsource
    · exact Or.inr htarget
  · intro hlacks
    -- of two missing ends the source is named
    rcases Nat.lt_or_ge source g.nodeCount with hlt | hge
    · have htarget := hlacks.resolve_left (Nat.not_le_of_lt hlt)
      exact ⟨_, Or.inr ⟨hlt, htarget, rfl⟩⟩
    · exact ⟨_, Or.inl ⟨hge, rfl⟩⟩

/-! ## Listed edges -/

theorem pairwise_edgesWhere (g : Digraph ν ε) (test : Edge ε → Bool) :
    (g.edgesWhere test).Pairwise (· < ·) :=
  List.pairwise_lt_range.sublist List.filter_sublist

/-- An edge is listed once if it passes the test, and else not at all. -/
theorem count_edgesWhere
    (g : Digraph ν ε) (test : Edge ε → Bool) (e : EdgeId) :
    (g.edgesWhere test).count e = if (g.edge? e).any test then 1 else 0 := by
  have hnodup : (g.edgesWhere test).Nodup :=
    (pairwise_edgesWhere g test).imp Nat.ne_of_lt
  rw [hnodup.count]
  refine if_congr ?_ rfl rfl
  rw [mem_edgesWhere, Option.any_eq_true]

theorem filterMap_range_getElem? {α : Type} (xs : List α) :
    (List.range xs.length).filterMap (fun i => xs[i]?) = xs := by
  induction xs using List.reverseRecOn with
  | nil => rfl
  | append_singleton xs x ih =>
      have hold : ∀ i ∈ List.range xs.length, (xs ++ [x])[i]? = xs[i]? := by
        intro i hi
        exact List.getElem?_append_left (List.mem_range.mp hi)
      rw [List.length_append, List.length_singleton, List.range_succ,
        List.filterMap_append, List.filterMap_congr hold, ih]
      simp

/-- What the listed edges lead to, read off the edge store itself. -/
theorem filterMap_edgesWhere
    (g : Digraph ν ε) (test : Edge ε → Bool) (f : Edge ε → NodeId) :
    (g.edgesWhere test).filterMap (fun e => (g.edge? e).map f) =
      (g.edges.toList.filter test).map f := by
  have hstore : (List.range g.edgeCount).filterMap g.edge? =
      g.edges.toList := by
    have hread := filterMap_range_getElem? g.edges.toList
    simp only [Array.length_toList, Array.getElem?_toList] at hread
    exact hread
  rw [← hstore, List.filter_filterMap, List.map_filterMap, edgesWhere,
    List.filterMap_filter]
  refine List.filterMap_congr ?_
  intro e _
  cases g.edge? e with
  | none => simp
  | some edge => by_cases htest : test edge = true <;> simp [htest]

/-- The first member of an ascending list to pass a test is the least. -/
theorem find?_eq_some_iff_isLeast
    {xs : List Nat} (hxs : xs.Pairwise (· < ·)) {test : Nat → Bool} {x : Nat} :
    xs.find? test = some x ↔ IsLeast {y | y ∈ xs ∧ test y = true} x := by
  rw [List.find?_eq_some_iff_append]
  constructor
  · rintro ⟨htest, before, after, rfl, hbefore⟩
    rw [List.pairwise_append, List.pairwise_cons] at hxs
    refine ⟨⟨by simp, htest⟩, ?_⟩
    rintro y ⟨hy, hytest⟩
    rcases List.mem_append.mp hy with hearly | hlate
    · have hfails := hbefore y hearly
      simp [hytest] at hfails
    · rcases List.mem_cons.mp hlate with rfl | hlater
      · exact Nat.le_refl y
      · exact Nat.le_of_lt (hxs.2.1.1 y hlater)
  · rintro ⟨⟨hmem, htest⟩, hleast⟩
    obtain ⟨before, after, rfl⟩ := List.append_of_mem hmem
    refine ⟨htest, before, after, rfl, ?_⟩
    intro y hy
    have hlt : y < x :=
      (List.pairwise_append.mp hxs).2.2 y hy x List.mem_cons_self
    by_cases hytest : test y = true
    · have hle := hleast ⟨List.mem_append_left _ hy, hytest⟩
      omega
    · simp [hytest]

/-! ## Agreement -/

/-- The edges from one node to another. -/
def edgesBetween (g : Digraph ν ε) (u v : NodeId) : Set EdgeId :=
  {e | ∃ edge, g.edge? e = some edge ∧ edge.source = u ∧ edge.target = v}

/-- The edge store and the lists of the nodes say the same. -/
structure EdgesAgree (g : Digraph ν ε) : Prop where
  size_outgoing : g.outgoing.size = g.nodeCount
  size_incoming : g.incoming.size = g.nodeCount
  ends_lt : ∀ e edge, g.edge? e = some edge →
    edge.source < g.nodeCount ∧ edge.target < g.nodeCount
  /-- An edge stands once in the list of its source, and in no other. -/
  count_outEdges : ∀ u e, (g.outEdges u).count e =
    if (g.edge? e).any (·.source == u) then 1 else 0
  /-- An edge stands once in the list of its target, and in no other. -/
  count_inEdges : ∀ v e, (g.inEdges v).count e =
    if (g.edge? e).any (·.target == v) then 1 else 0
  ascending_outEdges : ∀ u, (g.outEdges u).Pairwise (· < ·)
  ascending_inEdges : ∀ v, (g.inEdges v).Pairwise (· < ·)
  /-- A node is a successor as often as edges lead to it. -/
  count_successors : ∀ u v, (g.successors u).count v =
    g.edges.countP fun edge => edge.source == u && edge.target == v
  /-- A node is a predecessor as often as edges come from it. -/
  count_predecessors : ∀ u v, (g.predecessors v).count u =
    g.edges.countP fun edge => edge.source == u && edge.target == v
  /-- The edge found is the oldest one. -/
  findEdge?_eq_some_iff : ∀ u v e,
    g.findEdge? u v = some e ↔ IsLeast (g.edgesBetween u v) e
  findEdge?_eq_none_iff : ∀ u v,
    g.findEdge? u v = none ↔ g.edgesBetween u v = ∅

theorem WellFormed.count_successors
    {g : Digraph ν ε} (hg : g.WellFormed) (u v : NodeId) :
    (g.successors u).count v =
      g.edges.countP fun edge => edge.source == u && edge.target == v := by
  rw [successors, hg.outEdges_eq, filterMap_edgesWhere, List.count,
    List.countP_map, List.countP_filter, Array.countP_toList]
  refine Array.countP_congr ?_
  intro edge _
  simp [Bool.and_comm]

theorem WellFormed.count_predecessors
    {g : Digraph ν ε} (hg : g.WellFormed) (u v : NodeId) :
    (g.predecessors v).count u =
      g.edges.countP fun edge => edge.source == u && edge.target == v := by
  rw [predecessors, hg.inEdges_eq, filterMap_edgesWhere, List.count,
    List.countP_map, List.countP_filter, Array.countP_toList]
  rfl

theorem WellFormed.mem_edgesBetween_iff
    {g : Digraph ν ε} (hg : g.WellFormed) {u v : NodeId} {e : EdgeId} :
    e ∈ g.edgesBetween u v ↔
      e ∈ g.outEdges u ∧
        ((g.edge? e).any fun edge => edge.target == v) = true := by
  rw [hg.outEdges_eq, mem_edgesWhere, Option.any_eq_true]
  constructor
  · rintro ⟨edge, hedge, hsource, htarget⟩
    exact ⟨⟨edge, hedge, beq_iff_eq.mpr hsource⟩, edge, hedge,
      beq_iff_eq.mpr htarget⟩
  · rintro ⟨⟨edge, hedge, hsource⟩, edge', hedge', htarget⟩
    obtain rfl : edge = edge' := Option.some.inj (hedge.symm.trans hedge')
    exact ⟨edge, hedge, beq_iff_eq.mp hsource, beq_iff_eq.mp htarget⟩

theorem WellFormed.findEdge?_eq_some_iff
    {g : Digraph ν ε} (hg : g.WellFormed) {u v : NodeId} {e : EdgeId} :
    g.findEdge? u v = some e ↔ IsLeast (g.edgesBetween u v) e := by
  have hascending : (g.outEdges u).Pairwise (· < ·) := by
    rw [hg.outEdges_eq]
    exact pairwise_edgesWhere g _
  rw [findEdge?, find?_eq_some_iff_isLeast hascending]
  have hset : {e | e ∈ g.outEdges u ∧
      ((g.edge? e).any fun edge => edge.target == v) = true} =
      g.edgesBetween u v :=
    Set.ext fun e => hg.mem_edgesBetween_iff.symm
  rw [hset]

theorem WellFormed.findEdge?_eq_none_iff
    {g : Digraph ν ε} (hg : g.WellFormed) {u v : NodeId} :
    g.findEdge? u v = none ↔ g.edgesBetween u v = ∅ := by
  rw [findEdge?, List.find?_eq_none, Set.eq_empty_iff_forall_notMem]
  constructor
  · intro hnone e he
    obtain ⟨hout, htarget⟩ := hg.mem_edgesBetween_iff.mp he
    exact hnone e hout htarget
  · intro hempty e hout htarget
    exact hempty e (hg.mem_edgesBetween_iff.mpr ⟨hout, htarget⟩)

theorem WellFormed.edgesAgree {g : Digraph ν ε} (hg : g.WellFormed) :
    g.EdgesAgree where
  size_outgoing := hg.size_outgoing
  size_incoming := hg.size_incoming
  ends_lt e edge hedge := hg.ends_lt edge (Array.mem_of_getElem? hedge)
  count_outEdges u e := by
    rw [hg.outEdges_eq, count_edgesWhere]
  count_inEdges v e := by
    rw [hg.inEdges_eq, count_edgesWhere]
  ascending_outEdges u := by
    rw [hg.outEdges_eq]
    exact pairwise_edgesWhere g _
  ascending_inEdges v := by
    rw [hg.inEdges_eq]
    exact pairwise_edgesWhere g _
  count_successors := hg.count_successors
  count_predecessors := hg.count_predecessors
  findEdge?_eq_some_iff u v e := hg.findEdge?_eq_some_iff
  findEdge?_eq_none_iff u v := hg.findEdge?_eq_none_iff

/-- After any requests the three edge stores agree.  A further edge is refused
exactly if the graph lacks one of its ends, and then leaves the graph as it is; an
edge that is taken is put at the end of the store. -/
theorem history_edges_agree (requests : List (Request ν ε)) :
    (history requests).EdgesAgree ∧
      ∀ source target data,
        ((∃ e, (history requests).addEdge source target data = .error e) ↔
          (history requests).nodeCount ≤ source ∨
            (history requests).nodeCount ≤ target) ∧
        ((∃ e, (history requests).addEdge source target data = .error e) →
          history (requests ++ [.addEdge source target data]) =
            history requests) ∧
        ∀ h, (history requests).addEdge source target data = .ok h →
          history (requests ++ [.addEdge source target data]) = h ∧
            h.nodes = (history requests).nodes ∧
            h.edges = (history requests).edges.push ⟨source, target, data⟩ := by
  refine ⟨(grown_history requests).wellFormed.edgesAgree, ?_⟩
  intro source target data
  refine ⟨exists_addEdge_eq_error_iff, ?_, ?_⟩
  · rintro ⟨e, herror⟩
    rw [history_concat, perform_addEdge_of_error herror]
  · intro h hadd
    refine ⟨?_, ?_⟩
    · rw [history_concat, perform, hadd]
      rfl
    · obtain ⟨-, -, rfl⟩ := addEdge_eq_ok_iff.mp hadd
      exact ⟨rfl, rfl⟩

example :
    (history (ν := Unit) [.addNode (), .addEdge 0 1 (), .addNode (),
      .addEdge 0 1 (), .addEdge 1 1 (), .addEdge 0 1 ()]).successors 0 =
      [1, 1] := by
  decide

end Digraph
end ThreeAddress
