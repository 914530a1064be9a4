import Mathlib.Data.List.Nodup
import Mathlib.Data.List.Perm.Subperm
import ThreeAddress.Digraph.Basic

/-!
# Edge lists and paths of a directed graph

Every node of a graph lists exactly the edges of the edge store that leave or
enter it, in the order of the store.  Hence the successors and predecessors of
a node say what the edge store says, and paths can be stated on the edge store
alone.
-/

namespace ThreeAddress
namespace Digraph

variable {ν ε : Type}

/-- The graphs that arise from the empty one by adding nodes and edges and by
replacing the data of nodes. -/
inductive Grown : Digraph ν ε → Prop
  | empty : Grown empty
  | addNode {g : Digraph ν ε} (data : ν) : Grown g → Grown (g.addNode data)
  | setNode {g : Digraph ν ε} (node : NodeId) (data : ν) :
      Grown g → Grown (g.setNode node data)
  | addEdge {g h : Digraph ν ε} {source target : NodeId} {data : ε} :
      Grown g → g.addEdge source target data = .ok h → Grown h

/-- The positions of the edges that pass a test, oldest first. -/
def edgesWhere (g : Digraph ν ε) (test : Edge ε → Bool) : List EdgeId :=
  (List.range g.edgeCount).filter fun e => (g.edge? e).any test

/-- Every node lists its own edges, and no edge leaves the graph. -/
structure WellFormed (g : Digraph ν ε) : Prop where
  size_outgoing : g.outgoing.size = g.nodeCount
  size_incoming : g.incoming.size = g.nodeCount
  ends_lt : ∀ e ∈ g.edges, e.source < g.nodeCount ∧ e.target < g.nodeCount
  outEdges_eq : ∀ node, g.outEdges node = g.edgesWhere (·.source == node)
  inEdges_eq : ∀ node, g.inEdges node = g.edgesWhere (·.target == node)

theorem mem_edgesWhere
    {g : Digraph ν ε} {test : Edge ε → Bool} {e : EdgeId} :
    e ∈ g.edgesWhere test ↔ ∃ edge, g.edge? e = some edge ∧ test edge = true := by
  rw [edgesWhere, List.mem_filter, List.mem_range, Option.any_eq_true]
  constructor
  · rintro ⟨-, hedge⟩
    exact hedge
  · rintro ⟨edge, hedge, htest⟩
    exact ⟨(Array.getElem?_eq_some_iff.mp hedge).1, edge, hedge, htest⟩

theorem wellFormed_empty : WellFormed (empty : Digraph ν ε) where
  size_outgoing := rfl
  size_incoming := rfl
  ends_lt e he := absurd he (Array.not_mem_empty e)
  outEdges_eq _ := rfl
  inEdges_eq _ := rfl

theorem getD_push_nil (xs : Array (List EdgeId)) (node : NodeId) :
    (xs.push []).getD node [] = xs.getD node [] := by
  simp only [Array.getD_eq_getD_getElem?, Array.getElem?_push]
  split
  · next h => simp [h]
  · rfl

theorem WellFormed.addNode
    {g : Digraph ν ε} (hg : g.WellFormed) (data : ν) :
    (g.addNode data).WellFormed := by
  have hcount : (g.addNode data).nodeCount = g.nodeCount + 1 := by
    simp [nodeCount, Digraph.addNode]
  refine ⟨?_, ?_, ?_, ?_, ?_⟩
  · rw [hcount, ← hg.size_outgoing]
    exact Array.size_push []
  · rw [hcount, ← hg.size_incoming]
    exact Array.size_push []
  · intro e he
    obtain ⟨hsource, htarget⟩ := hg.ends_lt e he
    rw [hcount]
    exact ⟨Nat.lt_succ_of_lt hsource, Nat.lt_succ_of_lt htarget⟩
  · intro node
    exact (getD_push_nil g.outgoing node).trans (hg.outEdges_eq node)
  · intro node
    exact (getD_push_nil g.incoming node).trans (hg.inEdges_eq node)

/-- Replacing the data of all nodes leaves the edges as they are. -/
theorem WellFormed.of_nodes
    {ν' : Type} {g : Digraph ν ε} (hg : g.WellFormed) {nodes : Array ν'}
    (hsize : nodes.size = g.nodeCount) :
    WellFormed (ν := ν') ⟨nodes, g.edges, g.outgoing, g.incoming⟩ where
  size_outgoing := hg.size_outgoing.trans hsize.symm
  size_incoming := hg.size_incoming.trans hsize.symm
  ends_lt e he := by
    have hcount : nodeCount (ν := ν')
        ⟨nodes, g.edges, g.outgoing, g.incoming⟩ = g.nodeCount := hsize
    rw [hcount]
    exact hg.ends_lt e he
  outEdges_eq node := hg.outEdges_eq node
  inEdges_eq node := hg.inEdges_eq node

/-- What a successful addition of an edge does. -/
theorem addEdge_eq_ok_iff
    {g h : Digraph ν ε} {source target : NodeId} {data : ε} :
    g.addEdge source target data = .ok h ↔
      source < g.nodeCount ∧ target < g.nodeCount ∧
        h = { g with
          edges := g.edges.push ⟨source, target, data⟩
          outgoing := g.outgoing.modify source (· ++ [g.edgeCount])
          incoming := g.incoming.modify target (· ++ [g.edgeCount]) } := by
  by_cases hsource : source < g.nodeCount
  · by_cases htarget : target < g.nodeCount
    · simp [addEdge, checkNode, hsource, htarget, bind, Except.bind, pure,
        Except.pure, eq_comm]
    · simp [addEdge, checkNode, hsource, htarget, bind, Except.bind]
  · simp [addEdge, checkNode, hsource, bind, Except.bind]

theorem getD_modify_append
    {xs : Array (List EdgeId)} {i : Nat} (hi : i < xs.size) (e : EdgeId)
    (node : NodeId) :
    (xs.modify i (· ++ [e])).getD node [] =
      xs.getD node [] ++ if i == node then [e] else [] := by
  by_cases h : i = node
  · subst h
    simp [hi, Array.getElem_modify]
  · by_cases hnode : node < xs.size
    · simp [h, hnode, Array.getElem_modify]
    · simp [h, hnode]

theorem edgesWhere_push
    {g h : Digraph ν ε} {edge : Edge ε} (hedges : h.edges = g.edges.push edge)
    (test : Edge ε → Bool) :
    h.edgesWhere test =
      g.edgesWhere test ++ if test edge then [g.edgeCount] else [] := by
  have hcount : h.edgeCount = g.edgeCount + 1 := by
    simp [edgeCount, hedges]
  have hold : ∀ e ∈ List.range g.edgeCount,
      (h.edge? e).any test = (g.edge? e).any test := by
    intro e he
    have hne : e ≠ g.edges.size := Nat.ne_of_lt (List.mem_range.mp he)
    simp [edge?, hedges, Array.getElem?_push, hne]
  have hnew : h.edge? g.edgeCount = some edge := by
    simp [edge?, hedges, edgeCount]
  rw [edgesWhere, hcount, List.range_succ, List.filter_append,
    List.filter_congr hold]
  simp only [List.filter_cons, List.filter_nil, hnew, Option.any_some]
  rfl

theorem WellFormed.addEdge
    {g h : Digraph ν ε} {source target : NodeId} {data : ε}
    (hg : g.WellFormed) (hadd : g.addEdge source target data = .ok h) :
    h.WellFormed := by
  obtain ⟨hsource, htarget, rfl⟩ := addEdge_eq_ok_iff.mp hadd
  refine ⟨?_, ?_, ?_, ?_, ?_⟩
  · simpa [nodeCount] using hg.size_outgoing
  · simpa [nodeCount] using hg.size_incoming
  · intro e he
    rcases Array.mem_push.mp he with hold | rfl
    · exact hg.ends_lt e hold
    · exact ⟨hsource, htarget⟩
  · intro node
    rw [edgesWhere_push rfl, ← hg.outEdges_eq]
    exact getD_modify_append (hg.size_outgoing ▸ hsource) _ node
  · intro node
    rw [edgesWhere_push rfl, ← hg.inEdges_eq]
    exact getD_modify_append (hg.size_incoming ▸ htarget) _ node

theorem Grown.wellFormed {g : Digraph ν ε} (hg : g.Grown) : g.WellFormed := by
  induction hg with
  | empty => exact wellFormed_empty
  | addNode data _ ih => exact ih.addNode data
  | setNode node data _ ih => exact ih.of_nodes (by simp [nodeCount])
  | addEdge _ hadd ih => exact ih.addEdge hadd

theorem Grown.foldl_addNode
    {g : Digraph ν ε} (hg : g.Grown) (nodes : List ν) :
    (nodes.foldl Digraph.addNode g).Grown := by
  induction nodes generalizing g with
  | nil => exact hg
  | cons data rest ih => exact ih (hg.addNode data)

theorem Grown.foldlM_addEdge
    {g h : Digraph ν ε} {pairs : List (NodeId × NodeId)} {data : ε}
    (hg : g.Grown)
    (hedges : pairs.foldlM
      (fun g pair => g.addEdge pair.1 pair.2 data) g = .ok h) :
    h.Grown := by
  induction pairs generalizing g with
  | nil => exact Except.ok.inj hedges ▸ hg
  | cons pair rest ih =>
      rw [List.foldlM_cons, bind_eq_ok_iff] at hedges
      obtain ⟨next, hnext, hrest⟩ := hedges
      exact ih (hg.addEdge hnext) hrest

/-- The graph over `n` bare nodes with the given edges, added in order. -/
def ofPairs
    (n : Nat) (pairs : List (NodeId × NodeId)) :
    Except Error (Digraph Unit Unit) :=
  pairs.foldlM (fun g pair => g.addEdge pair.1 pair.2 ())
    ((List.replicate n ()).foldl Digraph.addNode empty)

theorem grown_of_ofPairs
    {n : Nat} {pairs : List (NodeId × NodeId)} {g : Digraph Unit Unit}
    (h : ofPairs n pairs = .ok g) :
    g.Grown :=
  (Grown.empty.foldl_addNode _).foldlM_addEdge h

/-- Some edge of the graph leads from one node to another. -/
def Adjacent (g : Digraph ν ε) (u v : NodeId) : Prop :=
  ∃ e ∈ g.edges, e.source = u ∧ e.target = v

theorem adjacent_addEdge_iff
    {g h : Digraph ν ε} {source target : NodeId} {data : ε}
    (hadd : g.addEdge source target data = .ok h) {u v : NodeId} :
    h.Adjacent u v ↔ g.Adjacent u v ∨ (u = source ∧ v = target) := by
  obtain ⟨-, -, rfl⟩ := addEdge_eq_ok_iff.mp hadd
  simp only [Adjacent, Array.mem_push]
  constructor
  · rintro ⟨e, hold | rfl, hu, hv⟩
    · exact Or.inl ⟨e, hold, hu, hv⟩
    · exact Or.inr ⟨hu.symm, hv.symm⟩
  · rintro (⟨e, hold, hu, hv⟩ | ⟨rfl, rfl⟩)
    · exact ⟨e, Or.inl hold, hu, hv⟩
    · exact ⟨_, Or.inr rfl, rfl, rfl⟩

theorem mem_filterMap_edgesWhere
    {g : Digraph ν ε} {test : Edge ε → Bool} {f : Edge ε → NodeId}
    {node : NodeId} :
    node ∈ (g.edgesWhere test).filterMap (fun e => (g.edge? e).map f) ↔
      ∃ edge ∈ g.edges, test edge = true ∧ f edge = node := by
  simp only [List.mem_filterMap, mem_edgesWhere, Option.map_eq_some_iff]
  constructor
  · rintro ⟨e, ⟨edge, hedge, htest⟩, edge', hedge', rfl⟩
    obtain rfl : edge = edge' := Option.some.inj (hedge.symm.trans hedge')
    exact ⟨edge, Array.mem_of_getElem? hedge, htest, rfl⟩
  · rintro ⟨edge, hedge, htest, rfl⟩
    obtain ⟨e, he⟩ := Array.mem_iff_getElem?.mp hedge
    exact ⟨e, ⟨edge, he, htest⟩, edge, he, rfl⟩

theorem WellFormed.mem_successors
    {g : Digraph ν ε} (hg : g.WellFormed) {u v : NodeId} :
    v ∈ g.successors u ↔ g.Adjacent u v := by
  rw [successors, hg.outEdges_eq, mem_filterMap_edgesWhere]
  simp only [beq_iff_eq, Adjacent]

theorem WellFormed.mem_predecessors
    {g : Digraph ν ε} (hg : g.WellFormed) {u v : NodeId} :
    u ∈ g.predecessors v ↔ g.Adjacent u v := by
  rw [predecessors, hg.inEdges_eq, mem_filterMap_edgesWhere]
  simp only [beq_iff_eq, Adjacent, and_comm]

theorem WellFormed.lt_of_adjacent
    {g : Digraph ν ε} (hg : g.WellFormed) {u v : NodeId}
    (h : g.Adjacent u v) :
    u < g.nodeCount ∧ v < g.nodeCount := by
  obtain ⟨e, he, rfl, rfl⟩ := h
  exact hg.ends_lt e he

/-- The nodes met on a way along edges from `start` to a node, both ends
included. -/
inductive Path (g : Digraph ν ε) (start : NodeId) : NodeId → List NodeId → Prop
  | single : start < g.nodeCount → Path g start start [start]
  | extend {u v : NodeId} {nodes : List NodeId} :
      Path g start u nodes → g.Adjacent u v → Path g start v (nodes ++ [v])

/-- Some path leads from `start` to a node. -/
def Reaches (g : Digraph ν ε) (start node : NodeId) : Prop :=
  ∃ nodes, g.Path start node nodes

theorem Path.target_mem
    {g : Digraph ν ε} {start node : NodeId} {nodes : List NodeId}
    (h : g.Path start node nodes) :
    node ∈ nodes := by
  cases h with
  | single => exact List.mem_singleton_self _
  | extend => exact List.mem_append_right _ (List.mem_singleton_self _)

theorem Path.start_mem
    {g : Digraph ν ε} {start node : NodeId} {nodes : List NodeId}
    (h : g.Path start node nodes) :
    start ∈ nodes := by
  induction h with
  | single => exact List.mem_singleton_self _
  | extend _ _ ih => exact List.mem_append_left _ ih

theorem Path.start_lt
    {g : Digraph ν ε} {start node : NodeId} {nodes : List NodeId}
    (h : g.Path start node nodes) :
    start < g.nodeCount := by
  induction h with
  | single hstart => exact hstart
  | extend _ _ ih => exact ih

/-- A path can be cut short at any node that it meets. -/
theorem Path.cut
    {g : Digraph ν ε} {start node middle : NodeId} {nodes : List NodeId}
    (h : g.Path start node nodes) (hmem : middle ∈ nodes) :
    ∃ part, part <+: nodes ∧ g.Path start middle part := by
  induction h with
  | single hstart =>
      obtain rfl := List.mem_singleton.mp hmem
      exact ⟨[middle], List.prefix_refl _, .single hstart⟩
  | @extend u v nodes hpath hadj ih =>
      rcases List.mem_append.mp hmem with hold | hnew
      · obtain ⟨part, hpart, hcut⟩ := ih hold
        exact ⟨part, hpart.trans (List.prefix_append _ _), hcut⟩
      · obtain rfl := List.mem_singleton.mp hnew
        exact ⟨nodes ++ [middle], List.prefix_refl _, hpath.extend hadj⟩

theorem Path.reaches_of_mem
    {g : Digraph ν ε} {start node middle : NodeId} {nodes : List NodeId}
    (h : g.Path start node nodes) (hmem : middle ∈ nodes) :
    g.Reaches start middle := by
  obtain ⟨part, -, hpart⟩ := h.cut hmem
  exact ⟨part, hpart⟩

/-- Leaving out the loops of a path meets no new nodes. -/
theorem Path.exists_nodup
    {g : Digraph ν ε} {start node : NodeId} {nodes : List NodeId}
    (h : g.Path start node nodes) :
    ∃ part, part.Nodup ∧ part ⊆ nodes ∧ g.Path start node part := by
  induction h with
  | single hstart =>
      exact ⟨[start], List.nodup_singleton start, fun _ hx => hx,
        .single hstart⟩
  | @extend u v nodes _ hadj ih =>
      obtain ⟨part, hnodup, hsub, hpath⟩ := ih
      by_cases hmem : v ∈ part
      · obtain ⟨short, hshort, hcut⟩ := hpath.cut hmem
        refine ⟨short, hshort.sublist.nodup hnodup, ?_, hcut⟩
        intro x hx
        exact List.mem_append_left _ (hsub (hshort.subset hx))
      · refine ⟨part ++ [v], ?_, ?_, hpath.extend hadj⟩
        · rw [List.nodup_append]
          refine ⟨hnodup, List.nodup_singleton v, ?_⟩
          rintro x hx y hy rfl
          exact hmem (List.mem_singleton.mp hy ▸ hx)
        · intro x hx
          rcases List.mem_append.mp hx with hold | hnew
          · exact List.mem_append_left _ (hsub hold)
          · exact List.mem_append_right _ hnew

theorem Reaches.start_lt
    {g : Digraph ν ε} {start node : NodeId} (h : g.Reaches start node) :
    start < g.nodeCount := by
  obtain ⟨nodes, hpath⟩ := h
  exact hpath.start_lt

theorem Reaches.of_adjacent
    {g : Digraph ν ε} {start u v : NodeId} (h : g.Reaches start u)
    (hadj : g.Adjacent u v) :
    g.Reaches start v := by
  obtain ⟨nodes, hpath⟩ := h
  exact ⟨nodes ++ [v], hpath.extend hadj⟩

theorem WellFormed.lt_of_reaches
    {g : Digraph ν ε} (hg : g.WellFormed) {start node : NodeId}
    (h : g.Reaches start node) :
    node < g.nodeCount := by
  obtain ⟨nodes, hpath⟩ := h
  cases hpath with
  | single hstart => exact hstart
  | extend _ hadj => exact (hg.lt_of_adjacent hadj).2

/-- A path without loops is no longer than the graph has nodes. -/
theorem WellFormed.length_le_of_nodup
    {g : Digraph ν ε} (hg : g.WellFormed) {start node : NodeId}
    {nodes : List NodeId} (hpath : g.Path start node nodes)
    (hnodup : nodes.Nodup) :
    nodes.length ≤ g.nodeCount := by
  have hsub : nodes ⊆ List.range g.nodeCount := by
    intro x hx
    exact List.mem_range.mpr (hg.lt_of_reaches (hpath.reaches_of_mem hx))
  simpa using (List.subperm_of_subset hnodup hsub).length_le

end Digraph
end ThreeAddress
