import ThreeAddress.FlowGraph.Structure
import ThreeAddress.Proofs.Digraph.BackEdges
import ThreeAddress.Proofs.Digraph.Dominance
import ThreeAddress.Proofs.FlowGraph.Layout

/-!
# Reducible flow graphs

The test for reducibility looks at the back edges of one depth-first search.
Its answer does not depend on the search: it says whether the blocks in reach of
the entry form a cycle of edges none of which leads to a dominator of its
source.  Tree edges never lead to a dominator of their source, so a back edge
that does not either closes such a cycle with the tree edges above it.  Any other
edge leads to a block that the search left earlier, so a cycle has a back edge.
-/

namespace ThreeAddress

section Edges

variable {ν ε : Type} {g h : Digraph ν ε} {entry : NodeId}

namespace Digraph

/-- Some edge between nodes in reach of the entry leads from `u` to `v`, and `v`
does not dominate `u`. -/
def Forward (g : Digraph ν ε) (entry u v : NodeId) : Prop :=
  g.Reaches entry u ∧ g.Adjacent u v ∧ ¬ Dominators.OnEveryPath g entry v u

/-- Without the edges to a dominator of their source, the nodes in reach of the
entry form no cycle. -/
def ForwardAcyclic (g : Digraph ν ε) (entry : NodeId) : Prop :=
  ∀ u, ¬ Relation.TransGen (g.Forward entry) u u

/-- Both graphs have an entry, and the same edges leave the nodes that the first
one reaches from it. -/
structure SameFrom (g h : Digraph ν ε) (entry : NodeId) : Prop where
  entry_lt : entry < h.nodeCount
  adjacent_iff : ∀ u v, g.Reaches entry u → (h.Adjacent u v ↔ g.Adjacent u v)

theorem SameFrom.path_iff
    (hsame : SameFrom g h entry) (hentry : entry < g.nodeCount) {node : NodeId}
    {nodes : List NodeId} :
    h.Path entry node nodes ↔ g.Path entry node nodes := by
  constructor
  · intro hpath
    induction hpath with
    | single => exact .single hentry
    | extend _ hadj ih =>
        exact ih.extend ((hsame.adjacent_iff _ _ ⟨_, ih⟩).mp hadj)
  · intro hpath
    induction hpath with
    | single => exact .single hsame.entry_lt
    | extend hbefore hadj ih =>
        exact ih.extend ((hsame.adjacent_iff _ _ ⟨_, hbefore⟩).mpr hadj)

theorem SameFrom.forwardAcyclic_iff
    (hsame : SameFrom g h entry) (hentry : entry < g.nodeCount) :
    h.ForwardAcyclic entry ↔ g.ForwardAcyclic entry := by
  have hreaches : ∀ u, h.Reaches entry u ↔ g.Reaches entry u := by
    intro u
    simp only [Reaches, hsame.path_iff hentry]
  have hforward : h.Forward entry = g.Forward entry := by
    funext u v
    simp only [Forward, Dominators.OnEveryPath, hreaches, hsame.path_iff hentry]
    rw [eq_iff_iff]
    refine and_congr_right ?_
    intro hu
    rw [hsame.adjacent_iff u v hu]
  rw [ForwardAcyclic, hforward, ForwardAcyclic]

end Digraph

namespace SpanningTree

theorem mem_edgesOf {t : SpanningTree} {c : EdgeClass} {edge : EdgeId} :
    edge ∈ t.edgesOf g c ↔
      ∃ e, g.edge? edge = some e ∧ t.classOf edge e = c := by
  simp [edgesOf, classes, List.mem_filterMap, List.mk_mem_zipIdx_iff_getElem?,
    Digraph.edge?]

/-- A tree edge does not lead to a dominator of its source. -/
theorem Grows.forward_of_tree
    {t : SpanningTree} (ht : Grows g entry [] t) {u v : NodeId}
    (huv : t.Tree g u v) :
    g.Forward entry u v := by
  obtain ⟨nodes, hpath, hout⟩ := ht.exists_path_of_tree huv
  exact ⟨⟨nodes, hpath⟩, adjacent_of_tree huv, fun hall => hout (hall nodes hpath)⟩

end SpanningTree

end Edges

namespace FlowGraph

variable {g : FlowGraph}

theorem mem_backEdges {u v : NodeId} :
    (u, v) ∈ g.backEdges ↔
      ∃ edge e, g.graph.edge? edge = some e ∧
        g.spanningTree.classOf edge e = .back ∧ e.source = u ∧ e.target = v := by
  simp only [backEdges, List.mem_filterMap, SpanningTree.mem_edgesOf,
    Option.map_eq_some_iff, Prod.mk.injEq]
  constructor
  · rintro ⟨edge, ⟨e, he, hclass⟩, e', he', hu, hv⟩
    obtain rfl := Option.some.inj (he.symm.trans he')
    exact ⟨edge, e, he, hclass, hu, hv⟩
  · rintro ⟨edge, e, he, hclass, hu, hv⟩
    exact ⟨edge, ⟨e, he, hclass⟩, e, he, hu, hv⟩

theorem isReducible_iff_forall_backEdges :
    g.isReducible = true ↔
      ∀ u v, (u, v) ∈ g.backEdges → g.dominators.dominates v u = true := by
  simp [isReducible, List.all_eq_true]

section Search

variable (hg : g.graph.WellFormed) (hentry : entry < g.blockCount)

include hg hentry

theorem grows_spanningTree :
    SpanningTree.Grows g.graph entry [] g.spanningTree :=
  SpanningTree.grows_ofGraph hg hentry

/-- The ends of a back edge are joined by an edge, and the tree leads from its
target down to its source. -/
theorem of_mem_backEdges {u v : NodeId} (h : (u, v) ∈ g.backEdges) :
    g.graph.Reaches entry u ∧ g.graph.Adjacent u v ∧
      g.spanningTree.Descends g.graph v u := by
  have hgrows := grows_spanningTree hg hentry
  obtain ⟨edge, e, he, hclass, rfl, rfl⟩ := mem_backEdges.mp h
  obtain ⟨-, hancestor⟩ := SpanningTree.classOf_eq_back_iff.mp hclass
  obtain ⟨hentered, hbelow⟩ := hgrows.isAncestor_iff.mp hancestor
  exact ⟨hgrows.entered_iff_reaches.mp hentered,
    ⟨e, Array.mem_of_getElem? he, rfl, rfl⟩, hbelow⟩

/-- Every other edge leads to a block that the search left earlier. -/
theorem mem_backEdges_or_outlasts
    {u v : NodeId} (hu : g.graph.Reaches entry u)
    (hadj : g.graph.Adjacent u v) :
    (u, v) ∈ g.backEdges ∨ g.spanningTree.Outlasts u v := by
  have hgrows := grows_spanningTree hg hentry
  obtain ⟨e, he, rfl, rfl⟩ := hadj
  obtain ⟨edge, hedge⟩ := Array.mem_iff_getElem?.mp he
  by_cases hlater : g.spanningTree.Outlasts e.source e.target
  · exact Or.inr hlater
  · exact Or.inl (mem_backEdges.mpr ⟨edge, e, hedge,
      (hgrows.classOf_eq_back_iff_not_outlasts hedge hu).mpr hlater, rfl, rfl⟩)

theorem forwardAcyclic_of_isReducible (h : g.isReducible = true) :
    g.graph.ForwardAcyclic entry := by
  rw [isReducible_iff_forall_backEdges] at h
  -- the edges that are kept lead to blocks left earlier
  refine SpanningTree.not_transGen_of_outlasts (t := g.spanningTree) ?_
  rintro u v ⟨hu, hadj, hdom⟩
  rcases mem_backEdges_or_outlasts hg hentry hu hadj with hback | hlater
  · exact absurd ((Dominators.dominates_ofGraph hg hu).mp (h u v hback)) hdom
  · exact hlater

theorem isReducible_of_forwardAcyclic
    (h : g.graph.ForwardAcyclic entry) :
    g.isReducible = true := by
  have hgrows := grows_spanningTree hg hentry
  rw [isReducible_iff_forall_backEdges]
  intro u v hback
  obtain ⟨hu, hadj, hdescends⟩ := of_mem_backEdges hg hentry hback
  refine (Dominators.dominates_ofGraph hg hu).mpr ?_
  by_contra hdom
  have hdown : Relation.ReflTransGen (g.graph.Forward entry) v u :=
    Relation.ReflTransGen.mono (fun a b => hgrows.forward_of_tree) _ _ hdescends
  exact h v (.tail' hdown ⟨hu, hadj, hdom⟩)

theorem isReducible_iff_forwardAcyclic :
    g.isReducible = true ↔ g.graph.ForwardAcyclic entry :=
  ⟨forwardAcyclic_of_isReducible hg hentry,
    isReducible_of_forwardAcyclic hg hentry⟩

end Search

/-- A flow graph is reducible exactly if the blocks in reach of the entry form
no cycle once every edge to a dominator of its source is left out.  So the answer
is the same for all graphs in which the same edges leave these blocks, in
whatever order they were added and whatever other blocks there are. -/
theorem isReducible_iff_acyclic
    {p : Program} {g : FlowGraph}
    (hg : ofProgram p = .ok g ∨ ∃ blocks, ofBlocks p blocks = .ok g) :
    (g.isReducible = true ↔ g.graph.ForwardAcyclic entry) ∧
      ∀ h : FlowGraph, h.graph.WellFormed →
        Digraph.SameFrom g.graph h.graph entry →
        h.isReducible = g.isReducible := by
  obtain ⟨hwf, hentry⟩ : g.graph.WellFormed ∧ entry < g.blockCount := by
    rcases hg with hg | ⟨blocks, hg⟩
    · exact ⟨(spans_of_ofProgram hg).wellFormed, entry_lt_of_ofProgram hg⟩
    · exact ⟨(spans_of_ofBlocks hg).wellFormed, entry_lt_of_ofBlocks hg⟩
  have hverdict := isReducible_iff_forwardAcyclic hwf hentry
  refine ⟨hverdict, ?_⟩
  intro h hh hsame
  rw [Bool.eq_iff_iff, isReducible_iff_forwardAcyclic hh hsame.entry_lt,
    hsame.forwardAcyclic_iff hentry, hverdict]

/-- A loop that can be entered at either of its two blocks, and a block after
it. -/
def twoEntries : Program where
  instrs := #[
    ⟨⟨0⟩, false, .branch (.var ⟨0⟩) ⟨2⟩⟩,
    ⟨⟨1⟩, true, .nop⟩,
    ⟨⟨2⟩, true, .branch (.var ⟨0⟩) ⟨1⟩⟩,
    ⟨⟨3⟩, true, .goto ⟨3⟩⟩]
  names := #["x"]

/-- The same, with a block out of reach that leads into the loop. -/
def twoEntriesAndMore : Program where
  instrs := twoEntries.instrs.push ⟨⟨4⟩, false, .goto ⟨1⟩⟩
  names := #["x"]

/-- The ends of the edges, in edge order. -/
def ends (g : FlowGraph) : List (NodeId × NodeId) :=
  g.graph.edges.toList.map fun e => (e.source, e.target)

theorem adjacent_iff_mem_ends {u v : NodeId} :
    g.graph.Adjacent u v ↔ (u, v) ∈ g.ends := by
  simp [Digraph.Adjacent, ends]

theorem isReducible_iff_acyclic_twoEntries :
    ∃ g h : FlowGraph,
      ofProgram twoEntries = .ok g ∧ ofProgram twoEntriesAndMore = .ok h ∧
        Digraph.SameFrom g.graph h.graph entry ∧
        ¬ g.graph.ForwardAcyclic entry ∧ h.isReducible = false := by
  obtain ⟨g, hg⟩ : ∃ g, ofProgram twoEntries = .ok g :=
    exists_ofProgram (by decide) (by decide) (by decide)
  obtain ⟨h, hh⟩ : ∃ h, ofProgram twoEntriesAndMore = .ok h :=
    exists_ofProgram (by decide) (by decide) (by decide)
  have hgends : (ofProgram twoEntries).map ends =
      .ok [(0, 2), (0, 1), (1, 2), (2, 1), (2, 3), (3, 3)] := by
    decide +kernel
  have hhends : (ofProgram twoEntriesAndMore).map ends =
      .ok [(0, 2), (0, 1), (1, 2), (2, 1), (2, 3), (3, 3), (4, 1)] := by
    decide +kernel
  rw [hg] at hgends
  rw [hh] at hhends
  replace hgends := Except.ok.inj hgends
  replace hhends := Except.ok.inj hhends
  have hwf := (spans_of_ofProgram hg).wellFormed
  have hwf' := (spans_of_ofProgram hh).wellFormed
  have hentry := entry_lt_of_ofProgram hg
  have hcount : g.blockCount = 4 := by
    rw [(spans_of_ofProgram hg).blockCount_eq]
    decide
  have hsame : Digraph.SameFrom g.graph h.graph entry := by
    refine ⟨entry_lt_of_ofProgram hh, ?_⟩
    intro u v hu
    have hlt : u < 4 := hcount ▸ hwf.lt_of_reaches hu
    have hne : u ≠ 4 := Nat.ne_of_lt hlt
    rw [adjacent_iff_mem_ends, adjacent_iff_mem_ends, hgends, hhends]
    simp [hne]
  have hadj : ∀ u v, (u, v) ∈ [(0, 2), (0, 1), (1, 2), (2, 1), (2, 3), (3, 3)] →
      g.graph.Adjacent u v := by
    intro u v huv
    rw [adjacent_iff_mem_ends, hgends]
    exact huv
  have hone : g.graph.Path entry 1 [0, 1] :=
    .extend (.single hentry) (hadj 0 1 (by decide))
  have htwo : g.graph.Path entry 2 [0, 2] :=
    .extend (.single hentry) (hadj 0 2 (by decide))
  have hcycle : ¬ g.graph.ForwardAcyclic entry := by
    intro hacyclic
    refine hacyclic 1 (.tail (.single (b := 2) ?_) ?_)
    · exact ⟨⟨_, hone⟩, hadj 1 2 (by decide), fun hall => by
        simpa using hall _ hone⟩
    · exact ⟨⟨_, htwo⟩, hadj 2 1 (by decide), fun hall => by
        simpa using hall _ htwo⟩
  obtain ⟨hverdict, hother⟩ := isReducible_iff_acyclic (Or.inl hg)
  refine ⟨g, h, hg, hh, hsame, hcycle, ?_⟩
  rw [hother h hwf' hsame, Bool.eq_false_iff]
  exact mt hverdict.mp hcycle

end FlowGraph
end ThreeAddress
