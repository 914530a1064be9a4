import Mathlib.Data.Set.Card
import ThreeAddress.Proofs.Digraph.SearchOrders

/-!
# The spanning tree of a depth-first search

The edges through which the search enters nodes form a tree over the nodes that
the entry reaches: each of these but the entry is entered through exactly one
edge, which comes from its parent.  Of two nodes of the tree, one lies above the
other exactly if it is entered no later and left no earlier.  The classes of the
edges say which of them belong to the tree and which lead up in it.
-/

namespace ThreeAddress

/-- Exactly the given nodes have a number, and each number below their count is
the number of one of them. -/
structure Numbers
    (number : NodeId → Option Nat) (nodes : Set NodeId) : Prop where
  isSome_iff : ∀ u, (number u).isSome = true ↔ u ∈ nodes
  bijOn : Set.BijOn number nodes (some '' Set.Iio nodes.ncard)

/-- The nodes of a list that enumerates the numbers have the numbers below its
length. -/
theorem Enumerates.numbers
    {order : List NodeId} {number : NodeId → Option Nat} {nodes : Set NodeId}
    (h : Enumerates order number) (hnodes : ∀ u, u ∈ order ↔ u ∈ nodes) :
    Numbers number nodes := by
  have hcount : nodes.ncard = order.length := by
    have hset : nodes = (order.toFinset : Set NodeId) := by
      ext u
      simp [hnodes]
    rw [hset, Set.ncard_coe_finset, List.toFinset_card_of_nodup h.nodup]
  refine ⟨?_, ?_, ?_, ?_⟩
  · intro u
    rw [Option.isSome_iff_exists, ← h.mem_iff, hnodes]
  · intro u hu
    obtain ⟨k, hk⟩ := h.mem_iff.mp ((hnodes u).mpr hu)
    have hlt := (List.getElem?_eq_some_iff.mp ((h u k).mpr hk)).1
    exact ⟨k, hcount ▸ hlt, hk.symm⟩
  · intro u hu v _ huv
    obtain ⟨k, hk⟩ := h.mem_iff.mp ((hnodes u).mpr hu)
    have hsame := (h u k).mpr hk
    rw [(h v k).mpr (huv ▸ hk)] at hsame
    exact (Option.some.inj hsame).symm
  · rintro _ ⟨k, hk, rfl⟩
    have hlt : k < order.length := hcount ▸ hk
    have hget := List.getElem?_eq_getElem hlt
    exact ⟨order[k], (hnodes _).mp (List.getElem_mem hlt), (h _ k).mp hget⟩

namespace SpanningTree

variable {ν ε : Type} {g : Digraph ν ε} {entry : NodeId} {t : SpanningTree}

/-! ## Classes -/

theorem getElem?_classes (edge : EdgeId) :
    (t.classes g)[edge]? = (g.edge? edge).map (t.classOf edge) := by
  simp [classes, Digraph.edge?, Function.comp_def]

theorem classOf_eq_tree_iff {edge : EdgeId} {e : Edge ε} :
    t.classOf edge e = .tree ↔ t.isTreeEdge edge = true := by
  rw [classOf]
  split
  · next htree => simp [htree]
  · next htree =>
      split
      · simp [htree]
      · simp [htree]

theorem classOf_eq_back_iff {edge : EdgeId} {e : Edge ε} :
    t.classOf edge e = .back ↔
      ¬ t.isTreeEdge edge = true ∧ t.isAncestor e.target e.source = true := by
  rw [classOf]
  split
  · next htree => simp [htree]
  · next htree => simp [htree]

theorem classOf_eq_cross_iff {edge : EdgeId} {e : Edge ε} :
    t.classOf edge e = .cross ↔
      t.classOf edge e ≠ .tree ∧ t.classOf edge e ≠ .back := by
  cases t.classOf edge e with
  | tree => simp
  | back => simp
  | cross => simp

/-! ## The edge to a node and its parent -/

/-- The search entered node `v` through the edge. -/
def EnteredBy
    (t : SpanningTree) (g : Digraph ν ε) (v : NodeId) (edge : EdgeId) : Prop :=
  t.isTreeEdge edge = true ∧ ∃ e, g.edge? edge = some e ∧ e.target = v

/-- The search entered node `v` through one edge, from its parent. -/
def Hangs (t : SpanningTree) (g : Digraph ν ε) (v : NodeId) : Prop :=
  ∃ edge e, g.edge? edge = some e ∧ t.parent? v = some e.source ∧
    ∀ other, t.EnteredBy g v other ↔ other = edge

/-- The search entered node `v` through no edge, and it has no parent. -/
def Stands (t : SpanningTree) (g : Digraph ν ε) (v : NodeId) : Prop :=
  t.parent? v = none ∧ ∀ edge, ¬ t.EnteredBy g v edge

/-- The nodes entered after the entry hang from their parents. -/
structure Rooted
    (g : Digraph ν ε) (entry : NodeId) (t : SpanningTree) : Prop where
  size_parent : t.parent.size = g.nodeCount
  hangs : ∀ {v}, t.Entered v → v ≠ entry → t.Hangs g v
  stands : ∀ {v}, v = entry ∨ ¬ t.Entered v → t.Stands g v

theorem parent?_attach
    {node : NodeId} (h : node < t.parent.size) (parent : NodeId)
    (edge : EdgeId) (u : NodeId) :
    (t.attach parent edge node).parent? u =
      if u = node then some parent else t.parent? u := by
  by_cases hu : u = node
  · subst hu
    simp [parent?, attach, h]
  · simp [parent?, attach, hu, Ne.symm hu]

theorem enteredBy_attach_iff
    (hsize : t.treeEdge.size = g.edgeCount) {edge : EdgeId} {e : Edge ε}
    (hedge : g.edge? edge = some e) (parent node v : NodeId) (other : EdgeId) :
    (t.attach parent edge node).EnteredBy g v other ↔
      t.EnteredBy g v other ∨ (other = edge ∧ v = e.target) := by
  have hlt : edge < t.treeEdge.size := by
    rw [hsize]
    exact (Array.getElem?_eq_some_iff.mp hedge).1
  rw [EnteredBy, EnteredBy, isTreeEdge_attach_iff hlt, or_and_right]
  refine or_congr_right (and_congr_right ?_)
  rintro rfl
  simp [hedge, eq_comm]

/-- A fresh node is hung from the node through which it is entered. -/
theorem Rooted.enter
    (h : Rooted g entry t) (hsize : t.treeEdge.size = g.edgeCount)
    (hentry : t.Entered entry) {edge : EdgeId} {e : Edge ε}
    (hedge : g.edge? edge = some e) (hlt : e.target < g.nodeCount)
    (hfresh : t.fresh e.target = true) :
    Rooted g entry ((t.attach e.source edge e.target).enter e.target) := by
  obtain ⟨hpre, hnone⟩ := fresh_iff.mp hfresh
  have hout : ¬ t.Entered e.target := by
    rintro ⟨n, hn⟩
    rw [hnone] at hn
    contradiction
  have hentered := entered_enter_iff (t := t.attach e.source edge e.target) hpre
  have hparent := parent?_attach (h.size_parent ▸ hlt) e.source edge
  have htree := enteredBy_attach_iff hsize hedge e.source e.target
  -- nothing changes for the other nodes
  have hkept : ∀ {v}, v ≠ e.target →
      (t.attach e.source edge e.target).parent? v = t.parent? v ∧
        ∀ other, (t.attach e.source edge e.target).EnteredBy g v other ↔
          t.EnteredBy g v other := by
    intro v hv
    refine ⟨by rw [hparent, if_neg hv], ?_⟩
    intro other
    rw [htree, or_iff_left]
    exact fun hnew => hv hnew.2
  refine ⟨?_, ?_, ?_⟩
  · rw [← h.size_parent]
    exact Array.size_setIfInBounds
  · intro v hv hne
    by_cases hnew : v = e.target
    · subst hnew
      refine ⟨edge, e, hedge, ?_, ?_⟩
      · exact (hparent e.target).trans (if_pos rfl)
      · intro other
        refine (htree e.target other).trans ?_
        rw [or_iff_right ((h.stands (Or.inr hout)).2 other)]
        exact and_iff_left rfl
    · have hold : t.Entered v := ((hentered v).mp hv).resolve_right hnew
      obtain ⟨edge', e', hedge', hsource, honly⟩ := h.hangs hold hne
      obtain ⟨hparent', htree'⟩ := hkept hnew
      exact ⟨edge', e', hedge', hparent'.trans hsource,
        fun other => (htree' other).trans (honly other)⟩
  · intro v hv
    have hnew : v ≠ e.target := by
      rintro rfl
      rcases hv with rfl | hv
      · exact hout hentry
      · exact hv ((hentered e.target).mpr (Or.inr rfl))
    have hold : v = entry ∨ ¬ t.Entered v :=
      hv.imp_right (mt fun hv => (hentered v).mpr (Or.inl hv))
    obtain ⟨hroot, hbare⟩ := h.stands hold
    obtain ⟨hparent', htree'⟩ := hkept hnew
    exact ⟨hparent'.trans hroot, fun edge' => mt (htree' edge').mp (hbare edge')⟩

theorem rooted_start (hentry : entry < g.nodeCount) :
    Rooted g entry ((blank g).enter entry) := by
  have hstands : ∀ v, Stands ((blank g).enter entry) g v := by
    intro v
    refine ⟨?_, ?_⟩
    · by_cases hv : v < g.nodeCount
      · simp [parent?, enter, blank, hv]
      · simp [parent?, enter, blank, hv]
    · rintro edge ⟨htree, e, he, hv⟩
      exact not_tree_blank g e.source v ⟨edge, e, htree, he, rfl, hv⟩
  refine ⟨Array.size_replicate, ?_, fun _ => hstands _⟩
  intro v hv hne
  have hlt := (fresh_iff.mp (fresh_blank hentry)).1
  rcases (entered_enter_iff hlt v).mp hv with hold | hnew
  · exact absurd hold (not_entered_blank g v)
  · exact absurd hnew hne

theorem rooted_ofGraph (hg : g.WellFormed) (hentry : entry < g.nodeCount) :
    Rooted g entry (ofGraph g entry) := by
  refine (ofGraph_induction hg hentry (rooted_start hentry) ?_ ?_).2
  · intro t edge e rest hgrows hedge hfresh h
    exact h.enter hgrows.size_treeEdge hgrows.entry_entered hedge
      (hg.ends_lt e (Array.mem_of_getElem? hedge)).2 hfresh
  · intro t node h
    exact ⟨h.size_parent, h.hangs, h.stands⟩

/-- A tree edge leads from one node to another exactly if the first is the parent
of the second. -/
theorem Rooted.tree_iff (h : Rooted g entry t) {u v : NodeId} :
    t.Tree g u v ↔ t.parent? v = some u := by
  by_cases hv : v = entry ∨ ¬ t.Entered v
  · obtain ⟨hroot, hbare⟩ := h.stands hv
    rw [hroot]
    refine iff_of_false ?_ (by simp)
    rintro ⟨edge, e, htree, he, -, hv⟩
    exact hbare edge ⟨htree, e, he, hv⟩
  · rw [not_or, not_not] at hv
    obtain ⟨edge, e, hedge, hparent, honly⟩ := h.hangs hv.2 hv.1
    rw [hparent, Option.some.injEq]
    constructor
    · rintro ⟨other, e', htree, he', rfl, hv⟩
      obtain rfl := (honly other).mp ⟨htree, e', he', hv⟩
      rw [Option.some.inj (hedge.symm.trans he')]
    · rintro rfl
      obtain ⟨htree, e', he', hv⟩ := (honly edge).mpr rfl
      obtain rfl := Option.some.inj (hedge.symm.trans he')
      exact ⟨edge, e, htree, hedge, rfl, hv⟩

/-- Going from node `n` to its parent, any number of times, leads to node `a`. -/
def Ascends (t : SpanningTree) : NodeId → NodeId → Prop :=
  Relation.ReflTransGen fun n a => t.parent? n = some a

theorem Rooted.descends_iff (h : Rooted g entry t) {a n : NodeId} :
    t.Descends g a n ↔ t.Ascends n a := by
  have hswap : t.Tree g = Function.swap fun n a => t.parent? n = some a := by
    funext u v
    exact propext h.tree_iff
  rw [Descends, hswap]
  exact Relation.reflTransGen_swap

/-! ## Ancestors -/

/-- A node is left before its parent. -/
theorem Grows.post?_lt_of_tree
    (h : Grows g entry [] t) {u v : NodeId} (huv : t.Tree g u v) :
    ∃ k l, t.post? u = some k ∧ t.post? v = some l ∧ l < k := by
  obtain ⟨m, n, hm, hn, hlt⟩ := h.tree_lt huv
  obtain ⟨k, hk⟩ := h.exists_post? ⟨m, hm⟩
  obtain ⟨-, ⟨l, hl, hpost⟩ | hbelow⟩ := h.closed hk (adjacent_of_tree huv)
  · exact ⟨k, l, hk, hpost, hl⟩
  · -- the node would have been entered before its parent
    obtain ⟨n', hle, hn'⟩ := h.pre?_le_of_descends hbelow hm
    obtain rfl := Option.some.inj (hn.symm.trans hn')
    omega

theorem Grows.post?_le_of_descends
    (h : Grows g entry [] t) {u v : NodeId} (huv : t.Descends g u v) {l : Nat}
    (hl : t.post? v = some l) :
    ∃ k, l ≤ k ∧ t.post? u = some k := by
  induction huv generalizing l with
  | refl => exact ⟨l, Nat.le_refl l, hl⟩
  | tail _ hstep ih =>
      obtain ⟨k, l', hk, hl', hlt⟩ := h.post?_lt_of_tree hstep
      obtain rfl := Option.some.inj (hl.symm.trans hl')
      obtain ⟨k', hle, hk'⟩ := ih hk
      exact ⟨k', by omega, hk'⟩

theorem Grows.isAncestor_iff
    (h : Grows g entry [] t) {a n : NodeId} :
    t.isAncestor a n = true ↔ t.Entered n ∧ t.Descends g a n := by
  constructor
  · intro hancestor
    refine ⟨?_, h.descends_of_isAncestor hancestor⟩
    rw [isAncestor] at hancestor
    split at hancestor
    · next hn _ _ => exact ⟨_, hn⟩
    · contradiction
  · rintro ⟨⟨k, hk⟩, hbelow⟩
    obtain ⟨l, hl⟩ := h.exists_post? ⟨k, hk⟩
    obtain ⟨k', hpre, hk'⟩ := h.pre?_le_of_descends hbelow hk
    obtain ⟨l', hpost, hl'⟩ := h.post?_le_of_descends hbelow hl
    rw [isAncestor, hk', hk, hl', hl]
    exact decide_eq_true ⟨hpre, hpost⟩

/-! ## What the tree describes -/

/-- An edge of class `tree` leads to node `v`. -/
def TreeEdgeTo
    (t : SpanningTree) (g : Digraph ν ε) (v : NodeId) (edge : EdgeId) : Prop :=
  (t.classes g)[edge]? = some .tree ∧ ∃ e, g.edge? edge = some e ∧ e.target = v

theorem treeEdgeTo_iff {v : NodeId} {edge : EdgeId} :
    t.TreeEdgeTo g v edge ↔ t.EnteredBy g v edge := by
  rw [TreeEdgeTo, EnteredBy]
  refine and_congr_left ?_
  rintro ⟨e, he, -⟩
  rw [getElem?_classes, he, Option.map_some, Option.some.injEq,
    classOf_eq_tree_iff]

/-- Numbers, parents and classes are those of a depth-first spanning tree of what
the entry reaches. -/
structure Describes
    (t : SpanningTree) (g : Digraph ν ε) (entry : NodeId) : Prop where
  pre : Numbers t.pre? {u | g.Reaches entry u}
  post : Numbers t.post? {u | g.Reaches entry u}
  /-- One tree edge leads to each node but the entry, and it comes from the
  node's parent. -/
  treeEdgeTo : ∀ v, g.Reaches entry v → v ≠ entry →
    ∃ edge e, g.edge? edge = some e ∧ t.parent? v = some e.source ∧
      ∀ other, t.TreeEdgeTo g v other ↔ other = edge
  not_treeEdgeTo : ∀ v, v = entry ∨ ¬ g.Reaches entry v →
    t.parent? v = none ∧ ∀ edge, ¬ t.TreeEdgeTo g v edge
  isAncestor_iff : ∀ a n, t.isAncestor a n = true ↔
    g.Reaches entry n ∧ t.Ascends n a
  /-- Back edges are the edges that lead up the tree. -/
  back_iff : ∀ edge e, g.edge? edge = some e →
    ((t.classes g)[edge]? = some .back ↔
      (t.classes g)[edge]? ≠ some .tree ∧ g.Reaches entry e.source ∧
        t.Ascends e.source e.target)
  cross_iff : ∀ edge e, g.edge? edge = some e →
    ((t.classes g)[edge]? = some .cross ↔
      (t.classes g)[edge]? ≠ some .tree ∧ (t.classes g)[edge]? ≠ some .back)

/-- The tree of a graph describes a depth-first spanning tree. -/
theorem ofGraph_describes
    (hg : g.Grown) (hentry : entry < g.nodeCount) :
    (ofGraph g entry).Describes g entry := by
  have hwf := hg.wellFormed
  have hgrows := grows_ofGraph hwf hentry
  have hrooted := rooted_ofGraph hwf hentry
  have hentered : ∀ {u}, (ofGraph g entry).Entered u ↔ g.Reaches entry u :=
    Digraph.entered_ofGraph_iff hwf
  have hancestor : ∀ a n, (ofGraph g entry).isAncestor a n = true ↔
      g.Reaches entry n ∧ (ofGraph g entry).Ascends n a := by
    intro a n
    rw [hgrows.isAncestor_iff, hentered, hrooted.descends_iff]
  refine ⟨?_, ?_, ?_, ?_, hancestor, ?_, ?_⟩
  · exact (Digraph.enumerates_preorder g entry).numbers
      fun _ => hwf.mem_preorder_iff
  · exact (Digraph.enumerates_postorder g entry).numbers
      fun _ => hwf.mem_postorder_iff
  · intro v hv hne
    simp only [treeEdgeTo_iff]
    exact hrooted.hangs (hentered.mpr hv) hne
  · intro v hv
    simp only [treeEdgeTo_iff]
    exact hrooted.stands (hv.imp_right (mt hentered.mp))
  · intro edge e he
    rw [getElem?_classes, he, Option.map_some, Option.some.injEq, ne_eq,
      Option.some.injEq, classOf_eq_back_iff, classOf_eq_tree_iff, hancestor]
  · intro edge e he
    rw [getElem?_classes, he]
    simpa using classOf_eq_cross_iff

/-- Of two edges from node 0 to node 1 the older one is the tree edge.  Node 3 is
entered from node 1, so it does not hang below node 2. -/
theorem ofGraph_describes_twoWays :
    Digraph.twoWays.Grown ∧ 0 < Digraph.twoWays.nodeCount ∧
      (ofGraph Digraph.twoWays 0).classes Digraph.twoWays =
        [.tree, .tree, .cross, .tree, .cross, .back, .back, .cross] ∧
      (∀ edge, (ofGraph Digraph.twoWays 0).TreeEdgeTo Digraph.twoWays 1 edge ↔
        edge = 0) ∧
      (ofGraph Digraph.twoWays 0).Ascends 3 0 ∧
      ¬ (ofGraph Digraph.twoWays 0).Ascends 3 2 := by
  have hentry : 0 < Digraph.twoWays.nodeCount := by decide
  have hdescribes := ofGraph_describes Digraph.grown_twoWays hentry
  have hclasses : (ofGraph Digraph.twoWays 0).classes Digraph.twoWays =
      [.tree, .tree, .cross, .tree, .cross, .back, .back, .cross] := by
    cbv
  have habove : (ofGraph Digraph.twoWays 0).isAncestor 0 3 = true := by cbv
  have hapart : (ofGraph Digraph.twoWays 0).isAncestor 2 3 = false := by cbv
  have holder : (ofGraph Digraph.twoWays 0).TreeEdgeTo Digraph.twoWays 1 0 :=
    ⟨by rw [hclasses]; rfl, ⟨0, 1, ()⟩, rfl, rfl⟩
  refine ⟨Digraph.grown_twoWays, hentry, hclasses, ?_,
    ((hdescribes.isAncestor_iff 0 3).mp habove).2, ?_⟩
  · obtain ⟨edge, -, -, -, honly⟩ := hdescribes.treeEdgeTo 1
      (Digraph.reaches_twoWays (by decide)) (by decide)
    rwa [← (honly 0).mp holder] at honly
  · intro hascends
    rw [(hdescribes.isAncestor_iff 2 3).mpr
      ⟨Digraph.reaches_twoWays (by decide), hascends⟩] at hapart
    contradiction

end SpanningTree
end ThreeAddress
