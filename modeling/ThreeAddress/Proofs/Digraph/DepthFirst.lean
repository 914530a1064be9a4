import Mathlib.Logic.Relation
import ThreeAddress.Digraph.SpanningTree
import ThreeAddress.Proofs.Digraph.Paths

/-!
# Depth-first search

What holds while a depth-first search grows its tree.  The nodes entered and not
yet left are those on the current path, and tree edges lead along it.  A node
that was entered before another and not left before it is its ancestor in the
tree.  When a node is left, each of its edges leads to a node left earlier or to
an ancestor.  These statements hold before the first step and are kept by the
three kinds of step: passing over an edge, entering a node, and leaving one.
-/

namespace ThreeAddress
namespace SpanningTree

variable {ν ε : Type}

/-- The search has entered a node. -/
def Entered (t : SpanningTree) (u : NodeId) : Prop :=
  ∃ n, t.pre? u = some n

/-- The search entered node `v` through an edge from node `u`. -/
def Tree (t : SpanningTree) (g : Digraph ν ε) (u v : NodeId) : Prop :=
  ∃ edge e, t.isTreeEdge edge = true ∧ g.edge? edge = some e ∧
    e.source = u ∧ e.target = v

/-- Tree edges lead from node `u` down to node `v`. -/
def Descends (t : SpanningTree) (g : Digraph ν ε) : NodeId → NodeId → Prop :=
  Relation.ReflTransGen (t.Tree g)

theorem adjacent_of_tree
    {t : SpanningTree} {g : Digraph ν ε} {u v : NodeId} (h : t.Tree g u v) :
    g.Adjacent u v := by
  obtain ⟨edge, e, -, he, hu, hv⟩ := h
  exact ⟨e, Array.mem_of_getElem? he, hu, hv⟩

theorem Descends.mono
    {t t' : SpanningTree} {g : Digraph ν ε}
    (htree : ∀ u v, t.Tree g u v → t'.Tree g u v) {u v : NodeId}
    (h : t.Descends g u v) :
    t'.Descends g u v :=
  Relation.ReflTransGen.mono htree _ _ h

/-- From every node of a path of tree edges, listed from its end, tree edges lead
to that end. -/
theorem descends_of_isChain
    {t : SpanningTree} {g : Digraph ν ε} {node : NodeId} {rest : List NodeId}
    (h : (node :: rest).IsChain fun upper lower => t.Tree g lower upper)
    {u : NodeId} (hu : u ∈ node :: rest) :
    t.Descends g u node := by
  induction rest generalizing node with
  | nil =>
      rw [List.mem_singleton.mp hu]
      exact .refl
  | cons next rest ih =>
      obtain ⟨hstep, hrest⟩ := List.isChain_cons_cons.mp h
      rcases List.mem_cons.mp hu with rfl | hlater
      · exact .refl
      · exact (ih hrest hlater).tail hstep

/-! ## The numbers after one step -/

theorem pre?_enter
    {t : SpanningTree} {node : NodeId} (h : node < t.pre.size) (u : NodeId) :
    (t.enter node).pre? u = if u = node then some t.entered else t.pre? u := by
  by_cases hu : u = node
  · subst hu
    simp [pre?, enter, h]
  · simp [pre?, enter, hu, Ne.symm hu]

theorem post?_leave
    {t : SpanningTree} {node : NodeId} (h : node < t.post.size) (u : NodeId) :
    (t.leave node).post? u = if u = node then some t.left else t.post? u := by
  by_cases hu : u = node
  · subst hu
    simp [post?, leave, h]
  · simp [post?, leave, hu, Ne.symm hu]

theorem isTreeEdge_attach_iff
    {t : SpanningTree} {edge : EdgeId} (h : edge < t.treeEdge.size)
    (parent node : NodeId) (other : EdgeId) :
    (t.attach parent edge node).isTreeEdge other = true ↔
      t.isTreeEdge other = true ∨ other = edge := by
  by_cases hother : other = edge
  · subst hother
    simp [isTreeEdge, attach, h]
  · simp [isTreeEdge, attach, hother, Ne.symm hother]

theorem tree_attach_iff
    {t : SpanningTree} {g : Digraph ν ε} {edge : EdgeId} {e : Edge ε}
    (hsize : t.treeEdge.size = g.edgeCount) (hedge : g.edge? edge = some e)
    (parent node u v : NodeId) :
    (t.attach parent edge node).Tree g u v ↔
      t.Tree g u v ∨ (u = e.source ∧ v = e.target) := by
  have hlt : edge < t.treeEdge.size := by
    rw [hsize]
    exact (Array.getElem?_eq_some_iff.mp hedge).1
  have hmark := isTreeEdge_attach_iff hlt parent node
  constructor
  · rintro ⟨other, e', hother, he', hu, hv⟩
    rcases (hmark other).mp hother with hold | rfl
    · exact Or.inl ⟨other, e', hold, he', hu, hv⟩
    · obtain rfl := Option.some.inj (hedge.symm.trans he')
      exact Or.inr ⟨hu.symm, hv.symm⟩
  · rintro (⟨other, e', hold, he', hu, hv⟩ | ⟨rfl, rfl⟩)
    · exact ⟨other, e', (hmark other).mpr (Or.inl hold), he', hu, hv⟩
    · exact ⟨edge, e, (hmark edge).mpr (Or.inr rfl), hedge, rfl, rfl⟩

theorem fresh_iff
    {t : SpanningTree} {node : NodeId} :
    t.fresh node = true ↔ node < t.pre.size ∧ t.pre? node = none := by
  rw [fresh, beq_iff_eq, pre?, Array.getD_eq_getD_getElem?]
  by_cases hnode : node < t.pre.size
  · simp [hnode]
  · simp [hnode]

/-! ## The state of a search -/

/-- The numbers given so far, and which nodes the current path holds. -/
structure Numbered
    (g : Digraph ν ε) (path : List NodeId) (t : SpanningTree) : Prop where
  size_pre : t.pre.size = g.nodeCount
  size_post : t.post.size = g.nodeCount
  size_treeEdge : t.treeEdge.size = g.edgeCount
  pre_lt : ∀ {u n}, t.pre? u = some n → n < t.entered
  post_lt : ∀ {u n}, t.post? u = some n → n < t.left
  entered_of_post? : ∀ {u n}, t.post? u = some n → t.Entered u
  mem_path_iff : ∀ u, u ∈ path ↔ t.Entered u ∧ t.post? u = none
  nodup_path : path.Nodup

/-- What holds of the tree when the search stands at the first node of
`path`. -/
structure Grows
    (g : Digraph ν ε) (entry : NodeId) (path : List NodeId) (t : SpanningTree) :
    Prop extends Numbered g path t where
  /-- The search began at the entry. -/
  entry_entered : t.Entered entry
  /-- Tree edges lead along the path. -/
  chain : path.IsChain fun upper lower => t.Tree g lower upper
  tree_lt : ∀ {u v}, t.Tree g u v →
    ∃ m n, t.pre? u = some m ∧ t.pre? v = some n ∧ m < n
  /-- A node is reached through nodes that were entered no later. -/
  route : ∀ {u n}, t.pre? u = some n →
    ∃ nodes, g.Path entry u nodes ∧ ∀ x ∈ nodes, ∃ m ≤ n, t.pre? x = some m
  /-- A node entered before another is left before it or is an ancestor. -/
  nested : ∀ {u v m n}, t.pre? u = some m → t.pre? v = some n → m ≤ n →
    (∃ k, t.post? u = some k ∧ ∀ l, t.post? v = some l → k < l) ∨
      t.Descends g u v
  /-- The edges of a node that was left lead to nodes left earlier or to
  ancestors. -/
  closed : ∀ {u v k}, t.post? u = some k → g.Adjacent u v →
    t.Entered v ∧ ((∃ l < k, t.post? v = some l) ∨ t.Descends g v u)

/-- Every node of the path has entered the targets of the edges that it tried. -/
def Tried
    (g : Digraph ν ε) (path : List (NodeId × List EdgeId))
    (t : SpanningTree) : Prop :=
  ∀ item ∈ path, ∃ tried, g.outEdges item.1 = tried ++ item.2 ∧
    ∀ edge ∈ tried, ∀ e, g.edge? edge = some e → t.Entered e.target

section Steps

variable {g : Digraph ν ε} {entry node : NodeId} {t t' : SpanningTree}

/-! ## Entering a node -/

theorem entered_enter_iff (h : node < t.pre.size) (u : NodeId) :
    (t.enter node).Entered u ↔ t.Entered u ∨ u = node := by
  by_cases hu : u = node
  · simp [Entered, pre?_enter h, hu]
  · simp [Entered, pre?_enter h, hu]

theorem Numbered.enter
    {path : List NodeId} (h : Numbered g path t) (hfresh : t.fresh node = true) :
    Numbered g (node :: path) (t.enter node) := by
  obtain ⟨hlt, hnone⟩ := fresh_iff.mp hfresh
  have hentered := entered_enter_iff hlt
  have hout : ¬ t.Entered node := by
    rintro ⟨n, hn⟩
    rw [hnone] at hn
    contradiction
  have hpost : t.post? node = none := by
    by_contra hsome
    obtain ⟨n, hn⟩ := Option.ne_none_iff_exists'.mp hsome
    exact hout (h.entered_of_post? hn)
  refine ⟨?_, h.size_post, h.size_treeEdge, ?_, h.post_lt, ?_, ?_, ?_⟩
  · rw [← h.size_pre]
    exact Array.size_setIfInBounds
  · intro u n hn
    rw [pre?_enter hlt] at hn
    split at hn
    · rw [← Option.some.inj hn]
      exact Nat.lt_succ_self _
    · exact Nat.lt_succ_of_lt (h.pre_lt hn)
  · intro u n hn
    exact (hentered u).mpr (Or.inl (h.entered_of_post? hn))
  · intro u
    have hsame : (t.enter node).post? u = t.post? u := rfl
    rw [List.mem_cons, h.mem_path_iff, hentered, hsame]
    constructor
    · rintro (rfl | ⟨hu, hnone⟩)
      · exact ⟨Or.inr rfl, hpost⟩
      · exact ⟨Or.inl hu, hnone⟩
    · rintro ⟨hu | rfl, hnone⟩
      · exact Or.inr ⟨hu, hnone⟩
      · exact Or.inl rfl
  · refine List.nodup_cons.mpr ⟨?_, h.nodup_path⟩
    intro hmem
    exact hout ((h.mem_path_iff node).mp hmem).1

/-- Recording an edge gives no number. -/
theorem Numbered.attach
    {path : List NodeId} (h : Numbered g path t) {parent : NodeId}
    {edge : EdgeId} :
    Numbered g path (t.attach parent edge node) :=
  { h with
    size_treeEdge := by
      rw [← h.size_treeEdge]
      exact Array.size_setIfInBounds }

/-- All that changes when the search enters `node` from `parent`. -/
structure Enters
    (g : Digraph ν ε) (parent node : NodeId) (t t' : SpanningTree) : Prop where
  pre?_eq_none : t.pre? node = none
  pre?_eq : ∀ u, t'.pre? u = if u = node then some t.entered else t.pre? u
  post?_eq : ∀ u, t'.post? u = t.post? u
  tree_iff : ∀ u v, t'.Tree g u v ↔ t.Tree g u v ∨ (u = parent ∧ v = node)

theorem enters_attach
    {edge : EdgeId} {e : Edge ε} (hsize : t.treeEdge.size = g.edgeCount)
    (hedge : g.edge? edge = some e) (hfresh : t.fresh e.target = true) :
    Enters g e.source e.target t
      ((t.attach e.source edge e.target).enter e.target) where
  pre?_eq_none := (fresh_iff.mp hfresh).2
  pre?_eq := pre?_enter (t := t.attach e.source edge e.target)
    (fresh_iff.mp hfresh).1
  post?_eq _ := rfl
  tree_iff := tree_attach_iff hsize hedge e.source e.target

namespace Enters

variable {parent : NodeId}

theorem pre?_self (h : Enters g parent node t t') :
    t'.pre? node = some t.entered := by
  rw [h.pre?_eq, if_pos rfl]

theorem pre?_of_pre?
    (h : Enters g parent node t t') {u : NodeId} {n : Nat}
    (hn : t.pre? u = some n) :
    t'.pre? u = some n := by
  have hne : u ≠ node := by
    rintro rfl
    rw [h.pre?_eq_none] at hn
    contradiction
  rw [h.pre?_eq, if_neg hne, hn]

theorem entered
    (h : Enters g parent node t t') {u : NodeId} (hu : t.Entered u) :
    t'.Entered u := by
  obtain ⟨n, hn⟩ := hu
  exact ⟨n, h.pre?_of_pre? hn⟩

theorem tree_self (h : Enters g parent node t t') : t'.Tree g parent node :=
  (h.tree_iff _ _).mpr (Or.inr ⟨rfl, rfl⟩)

theorem descends
    (h : Enters g parent node t t') {u v : NodeId} (huv : t.Descends g u v) :
    t'.Descends g u v :=
  huv.mono fun u v hstep => (h.tree_iff u v).mpr (Or.inl hstep)

end Enters

/-- The new node is reached by the route to its parent and one more edge. -/
theorem Grows.route_enter
    {parent : NodeId} {rest : List NodeId}
    (h : Grows g entry (parent :: rest) t)
    (henters : Enters g parent node t t') {u : NodeId} {n : Nat}
    (hn : t'.pre? u = some n) :
    ∃ nodes, g.Path entry u nodes ∧ ∀ x ∈ nodes, ∃ m ≤ n, t'.pre? x = some m := by
  by_cases hu : u = node
  · obtain ⟨k, hk⟩ : t.Entered parent :=
      ((h.mem_path_iff parent).mp List.mem_cons_self).1
    obtain ⟨nodes, hpath, hnodes⟩ := h.route hk
    subst hu
    obtain rfl := Option.some.inj (henters.pre?_self.symm.trans hn)
    refine ⟨nodes ++ [u], hpath.extend (adjacent_of_tree henters.tree_self), ?_⟩
    intro x hx
    rcases List.mem_append.mp hx with hold | hnew
    · obtain ⟨m, hm, hpre⟩ := hnodes x hold
      exact ⟨m, Nat.le_trans hm (Nat.le_of_lt (h.pre_lt hk)),
        henters.pre?_of_pre? hpre⟩
    · rw [List.mem_singleton.mp hnew]
      exact ⟨t.entered, Nat.le_refl _, henters.pre?_self⟩
  · rw [henters.pre?_eq, if_neg hu] at hn
    obtain ⟨nodes, hpath, hnodes⟩ := h.route hn
    refine ⟨nodes, hpath, ?_⟩
    intro x hx
    obtain ⟨m, hm, hpre⟩ := hnodes x hx
    exact ⟨m, hm, henters.pre?_of_pre? hpre⟩

/-- Of the nodes entered earlier, those not left stand on the path, and so they
become ancestors of the new node. -/
theorem Grows.nested_enter
    {parent : NodeId} {rest : List NodeId}
    (h : Grows g entry (parent :: rest) t)
    (henters : Enters g parent node t t') {u v : NodeId} {m n : Nat}
    (hm : t'.pre? u = some m) (hn : t'.pre? v = some n) (hmn : m ≤ n) :
    (∃ k, t'.post? u = some k ∧ ∀ l, t'.post? v = some l → k < l) ∨
      t'.Descends g u v := by
  simp only [henters.post?_eq]
  by_cases hu : u = node
  · subst hu
    obtain rfl := Option.some.inj (henters.pre?_self.symm.trans hm)
    by_cases hv : v = u
    · rw [hv]
      exact Or.inr .refl
    · rw [henters.pre?_eq, if_neg hv] at hn
      have hlt := h.pre_lt hn
      omega
  · rw [henters.pre?_eq, if_neg hu] at hm
    by_cases hv : v = node
    · subst hv
      cases hleft : t.post? u with
      | some k =>
          refine Or.inl ⟨k, rfl, ?_⟩
          intro l hl
          obtain ⟨i, hi⟩ := h.entered_of_post? hl
          rw [henters.pre?_eq_none] at hi
          contradiction
      | none =>
          have hmem := (h.mem_path_iff u).mpr ⟨⟨m, hm⟩, hleft⟩
          have hparent := henters.descends (descends_of_isChain h.chain hmem)
          exact Or.inr (hparent.tail henters.tree_self)
    · rw [henters.pre?_eq, if_neg hv] at hn
      rcases h.nested hm hn hmn with hleft | hbelow
      · exact Or.inl hleft
      · exact Or.inr (henters.descends hbelow)

/-- Entering a fresh node through an edge from the end of the path keeps what is
known of the tree. -/
theorem Grows.enter
    {edge : EdgeId} {e : Edge ε} {rest : List NodeId}
    (h : Grows g entry (e.source :: rest) t) (hedge : g.edge? edge = some e)
    (hfresh : t.fresh e.target = true) :
    Grows g entry (e.target :: e.source :: rest)
      ((t.attach e.source edge e.target).enter e.target) := by
  have henters := enters_attach h.size_treeEdge hedge hfresh
  refine ⟨h.toNumbered.attach.enter hfresh, henters.entered h.entry_entered,
    ?_, ?_, h.route_enter henters, h.nested_enter henters, ?_⟩
  · refine .cons_cons henters.tree_self (h.chain.imp ?_)
    intro upper lower hlower
    exact (henters.tree_iff lower upper).mpr (Or.inl hlower)
  · intro u v huv
    rcases (henters.tree_iff u v).mp huv with hold | ⟨rfl, rfl⟩
    · obtain ⟨m, n, hm, hn, hlt⟩ := h.tree_lt hold
      exact ⟨m, n, henters.pre?_of_pre? hm, henters.pre?_of_pre? hn, hlt⟩
    · obtain ⟨n, hn⟩ : t.Entered e.source :=
        ((h.mem_path_iff e.source).mp List.mem_cons_self).1
      exact ⟨n, t.entered, henters.pre?_of_pre? hn, henters.pre?_self,
        h.pre_lt hn⟩
  · intro u v k hk hadj
    obtain ⟨hv, hleft | hbelow⟩ := h.closed hk hadj
    · exact ⟨henters.entered hv, Or.inl hleft⟩
    · exact ⟨henters.entered hv, Or.inr (henters.descends hbelow)⟩

/-! ## Leaving a node -/

theorem Numbered.lt_of_mem_path
    {path : List NodeId} (h : Numbered g path t) (hnode : node ∈ path) :
    node < t.post.size := by
  obtain ⟨n, hn⟩ := ((h.mem_path_iff node).mp hnode).1
  rw [h.size_post, ← h.size_pre]
  by_contra hle
  simp [pre?, hle] at hn

theorem Numbered.leave
    {rest : List NodeId} (h : Numbered g (node :: rest) t) :
    Numbered g rest (t.leave node) := by
  obtain ⟨hnode, hrest⟩ := List.nodup_cons.mp h.nodup_path
  obtain ⟨hentered, hnone⟩ := (h.mem_path_iff node).mp List.mem_cons_self
  have hpost := post?_leave (h.lt_of_mem_path List.mem_cons_self)
  refine ⟨h.size_pre, ?_, h.size_treeEdge, h.pre_lt, ?_, ?_, ?_, hrest⟩
  · rw [← h.size_post]
    exact Array.size_setIfInBounds
  · intro u n hn
    rw [hpost] at hn
    split at hn
    · rw [← Option.some.inj hn]
      exact Nat.lt_succ_self _
    · exact Nat.lt_succ_of_lt (h.post_lt hn)
  · intro u n hn
    rw [hpost] at hn
    split at hn
    · next hu => exact hu ▸ hentered
    · exact h.entered_of_post? hn
  · intro u
    have hmem := h.mem_path_iff u
    have hsame : (t.leave node).Entered u ↔ t.Entered u := Iff.rfl
    rw [hsame, hpost]
    by_cases hu : u = node
    · subst hu
      simp [hnode]
    · rw [if_neg hu, ← hmem, List.mem_cons, or_iff_right hu]

/-- Leaving the node at the end of the path, when all its edges have been tried,
keeps what is known of the tree. -/
theorem Grows.leave
    {rest : List NodeId} (h : Grows g entry (node :: rest) t)
    (htried : ∀ v, g.Adjacent node v → t.Entered v) :
    Grows g entry rest (t.leave node) := by
  obtain ⟨-, hnone⟩ := (h.mem_path_iff node).mp List.mem_cons_self
  have hpost := post?_leave (h.lt_of_mem_path List.mem_cons_self)
  have hold : ∀ {u n}, t.post? u = some n →
      (t.leave node).post? u = some n := by
    intro u n hn
    have hne : u ≠ node := by
      rintro rfl
      rw [hnone] at hn
      contradiction
    rw [hpost, if_neg hne, hn]
  refine ⟨h.toNumbered.leave, h.entry_entered, h.chain.of_cons, h.tree_lt,
    h.route, ?_, ?_⟩
  · intro u v m n hm hn hle
    rcases h.nested hm hn hle with ⟨k, hk, hlater⟩ | hbelow
    · refine Or.inl ⟨k, hold hk, ?_⟩
      intro l hl
      rw [hpost] at hl
      split at hl
      · rw [← Option.some.inj hl]
        exact h.post_lt hk
      · exact hlater l hl
    · exact Or.inr hbelow
  · intro u v k hk hadj
    rw [hpost] at hk
    split at hk
    · next hu =>
        subst hu
        obtain rfl := Option.some.inj hk
        have hv := htried v hadj
        refine ⟨hv, ?_⟩
        cases hleft : t.post? v with
        | some l => exact Or.inl ⟨l, h.post_lt hleft, hold hleft⟩
        | none =>
            have hmem := (h.mem_path_iff v).mpr ⟨hv, hleft⟩
            exact Or.inr (descends_of_isChain h.chain hmem)
    · obtain ⟨hv, ⟨l, hl, hleft⟩ | hbelow⟩ := h.closed hk hadj
      · exact ⟨hv, Or.inl ⟨l, hl, hold hleft⟩⟩
      · exact ⟨hv, Or.inr hbelow⟩

/-! ## The edges tried -/

theorem Tried.mono
    {path : List (NodeId × List EdgeId)} (h : Tried g path t)
    (hentered : ∀ u, t.Entered u → t'.Entered u) :
    Tried g path t' := by
  intro item hitem
  obtain ⟨tried, hout, htargets⟩ := h item hitem
  refine ⟨tried, hout, ?_⟩
  intro edge hedge e he
  exact hentered _ (htargets edge hedge e he)

/-- An edge whose target has been entered counts as tried. -/
theorem Tried.pass
    {edge : EdgeId} {untried : List EdgeId}
    {rest : List (NodeId × List EdgeId)}
    (h : Tried g ((node, edge :: untried) :: rest) t)
    (hentered : ∀ e, g.edge? edge = some e → t.Entered e.target) :
    Tried g ((node, untried) :: rest) t := by
  intro item hitem
  rcases List.mem_cons.mp hitem with rfl | hrest
  · obtain ⟨tried, hout, htargets⟩ := h _ List.mem_cons_self
    refine ⟨tried ++ [edge], hout.trans (List.append_cons _ _ _), ?_⟩
    intro other hother
    rcases List.mem_append.mp hother with hbefore | hnew
    · exact htargets other hbefore
    · rw [List.mem_singleton.mp hnew]
      exact hentered
  · exact h item (List.mem_cons_of_mem _ hrest)

theorem Tried.entered_of_adjacent
    (hg : g.WellFormed) {rest : List (NodeId × List EdgeId)}
    (h : Tried g ((node, []) :: rest) t) {v : NodeId}
    (hadj : g.Adjacent node v) :
    t.Entered v := by
  obtain ⟨tried, hout, htargets⟩ := h _ List.mem_cons_self
  rw [List.append_nil, hg.outEdges_eq] at hout
  obtain ⟨e, he, hsource, rfl⟩ := hadj
  obtain ⟨edge, hedge⟩ := Array.mem_iff_getElem?.mp he
  refine htargets edge ?_ e hedge
  rw [← hout, Digraph.mem_edgesWhere]
  exact ⟨e, hedge, beq_iff_eq.mpr hsource⟩

theorem Tried.source_eq
    (hg : g.WellFormed) {edge : EdgeId} {untried : List EdgeId}
    {rest : List (NodeId × List EdgeId)}
    (h : Tried g ((node, edge :: untried) :: rest) t) {e : Edge ε}
    (hedge : g.edge? edge = some e) :
    e.source = node := by
  obtain ⟨tried, hout, -⟩ := h _ List.mem_cons_self
  have hmem : edge ∈ g.outEdges node := by
    rw [hout]
    exact List.mem_append_right _ List.mem_cons_self
  rw [hg.outEdges_eq, Digraph.mem_edgesWhere] at hmem
  obtain ⟨e', he', hsource⟩ := hmem
  obtain rfl := Option.some.inj (hedge.symm.trans he')
  exact beq_iff_eq.mp hsource

theorem entered_of_not_fresh
    (hg : g.WellFormed) (hsize : t.pre.size = g.nodeCount) {edge : EdgeId}
    {e : Edge ε} (hedge : g.edge? edge = some e)
    (hfresh : ¬ t.fresh e.target = true) :
    t.Entered e.target := by
  have hlt : e.target < t.pre.size := by
    rw [hsize]
    exact (hg.ends_lt e (Array.mem_of_getElem? hedge)).2
  rw [fresh_iff, not_and] at hfresh
  exact Option.ne_none_iff_exists'.mp (hfresh hlt)

end Steps

/-! ## The whole search -/

/-- Whatever entering a fresh node and leaving a node preserve holds at the end
of a search, together with what is known of the tree. -/
theorem grow_induction
    {g : Digraph ν ε} (hg : g.WellFormed) {entry : NodeId}
    {motive : SpanningTree → Prop}
    (henter : ∀ {t : SpanningTree} {edge : EdgeId} {e : Edge ε}
      {rest : List NodeId}, Grows g entry (e.source :: rest) t →
      g.edge? edge = some e → t.fresh e.target = true → motive t →
      motive ((t.attach e.source edge e.target).enter e.target))
    (hleave : ∀ {t : SpanningTree} (node : NodeId), motive t →
      motive (t.leave node))
    {path : List (NodeId × List EdgeId)} {t : SpanningTree}
    (h : Grows g entry (path.map Prod.fst) t) (htried : Tried g path t)
    (hmotive : motive t) :
    Grows g entry [] (grow g path t) ∧ motive (grow g path t) := by
  fun_induction grow g path t with
  | case1 t => exact ⟨h, hmotive⟩
  | case2 t node rest ih =>
      refine ih (h.leave fun v hadj => htried.entered_of_adjacent hg hadj) ?_
        (hleave node hmotive)
      intro item hitem
      exact htried item (List.mem_cons_of_mem _ hitem)
  | case3 t node edge untried rest hnone ih =>
      refine ih h (htried.pass ?_) hmotive
      intro e he
      rw [hnone] at he
      contradiction
  | case4 t node edge untried rest e hedge hfresh ih =>
      obtain rfl := htried.source_eq hg hedge
      have henters := enters_attach h.size_treeEdge hedge hfresh
      refine ih (h.enter hedge hfresh) ?_ (henter h hedge hfresh hmotive)
      intro item hitem
      rcases List.mem_cons.mp hitem with rfl | hbelow
      · exact ⟨[], rfl, by simp⟩
      · refine (htried.mono fun u => henters.entered).pass ?_ item hbelow
        intro e' he'
        obtain rfl := Option.some.inj (hedge.symm.trans he')
        exact ⟨_, henters.pre?_self⟩
  | case5 t node edge untried rest e hedge hfresh ih =>
      refine ih h (htried.pass ?_) hmotive
      intro e' he'
      obtain rfl := Option.some.inj (hedge.symm.trans he')
      exact entered_of_not_fresh hg h.size_pre hedge hfresh

theorem not_entered_blank (g : Digraph ν ε) (u : NodeId) :
    ¬ (blank g).Entered u := by
  rintro ⟨n, hn⟩
  by_cases hu : u < g.nodeCount
  · simp [pre?, blank, hu] at hn
  · simp [pre?, blank, hu] at hn

theorem post?_blank (g : Digraph ν ε) (u : NodeId) :
    (blank g).post? u = none := by
  by_cases hu : u < g.nodeCount
  · simp [post?, blank, hu]
  · simp [post?, blank, hu]

theorem not_tree_blank (g : Digraph ν ε) (u v : NodeId) :
    ¬ (blank g).Tree g u v := by
  rintro ⟨edge, e, htree, -⟩
  by_cases hedge : edge < g.edgeCount
  · simp [isTreeEdge, blank, hedge] at htree
  · simp [isTreeEdge, blank, hedge] at htree

theorem numbered_blank (g : Digraph ν ε) : Numbered g [] (blank g) where
  size_pre := Array.size_replicate
  size_post := Array.size_replicate
  size_treeEdge := Array.size_replicate
  pre_lt hn := absurd ⟨_, hn⟩ (not_entered_blank g _)
  post_lt hn := by
    rw [post?_blank] at hn
    contradiction
  entered_of_post? hn := by
    rw [post?_blank] at hn
    contradiction
  mem_path_iff u := by
    simp [not_entered_blank g u]
  nodup_path := List.nodup_nil

theorem fresh_blank
    {g : Digraph ν ε} {node : NodeId} (h : node < g.nodeCount) :
    (blank g).fresh node = true := by
  rw [fresh_iff, (numbered_blank g).size_pre]
  refine ⟨h, ?_⟩
  by_contra hsome
  exact not_entered_blank g node (Option.ne_none_iff_exists'.mp hsome)

/-- A search that has entered its first node and nothing else. -/
theorem grows_start
    {g : Digraph ν ε} {entry : NodeId} (hentry : entry < g.nodeCount) :
    Grows g entry [entry] ((blank g).enter entry) := by
  have hfresh := fresh_blank hentry
  have hpre : ∀ u, ((blank g).enter entry).pre? u =
      if u = entry then some 0 else (blank g).pre? u :=
    pre?_enter (fresh_iff.mp hfresh).1
  have honly : ∀ {u n}, ((blank g).enter entry).pre? u = some n → u = entry := by
    intro u n hn
    rw [hpre] at hn
    split at hn
    · next hu => exact hu
    · exact absurd ⟨n, hn⟩ (not_entered_blank g u)
  have hpost : ∀ u, ((blank g).enter entry).post? u = none := post?_blank g
  refine ⟨(numbered_blank g).enter hfresh, ⟨0, by rw [hpre, if_pos rfl]⟩,
    .singleton entry, ?_, ?_, ?_, ?_⟩
  · intro u v huv
    exact absurd huv (not_tree_blank g u v)
  · intro u n hn
    obtain rfl := honly hn
    refine ⟨[u], .single hentry, ?_⟩
    intro x hx
    rw [List.mem_singleton.mp hx]
    exact ⟨n, Nat.le_refl n, hn⟩
  · intro u v m n hm hn _
    rw [honly hm, honly hn]
    exact Or.inr .refl
  · intro u v k hk
    rw [hpost] at hk
    contradiction

/-- What holds after the first node has been entered, and is preserved by each
later step, holds of the tree of the graph. -/
theorem ofGraph_induction
    {g : Digraph ν ε} (hg : g.WellFormed) {entry : NodeId}
    (hentry : entry < g.nodeCount) {motive : SpanningTree → Prop}
    (hstart : motive ((blank g).enter entry))
    (henter : ∀ {t : SpanningTree} {edge : EdgeId} {e : Edge ε}
      {rest : List NodeId}, Grows g entry (e.source :: rest) t →
      g.edge? edge = some e → t.fresh e.target = true → motive t →
      motive ((t.attach e.source edge e.target).enter e.target))
    (hleave : ∀ {t : SpanningTree} (node : NodeId), motive t →
      motive (t.leave node)) :
    Grows g entry [] (ofGraph g entry) ∧ motive (ofGraph g entry) := by
  rw [ofGraph, if_pos (fresh_blank hentry)]
  refine grow_induction hg henter hleave (grows_start hentry) ?_ hstart
  intro item hitem
  rw [List.mem_singleton.mp hitem]
  exact ⟨[], rfl, by simp⟩

theorem grows_ofGraph
    {g : Digraph ν ε} (hg : g.WellFormed) {entry : NodeId}
    (hentry : entry < g.nodeCount) :
    Grows g entry [] (ofGraph g entry) :=
  (ofGraph_induction hg hentry (motive := fun _ => True) trivial
    (fun _ _ _ _ => trivial) (fun _ _ => trivial)).1

/-! ## What the finished search says -/

namespace Grows

variable {g : Digraph ν ε} {entry : NodeId} {t : SpanningTree}

theorem exists_post?
    (h : Grows g entry [] t) {u : NodeId} (hu : t.Entered u) :
    ∃ k, t.post? u = some k := by
  by_contra hnone
  have hmem := (h.mem_path_iff u).mpr
    ⟨hu, not_not.mp fun hsome => hnone (Option.ne_none_iff_exists'.mp hsome)⟩
  exact List.not_mem_nil hmem

theorem entered_iff_reaches
    (h : Grows g entry [] t) {u : NodeId} :
    t.Entered u ↔ g.Reaches entry u := by
  constructor
  · rintro ⟨n, hn⟩
    obtain ⟨nodes, hpath, -⟩ := h.route hn
    exact ⟨nodes, hpath⟩
  · rintro ⟨nodes, hpath⟩
    induction hpath with
    | single => exact h.entry_entered
    | extend _ hadj ih =>
        obtain ⟨k, hk⟩ := h.exists_post? ih
        exact (h.closed hk hadj).1

theorem pre?_le_of_descends
    (h : Grows g entry [] t) {u v : NodeId} (huv : t.Descends g u v) {n : Nat}
    (hn : t.pre? v = some n) :
    ∃ m ≤ n, t.pre? u = some m := by
  induction huv generalizing n with
  | refl => exact ⟨n, Nat.le_refl n, hn⟩
  | tail _ hstep ih =>
      obtain ⟨k, l, hk, hl, hlt⟩ := h.tree_lt hstep
      obtain rfl := Option.some.inj (hl.symm.trans hn)
      obtain ⟨m, hm, hpre⟩ := ih hk
      exact ⟨m, by omega, hpre⟩

/-- A node is an ancestor of another if its numbers enclose the other's. -/
theorem descends_of_isAncestor
    (h : Grows g entry [] t) {u v : NodeId} (huv : t.isAncestor u v = true) :
    t.Descends g u v := by
  rw [isAncestor] at huv
  split at huv
  · next m n k l hm hn hk hl =>
      obtain ⟨hmn, hlk⟩ := of_decide_eq_true huv
      rcases h.nested hm hn hmn with ⟨k', hk', hlater⟩ | hbelow
      · obtain rfl := Option.some.inj (hk.symm.trans hk')
        have hlt := hlater l hl
        omega
      · exact hbelow
  · contradiction

/-- An edge between reached nodes leads to a node left earlier or to an
ancestor. -/
theorem post?_lt_or_isAncestor
    (h : Grows g entry [] t) {u v : NodeId} (hu : g.Reaches entry u)
    (hadj : g.Adjacent u v) :
    (∃ k l, t.post? u = some k ∧ t.post? v = some l ∧ l < k) ∨
      t.isAncestor v u = true := by
  obtain ⟨n, hn⟩ := h.entered_iff_reaches.mpr hu
  obtain ⟨k, hk⟩ := h.exists_post? ⟨n, hn⟩
  obtain ⟨hv, hclosed⟩ := h.closed hk hadj
  obtain ⟨l, hl⟩ := h.exists_post? hv
  by_cases hlt : l < k
  · exact Or.inl ⟨k, l, hk, hl, hlt⟩
  · rcases hclosed with ⟨l', hl', hpost⟩ | hbelow
    · obtain rfl := Option.some.inj (hl.symm.trans hpost)
      exact absurd hl' hlt
    · obtain ⟨m, hm, hpre⟩ := h.pre?_le_of_descends hbelow hn
      refine Or.inr ?_
      rw [isAncestor, hpre, hn, hl, hk]
      exact decide_eq_true ⟨hm, Nat.le_of_not_lt hlt⟩

/-- No tree edge leads to an ancestor. -/
theorem not_isAncestor_of_tree
    (h : Grows g entry [] t) {u v : NodeId} (huv : t.Tree g u v) :
    ¬ t.isAncestor v u = true := by
  intro hancestor
  obtain ⟨m, n, hm, hn, hlt⟩ := h.tree_lt huv
  obtain ⟨n', hle, hn'⟩ :=
    h.pre?_le_of_descends (h.descends_of_isAncestor hancestor) hm
  obtain rfl := Option.some.inj (hn.symm.trans hn')
  omega

/-- Some path leads to the source of a tree edge and avoids its target. -/
theorem exists_path_of_tree
    (h : Grows g entry [] t) {u v : NodeId} (huv : t.Tree g u v) :
    ∃ nodes, g.Path entry u nodes ∧ v ∉ nodes := by
  obtain ⟨m, n, hm, hn, hlt⟩ := h.tree_lt huv
  obtain ⟨nodes, hpath, hnodes⟩ := h.route hm
  refine ⟨nodes, hpath, ?_⟩
  intro hv
  obtain ⟨n', hle, hn'⟩ := hnodes v hv
  obtain rfl := Option.some.inj (hn.symm.trans hn')
  omega

end Grows

end SpanningTree
end ThreeAddress
