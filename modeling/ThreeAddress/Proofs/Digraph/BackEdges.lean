import ThreeAddress.Proofs.Digraph.SpanningTree

/-!
# Back edges

The reverse postorder of a search puts the source of an edge before its target
unless the edge is a back edge.  So the back edges are those that go against this
order.  Leaving them out leaves no cycle among the nodes in reach, and each of
them closes one with the tree edges above its source.
-/

namespace ThreeAddress

/-- Node `u` stands before node `v` in the list. -/
def Precedes (order : List NodeId) (u v : NodeId) : Prop :=
  ∃ i j : Nat, i < j ∧ order[i]? = some u ∧ order[j]? = some v

theorem precedes_reverse_iff {order : List NodeId} {u v : NodeId} :
    Precedes order.reverse u v ↔ Precedes order v u := by
  have hturn : ∀ {order : List NodeId} {u v : NodeId},
      Precedes order.reverse u v → Precedes order v u := by
    rintro order u v ⟨i, j, hij, hi, hj⟩
    have hlt : ∀ {k : Nat} {x}, order.reverse[k]? = some x → k < order.length := by
      intro k x hk
      simpa using (List.getElem?_eq_some_iff.mp hk).1
    have hltj := hlt hj
    rw [List.getElem?_reverse (hlt hi)] at hi
    rw [List.getElem?_reverse hltj] at hj
    exact ⟨_, _, by omega, hj, hi⟩
  refine ⟨hturn, ?_⟩
  intro h
  rw [← order.reverse_reverse] at h
  exact hturn h

theorem Enumerates.precedes_iff
    {order : List NodeId} {number : NodeId → Option Nat}
    (h : Enumerates order number) {u v : NodeId} :
    Precedes order u v ↔
      ∃ i j, i < j ∧ number u = some i ∧ number v = some j := by
  simp only [Precedes, h u, h v]

/-- Some edge leads from node `u`, which the entry reaches, to node `v`. -/
def Digraph.Within
    {ν ε : Type} (g : Digraph ν ε) (entry u v : NodeId) : Prop :=
  g.Reaches entry u ∧ g.Adjacent u v

namespace SpanningTree

variable {ν ε : Type} {g : Digraph ν ε} {entry : NodeId} {t : SpanningTree}

/-- The search left node `u` after node `v`. -/
def Outlasts (t : SpanningTree) (u v : NodeId) : Prop :=
  ∃ k l, t.post? u = some k ∧ t.post? v = some l ∧ l < k

theorem Outlasts.trans {u v w : NodeId}
    (huv : t.Outlasts u v) (hvw : t.Outlasts v w) :
    t.Outlasts u w := by
  obtain ⟨k, l, hk, hl, hlt⟩ := huv
  obtain ⟨l', m, hl', hm, hlt'⟩ := hvw
  obtain rfl := Option.some.inj (hl.symm.trans hl')
  exact ⟨k, m, hk, hm, Nat.lt_trans hlt' hlt⟩

instance (t : SpanningTree) : IsTrans NodeId t.Outlasts :=
  ⟨fun _ _ _ => Outlasts.trans⟩

theorem not_outlasts_self (u : NodeId) : ¬ t.Outlasts u u := by
  rintro ⟨k, l, hk, hl, hlt⟩
  obtain rfl := Option.some.inj (hk.symm.trans hl)
  exact Nat.lt_irrefl k hlt

/-- Steps to nodes left earlier form no cycle. -/
theorem not_transGen_of_outlasts
    {r : NodeId → NodeId → Prop} (h : ∀ u v, r u v → t.Outlasts u v)
    (u : NodeId) :
    ¬ Relation.TransGen r u u := by
  intro hcycle
  exact not_outlasts_self (t := t) u (Relation.transGen_minimal h u u hcycle)

/-- Some edge that is no back edge leads from node `u`, which the entry reaches,
to node `v`. -/
def Onward
    (t : SpanningTree) (g : Digraph ν ε) (entry u v : NodeId) : Prop :=
  g.Reaches entry u ∧ ∃ edge e, g.edge? edge = some e ∧
    (t.classes g)[edge]? ≠ some .back ∧ e.source = u ∧ e.target = v

section Finished

variable (h : Grows g entry [] t)

include h

theorem Grows.not_outlasts_of_isAncestor
    {a n : NodeId} (hancestor : t.isAncestor a n = true) :
    ¬ t.Outlasts n a := by
  rintro ⟨k, l, hk, hl, hlt⟩
  obtain ⟨-, hbelow⟩ := h.isAncestor_iff.mp hancestor
  obtain ⟨l', hle, hl'⟩ := h.post?_le_of_descends hbelow hk
  obtain rfl := Option.some.inj (hl.symm.trans hl')
  omega

/-- An edge between nodes in reach is a back edge exactly if its source is not
left after its target. -/
theorem Grows.classOf_eq_back_iff_not_outlasts
    {edge : EdgeId} {e : Edge ε} (hedge : g.edge? edge = some e)
    (hsource : g.Reaches entry e.source) :
    t.classOf edge e = .back ↔ ¬ t.Outlasts e.source e.target := by
  rw [classOf_eq_back_iff]
  constructor
  · rintro ⟨-, hancestor⟩
    exact h.not_outlasts_of_isAncestor hancestor
  · intro hnot
    have hadj : g.Adjacent e.source e.target :=
      ⟨e, Array.mem_of_getElem? hedge, rfl, rfl⟩
    have hancestor := (h.post?_lt_or_isAncestor hsource hadj).resolve_left hnot
    refine ⟨?_, hancestor⟩
    intro htree
    exact h.not_isAncestor_of_tree ⟨edge, e, htree, hedge, rfl, rfl⟩ hancestor

theorem Grows.outlasts_of_onward {u v : NodeId} (huv : t.Onward g entry u v) :
    t.Outlasts u v := by
  obtain ⟨hu, edge, e, hedge, hclass, rfl, rfl⟩ := huv
  rw [getElem?_classes, hedge, Option.map_some, ne_eq, Option.some.injEq,
    h.classOf_eq_back_iff_not_outlasts hedge hu] at hclass
  exact not_not.mp hclass

theorem Grows.within_of_tree {u v : NodeId} (huv : t.Tree g u v) :
    g.Within entry u v := by
  obtain ⟨m, -, hm, -, -⟩ := h.tree_lt huv
  exact ⟨h.entered_iff_reaches.mp ⟨m, hm⟩, adjacent_of_tree huv⟩

/-- A back edge closes a cycle with the tree edges that lead to its source. -/
theorem Grows.transGen_of_back
    {edge : EdgeId} {e : Edge ε} (hedge : g.edge? edge = some e)
    (hback : t.classOf edge e = .back) :
    Relation.TransGen (g.Within entry) e.source e.source := by
  obtain ⟨-, hancestor⟩ := classOf_eq_back_iff.mp hback
  obtain ⟨hentered, hbelow⟩ := h.isAncestor_iff.mp hancestor
  have hup : g.Within entry e.source e.target :=
    ⟨h.entered_iff_reaches.mp hentered, e, Array.mem_of_getElem? hedge, rfl, rfl⟩
  have hdown : Relation.ReflTransGen (g.Within entry) e.target e.source :=
    Relation.ReflTransGen.mono (fun _ _ => h.within_of_tree) _ _ hbelow
  exact .head' hup hdown

theorem Grows.exists_cycle_iff :
    (∃ u, Relation.TransGen (g.Within entry) u u) ↔
      ∃ edge : EdgeId, (t.classes g)[edge]? = some .back := by
  constructor
  · rintro ⟨u, hcycle⟩
    by_contra hnone
    refine not_transGen_of_outlasts (t := t) ?_ u hcycle
    rintro v w ⟨hv, e, he, rfl, rfl⟩
    obtain ⟨edge, hedge⟩ := Array.mem_iff_getElem?.mp he
    exact h.outlasts_of_onward
      ⟨hv, edge, e, hedge, fun hback => hnone ⟨edge, hback⟩, rfl, rfl⟩
  · rintro ⟨edge, hback⟩
    rw [getElem?_classes, Option.map_eq_some_iff] at hback
    obtain ⟨e, hedge, hback⟩ := hback
    exact ⟨e.source, h.transGen_of_back hedge hback⟩

end Finished

/-- An edge whose source is in reach is a back edge exactly if its source is left
no later than its target, that is, if the reverse postorder does not put the
source before the target.  The nodes in reach have a cycle exactly if there is a
back edge, and without the back edges they have none. -/
theorem back_iff_against_reversePostorder
    (hg : g.Grown) (hentry : entry < g.nodeCount) :
    (∀ edge e, g.edge? edge = some e → g.Reaches entry e.source →
      (∃ k l, (ofGraph g entry).post? e.source = some k ∧
        (ofGraph g entry).post? e.target = some l ∧
        (((ofGraph g entry).classes g)[edge]? = some .back ↔ k ≤ l)) ∧
      (((ofGraph g entry).classes g)[edge]? = some .back ↔
        ¬ Precedes (g.reversePostorder entry) e.source e.target)) ∧
    ((∃ u, Relation.TransGen (g.Within entry) u u) ↔
      ∃ edge : EdgeId, ((ofGraph g entry).classes g)[edge]? = some .back) ∧
    ∀ u, ¬ Relation.TransGen ((ofGraph g entry).Onward g entry) u u := by
  have hgrows := grows_ofGraph hg.wellFormed hentry
  refine ⟨?_, hgrows.exists_cycle_iff,
    not_transGen_of_outlasts fun _ _ => hgrows.outlasts_of_onward⟩
  intro edge e hedge hsource
  have hback : ((ofGraph g entry).classes g)[edge]? = some .back ↔
      ¬ (ofGraph g entry).Outlasts e.source e.target := by
    rw [getElem?_classes, hedge, Option.map_some, Option.some.injEq,
      hgrows.classOf_eq_back_iff_not_outlasts hedge hsource]
  have htarget : g.Reaches entry e.target :=
    hsource.of_adjacent ⟨e, Array.mem_of_getElem? hedge, rfl, rfl⟩
  obtain ⟨k, hk⟩ := (Digraph.exists_post?_ofGraph_iff hg.wellFormed).mpr hsource
  obtain ⟨l, hl⟩ := (Digraph.exists_post?_ofGraph_iff hg.wellFormed).mpr htarget
  refine ⟨⟨k, l, hk, hl, ?_⟩, ?_⟩
  · rw [hback, Outlasts, hk, hl]
    simp
  · have horder := Digraph.enumerates_postorder g entry
    rw [hback, Digraph.reversePostorder, precedes_reverse_iff,
      horder.precedes_iff, Outlasts, hk, hl]
    simp

/-- Edge 5 leads from node 3 back to node 0, and edge 4 from node 2 on to
node 3. -/
theorem back_iff_against_reversePostorder_twoWays :
    Digraph.twoWays.Grown ∧ 0 < Digraph.twoWays.nodeCount ∧
      ((ofGraph Digraph.twoWays 0).classes Digraph.twoWays)[5]? = some .back ∧
      ¬ Precedes (Digraph.twoWays.reversePostorder 0) 3 0 ∧
      ((ofGraph Digraph.twoWays 0).classes Digraph.twoWays)[4]? = some .cross ∧
      Precedes (Digraph.twoWays.reversePostorder 0) 2 3 ∧
      ∃ u, Relation.TransGen (Digraph.twoWays.Within 0) u u := by
  have hentry : 0 < Digraph.twoWays.nodeCount := by decide
  obtain ⟨hedges, hcycle, -⟩ :=
    back_iff_against_reversePostorder Digraph.grown_twoWays hentry
  have hback : ((ofGraph Digraph.twoWays 0).classes Digraph.twoWays)[5]? =
      some .back := by
    cbv
  have hcross : ((ofGraph Digraph.twoWays 0).classes Digraph.twoWays)[4]? =
      some .cross := by
    cbv
  obtain ⟨-, hfive⟩ := hedges 5 ⟨3, 0, ()⟩ rfl (Digraph.reaches_twoWays (by decide))
  obtain ⟨-, hfour⟩ := hedges 4 ⟨2, 3, ()⟩ rfl (Digraph.reaches_twoWays (by decide))
  refine ⟨Digraph.grown_twoWays, hentry, hback, hfive.mp hback, hcross, ?_,
    hcycle.mpr ⟨5, hback⟩⟩
  rw [hcross] at hfour
  simpa using hfour

end SpanningTree
end ThreeAddress
