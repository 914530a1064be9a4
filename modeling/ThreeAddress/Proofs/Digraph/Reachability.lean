import ThreeAddress.Digraph.Search
import ThreeAddress.Fact.BitSet.Lemmas
import ThreeAddress.Proofs.Digraph.Paths

/-!
# What a search from a node lists

The depth-first search from a node lists exactly the nodes at the ends of paths
from it.  Whatever it lists is reached, since it takes up only successors of
listed nodes; and no reached node is left out, since the listed nodes are closed
under successors.
-/

namespace ThreeAddress

namespace Marks

theorem fresh_iff {marks : Marks} {node : NodeId} :
    marks.fresh node = true ↔ marks[node]? = some false := by
  rw [fresh, beq_iff_eq]

theorem fresh_none {n : Nat} {node : NodeId} :
    (none n).fresh node = true ↔ node < n := by
  simp [fresh_iff, none, Array.getElem?_replicate]

theorem fresh_visit {marks : Marks} {node other : NodeId} :
    (marks.visit node).fresh other = true ↔
      marks.fresh other = true ∧ other ≠ node := by
  rw [fresh_iff, fresh_iff, visit, Array.getElem?_setIfInBounds]
  by_cases h : node = other
  · subst h
    by_cases hnode : node < marks.size
    · simp [hnode]
    · simp [hnode]
  · simp [h, Ne.symm h]

end Marks

namespace Digraph

variable {ν ε : Type}

/-- A property of all pending nodes that passes to successors holds of all
listed nodes. -/
theorem of_mem_preorderFrom
    {g : Digraph ν ε} {P : NodeId → Prop}
    (hsucc : ∀ u v, P u → v ∈ g.successors u → P v)
    {pending : List NodeId} {marks : Marks}
    (hpending : ∀ u ∈ pending, marks.fresh u = true → P u) {node : NodeId}
    (hnode : node ∈ g.preorderFrom pending marks) :
    P node := by
  fun_induction preorderFrom g pending marks with
  | case1 => simp at hnode
  | case2 marks first rest hfresh ih =>
      have hfirst : P first := hpending first List.mem_cons_self hfresh
      rcases List.mem_cons.mp hnode with rfl | hlater
      · exact hfirst
      · refine ih ?_ hlater
        intro u hu hufresh
        rcases List.mem_append.mp hu with hnext | hrest
        · exact hsucc first u hfirst (List.mem_of_mem_filter hnext)
        · exact hpending u (List.mem_cons_of_mem first hrest)
            (Marks.fresh_visit.mp hufresh).1
  | case3 marks first rest hfresh ih =>
      refine ih ?_ hnode
      intro u hu
      exact hpending u (List.mem_cons_of_mem first hu)

/-- The search lists every pending node that is not marked, and with a node
every successor that is not marked. -/
theorem preorderFrom_closed
    (g : Digraph ν ε) (pending : List NodeId) (marks : Marks) :
    (∀ u ∈ pending, marks.fresh u = true → u ∈ g.preorderFrom pending marks) ∧
      ∀ u ∈ g.preorderFrom pending marks, ∀ v ∈ g.successors u,
        marks.fresh v = true → v ∈ g.preorderFrom pending marks := by
  fun_induction preorderFrom g pending marks with
  | case1 => simp
  | case2 marks first rest hfresh ih =>
      obtain ⟨hpending, hclosed⟩ := ih
      -- the first node itself is the only one that gets marked
      have hlater : ∀ {order : List NodeId} v, marks.fresh v = true →
          ((marks.visit first).fresh v = true → v ∈ order) →
          v ∈ first :: order := by
        intro order v hv hmem
        by_cases hne : v = first
        · exact hne ▸ List.mem_cons_self
        · exact List.mem_cons_of_mem first
            (hmem (Marks.fresh_visit.mpr ⟨hv, hne⟩))
      constructor
      · intro u hu hufresh
        rcases List.mem_cons.mp hu with rfl | hrest
        · exact List.mem_cons_self
        · exact hlater u hufresh
            (hpending u (List.mem_append_right _ hrest))
      · intro u hu v hv hvfresh
        apply hlater v hvfresh
        rcases List.mem_cons.mp hu with rfl | hlisted
        · intro hleft
          exact hpending v
            (List.mem_append_left _ (List.mem_filter.mpr ⟨hv, hleft⟩)) hleft
        · exact hclosed u hlisted v hv
  | case3 marks first rest hfresh ih =>
      obtain ⟨hpending, hclosed⟩ := ih
      refine ⟨?_, hclosed⟩
      intro u hu hufresh
      rcases List.mem_cons.mp hu with rfl | hrest
      · exact absurd hufresh hfresh
      · exact hpending u hrest hufresh

theorem WellFormed.mem_preorder_iff
    {g : Digraph ν ε} (hg : g.WellFormed) {start node : NodeId} :
    node ∈ g.preorder start ↔ g.Reaches start node := by
  constructor
  · intro hnode
    refine of_mem_preorderFrom (P := g.Reaches start) ?_ ?_ hnode
    · intro u v hu hv
      exact hu.of_adjacent (hg.mem_successors.mp hv)
    · intro u hu hfresh
      obtain rfl := List.mem_singleton.mp hu
      exact ⟨[u], .single (Marks.fresh_none.mp hfresh)⟩
  · rintro ⟨nodes, hpath⟩
    obtain ⟨hpending, hclosed⟩ :=
      g.preorderFrom_closed [start] (Marks.none g.nodeCount)
    induction hpath with
    | single hstart =>
        exact hpending start List.mem_cons_self (Marks.fresh_none.mpr hstart)
    | @extend u v nodes hpath hadj ih =>
        exact hclosed u ih v (hg.mem_successors.mpr hadj)
          (Marks.fresh_none.mpr (hg.lt_of_adjacent hadj).2)

theorem capacity_reachable (g : Digraph ν ε) (start : NodeId) :
    (g.reachable start).capacity = g.nodeCount :=
  BitSet.capacity_foldl_insert _ _

theorem wellFormed_reachable (g : Digraph ν ε) (start : NodeId) :
    (g.reachable start).WellFormed :=
  (BitSet.wellFormed_empty _).foldl_insert _

theorem WellFormed.contains_reachable_iff
    {g : Digraph ν ε} (hg : g.WellFormed) {start node : NodeId} :
    (g.reachable start).contains node = true ↔ g.Reaches start node := by
  have hlisted : ∀ u ∈ g.preorder start,
      u < (BitSet.empty g.nodeCount).capacity := by
    intro u hu
    exact hg.lt_of_reaches (hg.mem_preorder_iff.mp hu)
  rw [reachable, BitSet.contains_foldl_insert (BitSet.wellFormed_empty _)
    hlisted, BitSet.contains_empty, hg.mem_preorder_iff]
  simp

end Digraph
end ThreeAddress
