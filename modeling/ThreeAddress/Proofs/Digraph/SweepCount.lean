import Mathlib.Data.Set.Card
import Mathlib.Logic.Function.Iterate
import ThreeAddress.Proofs.Digraph.Dominance

/-!
# How many sweeps find the dominators

A node that does not dominate another is avoided by some path to it, and the path
can be freed of loops.  It then meets each reached node but the avoided one at
most once.  So if the entry reaches `r` nodes, the path has at most `r - 2` edges,
and as many sweeps have taken it into account, in whatever order they visit the
nodes.  The sets cannot change after that, and the next sweep ends the search.
-/

namespace ThreeAddress

namespace Digraph

variable {ν ε : Type} {g : Digraph ν ε} {start : NodeId}

theorem WellFormed.finite_reached (hg : g.WellFormed) :
    {node | g.Reaches start node}.Finite :=
  (Set.finite_lt_nat g.nodeCount).subset fun _ => hg.lt_of_reaches

/-- A list of different nodes that are reached is no longer than there are such
nodes. -/
theorem WellFormed.length_le_ncard_reached
    (hg : g.WellFormed) {nodes : List NodeId} (hnodup : nodes.Nodup)
    (hreached : ∀ node ∈ nodes, g.Reaches start node) :
    nodes.length ≤ {node | g.Reaches start node}.ncard := by
  rw [← List.toFinset_card_of_nodup hnodup, ← Set.ncard_coe_finset]
  apply Set.ncard_le_ncard _ hg.finite_reached
  intro node hnode
  exact hreached node (List.mem_toFinset.mp hnode)

theorem WellFormed.ncard_reached_le (hg : g.WellFormed) :
    {node | g.Reaches start node}.ncard ≤ g.nodeCount := by
  rw [← Finset.card_range g.nodeCount, ← Set.ncard_coe_finset]
  apply Set.ncard_le_ncard _ (Finset.finite_toSet _)
  intro node hnode
  exact Finset.mem_range.mpr (hg.lt_of_reaches hnode)

end Digraph

namespace Dominators

variable {ν ε : Type} {g : Digraph ν ε} {entry : NodeId}
  {sets result : Array (Option BitSet)}

/-! ## Sweeping without a bound -/

/-- Sweeps follow one another until one changes nothing.  That is the sweep of
number `count`, and it leaves the sets `result`. -/
inductive Settles (g : Digraph ν ε) (entry : NodeId) :
    Array (Option BitSet) → Nat → Array (Option BitSet) → Prop
  | still {sets : Array (Option BitSet)} :
      sweep g entry (g.reachable entry) sets = sets →
      Settles g entry sets 1 sets
  | again {sets result : Array (Option BitSet)} {count : Nat} :
      sweep g entry (g.reachable entry) sets ≠ sets →
      Settles g entry (sweep g entry (g.reachable entry) sets) count result →
      Settles g entry sets (count + 1) result

theorem Settles.count_pos
    {count : Nat} (h : Settles g entry sets count result) :
    1 ≤ count := by
  cases h with
  | still => exact Nat.le_refl 1
  | again => exact Nat.le_add_left 1 _

/-- A bound that is large enough makes no difference. -/
theorem Settles.settle_eq
    {count : Nat} (h : Settles g entry sets count result) {bound : Nat}
    (hbound : count ≤ bound) (made : Nat) :
    settle g entry (g.reachable entry) bound sets made =
      (result, made + count) := by
  induction h generalizing bound made with
  | still hfix =>
      obtain ⟨bound, rfl⟩ := Nat.exists_eq_add_one.mpr hbound
      rw [settle]
      exact if_pos hfix
  | again hchanges _ ih =>
      obtain ⟨bound, rfl⟩ :=
        Nat.exists_eq_add_one.mpr (Nat.zero_lt_of_lt hbound)
      rw [settle]
      refine (if_neg hchanges).trans ?_
      rw [ih (Nat.le_of_succ_le_succ hbound), Nat.add_right_comm, Nat.add_assoc]

theorem Settles.ofGraph_eq
    {count : Nat} (h : Settles g entry (start g entry) count result)
    (hentry : entry < g.nodeCount) (hbound : count ≤ g.nodeCount) :
    ofGraph g entry = ⟨entry, result, count⟩ := by
  rw [ofGraph, if_pos hentry, h.settle_eq hbound, Nat.zero_add]

/-- Sweeping ends if the sets do not change any more after `k` sweeps. -/
theorem exists_settles
    {k : Nat}
    (hfix : (sweep g entry (g.reachable entry))^[k + 1] sets =
      (sweep g entry (g.reachable entry))^[k] sets) :
    ∃ count result, Settles g entry sets count result ∧ count ≤ k + 1 := by
  induction k generalizing sets with
  | zero => exact ⟨1, sets, .still hfix, Nat.le_refl 1⟩
  | succ k ih =>
      by_cases hstill : sweep g entry (g.reachable entry) sets = sets
      · exact ⟨1, sets, .still hstill, Nat.le_add_left 1 _⟩
      · obtain ⟨count, result, hsettles, hcount⟩ := ih hfix
        exact ⟨count + 1, result, .again hstill hsettles,
          Nat.succ_le_succ hcount⟩

/-! ## The sets after `k` sweeps -/

/-- The sets hold only reached nodes. -/
def Within
    (g : Digraph ν ε) (entry : NodeId) (sets : Array (Option BitSet)) : Prop :=
  ∀ node s a, sets.getD node none = some s → s.contains a = true →
    g.Reaches entry a

theorem Within.update
    (hg : g.WellFormed) (hkeeps : Keeps g entry sets) (h : Within g entry sets)
    (node : NodeId) :
    Within g entry (update g entry (g.reachable entry) sets node) := by
  intro other s a hs ha
  rcases getD_update hg hkeeps node other with
    ⟨heq, -⟩ | ⟨rfl, -, hreach, heq⟩
  · exact h other s a (heq ▸ hs) ha
  · obtain rfl := Option.some.inj (heq.symm.trans hs)
    rcases (contains_refine hg hkeeps hreach a).mp ha with ⟨ha, -⟩ | rfl
    · exact ha
    · exact hreach

theorem Within.sweep
    (hg : g.WellFormed) (hkeeps : Keeps g entry sets)
    (h : Within g entry sets) :
    Within g entry (sweep g entry (g.reachable entry) sets) := by
  have hboth : Keeps g entry (Dominators.sweep g entry (g.reachable entry) sets) ∧
      Within g entry (Dominators.sweep g entry (g.reachable entry) sets) := by
    refine List.foldlRecOn (motive := fun sets =>
      Keeps g entry sets ∧ Within g entry sets) _ _ ⟨hkeeps, h⟩ ?_
    intro sets hsets node _
    exact ⟨hsets.1.update hg node, hsets.2.update hg hsets.1 node⟩
  exact hboth.2

theorem within_start
    (hg : g.WellFormed) (hentry : entry < g.nodeCount) :
    Within g entry (start g entry) := by
  intro node s a hs ha
  rcases (getD_start_eq_some_iff hg hentry).mp hs with
    ⟨-, rfl⟩ | ⟨-, -, rfl⟩
  · rw [(contains_singleton hentry a).mp ha]
    exact ⟨[entry], .single hentry⟩
  · exact hg.contains_reachable_iff.mp ha

/-- The sets as they are after `k` sweeps: they hold reached nodes, among them all
that stand on every path, and no others than stand on all paths along at most `k`
edges. -/
structure Swept
    (g : Digraph ν ε) (entry : NodeId) (k : Nat)
    (sets : Array (Option BitSet)) : Prop where
  keeps : Keeps g entry sets
  within : Within g entry sets
  narrow : ∀ node, Narrow g entry sets k node

theorem Swept.sweep
    {k : Nat} (hg : g.WellFormed) (h : Swept g entry k sets) :
    Swept g entry (k + 1) (sweep g entry (g.reachable entry) sets) := by
  obtain ⟨hkeeps, hnarrow⟩ := h.keeps.sweep hg h.narrow
  exact ⟨hkeeps, h.within.sweep hg h.keeps, hnarrow⟩

theorem swept_iterate
    (hg : g.WellFormed) (hentry : entry < g.nodeCount) (k : Nat) :
    Swept g entry k
      ((sweep g entry (g.reachable entry))^[k] (start g entry)) := by
  induction k with
  | zero =>
      exact ⟨keeps_start hg hentry, within_start hg hentry,
        narrow_start hg hentry⟩
  | succ k ih =>
      rw [Function.iterate_succ_apply']
      exact ih.sweep hg

/-- A path without loops that avoids a reached node meets at most the other ones,
so it is short enough to have been taken into account. -/
theorem Swept.exact
    {k : Nat} (hg : g.WellFormed) (h : Swept g entry k sets)
    (hk : {node | g.Reaches entry node}.ncard ≤ k + 2) :
    Exact g entry sets := by
  refine ⟨h.keeps.isSome_iff, ?_⟩
  intro node s a hs
  refine ⟨?_, h.keeps.contains_of_onEveryPath node s a hs⟩
  intro ha nodes hpath
  obtain ⟨part, hnodup, hsub, hpart⟩ := hpath.exists_nodup
  by_contra havoids
  have hout : a ∉ part := fun hmem => havoids (hsub hmem)
  have hreached : ∀ b ∈ a :: part, g.Reaches entry b := by
    rw [List.forall_mem_cons]
    exact ⟨h.within node s a hs ha, fun b => hpart.reaches_of_mem⟩
  have hlen := hg.length_le_ncard_reached (hnodup.cons hout) hreached
  rw [List.length_cons] at hlen
  exact hout (h.narrow node s a hs ha part hpart (by omega))

theorem Exact.getD_eq_some
    {other : Array (Option BitSet)} (hsets : Exact g entry sets)
    (hother : Exact g entry other) (hkeeps : Keeps g entry sets)
    (hkeeps' : Keeps g entry other) {node : NodeId} {s : BitSet}
    (hs : sets.getD node none = some s) :
    other.getD node none = some s := by
  have hreach : g.Reaches entry node := (hsets.isSome_iff node).mp (hs ▸ rfl)
  obtain ⟨t, ht⟩ :=
    Option.isSome_iff_exists.mp ((hother.isSome_iff node).mpr hreach)
  obtain ⟨hwf, hcapacity⟩ := hkeeps.wellFormed node s hs
  obtain ⟨hwf', hcapacity'⟩ := hkeeps'.wellFormed node t ht
  have hsame : s = t := by
    apply hwf.ext hwf' (hcapacity.trans hcapacity'.symm)
    intro a
    rw [Bool.eq_iff_iff, hsets.contains_iff node s a hs,
      hother.contains_iff node t a ht]
  rw [ht, hsame]

/-- What the sets are to hold determines them. -/
theorem Exact.unique
    {other : Array (Option BitSet)} (hsets : Exact g entry sets)
    (hother : Exact g entry other) (hkeeps : Keeps g entry sets)
    (hkeeps' : Keeps g entry other) :
    sets = other := by
  have hsame : ∀ node, sets.getD node none = other.getD node none := by
    intro node
    apply Option.ext
    intro s
    exact ⟨hsets.getD_eq_some hother hkeeps hkeeps',
      hother.getD_eq_some hsets hkeeps' hkeeps⟩
  apply Array.ext (hkeeps.size_eq.trans hkeeps'.size_eq.symm)
  intro node hnode hnode'
  simpa [hnode, hnode'] using hsame node

theorem sweep_iterate_eq
    {k : Nat} (hg : g.WellFormed) (hentry : entry < g.nodeCount)
    (hk : {node | g.Reaches entry node}.ncard ≤ k + 2) :
    (sweep g entry (g.reachable entry))^[k + 1] (start g entry) =
      (sweep g entry (g.reachable entry))^[k] (start g entry) := by
  have hnow := swept_iterate hg hentry k
  have hnext := swept_iterate hg hentry (k + 1)
  exact (hnext.exact hg (by omega)).unique (hnow.exact hg hk) hnext.keeps
    hnow.keeps

/-- The sweeps end by themselves, the bound on them is never felt, and there is at
least one.  There are fewer of them than nodes that the entry reaches, unless it
reaches only itself, in whatever order the nodes are numbered. -/
theorem sweeps_bounded_by_reached
    (hg : g.Grown) (hentry : entry < g.nodeCount) :
    Settles g entry (start g entry) (ofGraph g entry).sweeps
        (ofGraph g entry).sets ∧
      1 ≤ (ofGraph g entry).sweeps ∧
      (ofGraph g entry).sweeps ≤
        max 1 ({node | g.Reaches entry node}.ncard - 1) := by
  have hwf := hg.wellFormed
  have hpos : 0 < g.nodeCount := Nat.zero_lt_of_lt hentry
  have hreached : {node | g.Reaches entry node}.ncard ≤ g.nodeCount :=
    hwf.ncard_reached_le
  generalize hr : {node | g.Reaches entry node}.ncard = r at hreached ⊢
  have hfix := sweep_iterate_eq (k := r - 2) hwf hentry (by omega)
  obtain ⟨count, result, hsettles, hcount⟩ := exists_settles hfix
  have hbound : count ≤ g.nodeCount := by omega
  have hgraph := hsettles.ofGraph_eq hentry hbound
  rw [hgraph]
  have hle : count ≤ max 1 (r - 1) := by omega
  exact ⟨hsettles, hsettles.count_pos, hle⟩

/-- A chain whose nodes are numbered against its direction, and a node apart that
leads to its end. -/
def descent : Digraph Unit Unit where
  nodes := #[(), (), (), (), ()]
  edges := #[⟨0, 3, ()⟩, ⟨3, 2, ()⟩, ⟨2, 1, ()⟩, ⟨4, 1, ()⟩]
  outgoing := #[[0], [], [2], [1], [3]]
  incoming := #[[], [2, 3], [1], [0], []]

theorem grown_descent : descent.Grown :=
  Digraph.grown_of_ofPairs (n := 5)
    (show Digraph.ofPairs 5 [(0, 3), (3, 2), (2, 1), (4, 1)] = .ok descent
      from rfl)

theorem ncard_reached_descent : {node | descent.Reaches 0 node}.ncard = 4 := by
  have horder : descent.preorder 0 = [0, 3, 2, 1] := by cbv
  have hset : {node | descent.Reaches 0 node} =
      (([0, 3, 2, 1] : List NodeId).toFinset : Set NodeId) := by
    ext node
    rw [List.coe_toFinset, ← horder]
    exact grown_descent.wellFormed.mem_preorder_iff.symm
  rw [hset, Set.ncard_coe_finset]
  rfl

/-- Each sweep corrects one node of the chain, since it visits the node after
those that depend on it. -/
theorem settles_descent :
    Settles descent 0 (start descent 0) 3
      #[some ⟨5, #[1]⟩, some ⟨5, #[15]⟩, some ⟨5, #[13]⟩, some ⟨5, #[9]⟩,
        none] := by
  have hlive : descent.reachable 0 = ⟨5, #[15]⟩ := by cbv
  have hstart : start descent 0 =
      #[some ⟨5, #[1]⟩, some ⟨5, #[15]⟩, some ⟨5, #[15]⟩, some ⟨5, #[15]⟩,
        none] := by
    simp only [start, hlive]
    decide +kernel
  have hfirst : sweep descent 0 ⟨5, #[15]⟩ (start descent 0) =
      #[some ⟨5, #[1]⟩, some ⟨5, #[15]⟩, some ⟨5, #[15]⟩, some ⟨5, #[9]⟩,
        none] := by
    rw [hstart]
    decide +kernel
  have hsecond : sweep descent 0 ⟨5, #[15]⟩
      #[some ⟨5, #[1]⟩, some ⟨5, #[15]⟩, some ⟨5, #[15]⟩, some ⟨5, #[9]⟩,
        none] =
      #[some ⟨5, #[1]⟩, some ⟨5, #[15]⟩, some ⟨5, #[13]⟩, some ⟨5, #[9]⟩,
        none] := by
    decide +kernel
  refine .again ?_ ?_
  · rw [hlive, hfirst, hstart]
    decide +kernel
  rw [hlive, hfirst]
  refine .again ?_ ?_
  · rw [hlive, hsecond]
    decide +kernel
  rw [hlive, hsecond]
  refine .still ?_
  rw [hlive]
  decide +kernel

/-- Of four reached nodes, three sweeps are needed. -/
theorem sweeps_bounded_by_reached_descent :
    descent.Grown ∧ 0 < descent.nodeCount ∧
      {node | descent.Reaches 0 node}.ncard = 4 ∧
      (ofGraph descent 0).sweeps = 3 ∧
      (ofGraph descent 0).sweeps ≤
        max 1 ({node | descent.Reaches 0 node}.ncard - 1) := by
  have hentry : 0 < descent.nodeCount := by decide
  have hgraph := settles_descent.ofGraph_eq hentry (by decide)
  obtain ⟨-, -, hle⟩ := sweeps_bounded_by_reached grown_descent hentry
  exact ⟨grown_descent, hentry, ncard_reached_descent, by rw [hgraph], hle⟩

end Dominators
end ThreeAddress
