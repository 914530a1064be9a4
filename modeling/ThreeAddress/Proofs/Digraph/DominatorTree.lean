import Mathlib.Data.Nat.Init
import ThreeAddress.Proofs.Digraph.Dominance
import ThreeAddress.Proofs.Fact.Members

/-!
# The tree of immediate dominators

The dominators of a node form a chain: of two nodes that stand on every path to a
third, one stands on every path to the other.  Going up the chain the sets of
dominators shrink strictly, so no two strict dominators of a node have equally many
dominators, and the one with the most is dominated by all others.  Following it
from node to node meets exactly the dominators of the first node and ends at the
entry.
-/

namespace ThreeAddress
namespace Dominators

variable {ν ε : Type} {g : Digraph ν ε} {entry a b c : NodeId}

/-! ## Dominance as an order -/

theorem onEveryPath_self (g : Digraph ν ε) (entry a : NodeId) :
    OnEveryPath g entry a a :=
  fun _ hpath => hpath.target_mem

theorem onEveryPath_entry (g : Digraph ν ε) (entry a : NodeId) :
    OnEveryPath g entry entry a :=
  fun _ hpath => hpath.start_mem

theorem OnEveryPath.reaches
    (hab : OnEveryPath g entry a b) (hb : g.Reaches entry b) :
    g.Reaches entry a := by
  obtain ⟨nodes, hpath⟩ := hb
  exact hpath.reaches_of_mem (hab nodes hpath)

theorem OnEveryPath.trans
    (hab : OnEveryPath g entry a b) (hbc : OnEveryPath g entry b c) :
    OnEveryPath g entry a c := by
  intro nodes hpath
  obtain ⟨part, hpart, hcut⟩ := hpath.cut (hbc nodes hpath)
  exact hpart.subset (hab part hcut)

/-- A path without loops cannot pass through its last node on the way to
another. -/
theorem OnEveryPath.antisymm
    (hab : OnEveryPath g entry a b) (hba : OnEveryPath g entry b a)
    (hb : g.Reaches entry b) :
    a = b := by
  obtain ⟨nodes, hpath⟩ := hb
  obtain ⟨nodes, hnodup, -, hpath⟩ := hpath.exists_nodup
  have hmem := hab nodes hpath
  cases hpath with
  | single => exact List.mem_singleton.mp hmem
  | @extend u _ nodes hbefore hadj =>
      by_contra hne
      have hearlier : a ∈ nodes := by
        rcases List.mem_append.mp hmem with hold | hnew
        · exact hold
        · exact absurd (List.mem_singleton.mp hnew) hne
      obtain ⟨part, hpart, hcut⟩ := hbefore.cut hearlier
      have hagain : b ∈ nodes := hpart.subset (hba part hcut)
      exact (List.nodup_append.mp hnodup).2.2 b hagain b
        (List.mem_singleton_self b) rfl

/-- Where a path to each of two nodes avoids the other, a path to any node avoids
one of them. -/
theorem exists_avoiding
    {toA toB : List NodeId} (htoA : g.Path entry a toA) (hb : b ∉ toA)
    (htoB : g.Path entry b toB) (ha : a ∉ toB) (hc : g.Reaches entry c) :
    ∃ nodes, g.Path entry c nodes ∧ (a ∉ nodes ∨ b ∉ nodes) := by
  obtain ⟨nodes, hpath⟩ := hc
  -- a detour that comes to the node it avoids goes on along the other path
  induction hpath with
  | single hentry =>
      refine ⟨[entry], .single hentry, Or.inl ?_⟩
      intro hmem
      obtain rfl := List.mem_singleton.mp hmem
      exact ha htoB.start_mem
  | @extend u v nodes _ hadj ih =>
      obtain ⟨detour, hdetour, hout⟩ := ih
      have hlonger := hdetour.extend hadj
      rcases hout with hout | hout
      · by_cases hv : a = v
        · exact ⟨toA, hv ▸ htoA, Or.inr hb⟩
        · exact ⟨_, hlonger, Or.inl (by simp [hout, hv])⟩
      · by_cases hv : b = v
        · exact ⟨toB, hv ▸ htoB, Or.inl ha⟩
        · exact ⟨_, hlonger, Or.inr (by simp [hout, hv])⟩

/-- The dominators of a node form a chain. -/
theorem OnEveryPath.total
    (hac : OnEveryPath g entry a c) (hbc : OnEveryPath g entry b c)
    (hc : g.Reaches entry c) :
    OnEveryPath g entry a b ∨ OnEveryPath g entry b a := by
  by_contra hneither
  rw [not_or, OnEveryPath, OnEveryPath] at hneither
  simp only [not_forall] at hneither
  obtain ⟨⟨toB, htoB, ha⟩, toA, htoA, hb⟩ := hneither
  obtain ⟨nodes, hpath, hout⟩ := exists_avoiding htoA hb htoB ha hc
  rcases hout with hout | hout
  · exact hout (hac nodes hpath)
  · exact hout (hbc nodes hpath)

/-! ## The number of dominators -/

theorem depth_eq_length (d : Dominators) (node : NodeId) :
    d.depth node = (d.dominatorsOf node).length := by
  rw [depth, dominatorsOf]
  cases d.set? node with
  | none => rfl
  | some s => exact s.count_eq_length_toList

theorem nodup_dominatorsOf (d : Dominators) (node : NodeId) :
    (d.dominatorsOf node).Nodup := by
  rw [dominatorsOf]
  cases d.set? node with
  | none => exact List.nodup_nil
  | some s => exact s.nodup_toList

theorem set?_ofGraph_eq_none
    (hg : g.WellFormed) (hb : ¬ g.Reaches entry b) :
    (ofGraph g entry).set? b = none := by
  by_cases hentry : entry < g.nodeCount
  · have hexact := exact_ofGraph hg hentry
    rw [← Option.not_isSome_iff_eq_none]
    exact mt (hexact.isSome_iff b).mp hb
  · exact set?_ofGraph_of_le hentry b

theorem dominates_ofGraph_iff (hg : g.WellFormed) :
    (ofGraph g entry).dominates a b = true ↔
      g.Reaches entry b ∧ OnEveryPath g entry a b := by
  by_cases hb : g.Reaches entry b
  · rw [dominates_ofGraph hg hb, and_iff_right hb]
  · simp [dominates, set?_ofGraph_eq_none hg hb, hb]

theorem mem_dominatorsOf (hg : g.WellFormed) :
    a ∈ (ofGraph g entry).dominatorsOf b ↔
      g.Reaches entry b ∧ OnEveryPath g entry a b := by
  rw [← dominates_ofGraph_iff hg, dominates, dominatorsOf]
  cases hset : (ofGraph g entry).set? b with
  | none => simp
  | some s =>
      have hb : g.Reaches entry b := by
        by_contra hout
        rw [set?_ofGraph_eq_none hg hout] at hset
        contradiction
      have hkeeps := (keeps_ofGraph hg hb.start_lt).1
      exact BitSet.mem_toList (hkeeps.wellFormed b s hset).1

/-- A strict dominator of a node has fewer dominators than the node. -/
theorem OnEveryPath.depth_lt
    (hg : g.WellFormed) (hab : OnEveryPath g entry a b) (hne : a ≠ b)
    (hb : g.Reaches entry b) :
    (ofGraph g entry).depth a < (ofGraph g entry).depth b := by
  have hnew : b ∉ (ofGraph g entry).dominatorsOf a := by
    rw [mem_dominatorsOf hg]
    intro hba
    exact hne (hab.antisymm hba.2 hb)
  have hsub : b :: (ofGraph g entry).dominatorsOf a ⊆
      (ofGraph g entry).dominatorsOf b := by
    intro x hx
    rw [mem_dominatorsOf hg]
    rcases List.mem_cons.mp hx with rfl | hx
    · exact ⟨hb, onEveryPath_self g entry x⟩
    · exact ⟨hb, ((mem_dominatorsOf hg).mp hx).2.trans hab⟩
  have hnodup : (b :: (ofGraph g entry).dominatorsOf a).Nodup :=
    List.nodup_cons.mpr ⟨hnew, nodup_dominatorsOf _ a⟩
  rw [depth_eq_length, depth_eq_length]
  exact (List.subperm_of_subset hnodup hsub).length_le

/-! ## The deepest strict dominator -/

/-- The deeper of two nodes, and the second if they are equally deep. -/
def deeper (d : Dominators) (best : Option NodeId) (a : NodeId) :
    Option NodeId :=
  match best with
  | some b => if d.depth b ≤ d.depth a then some a else some b
  | none => some a

theorem immediate?_eq_foldl (d : Dominators) (node : NodeId) :
    d.immediate? node =
      ((d.dominatorsOf node).filter (· != node)).foldl d.deeper none :=
  rfl

/-- The deepest of some nodes is one of them. -/
theorem exists_foldl_deeper
    (d : Dominators) (first : NodeId) (rest : List NodeId) :
    ∃ best ∈ first :: rest, rest.foldl d.deeper (some first) = some best ∧
      ∀ a ∈ first :: rest, d.depth a ≤ d.depth best := by
  induction rest generalizing first with
  | nil => exact ⟨first, List.mem_cons_self, rfl, by simp⟩
  | cons next rest ih =>
      rw [List.foldl_cons, deeper]
      by_cases hle : d.depth first ≤ d.depth next
      · obtain ⟨best, hmem, hfold, hmax⟩ := ih next
        refine ⟨best, List.mem_cons_of_mem first hmem, ?_, ?_⟩
        · rw [if_pos hle, hfold]
        · rw [List.forall_mem_cons]
          exact ⟨Nat.le_trans hle (hmax next List.mem_cons_self), hmax⟩
      · obtain ⟨best, hmem, hfold, hmax⟩ := ih first
        rw [List.forall_mem_cons] at hmax
        refine ⟨best, ?_, ?_, ?_⟩
        · rcases List.mem_cons.mp hmem with rfl | hmem
          · exact List.mem_cons_self
          · exact List.mem_cons_of_mem first (List.mem_cons_of_mem next hmem)
        · rw [if_neg hle, hfold]
        · rw [List.forall_mem_cons, List.forall_mem_cons]
          exact ⟨hmax.1, Nat.le_trans (Nat.le_of_not_le hle) hmax.1, hmax.2⟩

/-- What is chosen is a strict dominator of greatest depth, unless there is no
strict dominator. -/
theorem immediate?_cases (d : Dominators) (node : NodeId) :
    (d.immediate? node = none ∧ ∀ a ∈ d.dominatorsOf node, a = node) ∨
      ∃ best, d.immediate? node = some best ∧
        (best ∈ d.dominatorsOf node ∧ best ≠ node) ∧
        ∀ a ∈ d.dominatorsOf node, a ≠ node → d.depth a ≤ d.depth best := by
  have hfilter : ∀ a, a ∈ (d.dominatorsOf node).filter (· != node) ↔
      a ∈ d.dominatorsOf node ∧ a ≠ node := by
    simp
  rw [immediate?_eq_foldl]
  cases hstrict : (d.dominatorsOf node).filter (· != node) with
  | nil =>
      refine Or.inl ⟨rfl, ?_⟩
      intro a ha
      by_contra hne
      have hmem := (hfilter a).mpr ⟨ha, hne⟩
      simp [hstrict] at hmem
  | cons first rest =>
      obtain ⟨best, hmem, hfold, hmax⟩ := d.exists_foldl_deeper first rest
      rw [← hstrict] at hmem hmax
      refine Or.inr ⟨best, hfold, (hfilter best).mp hmem, ?_⟩
      intro a ha hne
      exact hmax a ((hfilter a).mpr ⟨ha, hne⟩)

theorem immediate?_eq_none_iff (hg : g.WellFormed) {node : NodeId} :
    (ofGraph g entry).immediate? node = none ↔
      node = entry ∨ ¬ g.Reaches entry node := by
  rcases (ofGraph g entry).immediate?_cases node with
    ⟨hnone, honly⟩ | ⟨best, hbest, ⟨hmem, hne⟩, -⟩
  · refine iff_of_true hnone ?_
    rw [or_iff_not_imp_right, not_not]
    intro hreach
    exact (honly entry ((mem_dominatorsOf hg).mpr
      ⟨hreach, onEveryPath_entry g entry node⟩)).symm
  · refine iff_of_false (by simp [hbest]) ?_
    obtain ⟨hreach, hdom⟩ := (mem_dominatorsOf hg).mp hmem
    rintro (rfl | hout)
    · exact hne (hdom.antisymm (onEveryPath_entry g node best) hreach)
    · exact hout hreach

theorem immediate?_eq_some
    (hg : g.WellFormed) {node next : NodeId}
    (h : (ofGraph g entry).immediate? node = some next) :
    g.Reaches entry node ∧ next ≠ node ∧ OnEveryPath g entry next node ∧
      ∀ a, a ≠ node → OnEveryPath g entry a node →
        OnEveryPath g entry a next := by
  rcases (ofGraph g entry).immediate?_cases node with
    ⟨hnone, -⟩ | ⟨best, hbest, ⟨hmem, hne⟩, hmax⟩
  · rw [h] at hnone
    contradiction
  · obtain rfl := Option.some.inj (h.symm.trans hbest)
    obtain ⟨hreach, hdom⟩ := (mem_dominatorsOf hg).mp hmem
    refine ⟨hreach, hne, hdom, ?_⟩
    intro a hna ha
    rcases ha.total hdom hreach with hup | hdown
    · exact hup
    · -- a node further down the chain would have been chosen
      by_cases heq : next = a
      · exact heq ▸ onEveryPath_self g entry a
      · have hlt := hdown.depth_lt hg heq (ha.reaches hreach)
        have hle := hmax a ((mem_dominatorsOf hg).mpr ⟨hreach, ha⟩) hna
        exact absurd hlt (Nat.not_lt.mpr hle)

/-! ## The way up -/

/-- The nodes met on the way from a node to its immediate dominator, from there to
the next, and so on until a node has none. -/
inductive Climbs (d : Dominators) : NodeId → List NodeId → Prop
  | stop {node : NodeId} : d.immediate? node = none → Climbs d node [node]
  | step {node next : NodeId} {nodes : List NodeId} :
      d.immediate? node = some next → Climbs d next nodes →
      Climbs d node (node :: nodes)

/-- The way up from a node in reach of the entry meets each dominator once, and the
entry last. -/
theorem exists_climbs
    (hg : g.WellFormed) {node : NodeId} (hnode : g.Reaches entry node) :
    ∃ nodes, (ofGraph g entry).Climbs node nodes ∧
      nodes.getLast? = some entry ∧ nodes.Nodup ∧
      ∀ a, a ∈ nodes ↔ OnEveryPath g entry a node := by
  -- every step leads to a node with fewer dominators
  induction hdepth : (ofGraph g entry).depth node using Nat.strong_induction_on
    generalizing node with
  | _ n ih =>
      cases hnext : (ofGraph g entry).immediate? node with
      | none =>
          obtain rfl : node = entry :=
            ((immediate?_eq_none_iff hg).mp hnext).resolve_right
              (not_not.mpr hnode)
          refine ⟨[node], .stop hnext, rfl, List.nodup_singleton node, ?_⟩
          intro a
          rw [List.mem_singleton]
          constructor
          · rintro rfl
            exact onEveryPath_self g a a
          · intro ha
            exact ha.antisymm (onEveryPath_entry g node a) hnode
      | some next =>
          obtain ⟨-, hne, hdom, hclosest⟩ := immediate?_eq_some hg hnext
          have hreach := hdom.reaches hnode
          have hlt := hdom.depth_lt hg hne hnode
          obtain ⟨nodes, hclimbs, hlast, hnodup, hmem⟩ :=
            ih _ (hdepth ▸ hlt) hreach rfl
          refine ⟨node :: nodes, .step hnext hclimbs, ?_, ?_, ?_⟩
          · rw [List.getLast?_cons, hlast, Option.getD_some]
          · refine List.nodup_cons.mpr ⟨?_, hnodup⟩
            rw [hmem]
            intro hback
            exact hne (hdom.antisymm hback hnode)
          · intro a
            rw [List.mem_cons, hmem]
            constructor
            · rintro (rfl | ha)
              · exact onEveryPath_self g entry a
              · exact ha.trans hdom
            · intro ha
              rw [or_iff_not_imp_left]
              intro hna
              exact hclosest a hna ha

/-- A node has an immediate dominator unless it is the entry or out of reach.  The
immediate dominator is a strict dominator that every strict dominator dominates,
and following it from node to node meets exactly the dominators, the entry
last. -/
theorem immediate?_forms_tree
    {g : Digraph ν ε} (hg : g.Grown) (entry node : NodeId) :
    ((ofGraph g entry).immediate? node = none ↔
      node = entry ∨ ¬ g.Reaches entry node) ∧
    (∀ next, (ofGraph g entry).immediate? node = some next →
      (ofGraph g entry).strictlyDominates next node = true ∧
        ∀ a, (ofGraph g entry).strictlyDominates a node = true →
          (ofGraph g entry).dominates a next = true) ∧
    (g.Reaches entry node →
      ∃ nodes, (ofGraph g entry).Climbs node nodes ∧
        nodes.getLast? = some entry ∧ nodes.Nodup ∧
        ∀ a, a ∈ nodes ↔ (ofGraph g entry).dominates a node = true) := by
  have hwf := hg.wellFormed
  have hstrict : ∀ a, (ofGraph g entry).strictlyDominates a node = true ↔
      a ≠ node ∧ g.Reaches entry node ∧ OnEveryPath g entry a node := by
    intro a
    rw [strictlyDominates, Bool.and_eq_true, bne_iff_ne,
      dominates_ofGraph_iff hwf]
  refine ⟨immediate?_eq_none_iff hwf, ?_, ?_⟩
  · intro next hnext
    obtain ⟨hreach, hne, hdom, hclosest⟩ := immediate?_eq_some hwf hnext
    refine ⟨(hstrict next).mpr ⟨hne, hreach, hdom⟩, ?_⟩
    intro a ha
    obtain ⟨hna, -, ha⟩ := (hstrict a).mp ha
    exact (dominates_ofGraph hwf (hdom.reaches hreach)).mpr (hclosest a hna ha)
  · intro hreach
    obtain ⟨nodes, hclimbs, hlast, hnodup, hmem⟩ := exists_climbs hwf hreach
    refine ⟨nodes, hclimbs, hlast, hnodup, ?_⟩
    intro a
    rw [hmem, dominates_ofGraph hwf hreach]

/-- A loop from node 4 back to node 1, within which two ways lead from 1 to 4.  Node
6 leads into node 5 from outside. -/
def fork : Digraph Unit Unit where
  nodes := #[(), (), (), (), (), (), ()]
  edges := #[⟨0, 1, ()⟩, ⟨1, 2, ()⟩, ⟨1, 3, ()⟩, ⟨2, 4, ()⟩, ⟨3, 4, ()⟩,
    ⟨4, 1, ()⟩, ⟨4, 5, ()⟩, ⟨6, 5, ()⟩]
  outgoing := #[[0], [1, 2], [3], [4], [5, 6], [], [7]]
  incoming := #[[], [0, 5], [1], [2], [3, 4], [6, 7], []]

theorem grown_fork : fork.Grown :=
  Digraph.grown_of_ofPairs (n := 7)
    (show Digraph.ofPairs 7 [(0, 1), (1, 2), (1, 3), (2, 4), (3, 4), (4, 1),
      (4, 5), (6, 5)] = .ok fork from rfl)

theorem reachable_fork : fork.reachable 0 = ⟨7, #[63]⟩ := by
  cbv

theorem start_fork :
    start fork 0 =
      #[some ⟨7, #[1]⟩, some ⟨7, #[63]⟩, some ⟨7, #[63]⟩, some ⟨7, #[63]⟩,
        some ⟨7, #[63]⟩, some ⟨7, #[63]⟩, none] := by
  simp only [start, reachable_fork]
  decide +kernel

/-- The dominators of each node. -/
def forkSets : Array (Option BitSet) :=
  #[some ⟨7, #[1]⟩, some ⟨7, #[3]⟩, some ⟨7, #[7]⟩, some ⟨7, #[11]⟩,
    some ⟨7, #[19]⟩, some ⟨7, #[51]⟩, none]

/-- One sweep finds the dominators, and the next one changes nothing. -/
theorem ofGraph_fork : ofGraph fork 0 = ⟨0, forkSets, 2⟩ := by
  have hfirst : sweep fork 0 ⟨7, #[63]⟩ (start fork 0) = forkSets := by
    rw [start_fork]
    decide +kernel
  have hsecond : sweep fork 0 ⟨7, #[63]⟩ forkSets = forkSets := by
    decide +kernel
  have hchanges : forkSets ≠ start fork 0 := by
    rw [start_fork]
    decide +kernel
  have hnodes : fork.nodeCount = 5 + 1 + 1 := rfl
  rw [ofGraph, if_pos (by decide), reachable_fork, hnodes, settle, hfirst]
  simp only [if_neg hchanges, settle, hsecond, if_pos]

/-- The way up from node 5 leaves out the nodes 2 and 3, since each path meets only
one of them. -/
theorem immediate?_forms_tree_fork :
    fork.Grown ∧ fork.Reaches 0 5 ∧ ¬ fork.Reaches 0 6 ∧
      (ofGraph fork 0).immediate? 5 = some 4 ∧
      (ofGraph fork 0).dominates 1 4 = true ∧
      ∃ nodes, (ofGraph fork 0).Climbs 5 nodes ∧ nodes.getLast? = some 0 ∧
        4 ∈ nodes ∧ 3 ∉ nodes := by
  have hfive : (ofGraph fork 0).immediate? 5 = some 4 := by
    rw [ofGraph_fork]
    decide +kernel
  have hsix : (ofGraph fork 0).immediate? 6 = none := by
    rw [ofGraph_fork]
    decide +kernel
  have hone : (ofGraph fork 0).strictlyDominates 1 5 = true := by
    rw [ofGraph_fork]
    decide +kernel
  have hthree : (ofGraph fork 0).dominates 3 5 = false := by
    rw [ofGraph_fork]
    decide +kernel
  obtain ⟨hnone, hnext, hway⟩ := immediate?_forms_tree grown_fork 0 5
  obtain ⟨hfour, hclosest⟩ := hnext 4 hfive
  have hreach : fork.Reaches 0 5 := by
    by_contra hout
    rw [hnone.mpr (Or.inr hout)] at hfive
    contradiction
  obtain ⟨nodes, hclimbs, hlast, -, hmem⟩ := hway hreach
  refine ⟨grown_fork, hreach, ?_, hfive, hclosest 1 hone, nodes, hclimbs, hlast,
    ?_, ?_⟩
  · exact ((immediate?_forms_tree grown_fork 0 6).1.mp hsix).resolve_left
      (by decide)
  · exact (hmem 4).mpr (Bool.and_eq_true_iff.mp hfour).2
  · rw [hmem, hthree]
    exact Bool.false_ne_true

end Dominators
end ThreeAddress
