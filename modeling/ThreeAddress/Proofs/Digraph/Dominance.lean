import ThreeAddress.Digraph.Dominators
import ThreeAddress.Proofs.Digraph.Reachability

/-!
# Dominators are the nodes on every path

The set that the sweeps leave at a node holds exactly the nodes that stand on
every path from the entry to it.  Two facts meet here.  No sweep removes such a
node: the set of a node never loses what stands on every path.  And each sweep
takes longer paths into account: after `k` sweeps the set of a node holds only
nodes that stand on all its paths along at most `k` edges.  A path that avoids
a node can be freed of loops, so as many sweeps as there are nodes are enough.
-/

namespace ThreeAddress
namespace Dominators

variable {ν ε : Type}

/-- Node `a` stands on every path from the entry to `b`. -/
def OnEveryPath (g : Digraph ν ε) (entry a b : NodeId) : Prop :=
  ∀ nodes, g.Path entry b nodes → a ∈ nodes

/-- Exactly the reached nodes have a set, and every set keeps the nodes that
stand on every path. -/
structure Keeps
    (g : Digraph ν ε) (entry : NodeId) (sets : Array (Option BitSet)) :
    Prop where
  size_eq : sets.size = g.nodeCount
  isSome_iff : ∀ node,
    (sets.getD node none).isSome = true ↔ g.Reaches entry node
  wellFormed : ∀ node s, sets.getD node none = some s →
    s.WellFormed ∧ s.capacity = g.nodeCount
  contains_of_onEveryPath : ∀ node s a, sets.getD node none = some s →
    OnEveryPath g entry a node → s.contains a = true
  eq_entry : ∀ s a, sets.getD entry none = some s →
    s.contains a = true → a = entry

/-- The set of a node holds only nodes that stand on all its paths along at
most `k` edges. -/
def Narrow
    (g : Digraph ν ε) (entry : NodeId) (sets : Array (Option BitSet))
    (k : Nat) (node : NodeId) : Prop :=
  ∀ s a, sets.getD node none = some s → s.contains a = true →
    ∀ nodes, g.Path entry node nodes → nodes.length ≤ k + 1 → a ∈ nodes

/-- The set of the entry needs no sweep. -/
theorem Keeps.narrow_entry
    {g : Digraph ν ε} {entry : NodeId} {sets : Array (Option BitSet)}
    (h : Keeps g entry sets) (k : Nat) :
    Narrow g entry sets k entry := by
  intro s a hs ha nodes hpath _
  rw [h.eq_entry s a hs ha]
  exact hpath.target_mem

/-! ## One update -/

theorem contains_refine
    {g : Digraph ν ε} (hg : g.WellFormed) {entry : NodeId}
    {sets : Array (Option BitSet)} (h : Keeps g entry sets) {node : NodeId}
    (hnode : g.Reaches entry node) (a : NodeId) :
    (refine g (g.reachable entry) sets node).contains a = true ↔
      (g.Reaches entry a ∧ ∀ p s, g.Adjacent p node →
        sets.getD p none = some s → s.contains a = true) ∨ a = node := by
  let known := (g.predecessors node).filterMap fun p => sets.getD p none
  have hlive := g.wellFormed_reachable entry
  have hknown : ∀ t ∈ known, t.WellFormed ∧
      t.capacity = (g.reachable entry).capacity := by
    intro t ht
    obtain ⟨p, -, hp⟩ := List.mem_filterMap.mp ht
    rw [g.capacity_reachable]
    exact h.wellFormed p t hp
  have hlt : node < (known.foldl BitSet.inter (g.reachable entry)).capacity := by
    rw [BitSet.capacity_foldl_inter, g.capacity_reachable]
    exact hg.lt_of_reaches hnode
  have hmem : (∀ t ∈ known, t.contains a = true) ↔
      ∀ p s, g.Adjacent p node → sets.getD p none = some s →
        s.contains a = true := by
    constructor
    · intro hall p s hadj hs
      exact hall s (List.mem_filterMap.mpr
        ⟨p, hg.mem_predecessors.mpr hadj, hs⟩)
    · intro hall t ht
      obtain ⟨p, hp, hs⟩ := List.mem_filterMap.mp ht
      exact hall p t (hg.mem_predecessors.mp hp) hs
  rw [refine, BitSet.contains_insert (hlive.foldl_inter hknown) hlt,
    Bool.or_eq_true, BitSet.contains_foldl_inter hlive hknown,
    hg.contains_reachable_iff, hmem, decide_eq_true_eq]

theorem wellFormed_refine
    {g : Digraph ν ε} {entry : NodeId} {sets : Array (Option BitSet)}
    (h : Keeps g entry sets) (node : NodeId) :
    (refine g (g.reachable entry) sets node).WellFormed ∧
      (refine g (g.reachable entry) sets node).capacity = g.nodeCount := by
  constructor
  · apply BitSet.WellFormed.insert
    apply (g.wellFormed_reachable entry).foldl_inter
    intro t ht
    obtain ⟨p, -, hp⟩ := List.mem_filterMap.mp ht
    rw [g.capacity_reachable]
    exact h.wellFormed p t hp
  · rw [refine, BitSet.capacity_insert, BitSet.capacity_foldl_inter,
      g.capacity_reachable]

/-- The set of a node after an update: new at the updated node if that is
reached and not the entry, and as before elsewhere. -/
theorem getD_update
    {g : Digraph ν ε} (hg : g.WellFormed) {entry : NodeId}
    {sets : Array (Option BitSet)} (h : Keeps g entry sets)
    (node other : NodeId) :
    ((update g entry (g.reachable entry) sets node).getD other none =
        sets.getD other none ∧
      (other = node → node = entry ∨ ¬ g.Reaches entry node)) ∨
      (other = node ∧ node ≠ entry ∧ g.Reaches entry node ∧
        (update g entry (g.reachable entry) sets node).getD other none =
          some (refine g (g.reachable entry) sets node)) := by
  rw [update]
  split
  · next hupdate =>
      obtain ⟨hne, hlive⟩ := hupdate
      have hreach : g.Reaches entry node := hg.contains_reachable_iff.mp hlive
      have hlt : node < sets.size := by
        rw [h.size_eq]
        exact hg.lt_of_reaches hreach
      by_cases hother : other = node
      · subst hother
        refine Or.inr ⟨rfl, hne, hreach, ?_⟩
        simp [hlt]
      · refine Or.inl ⟨?_, fun heq => absurd heq hother⟩
        simp [Ne.symm hother]
  · next hskip =>
      refine Or.inl ⟨rfl, fun _ => ?_⟩
      by_cases hne : node = entry
      · exact Or.inl hne
      · exact Or.inr fun hreach =>
          hskip ⟨hne, hg.contains_reachable_iff.mpr hreach⟩

theorem Keeps.update
    {g : Digraph ν ε} (hg : g.WellFormed) {entry : NodeId}
    {sets : Array (Option BitSet)} (h : Keeps g entry sets) (node : NodeId) :
    Keeps g entry (update g entry (g.reachable entry) sets node) := by
  refine ⟨?_, ?_, ?_, ?_, ?_⟩
  · rw [← h.size_eq, Dominators.update]
    split <;> simp
  · intro other
    rcases getD_update hg h node other with ⟨heq, -⟩ | ⟨rfl, -, hreach, heq⟩
    · rw [heq]
      exact h.isSome_iff other
    · rw [heq]
      exact iff_of_true rfl hreach
  · intro other s hs
    rcases getD_update hg h node other with ⟨heq, -⟩ | ⟨rfl, -, -, heq⟩
    · exact h.wellFormed other s (heq ▸ hs)
    · obtain rfl := Option.some.inj (heq.symm.trans hs)
      exact wellFormed_refine h other
  · intro other s a hs hall
    rcases getD_update hg h node other with ⟨heq, -⟩ | ⟨rfl, -, hreach, heq⟩
    · exact h.contains_of_onEveryPath other s a (heq ▸ hs) hall
    · obtain rfl := Option.some.inj (heq.symm.trans hs)
      rw [contains_refine hg h hreach]
      by_cases hne : a = other
      · exact Or.inr hne
      · -- `a` stands on every path to a predecessor, since it is not the end
        refine Or.inl ⟨?_, ?_⟩
        · obtain ⟨nodes, hpath⟩ := hreach
          exact hpath.reaches_of_mem (hall nodes hpath)
        · intro p t hadj ht
          refine h.contains_of_onEveryPath p t a ht ?_
          intro nodes hpath
          rcases List.mem_append.mp (hall _ (hpath.extend hadj)) with hold | hnew
          · exact hold
          · exact absurd (List.mem_singleton.mp hnew) hne
  · intro s a hs ha
    rcases getD_update hg h node entry with ⟨heq, -⟩ | ⟨rfl, hne, -, -⟩
    · exact h.eq_entry s a (heq ▸ hs) ha
    · exact absurd rfl hne

/-- An update takes paths into account that are one edge longer. -/
theorem narrow_update_self
    {g : Digraph ν ε} (hg : g.WellFormed) {entry : NodeId}
    {sets : Array (Option BitSet)} (h : Keeps g entry sets) {k : Nat}
    (hnarrow : ∀ node, Narrow g entry sets k node) {node : NodeId}
    (hne : node ≠ entry) (hreach : g.Reaches entry node) :
    ∀ a, (refine g (g.reachable entry) sets node).contains a = true →
      ∀ nodes, g.Path entry node nodes → nodes.length ≤ k + 2 → a ∈ nodes := by
  intro a ha nodes hpath hlen
  rcases (contains_refine hg h hreach a).mp ha with ⟨-, hpreds⟩ | rfl
  · cases hpath with
    | single => exact absurd rfl hne
    | @extend p _ nodes hpath hadj =>
        have hp : (sets.getD p none).isSome = true :=
          (h.isSome_iff p).mpr ⟨nodes, hpath⟩
        obtain ⟨s, hs⟩ := Option.isSome_iff_exists.mp hp
        rw [List.length_append, List.length_singleton] at hlen
        exact List.mem_append_left _
          (hnarrow p s a hs (hpreds p s hadj hs) nodes hpath (by omega))
  · exact hpath.target_mem

theorem narrow_update
    {g : Digraph ν ε} (hg : g.WellFormed) {entry : NodeId}
    {sets : Array (Option BitSet)} (h : Keeps g entry sets) {k : Nat}
    (hnarrow : ∀ node, Narrow g entry sets k node) {l : Nat} (hl : l ≤ k + 1)
    (node other : NodeId)
    (hother : other = node ∨ Narrow g entry sets l other) :
    Narrow g entry (update g entry (g.reachable entry) sets node) l
      other := by
  intro s a hs ha
  rcases getD_update hg h node other with ⟨heq, hskip⟩ | ⟨rfl, hne, hreach, heq⟩
  · rw [heq] at hs
    rcases hother with rfl | hother
    · rcases hskip rfl with rfl | hout
      · exact h.narrow_entry l s a hs ha
      · exact absurd ((h.isSome_iff other).mp (hs ▸ rfl)) hout
    · exact hother s a hs ha
  · obtain rfl := Option.some.inj (heq.symm.trans hs)
    intro nodes hpath hlen
    exact narrow_update_self hg h hnarrow hne hreach a ha nodes hpath
      (by omega)

/-! ## Sweeps -/

/-- Updating nodes in turn, each update seeing the earlier ones, takes paths to
the updated nodes into account that are one edge longer. -/
theorem foldl_update
    {g : Digraph ν ε} (hg : g.WellFormed) {entry : NodeId} {k : Nat}
    (order : List NodeId) {sets : Array (Option BitSet)}
    (h : Keeps g entry sets)
    (hnarrow : ∀ node, Narrow g entry sets k node) :
    Keeps g entry (order.foldl (update g entry (g.reachable entry)) sets) ∧
      ∀ node, node ∈ order ∨ Narrow g entry sets (k + 1) node →
        Narrow g entry
          (order.foldl (update g entry (g.reachable entry)) sets) (k + 1)
          node := by
  induction order generalizing sets with
  | nil =>
      refine ⟨h, ?_⟩
      intro node hnode
      exact hnode.resolve_left List.not_mem_nil
  | cons first rest ih =>
      have hfirst : ∀ node, Narrow g entry
          (update g entry (g.reachable entry) sets first) k node := by
        intro node
        exact narrow_update hg h hnarrow (Nat.le_succ k) first node
          (Or.inr (hnarrow node))
      obtain ⟨hkeeps, hrest⟩ := ih (h.update hg first) hfirst
      refine ⟨hkeeps, ?_⟩
      intro node hnode
      apply hrest node
      rcases hnode with hmem | hold
      · rcases List.mem_cons.mp hmem with rfl | hmem
        · exact Or.inr (narrow_update hg h hnarrow (Nat.le_refl _) node node
            (Or.inl rfl))
        · exact Or.inl hmem
      · exact Or.inr (narrow_update hg h hnarrow (Nat.le_refl _) first node
          (Or.inr hold))

theorem Keeps.sweep
    {g : Digraph ν ε} (hg : g.WellFormed) {entry : NodeId} {k : Nat}
    {sets : Array (Option BitSet)} (h : Keeps g entry sets)
    (hnarrow : ∀ node, Narrow g entry sets k node) :
    Keeps g entry (sweep g entry (g.reachable entry) sets) ∧
      ∀ node,
        Narrow g entry (sweep g entry (g.reachable entry) sets) (k + 1)
          node := by
  obtain ⟨hkeeps, hsweep⟩ :=
    foldl_update hg (List.range g.nodeCount) h hnarrow
  refine ⟨hkeeps, ?_⟩
  intro node
  by_cases hnode : node < g.nodeCount
  · exact hsweep node (Or.inl (List.mem_range.mpr hnode))
  · intro s a hs
    have hreach : g.Reaches entry node := (hkeeps.isSome_iff node).mp (hs ▸ rfl)
    exact absurd (hg.lt_of_reaches hreach) hnode

/-- The sets hold exactly the nodes that stand on every path. -/
structure Exact
    (g : Digraph ν ε) (entry : NodeId) (sets : Array (Option BitSet)) :
    Prop where
  isSome_iff : ∀ node,
    (sets.getD node none).isSome = true ↔ g.Reaches entry node
  contains_iff : ∀ node s a, sets.getD node none = some s →
    (s.contains a = true ↔ OnEveryPath g entry a node)

/-- Paths without loops show all that can be shown. -/
theorem Keeps.exact
    {g : Digraph ν ε} (hg : g.WellFormed) {entry : NodeId} {k : Nat}
    {sets : Array (Option BitSet)} (h : Keeps g entry sets)
    (hnarrow : ∀ node, Narrow g entry sets k node) (hk : g.nodeCount ≤ k) :
    Exact g entry sets := by
  refine ⟨h.isSome_iff, ?_⟩
  intro node s a hs
  constructor
  · intro ha nodes hpath
    obtain ⟨part, hnodup, hsub, hpart⟩ := hpath.exists_nodup
    have hlen : part.length ≤ g.nodeCount := hg.length_le_of_nodup hpart hnodup
    exact hsub (hnarrow node s a hs ha part hpart (by omega))
  · exact h.contains_of_onEveryPath node s a hs

/-- Sets that a sweep does not change take all paths into account. -/
theorem narrow_of_sweep_eq
    {g : Digraph ν ε} (hg : g.WellFormed) {entry : NodeId} {k : Nat}
    {sets : Array (Option BitSet)} (h : Keeps g entry sets)
    (hnarrow : ∀ node, Narrow g entry sets k node)
    (hfix : sweep g entry (g.reachable entry) sets = sets) (l : Nat) :
    ∀ node, Narrow g entry sets (k + l) node := by
  induction l with
  | zero => exact hnarrow
  | succ l ih =>
      have hnext := (h.sweep hg ih).2
      rwa [hfix] at hnext

/-- The sets that are left take paths into account that are longer by one edge for
every sweep allowed. -/
theorem Keeps.settle
    {g : Digraph ν ε} (hg : g.WellFormed) {entry : NodeId}
    {sets : Array (Option BitSet)} {k : Nat} (h : Keeps g entry sets)
    (hnarrow : ∀ node, Narrow g entry sets k node) (bound sweeps : Nat) :
    Keeps g entry (settle g entry (g.reachable entry) bound sets sweeps).1 ∧
      ∀ node,
        Narrow g entry (settle g entry (g.reachable entry) bound sets sweeps).1
          (k + bound) node := by
  induction bound generalizing sets sweeps k with
  | zero => exact ⟨h, hnarrow⟩
  | succ bound ih =>
      obtain ⟨hkeeps, hnext⟩ := h.sweep hg hnarrow
      rw [Dominators.settle]
      split
      · next hfix =>
          exact ⟨h, narrow_of_sweep_eq hg h hnarrow hfix (bound + 1)⟩
      · rw [Nat.add_comm bound 1, ← Nat.add_assoc]
        exact ih hkeeps hnext (sweeps + 1)

/-! ## The sets before the first sweep -/

theorem getD_start
    (g : Digraph ν ε) (entry node : NodeId) (hnode : node < g.nodeCount) :
    (start g entry).getD node none =
      if node = entry then
        some ((BitSet.empty g.nodeCount).insert entry)
      else if (g.reachable entry).contains node then
        some (g.reachable entry)
      else
        none := by
  simp [start, hnode]

theorem getD_start_eq_some_iff
    {g : Digraph ν ε} (hg : g.WellFormed) {entry : NodeId}
    (hentry : entry < g.nodeCount) {node : NodeId} {s : BitSet} :
    (start g entry).getD node none = some s ↔
      (node = entry ∧ s = (BitSet.empty g.nodeCount).insert entry) ∨
        (node ≠ entry ∧ g.Reaches entry node ∧ s = g.reachable entry) := by
  by_cases hnode : node < g.nodeCount
  · rw [getD_start g entry node hnode, ← hg.contains_reachable_iff]
    by_cases heq : node = entry
    · rw [if_pos heq, Option.some.injEq, eq_comm]
      simp [heq]
    · rw [if_neg heq, Option.ite_none_right_eq_some, Option.some.injEq,
        eq_comm (a := g.reachable entry)]
      simp [heq]
  · have hout : ¬ g.Reaches entry node :=
      fun hreach => hnode (hg.lt_of_reaches hreach)
    have hne : node ≠ entry := by
      rintro rfl
      exact hnode hentry
    simp [start, hnode, hout, hne]

theorem contains_singleton
    {n entry : Nat} (hentry : entry < n) (a : Nat) :
    ((BitSet.empty n).insert entry).contains a = true ↔ a = entry := by
  rw [BitSet.contains_insert (BitSet.wellFormed_empty n) hentry,
    BitSet.contains_empty, Bool.false_or, decide_eq_true_eq]

theorem keeps_start
    {g : Digraph ν ε} (hg : g.WellFormed) {entry : NodeId}
    (hentry : entry < g.nodeCount) :
    Keeps g entry (start g entry) := by
  have hself : g.Path entry entry [entry] := .single hentry
  refine ⟨?_, ?_, ?_, ?_, ?_⟩
  · simp [start]
  · intro node
    rw [Option.isSome_iff_exists]
    simp only [getD_start_eq_some_iff hg hentry]
    constructor
    · rintro ⟨s, ⟨rfl, -⟩ | ⟨-, hreach, -⟩⟩
      · exact ⟨_, hself⟩
      · exact hreach
    · intro hreach
      by_cases heq : node = entry
      · exact ⟨_, Or.inl ⟨heq, rfl⟩⟩
      · exact ⟨_, Or.inr ⟨heq, hreach, rfl⟩⟩
  · intro node s hs
    rcases (getD_start_eq_some_iff hg hentry).mp hs with
      ⟨-, rfl⟩ | ⟨-, -, rfl⟩
    · exact ⟨(BitSet.wellFormed_empty _).insert _, BitSet.capacity_insert _ _⟩
    · exact ⟨g.wellFormed_reachable entry, g.capacity_reachable entry⟩
  · intro node s a hs hall
    rcases (getD_start_eq_some_iff hg hentry).mp hs with
      ⟨rfl, rfl⟩ | ⟨-, ⟨nodes, hpath⟩, rfl⟩
    · exact (contains_singleton hentry a).mpr
        (List.mem_singleton.mp (hall _ hself))
    · exact hg.contains_reachable_iff.mpr
        (hpath.reaches_of_mem (hall nodes hpath))
  · intro s a hs ha
    rcases (getD_start_eq_some_iff hg hentry).mp hs with
      ⟨-, rfl⟩ | ⟨hne, -⟩
    · exact (contains_singleton hentry a).mp ha
    · exact absurd rfl hne

/-- A path along no edge ends at the entry. -/
theorem narrow_start
    {g : Digraph ν ε} (hg : g.WellFormed) {entry : NodeId}
    (hentry : entry < g.nodeCount) (node : NodeId) :
    Narrow g entry (start g entry) 0 node := by
  intro s a hs ha nodes hpath hlen
  cases hpath with
  | single =>
      exact (keeps_start hg hentry).narrow_entry 0 s a hs ha _
        (.single hentry) hlen
  | extend hpath _ =>
      rw [List.length_append, List.length_singleton] at hlen
      have hpos := List.length_pos_of_mem hpath.target_mem
      omega

theorem keeps_ofGraph
    {g : Digraph ν ε} (hg : g.WellFormed) {entry : NodeId}
    (hentry : entry < g.nodeCount) :
    Keeps g entry (ofGraph g entry).sets ∧
      ∀ node, Narrow g entry (ofGraph g entry).sets g.nodeCount node := by
  have hsettle := (keeps_start hg hentry).settle hg (narrow_start hg hentry)
    g.nodeCount 0
  rw [Nat.zero_add] at hsettle
  rwa [ofGraph, if_pos hentry]

theorem exact_ofGraph
    {g : Digraph ν ε} (hg : g.WellFormed) {entry : NodeId}
    (hentry : entry < g.nodeCount) :
    Exact g entry (ofGraph g entry).sets := by
  obtain ⟨hkeeps, hnarrow⟩ := keeps_ofGraph hg hentry
  exact hkeeps.exact hg hnarrow (Nat.le_refl _)

theorem set?_ofGraph_of_le
    {g : Digraph ν ε} {entry : NodeId} (hentry : ¬ entry < g.nodeCount)
    (node : NodeId) :
    (ofGraph g entry).set? node = none := by
  rw [set?, ofGraph, if_neg hentry]
  by_cases hnode : node < g.nodeCount
  · simp [hnode]
  · simp [hnode]

theorem dominates_ofGraph
    {g : Digraph ν ε} (hg : g.WellFormed) {entry a b : NodeId}
    (hb : g.Reaches entry b) :
    (ofGraph g entry).dominates a b = true ↔ OnEveryPath g entry a b := by
  have hexact := exact_ofGraph hg hb.start_lt
  obtain ⟨s, hs⟩ := Option.isSome_iff_exists.mp ((hexact.isSome_iff b).mpr hb)
  have hset : (ofGraph g entry).set? b = some s := hs
  rw [dominates, hset, Option.any_some, hexact.contains_iff b s a hs]

/-- A node dominates another exactly if it stands on every path from the entry
to it, and the nodes with a set of dominators are those that a path leads
to. -/
theorem dominates_iff_onEveryPath
    {g : Digraph ν ε} (hg : g.Grown) (entry a b : NodeId) :
    ((ofGraph g entry).dominates a b = true ↔
      entry < g.nodeCount ∧ g.Reaches entry b ∧ OnEveryPath g entry a b) ∧
    ((ofGraph g entry).isReachable b = true ↔ g.Reaches entry b) := by
  by_cases hentry : entry < g.nodeCount
  · have hexact := exact_ofGraph hg.wellFormed hentry
    refine ⟨?_, hexact.isSome_iff b⟩
    rw [dominates, Option.any_eq_true, ← hexact.isSome_iff b]
    constructor
    · rintro ⟨s, hs, ha⟩
      exact ⟨hentry, Option.isSome_iff_exists.mpr ⟨s, hs⟩,
        (hexact.contains_iff b s a hs).mp ha⟩
    · rintro ⟨-, hsome, hall⟩
      obtain ⟨s, hs⟩ := Option.isSome_iff_exists.mp hsome
      exact ⟨s, hs, (hexact.contains_iff b s a hs).mpr hall⟩
  · have hout : ¬ g.Reaches entry b := fun hreach => hentry hreach.start_lt
    simp [dominates, isReachable, set?_ofGraph_of_le hentry, hentry, hout]

/-- Node 1 is entered from the entry and from node 2, to which no path leads,
and control goes back from it to the entry. -/
theorem dominates_iff_onEveryPath_lasso :
    ∃ g h i : Digraph Unit Unit,
      (((Digraph.empty.addNode ()).addNode ()).addNode ()).addEdge 0 1 () =
          .ok g ∧
        g.addEdge 2 1 () = .ok h ∧ h.addEdge 1 0 () = .ok i ∧ i.Grown ∧
        OnEveryPath i 0 0 1 ∧ ¬ OnEveryPath i 0 1 0 ∧ ¬ i.Reaches 0 2 := by
  obtain ⟨g, hg⟩ : ∃ g, (((Digraph.empty.addNode ()).addNode ()).addNode
      ()).addEdge 0 1 () = .ok g := ⟨_, rfl⟩
  obtain ⟨h, hh⟩ : ∃ h, g.addEdge 2 1 () = .ok h := by
    obtain rfl := Except.ok.inj hg
    exact ⟨_, rfl⟩
  obtain ⟨i, hi⟩ : ∃ i, h.addEdge 1 0 () = .ok i := by
    obtain rfl := Except.ok.inj hg
    obtain rfl := Except.ok.inj hh
    exact ⟨_, rfl⟩
  have hgrown : i.Grown :=
    (((((Digraph.Grown.empty.addNode ()).addNode ()).addNode ()).addEdge
      hg).addEdge hh).addEdge hi
  have hdom : (ofGraph i 0).dominates 0 1 = true ∧
      (ofGraph i 0).dominates 1 0 = false ∧
      (ofGraph i 0).isReachable 2 = false := by
    obtain rfl := Except.ok.inj hg
    obtain rfl := Except.ok.inj hh
    obtain rfl := Except.ok.inj hi
    cbv
  obtain ⟨hentry, hback, hapart⟩ := hdom
  have hself : (0 : Nat) < i.nodeCount :=
    ((dominates_iff_onEveryPath hgrown 0 0 1).1.mp hentry).1
  refine ⟨g, h, i, hg, hh, hi, hgrown, ?_, ?_, ?_⟩
  · exact ((dominates_iff_onEveryPath hgrown 0 0 1).1.mp hentry).2.2
  · intro hall
    rw [(dominates_iff_onEveryPath hgrown 0 1 0).1.mpr
      ⟨hself, ⟨[0], .single hself⟩, hall⟩] at hback
    contradiction
  · intro hreach
    rw [(dominates_iff_onEveryPath hgrown 0 0 2).2.mpr hreach] at hapart
    contradiction

end Dominators
end ThreeAddress
