import ThreeAddress.Proofs.DeadStore
import ThreeAddress.Proofs.LiveVariables

/-!
# What is left without dead stores

The rounds change nothing but stores: one without a label is left out, and a
labelled one loses its effect where it stands.  Every round takes at least one
store away, so there are no more rounds than stores.  The last program is empty,
or its own flow graph has, from every store that is left, a path to a read of what
it writes.  Then there is nothing more to remove.
-/

namespace ThreeAddress

namespace LiveVariables

/-- Whatever the settings, a solution finds those variables live after an
instruction that some path from there reads before defining them. -/
theorem exists_isLive_iff
    {p : Program} {g : FlowGraph} {s : Solution VarSet} {settings : Settings}
    (hp : p.WellFormed) (hg : FlowGraph.ofProgram p = .ok g)
    (hs : solve p settings p g = .ok s) {i : Instruction}
    (hi : i ∈ p.instrs.toList) :
    ∃ facts, s.at? i.id = some facts ∧ ∀ v, v.index < p.varCount →
      (isLive facts.output v = true ↔
        ∃ u between, (i :: (between ++ [u])).IsChain (g.Next p) ∧
          u.reads v = true ∧ ∀ k ∈ between, k.defined? ≠ some v) := by
  obtain ⟨x, -, harrives, hbits⟩ := Solution.exists_arrives_of_splits
    hp.nodup_ids hg ((splits p).restrict hp.index_lt)
    (Solution.solve_of_solveWithin hs) hi
  refine ⟨_, harrives, ?_⟩
  intro v hv
  rw [← carried_iff hg]
  exact hbits ⟨v.index, hv⟩

end LiveVariables

namespace DeadStore

variable {settings : Settings} {p q next : Program}

/-! ## What becomes of the instructions -/

/-- The second code is the first without some stores that carry no label, and with
some labelled ones replaced by instructions without effect. -/
inductive Trims : List Instruction → List Instruction → Prop
  | nil : Trims [] []
  | keep (i : Instruction) {rest left : List Instruction} :
      Trims rest left → Trims (i :: rest) (i :: left)
  | blank {i : Instruction} {rest left : List Instruction} :
      isStore i = true → i.labelled = true → Trims rest left →
      Trims (i :: rest) (i.toNop :: left)
  | drop {i : Instruction} {rest left : List Instruction} :
      isStore i = true → i.labelled = false → Trims rest left →
      Trims (i :: rest) left

theorem Trims.refl (code : List Instruction) : Trims code code := by
  induction code with
  | nil => exact .nil
  | cons i rest ih => exact .keep i ih

/-- An instruction without effect is no store, so it stays from then on. -/
theorem Trims.trans
    {first second third : List Instruction} (h : Trims first second)
    (h' : Trims second third) :
    Trims first third := by
  induction h generalizing third with
  | nil => exact h'
  | keep i _ ih =>
      cases h' with
      | keep _ hrest => exact .keep i (ih hrest)
      | blank hstore hlabelled hrest => exact .blank hstore hlabelled (ih hrest)
      | drop hstore hlabelled hrest => exact .drop hstore hlabelled (ih hrest)
  | blank hstore hlabelled _ ih =>
      cases h' with
      | keep _ hrest => exact .blank hstore hlabelled (ih hrest)
      | blank hnop => contradiction
      | drop hnop => contradiction
  | drop hstore hlabelled _ ih => exact .drop hstore hlabelled (ih h')

theorem trims_survivors
    {dead : List InstrId} {instrs : List Instruction}
    (hstores : ∀ i ∈ instrs, i.id ∈ dead → isStore i = true) :
    Trims instrs (survivors dead instrs) := by
  induction instrs with
  | nil => exact .nil
  | cons i rest ih =>
      rw [List.forall_mem_cons] at hstores
      rw [survivors_cons]
      have hrest := ih hstores.2
      by_cases hdead : i.id ∈ dead
      · have hstore := hstores.1 hdead
        cases hlabelled : i.labelled with
        | true =>
            have hsome : survivor? dead i = some i.toNop := by
              simp [survivor?, hdead, hlabelled]
            rw [hsome]
            exact .blank hstore hlabelled hrest
        | false =>
            rw [survivor?_eq_none_iff.mpr ⟨hdead, hlabelled⟩]
            exact .drop hstore hlabelled hrest
      · rw [survivor?_of_not_mem hdead]
        exact .keep i hrest

/-! ## Rounds -/

/-- As many rounds as the number says lead from one program to another. -/
inductive Rounds (settings : Settings) : Nat → Program → Program → Prop
  | none (p : Program) : Rounds settings 0 p p
  | more {n : Nat} {p next q : Program} :
      Round settings p next → Rounds settings n next q →
      Rounds settings (n + 1) p q

theorem Round.trims (hp : p.WellFormed) (h : Round settings p next) :
    Trims p.instrs.toList next.instrs.toList := by
  obtain ⟨live, -, hinstrs⟩ := h.exists_survivors
  rw [hinstrs]
  apply trims_survivors
  intro i hi hdead
  exact isStore_of_isDead (isDead_of_mem_deadSites hp.nodup_ids hi hdead)

theorem Round.names_eq (h : Round settings p next) : next.names = p.names := by
  obtain ⟨live, -, -, hnext⟩ := h
  exact Program.withInstructions_names hnext

theorem Rounds.trims
    {n : Nat} (h : Rounds settings n p q) (hp : p.WellFormed) :
    Trims p.instrs.toList q.instrs.toList := by
  induction h with
  | none p => exact .refl _
  | more hround _ ih => exact (hround.trims hp).trans (ih hround.wellFormed)

theorem Rounds.names_eq {n : Nat} (h : Rounds settings n p q) :
    q.names = p.names := by
  induction h with
  | none p => rfl
  | more hround _ ih => exact ih.trans hround.names_eq

theorem Rounds.wellFormed
    {n : Nat} (h : Rounds settings n p q) (hp : p.WellFormed) :
    q.WellFormed := by
  induction h with
  | none p => exact hp
  | more hround _ ih => exact ih hround.wellFormed

/-- Every round takes a store away. -/
theorem Rounds.add_countP_isStore_le {n : Nat} (h : Rounds settings n p q) :
    n + q.instrs.toList.countP isStore ≤ p.instrs.toList.countP isStore := by
  induction h with
  | none p => exact (Nat.zero_add _).le
  | more hround _ ih =>
      have hlt := hround.countP_isStore_lt
      omega

/-- The analysis of a program finds no dead store. -/
def Settled (settings : Settings) (p : Program) : Prop :=
  ∃ live, liveness settings p = .ok live ∧ deadSites live p = []

/-- The rounds lead to the result, and end when nothing is left or nothing is
dead. -/
theorem exists_rounds_of_eliminate
    (hp : p.WellFormed) (h : eliminate settings p = .ok q) :
    ∃ n, Rounds settings n p q ∧
      (q.instrs.toList = [] ∨ Settled settings q) := by
  induction p using (wellFounded_round settings).induction with
  | _ p ih =>
      cases hlive : liveness settings p with
      | error e =>
          rw [eliminate, hlive] at h
          contradiction
      | ok live =>
          by_cases hnone : deadSites live p = []
          · rw [eliminate_of_deadSites_eq_nil hlive hnone] at h
            obtain rfl := Except.ok.inj h
            exact ⟨0, .none p, Or.inr ⟨live, hlive, hnone⟩⟩
          · obtain ⟨next, hround, -⟩ := exists_round hp hlive hnone
            rw [hround.eliminate_eq] at h
            by_cases hempty : next.isEmpty = true
            · rw [if_pos hempty] at h
              obtain rfl := Except.ok.inj h
              exact ⟨1, .more hround (.none next),
                Or.inl (by simpa [Program.isEmpty] using hempty)⟩
            · rw [if_neg hempty] at h
              obtain ⟨n, hrounds, hend⟩ :=
                ih next hround hround.wellFormed h
              exact ⟨n + 1, .more hround hrounds, hend⟩

/-! ## The last program -/

theorem Settled.eliminate_eq (h : Settled settings p) :
    eliminate settings p = .ok p := by
  obtain ⟨live, hlive, hnone⟩ := h
  exact eliminate_of_deadSites_eq_nil hlive hnone

/-- If no store is dead, a path leads from each to a read of what it writes. -/
theorem Settled.exists_read
    (h : Settled settings p) (hp : p.WellFormed) {i : Instruction}
    (hi : i ∈ p.instrs.toList) {v : VarId} (hdefined : i.defined? = some v) :
    ∃ g, FlowGraph.ofProgram p = .ok g ∧
      ∃ u between, (i :: (between ++ [u])).IsChain (g.Next p) ∧
        u.reads v = true ∧ ∀ k ∈ between, k.defined? ≠ some v := by
  obtain ⟨live, hlive, hnone⟩ := h
  obtain ⟨g, hg, hsolve⟩ := bind_eq_ok_iff.mp hlive
  obtain ⟨facts, hfacts, hexact⟩ :=
    LiveVariables.exists_isLive_iff hp hg hsolve hi
  have hv : v.index < p.varCount :=
    hp.index_lt i hi v (by simp [Instruction.vars, hdefined])
  refine ⟨g, hg, (hexact v hv).mp ?_⟩
  by_contra hdead
  have hsite : i.id ∈ deadSites live p := by
    apply List.mem_map_of_mem
    rw [List.mem_filter, isDead, hdefined, hfacts]
    exact ⟨hi, by simpa using hdead⟩
  rw [hnone] at hsite
  contradiction

/-- Suppose that removal of dead stores comes to a result.  Rounds have led there,
each of which took a store away, so no run of rounds is longer than there are
stores.  The result is the program without some stores that carry no label and
with some labelled ones that have lost their effect, over the same variables.  In
its own flow graph a path leads from every store to a read of what it writes, and
nothing on the way writes it anew.  Removing dead stores from the result changes
nothing, unless nothing is left. -/
theorem eliminate_leaves_read_stores
    (hp : p.Grown) (h : eliminate settings p = .ok q) :
    (∃ n, Rounds settings n p q) ∧
      (∀ n r, Rounds settings n p r →
        n + r.instrs.toList.countP isStore ≤
          p.instrs.toList.countP isStore) ∧
      Trims p.instrs.toList q.instrs.toList ∧ q.names = p.names ∧
      (∀ i ∈ q.instrs.toList, ∀ v, i.defined? = some v →
        ∃ g, FlowGraph.ofProgram q = .ok g ∧
          ∃ u between, (i :: (between ++ [u])).IsChain (g.Next q) ∧
            u.reads v = true ∧ ∀ k ∈ between, k.defined? ≠ some v) ∧
      (0 < q.size → eliminate settings q = .ok q) := by
  have hwf := hp.wellFormed
  obtain ⟨n, hrounds, hend⟩ := exists_rounds_of_eliminate hwf h
  refine ⟨⟨n, hrounds⟩, fun m r => Rounds.add_countP_isStore_le,
    hrounds.trims hwf, hrounds.names_eq, ?_, ?_⟩
  · intro i hi v hdefined
    rcases hend with hempty | hsettled
    · rw [hempty] at hi
      contradiction
    · exact hsettled.exists_read (hrounds.wellFormed hwf) hi hdefined
  · intro hpos
    exact (hend.resolve_left (Program.toList_ne_nil hpos)).eliminate_eq

/-- What is left of `wasteful`: without its second dead store the first is dead as
well, and stays without effect as the target of the jump. -/
def frugal : Program where
  instrs := #[
    ⟨⟨0⟩, false, .assign ⟨0⟩ none .copy (.const 3)⟩,
    ⟨⟨1⟩, true, .nop⟩,
    ⟨⟨3⟩, false, .print (.var ⟨0⟩)⟩,
    ⟨⟨4⟩, false, .assign ⟨0⟩ (some (.var ⟨0⟩)) .minus (.const 1)⟩,
    ⟨⟨5⟩, false, .branch (.var ⟨0⟩) ⟨1⟩⟩]
  names := #["x", "y", "z"]

theorem eliminate_wasteful : eliminate (.fixed 4) wasteful = .ok frugal := by
  decide +kernel

/-- The number is decreased only to be shown in the next turn. -/
theorem eliminate_leaves_read_stores_wasteful :
    wasteful.Grown ∧ eliminate (.fixed 4) wasteful = .ok frugal ∧
      (∃ n, Rounds (.fixed 4) n wasteful frugal) ∧
      Trims wasteful.instrs.toList frugal.instrs.toList ∧
      (∃ g, FlowGraph.ofProgram frugal = .ok g ∧ ∃ u between,
        (⟨⟨4⟩, false, .assign ⟨0⟩ (some (.var ⟨0⟩)) .minus (.const 1)⟩ ::
            (between ++ [u])).IsChain (g.Next frugal) ∧
          u.reads ⟨0⟩ = true ∧ ∀ k ∈ between, k.defined? ≠ some ⟨0⟩) ∧
      eliminate (.fixed 4) frugal = .ok frugal := by
  obtain ⟨hrounds, -, htrims, -, hreads, hagain⟩ :=
    eliminate_leaves_read_stores grown_wasteful eliminate_wasteful
  exact ⟨grown_wasteful, eliminate_wasteful, hrounds, htrims,
    hreads _ (by decide) _ rfl, hagain (by decide)⟩

end DeadStore
end ThreeAddress
