import Mathlib.Logic.Relation
import ThreeAddress.Proofs.DeadStore
import ThreeAddress.Proofs.FlowGraph.Existence

/-!
# Jumps to dead stores

A labelled dead store stays as an instruction without effect, and jumps to it
keep their target.  A dead store without a label goes, whether a jump names it or
not.  A jump that loses its target so has none in the next round, whose flow
graph cannot be built.  The rounds come to a result exactly if none of them does
this, and then all jumps of the result have their targets.
-/

namespace ThreeAddress
namespace DeadStore

variable {settings : Settings} {p q next : Program} {live : Solution VarSet}
  {i j : Instruction}

/-! ## What one round does to jumps and stores -/

theorem mem_of_mem_survivors
    {dead : List InstrId} {instrs : List Instruction}
    (h : j ∈ survivors dead instrs) (hnop : j.statement ≠ .nop) :
    j ∈ instrs := by
  obtain ⟨i, hi, hs⟩ := List.mem_filterMap.mp h
  obtain ⟨-, -, ⟨-, rfl⟩ | ⟨-, heq⟩⟩ := survivor?_eq_some hs
  · exact hi
  · contradiction

theorem statement_ne_nop_of_jumpTarget?
    {target : InstrId} (h : i.jumpTarget? = some target) :
    i.statement ≠ .nop := by
  intro hnop
  rw [Instruction.jumpTarget?, hnop] at h
  contradiction

theorem statement_ne_nop_of_isStore (h : isStore i = true) :
    i.statement ≠ .nop := by
  intro hnop
  rw [isStore, Instruction.defined?, hnop] at h
  contradiction

theorem not_isStore_of_jumpTarget?
    {target : InstrId} (h : i.jumpTarget? = some target) :
    isStore i ≠ true := by
  rw [Instruction.jumpTarget?] at h
  rw [isStore, Instruction.defined?]
  cases hstatement : i.statement with
  | assign _ _ _ _ =>
      rw [hstatement] at h
      contradiction
  | _ => simp [Statement.defined?]

/-- A jump names a store that carries no label. -/
structure BareTarget (p : Program) (i j : Instruction) : Prop where
  jump_mem : i ∈ p.instrs.toList
  store_mem : j ∈ p.instrs.toList
  target_eq : i.jumpTarget? = some j.id
  isStore : isStore j = true
  unlabelled : j.labelled = false

/-- A round removes the store that a jump names. -/
def Strands
    (settings : Settings) (p : Program) (i j : Instruction) : Prop :=
  BareTarget p i j ∧
    ∃ live, liveness settings p = .ok live ∧ j.id ∈ deadSites live p

theorem BareTarget.of_round
    (hround : Round settings p next) (h : BareTarget next i j) :
    BareTarget p i j := by
  obtain ⟨live, -, hinstrs⟩ := hround.exists_survivors
  refine ⟨?_, ?_, h.target_eq, h.isStore, h.unlabelled⟩
  · exact mem_of_mem_survivors (hinstrs ▸ h.jump_mem)
      (statement_ne_nop_of_jumpTarget? h.target_eq)
  · exact mem_of_mem_survivors (hinstrs ▸ h.store_mem)
      (statement_ne_nop_of_isStore h.isStore)

theorem BareTarget.of_rounds
    (hrounds : Relation.ReflTransGen (Round settings) p q)
    (h : BareTarget q i j) :
    BareTarget p i j := by
  induction hrounds with
  | refl => exact h
  | tail _ hround ih => exact ih (h.of_round hround)

/-- The instructions that a round removes are its dead ones without a label. -/
theorem not_mem_ids_iff
    (hp : p.ids.Nodup) {dead : List InstrId}
    (hinstrs : next.instrs.toList = survivors dead p.instrs.toList)
    (hj : j ∈ p.instrs.toList) :
    j.id ∉ next.ids ↔ j.id ∈ dead ∧ j.labelled = false := by
  rw [← survivor?_eq_none_iff]
  constructor
  · intro hmissing
    by_contra hstays
    obtain ⟨left, hleft⟩ := Option.ne_none_iff_exists'.mp hstays
    have hmem : left ∈ next.instrs.toList := by
      rw [hinstrs]
      exact List.mem_filterMap.mpr ⟨j, hj, hleft⟩
    exact hmissing (List.mem_map.mpr ⟨left, hmem, (survivor?_eq_some hleft).1⟩)
  · intro hgone hid
    obtain ⟨left, hleft, hsame⟩ := List.mem_map.mp hid
    rw [hinstrs] at hleft
    obtain ⟨k, hk, hs⟩ := List.mem_filterMap.mp hleft
    have hkj : k.id = j.id := (survivor?_eq_some hs).1.symm.trans hsame
    obtain rfl := Program.eq_of_id_eq hp hk hj hkj
    rw [hgone] at hs
    contradiction

/-- A target that is missing after a round was a store without a label. -/
theorem strands_of_missing
    (hp : p.ids.Nodup) (hjumps : p.JumpsResolve)
    (hlive : liveness settings p = .ok live)
    (hinstrs : next.instrs.toList =
      survivors (deadSites live p) p.instrs.toList)
    (hi : i ∈ next.instrs.toList) {target : InstrId}
    (htarget : i.jumpTarget? = some target) (hmissing : target ∉ next.ids) :
    ∃ j, Strands settings p i j ∧ j.id = target := by
  have hi' : i ∈ p.instrs.toList :=
    mem_of_mem_survivors (hinstrs ▸ hi) (statement_ne_nop_of_jumpTarget? htarget)
  obtain ⟨j, hj, rfl⟩ := List.mem_map.mp (hjumps i hi' target htarget)
  obtain ⟨hdead, hbare⟩ := (not_mem_ids_iff hp hinstrs hj).mp hmissing
  have hstore := isStore_of_isDead (isDead_of_mem_deadSites hp hj hdead)
  exact ⟨j, ⟨⟨hi', hj, htarget, hstore, hbare⟩, live, hlive, hdead⟩, rfl⟩

/-- A jump is no store, so no round removes it. -/
theorem mem_survivors_of_jumpTarget?
    (hp : p.ids.Nodup) (hi : i ∈ p.instrs.toList) {target : InstrId}
    (htarget : i.jumpTarget? = some target) :
    i ∈ survivors (deadSites live p) p.instrs.toList := by
  have hleft : i.id ∉ deadSites live p := by
    intro hid
    have hdead := isDead_of_mem_deadSites hp hi hid
    exact not_isStore_of_jumpTarget? htarget (isStore_of_isDead hdead)
  exact List.mem_filterMap.mpr ⟨i, hi, survivor?_of_not_mem hleft⟩

/-! ## All rounds -/

theorem eliminate_of_ofProgram_eq_error
    {e : Error} (h : FlowGraph.ofProgram p = .error e) :
    eliminate settings p = .error e := by
  have hlive : liveness settings p = .error e := by
    rw [liveness, h]
    rfl
  rw [eliminate, hlive]

theorem Round.eliminate_eq_of_mem
    (hround : Round settings p next) (hi : i ∈ next.instrs.toList) :
    eliminate settings p = eliminate settings next := by
  rw [hround.eliminate_eq]
  apply if_neg
  intro hempty
  have hnil : next.instrs.toList = [] := by
    simpa [Program.isEmpty] using hempty
  rw [hnil] at hi
  contradiction

/-- The rounds come to a result whose jumps have their targets, or one of them
removes the target of a jump. -/
theorem resolves_or_strands
    (hp : p.WellFormed) {g : FlowGraph} (hg : FlowGraph.ofProgram p = .ok g)
    (hsize : p.size + 2 ≤ Settings.maxWord) :
    (∃ q, eliminate .default p = .ok q ∧ q.JumpsResolve) ∨
      ∃ q i j, Relation.ReflTransGen (Round .default) p q ∧
        Strands .default q i j ∧
        eliminate .default p = .error (.unresolvedJump i.id j.id) := by
  induction p using (wellFounded_round .default).induction generalizing g with
  | _ p ih =>
      have hids := hp.nodup_ids
      have hjumps := FlowGraph.jumpsResolve_of_ofProgram hids hg
      obtain ⟨live, hlive, -⟩ := exists_liveness hp hg hsize
      by_cases hnone : deadSites live p = []
      · exact Or.inl ⟨p, eliminate_of_deadSites_eq_nil hlive hnone, hjumps⟩
      obtain ⟨next, hround, hinstrs⟩ := exists_round hp hlive hnone
      by_cases hempty : next.instrs.toList = []
      · refine Or.inl ⟨next, ?_, by simp [Program.JumpsResolve, hempty]⟩
        rw [hround.eliminate_eq]
        exact if_pos (by simpa [Program.isEmpty] using hempty)
      obtain ⟨first, hfirst⟩ := List.exists_mem_of_ne_nil _ hempty
      rw [hround.eliminate_eq_of_mem hfirst]
      cases hg' : FlowGraph.ofProgram next with
      | error e =>
          obtain ⟨i, hi, target, htarget, hmissing, rfl⟩ :=
            FlowGraph.ofProgram_eq_error hround.wellFormed.nodup_ids hempty hg'
          obtain ⟨j, hstrands, rfl⟩ := strands_of_missing hids hjumps hlive
            hinstrs hi htarget hmissing
          exact Or.inr ⟨p, i, j, .refl, hstrands,
            eliminate_of_ofProgram_eq_error hg'⟩
      | ok g' =>
          have hle := hround.size_le
          rcases ih next hround hround.wellFormed hg' (by omega) with
            hok | ⟨q, i, j, hrounds, hstrands, herror⟩
          · exact Or.inl hok
          · exact Or.inr ⟨q, i, j, .head hround hrounds, hstrands, herror⟩

/-- The round after one that removes the target of a jump fails. -/
theorem Strands.exists_error
    (hp : p.WellFormed) (h : Strands settings p i j) :
    ∃ e, eliminate settings p = .error e := by
  obtain ⟨hbare, live, hlive, hdead⟩ := h
  obtain ⟨next, hround, hinstrs⟩ :=
    exists_round hp hlive (List.ne_nil_of_mem hdead)
  have hi : i ∈ next.instrs.toList := by
    rw [hinstrs]
    exact mem_survivors_of_jumpTarget? hp.nodup_ids hbare.jump_mem
      hbare.target_eq
  have hmissing : j.id ∉ next.ids :=
    (not_mem_ids_iff hp.nodup_ids hinstrs hbare.store_mem).mpr
      ⟨hdead, hbare.unlabelled⟩
  rw [hround.eliminate_eq_of_mem hi]
  cases hg : FlowGraph.ofProgram next with
  | error e => exact ⟨e, eliminate_of_ofProgram_eq_error hg⟩
  | ok g =>
      have hresolved := FlowGraph.jumpsResolve_of_ofProgram
        hround.wellFormed.nodup_ids hg i hi j.id hbare.target_eq
      contradiction

theorem Strands.exists_error_of_rounds
    (hp : p.WellFormed)
    (hrounds : Relation.ReflTransGen (Round settings) p q)
    (h : Strands settings q i j) :
    ∃ e, eliminate settings p = .error e := by
  induction hrounds using Relation.ReflTransGen.head_induction_on with
  | refl => exact h.exists_error hp
  | head hround hrest ih =>
      -- the jump is in every program on the way, so none of them is empty
      rw [hround.eliminate_eq_of_mem (h.1.of_rounds hrest).jump_mem]
      exact ih hround.wellFormed

/-- For a program that has a flow graph, removal of dead stores gives a program
whose jumps have their targets, or fails and names a jump and the store without a
label that was its target.  It gives a program exactly if no round finds dead a
store without a label that a jump names. -/
theorem eliminate_resolves_or_names_bare_target
    (hp : p.Grown) {g : FlowGraph} (hg : FlowGraph.ofProgram p = .ok g) :
    ((∃ q, eliminate .default p = .ok q ∧ q.JumpsResolve) ∨
      ∃ i j, BareTarget p i j ∧
        eliminate .default p = .error (.unresolvedJump i.id j.id)) ∧
    ((∃ q, eliminate .default p = .ok q) ↔
      ∀ q, Relation.ReflTransGen (Round .default) p q →
        ∀ i j, ¬ Strands .default q i j) := by
  have hsize : p.size + 2 ≤ Settings.maxWord :=
    (Nat.add_le_add_right hp.size_le 2).trans (by decide)
  have hcases := resolves_or_strands hp.wellFormed hg hsize
  refine ⟨hcases.imp_right ?_, ?_, ?_⟩
  · rintro ⟨q, i, j, hrounds, hstrands, herror⟩
    exact ⟨i, j, hstrands.1.of_rounds hrounds, herror⟩
  · rintro ⟨result, hok⟩ q hrounds i j hstrands
    obtain ⟨e, herror⟩ := hstrands.exists_error_of_rounds hp.wellFormed hrounds
    rw [hok] at herror
    contradiction
  · intro hnone
    rcases hcases with ⟨result, hok, -⟩ | ⟨q, i, j, hrounds, hstrands, -⟩
    · exact ⟨result, hok⟩
    · exact absurd hstrands (hnone q hrounds i j)

theorem not_bareTarget_wasteful (i j : Instruction) :
    ¬ BareTarget wasteful i j := by
  have hlabelled : ∀ i ∈ wasteful.instrs.toList,
      ∀ j ∈ wasteful.instrs.toList, i.jumpTarget? = some j.id →
        j.labelled = true := by
    decide
  intro h
  have hmark := hlabelled i h.jump_mem j h.store_mem h.target_eq
  rw [h.unlabelled] at hmark
  contradiction

theorem eliminate_resolves_or_names_bare_target_wasteful :
    wasteful.Grown ∧ (∃ g, FlowGraph.ofProgram wasteful = .ok g) ∧
      (∃ q, eliminate .default wasteful = .ok q ∧ q.JumpsResolve) ∧
      ∀ q, Relation.ReflTransGen (Round .default) wasteful q →
        ∀ i j, ¬ Strands .default q i j := by
  obtain ⟨g, hg⟩ := (FlowGraph.exists_ofProgram_iff
    grown_wasteful.wellFormed.nodup_ids).mpr ⟨by decide, by decide⟩
  obtain ⟨hcases, hiff⟩ :=
    eliminate_resolves_or_names_bare_target grown_wasteful hg
  obtain ⟨q, hq, hjumps⟩ | ⟨i, j, hbare, -⟩ := hcases
  · exact ⟨grown_wasteful, ⟨g, hg⟩, ⟨q, hq, hjumps⟩, hiff.mp ⟨q, hq⟩⟩
  · exact absurd hbare (not_bareTarget_wasteful i j)

/-- Counts down from three and computes, in a dead store, what nobody reads.  The
store is the target of the jump and carries no label. -/
def bareLoop : Program where
  instrs := #[
    ⟨⟨0⟩, false, .assign ⟨0⟩ none .copy (.const 3)⟩,
    ⟨⟨1⟩, false, .assign ⟨1⟩ (some (.var ⟨0⟩)) .plus (.const 1)⟩,
    ⟨⟨2⟩, false, .print (.var ⟨0⟩)⟩,
    ⟨⟨3⟩, false, .assign ⟨0⟩ (some (.var ⟨0⟩)) .minus (.const 1)⟩,
    ⟨⟨4⟩, false, .branch (.var ⟨0⟩) ⟨1⟩⟩]
  names := #["n", "m"]

theorem grown_bareLoop : bareLoop.Grown := by
  have hbuild : (Program.ofNames ["n", "m"]).withInstructions
      bareLoop.instrs.toList = .ok bareLoop := by
    decide +kernel
  exact (Program.Grown.ofNames _).withInstructions (by decide) hbuild

/-- The program has a flow graph, yet its dead stores cannot be removed. -/
theorem eliminate_bareLoop_eq_error :
    bareLoop.Grown ∧ (∃ g, FlowGraph.ofProgram bareLoop = .ok g) ∧
      eliminate .default bareLoop = .error (.unresolvedJump ⟨4⟩ ⟨1⟩) := by
  refine ⟨grown_bareLoop, ?_, by decide +kernel⟩
  exact (FlowGraph.exists_ofProgram_iff
    grown_bareLoop.wellFormed.nodup_ids).mpr ⟨by decide, by decide⟩

end DeadStore
end ThreeAddress
