import Mathlib.Algebra.Order.BigOperators.Group.Finset
import ThreeAddress.Proofs.Dataflow.Passes

/-!
# The greatest solution

For an analysis that obeys the laws, a visit keeps the order of facts.  Three
consequences make up this module.  Facts only fall, since they have fallen at
the first visit.  A pass after which some leaving fact has fallen uses up one of
the finitely many falls, so that the passes end; it is enough to count the falls
in a cut, that is, in blocks through which all ways back lead.  And facts that lie above a
solution of the equations stay above it, so that the facts at the end are the
greatest solution.
-/

namespace ThreeAddress

/-- Both facts of a block lie below those of another. -/
def Analysis.BelowBoth {α : Type} (a : Analysis α) (u v : BlockFact α) : Prop :=
  a.Below u.entering v.entering ∧ a.Below u.leaving v.leaving

namespace Flow

variable {α : Type}

/-- Every block receives what its feeders send, or the initial fact if nothing
arrives, and sends what its code makes of that. -/
def Solves (f : Flow) (a : Analysis α) (x : NodeId → BlockFact α) : Prop :=
  ∀ b < f.size,
    (x b).entering = (a.meetAll (f.seed a b) (f.fed x b)).getD a.initial ∧
      (x b).leaving = a.through (f.code b) (x b).entering

/-- All facts of the blocks lie in a carrier. -/
def Within
    (f : Flow) (carrier : α → Prop) (x : NodeId → BlockFact α) : Prop :=
  ∀ b < f.size, carrier (x b).entering ∧ carrier (x b).leaving

theorem renewed_of_solves
    {f : Flow} {a : Analysis α} {x : NodeId → BlockFact α}
    (hx : f.Solves a x) {b : NodeId} (hb : b < f.size) :
    f.renewed a x b = x b := by
  obtain ⟨hentering, hleaving⟩ := hx b hb
  have hsame : (a.meetAll (f.seed a b) (f.fed x b)).getD (x b).entering =
      (x b).entering := by
    cases hmeet : a.meetAll (f.seed a b) (f.fed x b) with
    | none => rfl
    | some m =>
        rw [hmeet] at hentering
        exact hentering.symm
  simp only [renewed, hsame, ← hleaving]

/-! ## The facts after some passes -/

/-- Where nothing arrives, the fact before the first pass stays. -/
theorem entering_of_feeders_eq_nil
    {f : Flow} (hf : f.Proper) {a : Analysis α} (k : Nat) {b : NodeId}
    (hb : b < f.size) (hseed : f.seed a b = none) (hfeeders : f.feeders b = []) :
    ((f.passed a)^[k] (view a (f.start a)) b).entering = a.initial := by
  refine iterate_passed_induction hf
    (P := fun x => (x b).entering = a.initial) ?_ ?_ k
  · intro x c _ hx
    by_cases hbc : b = c
    · subst hbc
      rw [visited, Function.update_self]
      simp only [renewed, meetAll_fed_eq_none_iff.mpr ⟨hseed, hfeeders⟩]
      exact hx
    · rwa [visited, Function.update_of_ne hbc]
  · rw [view_start f a hb, hseed]
    rfl

/-- Facts that a further pass does not change solve the equations. -/
theorem solves_of_passed_eq
    {f : Flow} (hf : f.Proper) {a : Analysis α} {k : Nat}
    {x : NodeId → BlockFact α}
    (hx : x = (f.passed a)^[k] (view a (f.start a)))
    (hfix : f.passed a x = x) :
    f.Solves a x := by
  intro b hb
  have hstable := (passed_eq_self_iff hf).mp hfix b hb
  have hleaving : (x b).leaving = a.through (f.code b) (x b).entering := by
    rw [← hstable]
    rfl
  refine ⟨?_, hleaving⟩
  cases hmeet : a.meetAll (f.seed a b) (f.fed x b) with
  | none =>
      obtain ⟨hseed, hfeeders⟩ := meetAll_fed_eq_none_iff.mp hmeet
      rw [hx]
      exact entering_of_feeders_eq_nil hf k hb hseed hfeeders
  | some m =>
      rw [← hstable]
      simp only [renewed, hmeet, Option.getD_some]

section Laws

variable {f : Flow} {a : Analysis α} {carrier : α → Prop}
  {code : Instruction → Prop}

theorem seed_fed_mem
    (hf : f.Proper) (h : a.MeetLaws carrier code) {x : NodeId → BlockFact α}
    (hx : f.Within carrier x) (b : NodeId) :
    ∀ y ∈ (f.seed a b).toList ++ f.fed x b, carrier y := by
  intro y hy
  rcases List.mem_append.mp hy with hseed | hfed
  · rw [seed] at hseed
    split at hseed
    · rw [List.mem_singleton.mp hseed]
      exact h.boundary_mem
    · simp at hseed
  · obtain ⟨n, hn, rfl⟩ := List.mem_map.mp hfed
    exact (hx n (hf.feeders_lt hn)).2

theorem renewed_mem
    (hf : f.Proper) (h : a.MeetLaws carrier code)
    (hcode : ∀ b < f.size, ∀ instr ∈ f.code b, code instr)
    {x : NodeId → BlockFact α} (hx : f.Within carrier x) {b : NodeId}
    (hb : b < f.size) :
    carrier (f.renewed a x b).entering ∧ carrier (f.renewed a x b).leaving := by
  have hentering : carrier (f.renewed a x b).entering := by
    cases hmeet : a.meetAll (f.seed a b) (f.fed x b) with
    | none =>
        simp only [renewed, hmeet, Option.getD_none]
        exact (hx b hb).1
    | some m =>
        simp only [renewed, hmeet, Option.getD_some]
        exact (h.isMeet_meetAll (seed_fed_mem hf h hx b) hmeet).mem
  exact ⟨hentering, h.through_mem (hcode b hb) hentering⟩

theorem within_visited
    (hf : f.Proper) (h : a.MeetLaws carrier code)
    (hcode : ∀ b < f.size, ∀ instr ∈ f.code b, code instr)
    {x : NodeId → BlockFact α} (hx : f.Within carrier x) {b : NodeId}
    (hb : b < f.size) :
    f.Within carrier (f.visited a x b) := by
  intro c hc
  by_cases hcb : c = b
  · subst hcb
    rw [visited, Function.update_self]
    exact renewed_mem hf h hcode hx hc
  · rw [visited, Function.update_of_ne hcb]
    exact hx c hc

theorem within_start (h : a.MeetLaws carrier code) :
    f.Within carrier (view a (f.start a)) := by
  intro b hb
  rw [view_start f a hb]
  refine ⟨?_, h.initial_mem⟩
  rw [seed]
  split
  · exact h.boundary_mem
  · exact h.initial_mem

theorem within_iterate
    (hf : f.Proper) (h : a.MeetLaws carrier code)
    (hcode : ∀ b < f.size, ∀ instr ∈ f.code b, code instr) (k : Nat) :
    f.Within carrier ((f.passed a)^[k] (view a (f.start a))) := by
  refine iterate_passed_induction hf ?_ (within_start h) k
  intro x b hb hx
  exact within_visited hf h hcode hx hb

/-- Lower facts at the feeders and at the block give lower facts after a
visit. -/
theorem renewed_mono
    (hf : f.Proper) (h : a.Laws carrier code)
    (hcode : ∀ b < f.size, ∀ instr ∈ f.code b, code instr)
    {x y : NodeId → BlockFact α} (hx : f.Within carrier x)
    (hy : f.Within carrier y)
    (hleaving : ∀ n < f.size, a.Below (y n).leaving (x n).leaving)
    {b : NodeId} (hb : b < f.size)
    (hentering : a.Below (y b).entering (x b).entering) :
    a.BelowBoth (f.renewed a y b) (f.renewed a x b) := by
  have hfirst :
      a.Below (f.renewed a y b).entering (f.renewed a x b).entering := by
    cases hmx : a.meetAll (f.seed a b) (f.fed x b) with
    | none =>
        have hmy : a.meetAll (f.seed a b) (f.fed y b) = none :=
          meetAll_fed_eq_none_iff.mpr (meetAll_fed_eq_none_iff.mp hmx)
        simpa only [renewed, hmx, hmy, Option.getD_none] using hentering
    | some mx =>
        obtain ⟨my, hmy⟩ :
            ∃ my, a.meetAll (f.seed a b) (f.fed y b) = some my := by
          apply Option.ne_none_iff_exists'.mp
          intro hmy
          rw [meetAll_fed_eq_none_iff.mpr (meetAll_fed_eq_none_iff.mp hmy)]
            at hmx
          contradiction
        have hgx := h.isMeet_meetAll (seed_fed_mem hf h.toMeetLaws hx b) hmx
        have hgy := h.isMeet_meetAll (seed_fed_mem hf h.toMeetLaws hy b) hmy
        simp only [renewed, hmx, hmy, Option.getD_some]
        apply hgx.greatest my hgy.mem
        intro z hz
        rcases List.mem_append.mp hz with hseed | hfed
        · exact hgy.below z (List.mem_append_left _ hseed)
        · obtain ⟨n, hn, rfl⟩ := List.mem_map.mp hfed
          have hnlt : n < f.size := hf.feeders_lt hn
          have hsent : a.Below my (y n).leaving := by
            apply hgy.below
            exact List.mem_append_right _ (List.mem_map_of_mem hn)
          exact h.below_trans hgy.mem (hy n hnlt).2 (hx n hnlt).2 hsent
            (hleaving n hnlt)
  refine ⟨hfirst, ?_⟩
  exact h.through_mono (hcode b hb)
    (renewed_mem hf h.toMeetLaws hcode hy hb).1
    (renewed_mem hf h.toMeetLaws hcode hx hb).1 hfirst

/-! ## Solutions stay below -/

/-- A solution below the facts is below the facts after a visit. -/
theorem below_visited
    (hf : f.Proper) (h : a.Laws carrier code)
    (hcode : ∀ b < f.size, ∀ instr ∈ f.code b, code instr)
    {x y : NodeId → BlockFact α} (hx : f.Within carrier x)
    (hy : f.Within carrier y) (hsolves : f.Solves a y)
    (hyx : ∀ n < f.size, a.BelowBoth (y n) (x n)) {b : NodeId}
    (hb : b < f.size) :
    ∀ n < f.size, a.BelowBoth (y n) (f.visited a x b n) := by
  intro n hn
  by_cases hnb : n = b
  · subst hnb
    rw [visited, Function.update_self, ← renewed_of_solves hsolves hn]
    exact renewed_mono hf h hcode hx hy (fun m hm => (hyx m hm).2) hn
      (hyx n hn).1
  · rw [visited, Function.update_of_ne hnb]
    exact hyx n hn

theorem below_start
    (hf : f.Proper) (h : a.Laws carrier code) {y : NodeId → BlockFact α}
    (hy : f.Within carrier y) (hsolves : f.Solves a y) :
    ∀ n < f.size, a.BelowBoth (y n) (view a (f.start a) n) := by
  intro n hn
  rw [view_start f a hn]
  refine ⟨?_, h.below_initial (hy n hn).2⟩
  cases hseed : f.seed a n with
  | none => exact h.below_initial (hy n hn).1
  | some boundary =>
      cases hmeet : a.meetAll (f.seed a n) (f.fed y n) with
      | none =>
          rw [((a.meetAll_eq_none_iff _ _).mp hmeet).1] at hseed
          contradiction
      | some m =>
          have hentering := (hsolves n hn).1
          rw [hmeet, Option.getD_some] at hentering
          rw [hentering]
          apply (h.isMeet_meetAll (seed_fed_mem hf h.toMeetLaws hy n) hmeet).below
          rw [hseed]
          exact List.mem_cons_self

/-- Every solution lies below the facts after any number of passes. -/
theorem below_iterate
    (hf : f.Proper) (h : a.Laws carrier code)
    (hcode : ∀ b < f.size, ∀ instr ∈ f.code b, code instr)
    {y : NodeId → BlockFact α} (hy : f.Within carrier y)
    (hsolves : f.Solves a y) (k : Nat) :
    ∀ n < f.size,
      a.BelowBoth (y n) ((f.passed a)^[k] (view a (f.start a)) n) := by
  have hboth := iterate_passed_induction hf (a := a)
    (P := fun x => f.Within carrier x ∧ ∀ n < f.size, a.BelowBoth (y n) (x n))
    (fun x b hb hx => ⟨within_visited hf h.toMeetLaws hcode hx.1 hb,
      below_visited hf h hcode hx.1 hy hsolves hx.2 hb⟩)
    ⟨within_start h.toMeetLaws, below_start hf h hy hsolves⟩ k
  exact hboth.2

/-! ## Facts only fall -/

/-- A visit to any block would not raise its facts. -/
structure Settling
    (f : Flow) (a : Analysis α) (carrier : α → Prop)
    (x : NodeId → BlockFact α) : Prop where
  within : f.Within carrier x
  renewed_below : ∀ b < f.size, a.BelowBoth (f.renewed a x b) (x b)

theorem belowBoth_refl
    (h : a.MeetLaws carrier code) {x : NodeId → BlockFact α}
    (hx : f.Within carrier x) {b : NodeId} (hb : b < f.size) :
    a.BelowBoth (x b) (x b) :=
  ⟨h.below_refl (hx b hb).1, h.below_refl (hx b hb).2⟩

theorem belowBoth_trans
    (h : a.MeetLaws carrier code) {u v w : BlockFact α}
    (hu : carrier u.entering ∧ carrier u.leaving)
    (hv : carrier v.entering ∧ carrier v.leaving)
    (hw : carrier w.entering ∧ carrier w.leaving)
    (huv : a.BelowBoth u v) (hvw : a.BelowBoth v w) :
    a.BelowBoth u w :=
  ⟨h.below_trans hu.1 hv.1 hw.1 huv.1 hvw.1,
    h.below_trans hu.2 hv.2 hw.2 huv.2 hvw.2⟩

theorem Settling.visited_below
    (h : a.MeetLaws carrier code) {x : NodeId → BlockFact α}
    (hx : f.Settling a carrier x) (b : NodeId) :
    ∀ n < f.size, a.BelowBoth (f.visited a x b n) (x n) := by
  intro n hn
  by_cases hnb : n = b
  · subst hnb
    rw [visited, Function.update_self]
    exact hx.renewed_below n hn
  · rw [visited, Function.update_of_ne hnb]
    exact belowBoth_refl h hx.within hn

theorem Settling.visited
    (hf : f.Proper) (h : a.Laws carrier code)
    (hcode : ∀ b < f.size, ∀ instr ∈ f.code b, code instr)
    {x : NodeId → BlockFact α} (hx : f.Settling a carrier x) {b : NodeId}
    (hb : b < f.size) :
    f.Settling a carrier (f.visited a x b) := by
  have hwithin := within_visited hf h.toMeetLaws hcode hx.within hb
  have hbelow := hx.visited_below h.toMeetLaws b
  refine ⟨hwithin, ?_⟩
  intro n hn
  -- a visit to `n` now gives no more than a visit to `n` before would have
  have hmono : a.BelowBoth (f.renewed a (f.visited a x b) n)
      (f.renewed a x n) :=
    renewed_mono hf h hcode hx.within hwithin (fun m hm => (hbelow m hm).2) hn
      (hbelow n hn).1
  by_cases hnb : n = b
  · subst hnb
    have hself : f.visited a x n n = f.renewed a x n :=
      Function.update_self _ _ _
    rwa [hself]
  · have hsame : f.visited a x b n = x n := Function.update_of_ne hnb _ _
    rw [hsame]
    exact belowBoth_trans h.toMeetLaws
      (renewed_mem hf h.toMeetLaws hcode hwithin hn)
      (renewed_mem hf h.toMeetLaws hcode hx.within hn) (hx.within n hn) hmono
      (hx.renewed_below n hn)

theorem settling_start
    (hf : f.Proper) (h : a.Laws carrier code)
    (hcode : ∀ b < f.size, ∀ instr ∈ f.code b, code instr) :
    f.Settling a carrier (view a (f.start a)) := by
  have hwithin := within_start (f := f) h.toMeetLaws
  refine ⟨hwithin, ?_⟩
  intro b hb
  have hmem := renewed_mem hf h.toMeetLaws hcode hwithin hb
  refine ⟨?_, ?_⟩
  · cases hmeet : a.meetAll (f.seed a b) (f.fed (view a (f.start a)) b) with
    | none =>
        simp only [renewed, hmeet, Option.getD_none]
        exact h.below_refl (hwithin b hb).1
    | some m =>
        have hmeets := h.isMeet_meetAll
          (seed_fed_mem hf h.toMeetLaws hwithin b) hmeet
        simp only [renewed, hmeet, Option.getD_some]
        rw [view_start f a hb]
        cases hseed : f.seed a b with
        | none => exact h.below_initial hmeets.mem
        | some boundary =>
            apply hmeets.below
            rw [hseed]
            exact List.mem_cons_self
  · rw [view_start f a hb]
    exact h.below_initial hmem.2

theorem Settling.passed
    (hf : f.Proper) (h : a.Laws carrier code)
    (hcode : ∀ b < f.size, ∀ instr ∈ f.code b, code instr)
    {x : NodeId → BlockFact α} (hx : f.Settling a carrier x) :
    f.Settling a carrier (f.passed a x) ∧
      ∀ n < f.size, a.BelowBoth (f.passed a x n) (x n) := by
  refine passed_induction hf
    (P := fun y => f.Settling a carrier y ∧
      ∀ n < f.size, a.BelowBoth (y n) (x n)) ?_ ?_
  · rintro y b hb ⟨hy, hyx⟩
    refine ⟨hy.visited hf h hcode hb, ?_⟩
    intro n hn
    exact belowBoth_trans h.toMeetLaws
      (within_visited hf h.toMeetLaws hcode hy.within hb n hn)
      (hy.within n hn) (hx.within n hn) (hy.visited_below h.toMeetLaws b n hn)
      (hyx n hn)
  · exact ⟨hx, fun n hn => belowBoth_refl h.toMeetLaws hx.within hn⟩

/-! ## The passes end -/

/-- The number of times that facts which leave the blocks of a cut can still
fall. -/
def potential
    (cut : Finset NodeId) (rank : α → Nat) (x : NodeId → BlockFact α) : Nat :=
  ∑ b ∈ cut, rank (x b).leaving

section Cut

variable {cut : Finset NodeId} {rank : α → Nat} {bound : Nat}

theorem potential_passed_lt
    (hf : f.Proper) (h : a.Laws carrier code)
    (hcode : ∀ b < f.size, ∀ instr ∈ f.code b, code instr)
    (hrank : a.Ranks carrier rank bound) (hlt : ∀ b ∈ cut, b < f.size)
    {x : NodeId → BlockFact α} (hx : f.Settling a carrier x) {b : NodeId}
    (hb : b ∈ cut) (hchange : (f.passed a x b).leaving ≠ (x b).leaving) :
    potential cut rank (f.passed a x) < potential cut rank x := by
  obtain ⟨hpassed, hbelow⟩ := hx.passed hf h hcode
  have hfall : ∀ n ∈ cut, (f.passed a x n).leaving ≠ (x n).leaving →
      rank (f.passed a x n).leaving < rank (x n).leaving := by
    intro n hn hne
    exact hrank.lt (hx.within n (hlt n hn)).2 (hpassed.within n (hlt n hn)).2
      (hbelow n (hlt n hn)).2 hne
  apply Finset.sum_lt_sum
  · intro n hn
    by_cases hsame : (f.passed a x n).leaving = (x n).leaving
    · rw [hsame]
    · exact Nat.le_of_lt (hfall n hn hsame)
  · exact ⟨b, hb, hfall b hb hchange⟩

theorem settling_iterate
    (hf : f.Proper) (h : a.Laws carrier code)
    (hcode : ∀ b < f.size, ∀ instr ∈ f.code b, code instr) (k : Nat) :
    f.Settling a carrier ((f.passed a)^[k] (view a (f.start a))) := by
  induction k with
  | zero => exact settling_start hf h hcode
  | succ k ih =>
      rw [Function.iterate_succ_apply']
      exact (ih.passed hf h hcode).1

/-- As long as facts that leave the blocks of a cut change, every pass has used
up one of their falls. -/
theorem potential_iterate_add_le
    (hf : f.Proper) (h : a.Laws carrier code)
    (hcode : ∀ b < f.size, ∀ instr ∈ f.code b, code instr)
    (hrank : a.Ranks carrier rank bound) (hlt : ∀ b ∈ cut, b < f.size)
    (hcut : f.IsCut (· ∈ cut)) (k : Nat) {b : NodeId} (hb : b ∈ cut)
    (hchange : ((f.passed a)^[k + 1] (view a (f.start a)) b).leaving ≠
      ((f.passed a)^[k] (view a (f.start a)) b).leaving) :
    potential cut rank ((f.passed a)^[k + 1] (view a (f.start a))) + (k + 1) ≤
      potential cut rank (view a (f.start a)) := by
  induction k generalizing b with
  | zero =>
      exact potential_passed_lt hf h hcode hrank hlt
        (settling_start hf h hcode) hb hchange
  | succ k ih =>
      have hbefore : ∃ c ∈ cut,
          ((f.passed a)^[k + 1] (view a (f.start a)) c).leaving ≠
            ((f.passed a)^[k] (view a (f.start a)) c).leaving := by
        by_contra hsame
        push Not at hsame
        rw [Function.iterate_succ_apply'] at hsame
        apply hchange
        rw [Function.iterate_succ_apply', Function.iterate_succ_apply',
          passed_passed_of_cut hf hcut hsame]
      obtain ⟨c, hc, hchanged⟩ := hbefore
      have hearlier := ih hc hchanged
      rw [Function.iterate_succ_apply'] at hchange ⊢
      have hfalls := potential_passed_lt hf h hcode hrank hlt
        (settling_iterate hf h hcode (k + 1)) hb hchange
      omega

theorem lt_of_leaving_ne
    (hf : f.Proper) (h : a.Laws carrier code)
    (hcode : ∀ b < f.size, ∀ instr ∈ f.code b, code instr)
    (hrank : a.Ranks carrier rank bound) (hlt : ∀ b ∈ cut, b < f.size)
    (hcut : f.IsCut (· ∈ cut)) {k : Nat} {b : NodeId} (hb : b ∈ cut)
    (hchange : ((f.passed a)^[k + 1] (view a (f.start a)) b).leaving ≠
      ((f.passed a)^[k] (view a (f.start a)) b).leaving) :
    k < cut.card * bound := by
  have hspent := potential_iterate_add_le hf h hcode hrank hlt hcut k hb hchange
  have hstart : potential cut rank (view a (f.start a)) ≤ cut.card * bound :=
    Finset.sum_le_card_nsmul cut _ bound fun n hn =>
      hrank.le (within_start h.toMeetLaws n (hlt n hn)).2
  omega

/-- Entering facts may change once more after the last change of a fact that
leaves a block of a cut. -/
theorem le_of_passed_ne
    (hf : f.Proper) (h : a.Laws carrier code)
    (hcode : ∀ b < f.size, ∀ instr ∈ f.code b, code instr)
    (hrank : a.Ranks carrier rank bound) (hlt : ∀ b ∈ cut, b < f.size)
    (hcut : f.IsCut (· ∈ cut)) {k : Nat}
    (hchange : f.passed a ((f.passed a)^[k] (view a (f.start a))) ≠
      (f.passed a)^[k] (view a (f.start a))) :
    k ≤ cut.card * bound := by
  cases k with
  | zero => exact Nat.zero_le _
  | succ k =>
      by_contra hlate
      apply hchange
      rw [Function.iterate_succ_apply']
      apply passed_passed_of_cut hf hcut
      intro b hb
      by_contra hleaving
      rw [← Function.iterate_succ_apply' (f.passed a)] at hleaving
      have hsoon := lt_of_leaving_ne hf h hcode hrank hlt hcut hb hleaving
      omega

/-- Once more passes are made than facts that leave the blocks of a cut can
fall, nothing changes. -/
theorem passed_iterate_of_cut
    (hf : f.Proper) (h : a.Laws carrier code)
    (hcode : ∀ b < f.size, ∀ instr ∈ f.code b, code instr)
    (hrank : a.Ranks carrier rank bound) (hlt : ∀ b ∈ cut, b < f.size)
    (hcut : f.IsCut (· ∈ cut)) :
    f.passed a ((f.passed a)^[cut.card * bound + 1] (view a (f.start a))) =
      (f.passed a)^[cut.card * bound + 1] (view a (f.start a)) := by
  by_contra hchange
  have hsoon := le_of_passed_ne hf h hcode hrank hlt hcut hchange
  omega

end Cut

theorem isCut_range (hf : f.Proper) : f.IsCut (· ∈ Finset.range f.size) := by
  intro front back b horder n hn
  exact Or.inr (Finset.mem_range.mpr (hf.feeders_lt hn))

theorem passed_iterate_start
    (hf : f.Proper) (h : a.Laws carrier code)
    (hcode : ∀ b < f.size, ∀ instr ∈ f.code b, code instr) :
    f.passed a ((f.passed a)^[f.size * a.height + 1] (view a (f.start a))) =
      (f.passed a)^[f.size * a.height + 1] (view a (f.start a)) := by
  have hfix := passed_iterate_of_cut hf h hcode h.ranks
    (fun _ => Finset.mem_range.mp) (isCut_range hf)
  rwa [Finset.card_range] at hfix

end Laws

end Flow
end ThreeAddress
