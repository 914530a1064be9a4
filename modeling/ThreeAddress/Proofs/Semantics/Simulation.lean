import Mathlib.Logic.Function.Iterate

/-!
# Machines and simulations

A machine is a partial function from states to states; it halts where there is
no next state.  Two machines that make the same moves, except that the first may
make further moves on its own, reach related states and halt together.  A rank
that falls with every move on its own keeps the first machine from making such
moves for ever.
-/

namespace ThreeAddress
namespace Machine

variable {S T : Type}

/-- The state after a move.  A machine that has halted stays where it is. -/
def advance (next : S → Option S) (s : S) : S :=
  (next s).getD s

/-- The state after `n` moves. -/
def run (next : S → Option S) (n : Nat) (s : S) : S :=
  (advance next)^[n] s

/-- Whether the machine comes to a halt. -/
def Halts (next : S → Option S) (s : S) : Prop :=
  ∃ n, next (run next n s) = none

theorem run_add (next : S → Option S) (m n : Nat) (s : S) :
    run next (m + n) s = run next m (run next n s) :=
  Function.iterate_add_apply _ m n s

theorem run_one (next : S → Option S) (s : S) :
    run next 1 s = advance next s :=
  rfl

/-- Related states both have no next state, or both have related ones, or the
first can move on its own to a related state of lower rank. -/
def Simulation
    (next : S → Option S) (next' : T → Option T) (R : S → T → Prop)
    (rank : S → Nat) : Prop :=
  ∀ {s t}, R s t →
    (next s = none ∧ next' t = none) ∨
      (∃ s' t', next s = some s' ∧ next' t = some t' ∧ R s' t') ∨
      ∃ s', next s = some s' ∧ R s' t ∧ rank s' < rank s

namespace Simulation

variable {next : S → Option S} {next' : T → Option T} {R : S → T → Prop}
  {rank : S → Nat}

/-- Every state of the first machine is related to one of the second. -/
theorem exists_run_right
    (h : Simulation next next' R rank) {s : S} {t : T} (hst : R s t)
    (n : Nat) :
    ∃ m, R (run next n s) (run next' m t) := by
  induction n generalizing s t with
  | zero => exact ⟨0, hst⟩
  | succ n ih =>
      rw [run_add, run_one]
      rcases h hst with ⟨hs, -⟩ | ⟨s', t', hs, ht, hrel⟩ | ⟨s', hs, hrel, -⟩
      · rw [advance, hs]
        exact ih hst
      · obtain ⟨m, hm⟩ := ih hrel
        refine ⟨m + 1, ?_⟩
        rw [run_add, run_one, advance, advance, hs, ht]
        exact hm
      · rw [advance, hs]
        exact ih hrel

/-- The first machine can catch up until both make the same move. -/
theorem exists_catch_up
    (h : Simulation next next' R rank) {s : S} {t : T} (hst : R s t) :
    ∃ n, R (run next n s) t ∧
      ((next (run next n s) = none ∧ next' t = none) ∨
        ∃ s' t', next (run next n s) = some s' ∧ next' t = some t' ∧
          R s' t') := by
  induction hr : rank s using Nat.strongRecOn generalizing s with
  | ind r ih =>
      rcases h hst with hhalt | hmove | ⟨s', hs, hrel, hlt⟩
      · exact ⟨0, hst, Or.inl hhalt⟩
      · exact ⟨0, hst, Or.inr hmove⟩
      · obtain ⟨n, hn⟩ := ih (rank s') (hr ▸ hlt) hrel rfl
        refine ⟨n + 1, ?_⟩
        rw [run_add, run_one, advance, hs]
        exact hn

/-- Every state of the second machine is related to one of the first. -/
theorem exists_run_left
    (h : Simulation next next' R rank) {s : S} {t : T} (hst : R s t)
    (m : Nat) :
    ∃ n, R (run next n s) (run next' m t) := by
  induction m generalizing s t with
  | zero => exact ⟨0, hst⟩
  | succ m ih =>
      rw [run_add, run_one]
      obtain ⟨n, hrel, ⟨-, ht⟩ | ⟨s', t', hs, ht, hnext⟩⟩ :=
        h.exists_catch_up hst
      · rw [advance, ht]
        exact ih hst
      · obtain ⟨k, hk⟩ := ih hnext
        refine ⟨k + (1 + n), ?_⟩
        rw [run_add, run_add, run_one, advance, advance, hs, ht]
        exact hk

theorem halts_iff
    (h : Simulation next next' R rank) {s : S} {t : T} (hst : R s t) :
    Halts next s ↔ Halts next' t := by
  constructor
  · rintro ⟨n, hn⟩
    obtain ⟨m, hm⟩ := h.exists_run_right hst n
    rcases h hm with ⟨-, ht⟩ | ⟨s', t', hs, -⟩ | ⟨s', hs, -⟩
    · exact ⟨m, ht⟩
    · rw [hn] at hs
      contradiction
    · rw [hn] at hs
      contradiction
  · rintro ⟨m, hm⟩
    obtain ⟨n, hn⟩ := h.exists_run_left hst m
    obtain ⟨k, -, ⟨hs, -⟩ | ⟨s', t', -, ht, -⟩⟩ := h.exists_catch_up hn
    · refine ⟨k + n, ?_⟩
      rwa [run_add]
    · rw [hm] at ht
      contradiction

end Simulation

end Machine
end ThreeAddress
