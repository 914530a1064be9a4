import ThreeAddress.Proofs.Dataflow.PassCount

/-!
# The limit on passes

The passes of an analysis do not depend on how many of them are allowed.  So
there is at most one pass that is the first to change nothing, and its number
decides what comes of every limit: a limit of at least that number gives the
solution of that pass, and a lower one gives an error that names the limit.  An
analysis whose facts never settle has no such pass, and every limit gives the
error.  No law of the analysis is needed for this.
-/

namespace ThreeAddress

namespace Flow

variable {α : Type}

/-- Pass `n`, counted from one, is the first that changes no fact. -/
def FirstIdle (f : Flow) (a : Analysis α) (n : Nat) : Prop :=
  ∃ k, n = k + 1 ∧ ¬ f.Changes a k ∧ ∀ j < k, f.Changes a j

theorem FirstIdle.unique
    {f : Flow} {a : Analysis α} {m n : Nat}
    (hm : f.FirstIdle a m) (hn : f.FirstIdle a n) :
    m = n := by
  obtain ⟨j, rfl, hidle, hbefore⟩ := hm
  obtain ⟨k, rfl, hidle', hbefore'⟩ := hn
  have hjk : ¬ j < k := fun hlt => hidle (hbefore' j hlt)
  have hkj : ¬ k < j := fun hlt => hidle' (hbefore k hlt)
  omega

/-- Either some pass is the first to change nothing, or all passes change
something. -/
theorem exists_firstIdle_or_changes (f : Flow) (a : Analysis α) :
    (∃ n, f.FirstIdle a n) ∨ ∀ k, f.Changes a k := by
  classical
  by_cases h : ∃ k, ¬ f.Changes a k
  · refine Or.inl ⟨Nat.find h + 1, Nat.find h, rfl, Nat.find_spec h, ?_⟩
    intro j hj
    exact not_not.mp (Nat.find_min h hj)
  · exact Or.inr fun k => not_not.mp (not_exists.mp h k)

/-- The facts after `k` passes as a solution that the next pass confirms. -/
def solutionAfter (f : Flow) (a : Analysis α) (k : Nat) : Solution α where
  blocks := (f.after a k).map fun fact =>
    a.direction.orient fact.entering fact.leaving
  instructions := f.instructionFacts a (f.after a k)
  passes := k + 1

theorem after_succ (f : Flow) (a : Analysis α) (k : Nat) :
    f.after a (k + 1) = f.pass a (f.after a k) :=
  Function.iterate_succ_apply' (f.pass a) k (f.start a)

theorem changes_iff_pass_ne {f : Flow} {a : Analysis α} {k : Nat} :
    f.Changes a k ↔ f.pass a (f.after a k) ≠ f.after a k := by
  rw [Changes, after_succ]

/-- Facts that come back after two passes never settle, if they differ in
between. -/
theorem changes_of_period
    {f : Flow} {a : Analysis α} (hback : f.after a 3 = f.after a 1)
    (hfirst : f.Changes a 0) (hsecond : f.Changes a 1) (k : Nat) :
    f.Changes a k := by
  have hperiod : ∀ j, f.after a (j + 3) = f.after a (j + 1) := by
    intro j
    induction j with
    | zero => exact hback
    | succ j ih => rw [after_succ, ih, ← after_succ]
  induction k using Nat.strongRec with
  | ind k ih =>
      match k with
      | 0 => exact hfirst
      | 1 => exact hsecond
      | 2 =>
          rw [Changes, hback]
          exact hsecond.symm
      | k + 3 =>
          rw [Changes, hperiod (k + 1), hperiod k]
          exact ih (k + 1) (by omega)

variable [DecidableEq α]

/-- If all the passes allowed change something, the loop ends with the number of
passes made. -/
theorem iterate_eq_error
    {f : Flow} {a : Analysis α} {limit passes : Nat}
    {facts : Array (BlockFact α)}
    (h : ∀ j < limit,
      f.pass a ((f.pass a)^[j] facts) ≠ (f.pass a)^[j] facts) :
    f.iterate a limit passes facts =
      .error (.nonConvergence a.name (passes + limit)) := by
  induction limit generalizing passes facts with
  | zero => rfl
  | succ limit ih =>
      have hnow : f.pass a facts ≠ facts := h 0 (Nat.succ_pos limit)
      have hrest : f.iterate a limit (passes + 1) (f.pass a facts) =
          .error (.nonConvergence a.name (passes + 1 + limit)) := by
        apply ih
        intro j hj
        exact h (j + 1) (Nat.succ_lt_succ hj)
      rw [iterate, if_neg hnow, hrest, Nat.add_right_comm, Nat.add_assoc]

/-- The loop ends with the first facts that a further pass does not change. -/
theorem iterate_eq_ok_of_first
    {f : Flow} {a : Analysis α} {limit passes k : Nat}
    {facts : Array (BlockFact α)}
    (hfix : f.pass a ((f.pass a)^[k] facts) = (f.pass a)^[k] facts)
    (hbefore : ∀ j < k,
      f.pass a ((f.pass a)^[j] facts) ≠ (f.pass a)^[j] facts)
    (hk : k < limit) :
    f.iterate a limit passes facts =
      .ok ((f.pass a)^[k] facts, passes + k + 1) := by
  obtain ⟨j, hj, hiter⟩ : ∃ j ≤ k, f.iterate a limit passes facts =
      .ok ((f.pass a)^[j] facts, passes + j + 1) := iterate_of_fixed hfix hk
  obtain ⟨-, -, -, -, hidle⟩ := iterate_eq_ok hiter
  -- the loop has ended at an idle pass, and there is none before pass `k`
  rcases Nat.lt_or_eq_of_le hj with hlt | rfl
  · exact absurd hidle (hbefore j hlt)
  · exact hiter

theorem solve_eq_ok_of_first
    {f : Flow} {a : Analysis α} {settings : Settings} {k : Nat}
    (hidle : ¬ f.Changes a k) (hbefore : ∀ j < k, f.Changes a j)
    (hk : k < settings.passLimit f.size a.height) :
    f.solve a settings = .ok (f.solutionAfter a k) := by
  have hiter : f.iterate a (settings.passLimit f.size a.height) 0 (f.start a) =
      .ok (f.after a k, 0 + k + 1) := by
    refine iterate_eq_ok_of_first ?_ ?_ hk
    · exact not_not.mp fun hne => hidle (changes_iff_pass_ne.mpr hne)
    · intro j hj
      exact changes_iff_pass_ne.mp (hbefore j hj)
  rw [solve, hiter, Nat.zero_add]
  rfl

theorem solve_eq_error_of_changes
    {f : Flow} {a : Analysis α} {settings : Settings}
    (h : ∀ j < settings.passLimit f.size a.height, f.Changes a j) :
    f.solve a settings =
      .error (.nonConvergence a.name (settings.passLimit f.size a.height)) := by
  have hiter : f.iterate a (settings.passLimit f.size a.height) 0 (f.start a) =
      .error (.nonConvergence a.name
        (0 + settings.passLimit f.size a.height)) := by
    apply iterate_eq_error
    intro j hj
    exact changes_iff_pass_ne.mp (h j hj)
  rw [solve, hiter, Nat.zero_add]
  rfl

end Flow

namespace Solution

variable {α : Type} [DecidableEq α] {a : Analysis α} {p : Program}
  {g : FlowGraph}

/-- If some pass is the first to change nothing, the limits that include it give
one and the same solution. -/
theorem exists_solve_eq_of_firstIdle
    (hg : g.BuiltFrom p) {n : Nat}
    (h : (g.flow a.direction p).FirstIdle a n) :
    ∃ s : Solution α, s.passes = n ∧
      ∀ settings limit, settings.passLimit g.blockCount a.height = limit →
        solve a settings p g =
          if n ≤ limit then .ok s else .error (.nonConvergence a.name limit) := by
  obtain ⟨k, rfl, hidle, hbefore⟩ := h
  refine ⟨(g.flow a.direction p).solutionAfter a k, rfl, ?_⟩
  intro settings limit hlimit
  rw [← FlowGraph.size_flow a.direction p] at hlimit
  rw [solve_eq_flow_solve a settings hg.covered]
  split
  · next hk =>
      rw [← hlimit] at hk
      exact Flow.solve_eq_ok_of_first hidle hbefore hk
  · next hk =>
      rw [Flow.solve_eq_error_of_changes, hlimit]
      intro j hj
      exact hbefore j (by omega)

/-- If all passes change something, no limit gives a solution. -/
theorem solve_eq_error_of_changes
    (hg : g.BuiltFrom p) (h : ∀ k, (g.flow a.direction p).Changes a k)
    {settings : Settings} {limit : Nat}
    (hlimit : settings.passLimit g.blockCount a.height = limit) :
    solve a settings p g = .error (.nonConvergence a.name limit) := by
  rw [← FlowGraph.size_flow a.direction p] at hlimit
  rw [solve_eq_flow_solve a settings hg.covered,
    Flow.solve_eq_error_of_changes fun j _ => h j, hlimit]

/-- A solution under a limit of `n` passes that counts `n` passes itself comes
from the first pass that changes nothing. -/
theorem firstIdle_of_solve_fixed
    (hg : g.BuiltFrom p) {n : Nat} {s : Solution α} (hs : s.passes = n)
    (h : solve a (.fixed n) p g = .ok s) :
    (g.flow a.direction p).FirstIdle a n := by
  rcases Flow.exists_firstIdle_or_changes (g.flow a.direction p) a with
    ⟨m, hm⟩ | hchanges
  · obtain ⟨t, ht, hall⟩ := exists_solve_eq_of_firstIdle hg hm
    rw [hall (.fixed n) n rfl] at h
    split at h
    · rwa [← hs, ← Except.ok.inj h, ht]
    · simp at h
  · have herror : solve a (.fixed n) p g = .error (.nonConvergence a.name n) :=
      solve_eq_error_of_changes hg hchanges rfl
    simp [herror] at h

/-- The solver returns a solution under a limit exactly if the first pass that
changes nothing lies within it.  The solution then records that pass and is the
same under all such limits; any other limit gives an error that names the analysis
and the limit.  A test that all instructions pass makes no difference. -/
theorem solve_decided_by_first_idle
    (a : Analysis α) (hg : g.BuiltFrom p) :
    ∃ f, Flow.ofGraph a.direction p g = .ok f ∧
      (∀ m n, f.FirstIdle a m → f.FirstIdle a n → m = n) ∧
      (∀ n, f.FirstIdle a n ↔
        ∃ s : Solution α, s.passes = n ∧
          ∀ settings limit,
            settings.passLimit g.blockCount a.height = limit →
            solve a settings p g =
              if n ≤ limit then .ok s
              else .error (.nonConvergence a.name limit)) ∧
      ((∀ n, ¬ f.FirstIdle a n) ↔
        ∀ settings limit,
          settings.passLimit g.blockCount a.height = limit →
          solve a settings p g = .error (.nonConvergence a.name limit)) ∧
      ∀ accept : Instruction → Except Error Unit,
        (∀ instr ∈ p.instrs.toList, accept instr = .ok ()) →
        ∀ settings,
          solveWithin accept a settings p g = solve a settings p g := by
  refine ⟨_, FlowGraph.ofGraph_eq_ok a.direction hg.covered,
    fun m n hm hn => hm.unique hn, ?_, ?_, ?_⟩
  · intro n
    refine ⟨exists_solve_eq_of_firstIdle hg, ?_⟩
    -- a limit of `n` passes tells whether `n` is the number of the pass
    rintro ⟨s, hs, hall⟩
    apply firstIdle_of_solve_fixed hg hs
    rw [hall (.fixed n) n rfl, if_pos (Nat.le_refl n)]
  · constructor
    · intro hnone settings limit hlimit
      rcases Flow.exists_firstIdle_or_changes (g.flow a.direction p) a with
        ⟨m, hm⟩ | hchanges
      · exact absurd hm (hnone m)
      · exact solve_eq_error_of_changes hg hchanges hlimit
    · intro herror n hn
      obtain ⟨s, -, hall⟩ := exists_solve_eq_of_firstIdle hg hn
      have hanswer := hall (.fixed n) n rfl
      rw [herror (.fixed n) n rfl, if_pos (Nat.le_refl n)] at hanswer
      simp at hanswer
  · intro accept haccept settings
    exact solveWithin_eq_solve a settings hg.covered haccept

/-- Turns its fact around at every `nop`. -/
def flicker : Analysis Bool :=
  { underway with
    name := "flicker"
    transfer := fun instr x => x != decide (instr.statement = .nop) }

/-- Of the two analyses, one comes to rest in its third pass and the other goes
to and fro. -/
theorem map_after_spin :
    ∃ g, FlowGraph.ofProgram spin = .ok g ∧
      ∃ f, Flow.ofGraph .forward spin g = .ok f ∧
        (List.range 4).map (f.after underway) =
          [#[⟨false, false⟩], #[⟨false, true⟩], #[⟨true, true⟩],
            #[⟨true, true⟩]] ∧
        (List.range 4).map (f.after flicker) =
          [#[⟨false, false⟩], #[⟨false, true⟩], #[⟨true, false⟩],
            #[⟨false, true⟩]] := by
  have hafter : (do
      let g ← FlowGraph.ofProgram spin
      let f ← Flow.ofGraph .forward spin g
      return ((List.range 4).map (f.after underway),
        (List.range 4).map (f.after flicker))) =
      Except.ok
        ([#[⟨false, false⟩], #[⟨false, true⟩], #[⟨true, true⟩],
            #[⟨true, true⟩]],
          [#[⟨false, false⟩], #[⟨false, true⟩], #[⟨true, false⟩],
            #[⟨false, true⟩]]) := by
    decide +kernel
  obtain ⟨g, hg, hrest⟩ := bind_eq_ok_iff.mp hafter
  obtain ⟨f, hf, hrest⟩ := bind_eq_ok_iff.mp hrest
  obtain ⟨hsettling, hrestless⟩ := Prod.mk.inj (Except.ok.inj hrest)
  exact ⟨g, hg, f, hf, hsettling, hrestless⟩

theorem solve_decided_by_first_idle_spin :
    ∃ g, FlowGraph.ofProgram spin = .ok g ∧
      (∃ s : Solution Bool, s.passes = 3 ∧
        ∀ settings limit, settings.passLimit g.blockCount 1 = limit →
          solve underway settings spin g =
            if 3 ≤ limit then .ok s
            else .error (.nonConvergence "underway" limit)) ∧
      ∀ settings limit, settings.passLimit g.blockCount 1 = limit →
        solve flicker settings spin g =
          .error (.nonConvergence "flicker" limit) := by
  obtain ⟨g, hg, f, hf, hsettling, hrestless⟩ := map_after_spin
  simp only [List.range, List.range.loop, List.map_cons, List.map_nil,
    List.cons.injEq, and_true] at hsettling hrestless
  obtain ⟨hzero, hone, htwo, hthree⟩ := hsettling
  refine ⟨g, hg, ?_, ?_⟩
  · obtain ⟨f', hf', -, hidle, -, -⟩ :=
      solve_decided_by_first_idle underway (.program hg)
    obtain rfl := Except.ok.inj (hf.symm.trans hf')
    apply (hidle 3).mp
    refine ⟨2, rfl, ?_, ?_⟩
    · simp [Flow.Changes, htwo, hthree]
    · intro j hj
      obtain rfl | rfl : j = 0 ∨ j = 1 := by omega
      · simp [Flow.Changes, hzero, hone]
      · simp [Flow.Changes, hone, htwo]
  · obtain ⟨f', hf', -, -, hnever, -⟩ :=
      solve_decided_by_first_idle flicker (.program hg)
    obtain rfl := Except.ok.inj (hf.symm.trans hf')
    obtain ⟨hzero, hone, htwo, hthree⟩ := hrestless
    have hchanges : ∀ k, f.Changes flicker k := by
      apply Flow.changes_of_period
      · rw [hone, hthree]
      · simp [Flow.Changes, hzero, hone]
      · simp [Flow.Changes, hone, htwo]
    apply hnever.mp
    rintro n ⟨k, -, hidle, -⟩
    exact hidle (hchanges k)

end Solution

end ThreeAddress
