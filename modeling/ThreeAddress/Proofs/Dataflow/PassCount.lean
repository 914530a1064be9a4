import ThreeAddress.Proofs.Dataflow.Solver

/-!
# How many passes change something

Each pass that changes a leaving fact uses up a fall, so no more of them are made
than there are blocks times the height of the analysis.  The pass after the last
of them may still change entering facts, at blocks that had their turn before
their feeders.  So the number of passes that change anything can exceed blocks
times height by one, and together with the pass that confirms the result two
passes more are needed.  One is enough for an analysis whose facts fall less often
than its height says.
-/

namespace ThreeAddress

namespace Flow

variable {α : Type}

/-- The facts of the blocks after `k` passes. -/
def after (f : Flow) (a : Analysis α) (k : Nat) : Array (BlockFact α) :=
  (f.pass a)^[k] (f.start a)

/-- The pass after the first `k` changes a fact of some block. -/
def Changes (f : Flow) (a : Analysis α) (k : Nat) : Prop :=
  f.after a (k + 1) ≠ f.after a k

/-- The pass after the first `k` changes a fact that leaves some block. -/
def ChangesLeaving (f : Flow) (a : Analysis α) (k : Nat) : Prop :=
  ∃ b : NodeId, (f.after a (k + 1))[b]?.map BlockFact.leaving ≠
    (f.after a k)[b]?.map BlockFact.leaving

theorem changes_iff {f : Flow} (hf : f.Proper) {a : Analysis α} {k : Nat} :
    f.Changes a k ↔
      f.passed a ((f.passed a)^[k] (view a (f.start a))) ≠
        (f.passed a)^[k] (view a (f.start a)) := by
  obtain ⟨hsize, hview⟩ := view_iterate_pass hf (a := a) (size_start f a) k
  rw [← hview, Changes, after, after, Function.iterate_succ_apply', ne_eq,
    pass_eq_self_iff hf hsize]

theorem exists_leaving_ne
    {f : Flow} (hf : f.Proper) {a : Analysis α} {k : Nat}
    (h : f.ChangesLeaving a k) :
    ∃ b ∈ Finset.range f.size,
      ((f.passed a)^[k + 1] (view a (f.start a)) b).leaving ≠
        ((f.passed a)^[k] (view a (f.start a)) b).leaving := by
  obtain ⟨hsize, hview⟩ := view_iterate_pass hf (a := a) (size_start f a) k
  obtain ⟨hsize', hview'⟩ :=
    view_iterate_pass hf (a := a) (size_start f a) (k + 1)
  obtain ⟨b, hb⟩ := h
  rw [after, after] at hb
  by_cases hlt : b < f.size
  · refine ⟨b, Finset.mem_range.mpr hlt, ?_⟩
    rw [← hview, ← hview']
    intro hsame
    apply hb
    rw [view_of_lt (a := a) (hsize'.symm ▸ hlt),
      view_of_lt (a := a) (hsize.symm ▸ hlt), Option.map_some, Option.map_some,
      hsame]
  · rw [Array.getElem?_eq_none (hsize'.trans_le (Nat.le_of_not_lt hlt)),
      Array.getElem?_eq_none (hsize.trans_le (Nat.le_of_not_lt hlt))] at hb
    contradiction

end Flow

namespace Solution

variable {α : Type} [DecidableEq α] {a : Analysis α} {carrier : α → Prop}
  {p : Program} {g : FlowGraph}

/-- For an analysis that obeys the laws, at most as many passes as there are
blocks times its height change a leaving fact, and at most one more changes
anything.  So it is solved if the limit exceeds that product by two.  A limit that
exceeds it by one, as the strict settings have it, is enough if facts fall less
often than the height says. -/
theorem changes_le_blockCount_mul_height
    (h : a.Laws carrier (· ∈ p.instrs.toList)) (hg : g.BuiltFrom p) :
    ∃ f, Flow.ofGraph a.direction p g = .ok f ∧
      (∀ k, f.ChangesLeaving a k → k < g.blockCount * a.height) ∧
      (∀ k, f.Changes a k → k ≤ g.blockCount * a.height) ∧
      (∀ settings,
        g.blockCount * a.height + 2 ≤
            settings.passLimit g.blockCount a.height →
          ∃ s, solve a settings p g = .ok s ∧
            s.passes ≤ g.blockCount * a.height + 2) ∧
      ((∀ chain : List α, (∀ x ∈ chain, carrier x) →
          chain.IsChain (fun x y => a.Below y x ∧ y ≠ x) →
          chain.length ≤ a.height) →
        g.blockCount * a.height + 1 ≤ Settings.maxWord →
        ∃ s, solve a .strict p g = .ok s ∧
          s.passes ≤ g.blockCount * a.height + 1) := by
  obtain ⟨blocks, hspans, hids⟩ := hg.spans
  have hf := hg.proper_flow a.direction
  have hcode : ∀ b < (g.flow a.direction p).size,
      ∀ instr ∈ (g.flow a.direction p).code b, instr ∈ p.instrs.toList :=
    fun _ _ => FlowGraph.mem_of_mem_flow_code
  have hcount : (Finset.range (g.flow a.direction p).size).card =
      g.blockCount := by
    rw [Finset.card_range, FlowGraph.size_flow]
  refine ⟨_, FlowGraph.ofGraph_eq_ok a.direction (hspans.covered hids), ?_, ?_,
    ?_, ?_⟩
  · intro k hk
    obtain ⟨b, hb, hchange⟩ := Flow.exists_leaving_ne hf hk
    rw [← hcount]
    exact Flow.lt_of_leaving_ne hf h hcode h.ranks
      (fun _ => Finset.mem_range.mp) (Flow.isCut_range hf) hb hchange
  · intro k hk
    rw [← hcount]
    exact Flow.le_of_passed_ne hf h hcode h.ranks
      (fun _ => Finset.mem_range.mp) (Flow.isCut_range hf)
      ((Flow.changes_iff hf).mp hk)
  · intro settings hlimit
    exact exists_solve_of_ranks h hg h.ranks hlimit
  · intro hchains hword
    obtain ⟨n, hn⟩ : ∃ n, a.height = n + 1 := by
      refine Nat.exists_eq_add_one.mpr (hchains [a.initial] ?_ (.singleton _))
      intro x hx
      rw [List.mem_singleton.mp hx]
      exact h.initial_mem
    rw [hn] at hchains
    have hblocks : 0 < g.blockCount := hg.entry_lt
    have hfewer : g.blockCount * n + 2 ≤ g.blockCount * a.height + 1 := by
      rw [hn, Nat.mul_succ]
      omega
    obtain ⟨s, hs, hpasses⟩ : ∃ s, solve a .strict p g = .ok s ∧
        s.passes ≤ g.blockCount * n + 2 := by
      refine exists_solve_of_ranks h hg
        (Analysis.ranks_of_chains fun {chain} => hchains chain)
        (Settings.le_passLimit rfl ?_ ?_)
      · rw [Nat.max_eq_left (by omega)]
        exact hfewer
      · omega
    exact ⟨s, hs, by omega⟩

/-- A single block that control never leaves. -/
def spin : Program where
  instrs := #[⟨⟨0⟩, true, .nop⟩, ⟨⟨1⟩, false, .goto ⟨0⟩⟩]
  names := #[]

/-- Whether control has passed an instruction. -/
def underway : Analysis Bool :=
  .bit "underway" .forward (fun _ => true) fun _ => false

theorem exists_flow_spin :
    ∃ g, FlowGraph.ofProgram spin = .ok g ∧ g.blockCount = 1 ∧
      ∃ f, Flow.ofGraph underway.direction spin g = .ok f ∧
        f.after underway 0 = #[⟨false, false⟩] ∧
        f.after underway 1 = #[⟨false, true⟩] ∧
        f.after underway 2 = #[⟨true, true⟩] := by
  obtain ⟨g, hg⟩ := FlowGraph.exists_ofProgram (p := spin) (by decide)
    (by decide) (by decide)
  have hcount : g.blockCount = 1 := by
    rw [(FlowGraph.spans_of_ofProgram hg).blockCount_eq]
    decide
  have hafter : (do
      let g ← FlowGraph.ofProgram spin
      let f ← Flow.ofGraph underway.direction spin g
      return (f.after underway 0, f.after underway 1, f.after underway 2)) =
      Except.ok (#[⟨false, false⟩], #[⟨false, true⟩], #[⟨true, true⟩]) := by
    decide +kernel
  obtain ⟨g', hg', hrest⟩ := bind_eq_ok_iff.mp hafter
  obtain rfl := Except.ok.inj (hg.symm.trans hg')
  obtain ⟨f, hf, hrest⟩ := bind_eq_ok_iff.mp hrest
  obtain ⟨hzero, hmore⟩ := Prod.mk.inj (Except.ok.inj hrest)
  obtain ⟨hone, htwo⟩ := Prod.mk.inj hmore
  exact ⟨g, hg, hcount, f, hf, hzero, hone, htwo⟩

/-- The only block has its turn before it has fed itself.  So the first pass
changes the fact that leaves it and the second one the fact that enters it, and
the strict limit leaves no pass to confirm this. -/
theorem strict_spin :
    underway.Laws (fun _ => True) (fun _ => True) ∧ underway.height = 1 ∧
      ∃ g, FlowGraph.ofProgram spin = .ok g ∧ g.blockCount = 1 ∧
        (∃ f, Flow.ofGraph underway.direction spin g = .ok f ∧
          f.Changes underway 0 ∧ f.Changes underway 1) ∧
        solve underway .strict spin g =
          .error (.nonConvergence "underway" 2) := by
  refine ⟨Analysis.bit_laws _ _ _ _ _, rfl, ?_⟩
  obtain ⟨g, hg, hcount, f, hf, hzero, hone, htwo⟩ := exists_flow_spin
  refine ⟨g, hg, hcount, ⟨f, hf, ?_, ?_⟩, ?_⟩
  · rw [Flow.Changes, hzero, hone]
    decide
  · rw [Flow.Changes, hone, htwo]
    decide
  · have hrun : (do
        let g ← FlowGraph.ofProgram spin
        return (← solve underway .strict spin g).passes) =
        Except.error (.nonConvergence "underway" 2) := by
      decide +kernel
    cases hsolve : solve underway .strict spin g with
    | ok s => simp [hg, hsolve, bind, Except.bind, pure, Except.pure] at hrun
    | error e => simpa [hg, hsolve, bind, Except.bind] using hrun

theorem changes_le_blockCount_mul_height_spin :
    ∃ g, FlowGraph.ofProgram spin = .ok g ∧ g.blockCount = 1 ∧
      underway.height = 1 ∧
      ∃ f, Flow.ofGraph underway.direction spin g = .ok f ∧
        f.Changes underway 1 ∧ (∀ k, f.Changes underway k → k ≤ 1) ∧
        ∃ s, solve underway .default spin g = .ok s ∧ s.passes ≤ 3 := by
  obtain ⟨g, hg, hcount, f, hf, -, hone, htwo⟩ := exists_flow_spin
  obtain ⟨f', hf', -, hchanges, hsolve, -⟩ :=
    changes_le_blockCount_mul_height (a := underway) (g := g) (p := spin)
      (Analysis.bit_laws _ _ _ _ _) (.program hg)
  obtain rfl := Except.ok.inj (hf.symm.trans hf')
  rw [hcount] at hchanges hsolve
  refine ⟨g, hg, hcount, rfl, f, hf, ?_, hchanges, hsolve .default (by decide)⟩
  rw [Flow.Changes, hone, htwo]
  decide

end Solution

end ThreeAddress
