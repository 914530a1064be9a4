import ThreeAddress.Proofs.Dataflow.ConstantPasses
import ThreeAddress.Proofs.Dataflow.Liveness
import ThreeAddress.Proofs.ReachingDefinitions
import ThreeAddress.Proofs.ReachingExpressions
import ThreeAddress.Report

/-!
# Reports

Every computed limit on the passes, the strict one included, is high enough for
the four analyses of a report, and none of them comes upon facts that it cannot
combine or an instruction that it cannot express.  So a program has a report
whenever it has a flow graph.
-/

namespace ThreeAddress

/-- No check of the analyses refuses anything: all variables of the instructions
are interned, and whatever facts arise, sets of variables have one capacity, and
sets and environments have room for the variables of every instruction. -/
structure Program.Expressible (p : Program) : Prop where
  index_lt : ∀ instr ∈ p.instrs.toList, ∀ v ∈ instr.vars, v.index < p.varCount
  meet_live : ∀ {x y : VarSet},
    (LiveVariables.analysis p).Arises (· ∈ p.instrs.toList) x →
    (LiveVariables.analysis p).Arises (· ∈ p.instrs.toList) y →
    x.meet? y = .ok ((LiveVariables.analysis p).meet x y)
  transfer_live : ∀ {instr : Instruction} {x : VarSet},
    instr ∈ p.instrs.toList →
    (LiveVariables.analysis p).Arises (· ∈ p.instrs.toList) x →
    LiveVariables.transfer? instr x =
      .ok ((LiveVariables.analysis p).transfer instr x)
  transfer_constants : ∀ {instr : Instruction} {x : ConstEnv},
    instr ∈ p.instrs.toList →
    (ConstantPropagation.analysis p).Arises (· ∈ p.instrs.toList) x →
    ConstantPropagation.transfer? instr x =
      .ok ((ConstantPropagation.analysis p).transfer instr x)

theorem Program.WellFormed.expressible {p : Program} (hp : p.WellFormed) :
    p.Expressible where
  index_lt := hp.index_lt
  meet_live hx hy :=
    have hlaws := LiveVariables.meetLaws p (· ∈ p.instrs.toList)
    (hlaws.mem_of_arises hx).meet?_eq_ok (hlaws.mem_of_arises hy)
  transfer_live hinstr hx :=
    ((LiveVariables.meetLaws p _).mem_of_arises hx).transfer?_eq_ok
      (hp.index_lt _ hinstr)
  transfer_constants hinstr hx :=
    ((ConstantPropagation.meetLaws p _).mem_of_arises hx).transfer?_eq_ok
      (ConstantPropagation.writes_of_mem hp hinstr)

namespace Report

theorem exists_solveIf
    {α : Type} {solve : Settings → Program → FlowGraph →
      Except Error (Solution α)}
    {settings : Settings} {p : Program} {g : FlowGraph} (selected : Bool)
    (h : ∃ s, solve settings p g = .ok s) :
    ∃ s, solveIf selected solve settings p g = .ok s := by
  obtain ⟨s, hs⟩ := h
  rw [solveIf]
  cases selected with
  | false => exact ⟨none, rfl⟩
  | true => exact ⟨some s, bind_eq_ok_iff.mpr ⟨s, hs, rfl⟩⟩

/-- All four analyses of a program have solutions on a flow graph. -/
structure Solvable
    (settings : Settings) (p : Program) (g : FlowGraph) : Prop where
  definitions : ∃ s, ReachingDefinitions.solve p settings p g = .ok s
  expressions : ∃ s, ReachingExpressions.solve p settings p g = .ok s
  constants : ∃ s, ConstantPropagation.solve p settings p g = .ok s
  live : ∃ s, LiveVariables.solve p settings p g = .ok s

theorem solvable
    {p : Program} {g : FlowGraph} {settings : Settings} (hp : p.Grown)
    (hg : FlowGraph.ofProgram p = .ok g) (hlimit : settings.Computed) :
    Solvable settings p g where
  definitions := ReachingDefinitions.exists_solve hp hg hlimit
  expressions := ReachingExpressions.exists_solve hp hg hlimit
  constants := ConstantPropagation.exists_solve_of_computed hp hg hlimit
  live := LiveVariables.exists_solve hp.wellFormed (.program hg)
    (FlowGraph.blockCount_add_two_le hp hg) hlimit

theorem exists_run_of_solvable
    {p : Program} {g : FlowGraph} {settings : Settings}
    (hg : FlowGraph.ofProgram p = .ok g) (h : Solvable settings p g)
    (selection : Selection) :
    ∃ r, run selection settings p = .ok r := by
  obtain ⟨d, hd⟩ := exists_solveIf selection.definitions h.definitions
  obtain ⟨e, he⟩ := exists_solveIf selection.expressions h.expressions
  obtain ⟨c, hc⟩ := exists_solveIf selection.constants h.constants
  obtain ⟨l, hl⟩ := exists_solveIf selection.live h.live
  refine ⟨⟨p, g, d, e, c, l⟩, ?_⟩
  refine bind_eq_ok_iff.mpr ⟨g, hg, ?_⟩
  refine bind_eq_ok_iff.mpr ⟨d, hd, ?_⟩
  refine bind_eq_ok_iff.mpr ⟨e, he, ?_⟩
  refine bind_eq_ok_iff.mpr ⟨c, hc, ?_⟩
  exact bind_eq_ok_iff.mpr ⟨l, hl, rfl⟩

/-- The report has the results of the selected analyses and no others. -/
structure Holds (r : Report) (selection : Selection) : Prop where
  definitions : r.definitions.isSome = selection.definitions
  expressions : r.expressions.isSome = selection.expressions
  constants : r.constants.isSome = selection.constants
  live : r.live.isSome = selection.live

theorem isSome_of_solveIf
    {α : Type} {solve : Settings → Program → FlowGraph →
      Except Error (Solution α)}
    {settings : Settings} {p : Program} {g : FlowGraph} {selected : Bool}
    {result : Option (Solution α)}
    (h : solveIf selected solve settings p g = .ok result) :
    result.isSome = selected := by
  rw [solveIf] at h
  cases selected with
  | false =>
      obtain rfl := Except.ok.inj h
      rfl
  | true =>
      obtain ⟨s, -, hs⟩ := bind_eq_ok_iff.mp h
      obtain rfl := Except.ok.inj hs
      rfl

theorem holds_of_run
    {selection : Selection} {settings : Settings} {p : Program} {r : Report}
    (h : run selection settings p = .ok r) :
    r.Holds selection := by
  obtain ⟨g, -, h⟩ := bind_eq_ok_iff.mp h
  obtain ⟨d, hd, h⟩ := bind_eq_ok_iff.mp h
  obtain ⟨e, he, h⟩ := bind_eq_ok_iff.mp h
  obtain ⟨c, hc, h⟩ := bind_eq_ok_iff.mp h
  obtain ⟨l, hl, h⟩ := bind_eq_ok_iff.mp h
  obtain rfl := Except.ok.inj h
  exact ⟨isSome_of_solveIf hd, isSome_of_solveIf he, isSome_of_solveIf hc,
    isSome_of_solveIf hl⟩

/-- For every program that has a flow graph, the four analyses have solutions
under every computed limit, whether sites of expressions are united or
intersected, and no check on the way refuses anything.  So a report is made
exactly if there is a flow graph, whichever analyses are selected. -/
theorem analyses_converge
    {p : Program} {settings : Settings} (hp : p.Grown)
    (hlimit : settings.Computed) :
    (∀ g, FlowGraph.ofProgram p = .ok g → Solvable settings p g) ∧
      p.Expressible ∧
      ∀ selection, (∃ r, run selection settings p = .ok r) ↔
        ∃ g, FlowGraph.ofProgram p = .ok g := by
  refine ⟨fun g hg => solvable hp hg hlimit, hp.wellFormed.expressible, ?_⟩
  intro selection
  constructor
  · rintro ⟨r, hr⟩
    obtain ⟨g, hg, -⟩ := bind_eq_ok_iff.mp hr
    exact ⟨g, hg⟩
  · rintro ⟨g, hg⟩
    exact exists_run_of_solvable hg (solvable hp hg hlimit) selection

/-- Doubles a number until it is large, and prints it every time. -/
def doubling : Program where
  instrs := #[
    ⟨⟨0⟩, false, .assign ⟨0⟩ none .copy (.const 1)⟩,
    ⟨⟨1⟩, true, .assign ⟨1⟩ (some (.var ⟨0⟩)) .less (.const 1000)⟩,
    ⟨⟨2⟩, false, .print (.var ⟨0⟩)⟩,
    ⟨⟨3⟩, false, .assign ⟨0⟩ (some (.var ⟨0⟩)) .plus (.var ⟨0⟩)⟩,
    ⟨⟨4⟩, false, .branch (.var ⟨1⟩) ⟨1⟩⟩,
    ⟨⟨5⟩, false, .nop⟩]
  names := #["n", "small"]

theorem grown_doubling : doubling.Grown := by
  have hbuild : (Program.ofNames ["n", "small"]).withInstructions
      doubling.instrs.toList = .ok doubling := by
    decide +kernel
  exact (Program.Grown.ofNames _).withInstructions (by decide) hbuild

/-- The strict settings give a report with all four results, under both meets. -/
theorem analyses_converge_doubling :
    doubling.Grown ∧ Settings.strict.Computed ∧
      Settings.Computed { Settings.strict with meet := .union } ∧
      (∃ r, run ⟨true, true, true, true⟩ .strict doubling = .ok r ∧
        r.Holds ⟨true, true, true, true⟩) ∧
      ∃ r, run ⟨true, true, true, true⟩ { Settings.strict with meet := .union }
        doubling = .ok r ∧ r.Holds ⟨true, true, true, true⟩ := by
  have hunion : Settings.Computed { Settings.strict with meet := .union } :=
    ⟨rfl, Nat.le_refl 1⟩
  have hgraph := FlowGraph.exists_ofProgram (p := doubling) (by decide)
    (by decide) (by decide)
  obtain ⟨r, hr⟩ := ((analyses_converge grown_doubling
    Settings.computed_strict).2.2 ⟨true, true, true, true⟩).mpr hgraph
  obtain ⟨r', hr'⟩ := ((analyses_converge grown_doubling hunion).2.2
    ⟨true, true, true, true⟩).mpr hgraph
  exact ⟨grown_doubling, Settings.computed_strict, hunion,
    ⟨r, hr, holds_of_run hr⟩, r', hr', holds_of_run hr'⟩

end Report
end ThreeAddress
