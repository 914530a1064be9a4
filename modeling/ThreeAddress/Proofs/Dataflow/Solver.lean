import ThreeAddress.Proofs.Dataflow.FixedPoint
import ThreeAddress.Proofs.FlowGraph.Layout

/-!
# What the solver returns

The solver returns facts for the blocks of a flow graph that solve the equations
of the analysis, whatever the analysis.  For an analysis that obeys the laws it
returns the greatest solution, and the default limit on passes is high enough:
each pass but the last two makes some leaving fact fall.
-/

namespace ThreeAddress

namespace FlowGraph

/-- The graphs made from a program: from its own blocks, or from blocks given
with instructions of the program. -/
inductive BuiltFrom (p : Program) : FlowGraph → Prop
  | program {g : FlowGraph} : ofProgram p = .ok g → BuiltFrom p g
  | blocks {g : FlowGraph} {blocks : List Block} :
      ofBlocks p blocks = .ok g →
      (∀ b ∈ blocks, ∀ id ∈ b.instrs, id ∈ p.ids) → BuiltFrom p g

/-- The instructions of a block, as the program has them. -/
def code (p : Program) (g : FlowGraph) (b : NodeId) : List Instruction :=
  ((g.graph.node? b).elim [] Block.instrs).filterMap p.get?

/-- All instructions of the blocks are in the program. -/
def Covered (p : Program) (g : FlowGraph) : Prop :=
  ∀ b ∈ g.blocks, ∀ id ∈ b.instrs, id ∈ p.ids

theorem Spans.covered
    {p : Program} {blocks : List Block} {g : FlowGraph}
    (h : Spans p blocks g)
    (hids : ∀ b ∈ blocks, ∀ id ∈ b.instrs, id ∈ p.ids) :
    g.Covered p := by
  intro b hb
  have hmem : b.instrs ∈ g.blocks.map Block.instrs :=
    List.mem_map_of_mem hb
  rw [h.map_instrs, List.mem_map] at hmem
  obtain ⟨b', hb', heq⟩ := hmem
  rw [← heq]
  exact hids b' hb'

theorem BuiltFrom.spans
    {p : Program} {g : FlowGraph} (h : g.BuiltFrom p) :
    ∃ blocks, Spans p blocks g ∧
      ∀ b ∈ blocks, ∀ id ∈ b.instrs, id ∈ p.ids := by
  cases h with
  | program h =>
      exact ⟨_, spans_of_ofProgram h,
        fun _ hb _ hid => mem_ids_of_mem_partition hb hid⟩
  | blocks h hids => exact ⟨_, spans_of_ofBlocks h, hids⟩

theorem BuiltFrom.covered
    {p : Program} {g : FlowGraph} (h : g.BuiltFrom p) :
    g.Covered p := by
  obtain ⟨blocks, hspans, hids⟩ := h.spans
  exact hspans.covered hids

theorem BuiltFrom.entry_lt
    {p : Program} {g : FlowGraph} (h : g.BuiltFrom p) :
    entry < g.blockCount := by
  cases h with
  | program h => exact entry_lt_of_ofProgram h
  | blocks h _ => exact entry_lt_of_ofBlocks h

/-- The way that facts take through a graph whose instructions are all in the
program. -/
def flow (d : Direction) (p : Program) (g : FlowGraph) : Flow :=
  let code := g.blocks.map fun b => b.instrs.filterMap p.get?
  match d with
  | .forward => .forward g code
  | .backward => .backward g code

theorem ofGraph_eq_ok
    (d : Direction) {p : Program} {g : FlowGraph} (h : g.Covered p) :
    Flow.ofGraph d p g = .ok (g.flow d p) := by
  have hresolve : ∀ b ∈ g.blocks,
      ∃ code, b.resolve p = .ok code ∧
        some (b.instrs.filterMap p.get?) = some code :=
    fun b hb => ⟨_, Block.resolve_eq_ok (h b hb), rfl⟩
  have hall := mapM_eq_ok hresolve
  rw [List.filterMap_eq_map'] at hall
  rw [Flow.ofGraph, hall]
  cases d with
  | forward => rfl
  | backward => rfl

theorem size_flow (d : Direction) (p : Program) (g : FlowGraph) :
    (g.flow d p).size = g.blockCount := by
  cases d with
  | forward => rfl
  | backward => rfl

theorem getD_blocks_code (p : Program) (g : FlowGraph) (b : NodeId) :
    (g.blocks.map fun b => b.instrs.filterMap p.get?).getD b [] =
      g.code p b := by
  rw [List.getD_eq_getElem?_getD, List.getElem?_map, blocks,
    Array.getElem?_toList, code, Digraph.node?]
  cases g.graph.nodes[b]? with
  | none => rfl
  | some b => rfl

theorem code_flow_forward (p : Program) (g : FlowGraph) (b : NodeId) :
    (g.flow .forward p).code b = g.code p b :=
  getD_blocks_code p g b

theorem code_flow_backward (p : Program) (g : FlowGraph) (b : NodeId) :
    (g.flow .backward p).code b = (g.code p b).reverse :=
  congrArg List.reverse (getD_blocks_code p g b)

theorem proper_flow
    {g : FlowGraph} (hg : g.graph.WellFormed) (d : Direction) (p : Program) :
    (g.flow d p).Proper := by
  cases d with
  | forward =>
      refine ⟨List.nodup_range, fun b => List.mem_range, ?_⟩
      intro b n hn
      exact (hg.lt_of_adjacent (hg.mem_predecessors.mp hn)).1
  | backward =>
      refine ⟨List.nodup_reverse.mpr List.nodup_range, ?_, ?_⟩
      · intro b
        exact List.mem_reverse.trans List.mem_range
      · intro b n hn
        exact (hg.lt_of_adjacent (hg.mem_successors.mp hn)).2

theorem BuiltFrom.proper_flow
    {p : Program} {g : FlowGraph} (h : g.BuiltFrom p) (d : Direction) :
    (g.flow d p).Proper := by
  obtain ⟨blocks, hspans, -⟩ := h.spans
  exact FlowGraph.proper_flow hspans.wellFormed d p

theorem mem_of_mem_code
    {p : Program} {g : FlowGraph} {b : NodeId} {instr : Instruction}
    (h : instr ∈ g.code p b) :
    instr ∈ p.instrs.toList := by
  obtain ⟨id, -, hget⟩ := List.mem_filterMap.mp h
  exact (Program.get?_eq_some hget).1

theorem mem_of_mem_flow_code
    {d : Direction} {p : Program} {g : FlowGraph} {b : NodeId} :
    ∀ instr ∈ (g.flow d p).code b, instr ∈ p.instrs.toList := by
  intro instr h
  cases d with
  | forward =>
      rw [code_flow_forward] at h
      exact mem_of_mem_code h
  | backward =>
      rw [code_flow_backward, List.mem_reverse] at h
      exact mem_of_mem_code h

end FlowGraph

namespace Flow

variable {α : Type}

/-- What a solution is made from: facts after some passes that a further pass
does not change. -/
structure Settled
    (f : Flow) (a : Analysis α) (s : Solution α)
    (facts : Array (BlockFact α)) (k : Nat) : Prop where
  size_eq : facts.size = f.size
  view_eq : view a facts = (f.passed a)^[k] (view a (f.start a))
  fixed : f.passed a (view a facts) = view a facts
  blocks_eq : s.blocks = facts.map fun fact =>
    a.direction.orient fact.entering fact.leaving
  instructions_eq : s.instructions = f.instructionFacts a facts
  passes_eq : s.passes = k + 1

variable [DecidableEq α]

theorem settled_of_solve
    {f : Flow} (hf : f.Proper) {a : Analysis α} {settings : Settings}
    {s : Solution α} (h : f.solve a settings = .ok s) :
    ∃ facts k, f.Settled a s facts k := by
  obtain ⟨⟨facts, n⟩, hiter, hs⟩ := bind_eq_ok_iff.mp h
  obtain ⟨k, -, rfl, rfl, hfix⟩ := iterate_eq_ok hiter
  obtain ⟨hsize, hview⟩ := view_iterate_pass hf (a := a) (size_start f a) k
  obtain rfl := Except.ok.inj hs
  exact ⟨_, k, hsize, hview, (pass_eq_self_iff hf hsize).mp hfix, rfl, rfl,
    by simp⟩

theorem exists_solve
    {f : Flow} (hf : f.Proper) {a : Analysis α} {settings : Settings} {k : Nat}
    (hfix : f.passed a ((f.passed a)^[k] (view a (f.start a))) =
      (f.passed a)^[k] (view a (f.start a)))
    (hk : k < settings.passLimit f.size a.height) :
    ∃ s, f.solve a settings = .ok s ∧ s.passes ≤ k + 1 := by
  obtain ⟨hsize, hview⟩ := view_iterate_pass hf (a := a) (size_start f a) k
  rw [← hview, ← pass_eq_self_iff hf hsize] at hfix
  obtain ⟨j, hj, hiter⟩ : ∃ j ≤ k,
      f.iterate a (settings.passLimit f.size a.height) 0 (f.start a) =
        .ok ((f.pass a)^[j] (f.start a), 0 + j + 1) :=
    iterate_of_fixed hfix hk
  refine ⟨_, bind_eq_ok_iff.mpr ⟨_, hiter, rfl⟩, ?_⟩
  show 0 + j + 1 ≤ k + 1
  omega

end Flow

namespace Settings

/-- The limit is computed and leaves a pass to confirm the result. -/
structure Computed (s : Settings) : Prop where
  maxPasses_eq : s.maxPasses = none
  slack_pos : 1 ≤ s.slack

theorem computed_default : default.Computed :=
  ⟨rfl, Nat.le_succ 1⟩

theorem computed_strict : strict.Computed :=
  ⟨rfl, Nat.le_refl 1⟩

/-- The computed limit allows as many passes as it should, unless that exceeds
the largest machine word. -/
theorem le_passLimit
    {s : Settings} (hs : s.maxPasses = none) {n blocks height : Nat}
    (hn : n ≤ blocks * max height 1 + s.slack) (hword : n ≤ maxWord) :
    n ≤ s.passLimit blocks height := by
  simp only [passLimit, hs, saturate]
  omega

end Settings

/-! ## The equations of a flow graph -/

namespace Analysis

variable {α : Type}

/-- The equations of the blocks.  Facts meet where control comes together: the
boundary fact, if control enters or leaves the program there, and the facts of
the neighbours; where there is nothing to meet, the initial fact holds.  The
other fact of a block is what its instructions make of the first. -/
def Holds
    (a : Analysis α) (p : Program) (g : FlowGraph) (x : NodeId → InOut α) :
    Prop :=
  ∀ b < g.blockCount,
    match a.direction with
    | .forward =>
        (x b).input =
            (a.meetAll (if b = FlowGraph.entry then some a.boundary else none)
              ((g.graph.predecessors b).map fun n => (x n).output)).getD
                a.initial ∧
          (x b).output = a.through (g.code p b) (x b).input
    | .backward =>
        (x b).output =
            (a.meetAll
              (if g.graph.successors b = [] then some a.boundary else none)
              ((g.graph.successors b).map fun n => (x n).input)).getD
                a.initial ∧
          (x b).input = a.through (g.code p b).reverse (x b).output

/-- Both facts of a block lie below those of another. -/
def BelowAround (a : Analysis α) (u v : InOut α) : Prop :=
  a.Below u.input v.input ∧ a.Below u.output v.output

end Analysis

/-- Facts in the direction of flow, from facts in the direction of control. -/
def Direction.unorient {α : Type} (d : Direction) (fact : InOut α) :
    BlockFact α :=
  match d with
  | forward => ⟨fact.input, fact.output⟩
  | backward => ⟨fact.output, fact.input⟩

theorem Direction.mem_unorient_iff
    {α : Type} (d : Direction) (carrier : α → Prop) (fact : InOut α) :
    carrier (d.unorient fact).entering ∧ carrier (d.unorient fact).leaving ↔
      carrier fact.input ∧ carrier fact.output := by
  cases d with
  | forward => exact Iff.rfl
  | backward => exact and_comm

theorem Analysis.belowBoth_unorient_iff
    {α : Type} (a : Analysis α) (d : Direction) (u v : InOut α) :
    a.BelowBoth (d.unorient u) (d.unorient v) ↔ a.BelowAround u v := by
  cases d with
  | forward => exact Iff.rfl
  | backward => exact and_comm

/-- The equations of a flow graph are those of the flow through it. -/
theorem FlowGraph.holds_iff_solves
    {α : Type} (a : Analysis α) (p : Program) (g : FlowGraph)
    (x : NodeId → InOut α) :
    a.Holds p g x ↔
      (g.flow a.direction p).Solves a
        fun b => a.direction.unorient (x b) := by
  rw [Analysis.Holds, Flow.Solves, size_flow]
  refine forall₂_congr fun b _ => ?_
  cases a.direction with
  | forward =>
      have hseed : (g.flow .forward p).seed a b =
          if b = entry then some a.boundary else none := by
        simp [Flow.seed, flow, Flow.forward]
      rw [hseed, code_flow_forward]
      rfl
  | backward =>
      have hseed : (g.flow .backward p).seed a b =
          if g.graph.successors b = [] then some a.boundary else none := by
        simp [Flow.seed, flow, Flow.backward]
      rw [hseed, code_flow_backward]
      rfl

/-! ## Solutions -/

namespace Solution

variable {α : Type}

/-- The facts around a block.  Blocks beyond the last have the initial fact. -/
def around (a : Analysis α) (s : Solution α) (b : NodeId) : InOut α :=
  s.blocks.getD b ⟨a.initial, a.initial⟩

theorem unorient_around
    {f : Flow} {a : Analysis α} {s : Solution α}
    {facts : Array (BlockFact α)} {k : Nat} (h : f.Settled a s facts k)
    (b : NodeId) :
    a.direction.unorient (s.around a b) = Flow.view a facts b := by
  rw [around, Flow.view, h.blocks_eq]
  simp only [Array.getD_eq_getD_getElem?, Array.getElem?_map]
  cases facts[b]? <;> cases a.direction <;> rfl

variable [DecidableEq α]

theorem solve_eq_flow_solve
    (a : Analysis α) (settings : Settings) {p : Program} {g : FlowGraph}
    (h : g.Covered p) :
    solve a settings p g = (g.flow a.direction p).solve a settings := by
  rw [solve, FlowGraph.ofGraph_eq_ok a.direction h]
  rfl

/-- A test of the instructions only refuses. -/
theorem solve_of_solveWithin
    {accept : Instruction → Except Error Unit} {a : Analysis α}
    {settings : Settings} {p : Program} {g : FlowGraph} {s : Solution α}
    (h : solveWithin accept a settings p g = .ok s) :
    solve a settings p g = .ok s := by
  obtain ⟨f, hf, h⟩ := bind_eq_ok_iff.mp h
  refine bind_eq_ok_iff.mpr ⟨f, hf, ?_⟩
  dsimp only at h
  split at h
  · exact h
  · obtain ⟨_, -, h⟩ := bind_eq_ok_iff.mp h
    exact h

/-- A test that all instructions of the program pass changes nothing. -/
theorem solveWithin_eq_solve
    {accept : Instruction → Except Error Unit} (a : Analysis α)
    (settings : Settings) {p : Program} {g : FlowGraph} (h : g.Covered p)
    (haccept : ∀ instr ∈ p.instrs.toList, accept instr = .ok ()) :
    solveWithin accept a settings p g = solve a settings p g := by
  have hcheck : (g.flow a.direction p).check accept = .ok () := by
    simp only [Flow.check, forM_eq_ok_iff]
    intro b _ instr hinstr
    exact haccept instr (FlowGraph.mem_of_mem_flow_code instr hinstr)
  rw [solveWithin, solve, FlowGraph.ofGraph_eq_ok a.direction h]
  by_cases hlimit :
      settings.passLimit (g.flow a.direction p).size a.height = 0
  · simp [bind, Except.bind, hlimit]
  · simp [bind, Except.bind, hlimit, hcheck]

section Graph

variable {a : Analysis α} {settings : Settings} {p : Program} {g : FlowGraph}

theorem settled_of_solve
    (hg : g.BuiltFrom p) {s : Solution α}
    (h : solve a settings p g = .ok s) :
    ∃ facts k, (g.flow a.direction p).Settled a s facts k := by
  rw [solve_eq_flow_solve a settings hg.covered] at h
  exact Flow.settled_of_solve (hg.proper_flow a.direction) h

/-- Whatever the analysis, its solution satisfies the equations. -/
theorem holds_of_solve
    (hg : g.BuiltFrom p) {s : Solution α}
    (h : solve a settings p g = .ok s) :
    a.Holds p g (s.around a) := by
  obtain ⟨facts, k, hs⟩ := settled_of_solve hg h
  rw [FlowGraph.holds_iff_solves]
  simp only [unorient_around hs]
  exact Flow.solves_of_passed_eq (hg.proper_flow a.direction) hs.view_eq
    hs.fixed

theorem size_blocks_of_solve
    (hg : g.BuiltFrom p) {s : Solution α}
    (h : solve a settings p g = .ok s) :
    s.blocks.size = g.blockCount := by
  obtain ⟨facts, k, hs⟩ := settled_of_solve hg h
  rw [hs.blocks_eq, Array.size_map, hs.size_eq, FlowGraph.size_flow]

variable {carrier : α → Prop}

theorem around_mem_of_solve
    (h : a.MeetLaws carrier (· ∈ p.instrs.toList)) (hg : g.BuiltFrom p)
    {s : Solution α} (hsolve : solve a settings p g = .ok s) {b : NodeId}
    (hb : b < g.blockCount) :
    carrier (s.around a b).input ∧ carrier (s.around a b).output := by
  obtain ⟨facts, k, hs⟩ := settled_of_solve hg hsolve
  have hwithin := Flow.within_iterate (hg.proper_flow a.direction) h
    (fun _ _ => FlowGraph.mem_of_mem_flow_code) k b (by rwa [FlowGraph.size_flow])
  rw [← hs.view_eq, ← unorient_around hs] at hwithin
  exact (a.direction.mem_unorient_iff carrier _).mp hwithin

/-- Facts that satisfy the equations lie below the solution. -/
theorem belowAround_of_holds
    (h : a.Laws carrier (· ∈ p.instrs.toList)) (hg : g.BuiltFrom p)
    {s : Solution α} (hsolve : solve a settings p g = .ok s)
    {x : NodeId → InOut α} (hx : a.Holds p g x)
    (hcarrier : ∀ b < g.blockCount,
      carrier (x b).input ∧ carrier (x b).output) {b : NodeId}
    (hb : b < g.blockCount) :
    a.BelowAround (x b) (s.around a b) := by
  obtain ⟨facts, k, hs⟩ := settled_of_solve hg hsolve
  have hwithin : (g.flow a.direction p).Within carrier
      fun b => a.direction.unorient (x b) := by
    intro c hc
    rw [FlowGraph.size_flow] at hc
    exact (a.direction.mem_unorient_iff carrier _).mpr (hcarrier c hc)
  have hbelow := Flow.below_iterate (hg.proper_flow a.direction) h
    (fun _ _ => FlowGraph.mem_of_mem_flow_code) hwithin
    ((FlowGraph.holds_iff_solves a p g x).mp hx) k b
    (by rwa [FlowGraph.size_flow])
  rw [← hs.view_eq, ← unorient_around hs] at hbelow
  exact (a.belowBoth_unorient_iff a.direction _ _).mp hbelow

/-- Enough passes are allowed if the limit exceeds by two the number of times that
facts which leave the blocks of a cut can fall. -/
theorem exists_solve_of_cut
    (h : a.Laws carrier (· ∈ p.instrs.toList)) (hg : g.BuiltFrom p)
    {rank : α → Nat} {n : Nat} (hrank : a.Ranks carrier rank n)
    {cut : Finset NodeId} (hlt : ∀ b ∈ cut, b < g.blockCount)
    (hcut : (g.flow a.direction p).IsCut (· ∈ cut))
    (hlimit : cut.card * n + 2 ≤ settings.passLimit g.blockCount a.height) :
    ∃ s, solve a settings p g = .ok s ∧ s.passes ≤ cut.card * n + 2 := by
  have hf := hg.proper_flow a.direction
  rw [← FlowGraph.size_flow a.direction p g] at hlt hlimit
  have hfix := Flow.passed_iterate_of_cut hf h
    (fun _ _ => FlowGraph.mem_of_mem_flow_code) hrank hlt hcut
  rw [solve_eq_flow_solve a settings hg.covered]
  exact Flow.exists_solve hf hfix hlimit

theorem exists_solve_of_ranks
    (h : a.Laws carrier (· ∈ p.instrs.toList)) (hg : g.BuiltFrom p)
    {rank : α → Nat} {n : Nat} (hrank : a.Ranks carrier rank n)
    (hlimit : g.blockCount * n + 2 ≤
      settings.passLimit g.blockCount a.height) :
    ∃ s, solve a settings p g = .ok s ∧ s.passes ≤ g.blockCount * n + 2 := by
  have hcut : (g.flow a.direction p).IsCut (· ∈ Finset.range g.blockCount) := by
    rw [← FlowGraph.size_flow a.direction p g]
    exact Flow.isCut_range (hg.proper_flow a.direction)
  have hcard := Finset.card_range g.blockCount
  obtain ⟨s, hsolve, hpasses⟩ : ∃ s, solve a settings p g = .ok s ∧
      s.passes ≤ (Finset.range g.blockCount).card * n + 2 :=
    exists_solve_of_cut h hg hrank (fun _ => Finset.mem_range.mp) hcut
      (by rwa [hcard])
  rw [hcard] at hpasses
  exact ⟨s, hsolve, hpasses⟩

theorem exists_solve_of_laws
    (h : a.Laws carrier (· ∈ p.instrs.toList)) (hg : g.BuiltFrom p)
    (hword : g.blockCount * max a.height 1 + 2 ≤ Settings.maxWord) :
    ∃ s, solve a .default p g = .ok s ∧
      s.passes ≤ g.blockCount * max a.height 1 + 2 := by
  have hheight : g.blockCount * a.height ≤ g.blockCount * max a.height 1 :=
    Nat.mul_le_mul_left _ (Nat.le_max_left _ _)
  obtain ⟨s, hsolve, hpasses⟩ := exists_solve_of_ranks h hg h.ranks
    (Settings.le_passLimit Settings.computed_default.maxPasses_eq
      (Nat.add_le_add_right hheight 2)
      (Nat.le_trans (Nat.add_le_add_right hheight 2) hword))
  exact ⟨s, hsolve, by omega⟩

/-- For an analysis that obeys the laws for the instructions of a program, on a
flow graph of the program, the solver ends within the default limit and returns
the greatest facts that satisfy the equations of the blocks. -/
theorem solve_isGreatest
    (h : a.Laws carrier (· ∈ p.instrs.toList)) (hg : g.BuiltFrom p)
    (hword : g.blockCount * max a.height 1 + 2 ≤ Settings.maxWord) :
    ∃ s, solve a .default p g = .ok s ∧
      s.passes ≤ g.blockCount * max a.height 1 + 2 ∧
      s.blocks.size = g.blockCount ∧
      a.Holds p g (s.around a) ∧
      (∀ b < g.blockCount,
        carrier (s.around a b).input ∧ carrier (s.around a b).output) ∧
      ∀ x, a.Holds p g x →
        (∀ b < g.blockCount, carrier (x b).input ∧ carrier (x b).output) →
        ∀ b < g.blockCount, a.BelowAround (x b) (s.around a b) := by
  obtain ⟨s, hsolve, hpasses⟩ := exists_solve_of_laws h hg hword
  refine ⟨s, hsolve, hpasses, size_blocks_of_solve hg hsolve,
    holds_of_solve hg hsolve, ?_, ?_⟩
  · intro b hb
    exact around_mem_of_solve h.toMeetLaws hg hsolve hb
  · intro x hx hcarrier b hb
    exact belowAround_of_holds h hg hsolve hx hcarrier hb

end Graph

/-- Counts down from three and prints every number on the way. -/
def countdown : Program where
  instrs := #[
    ⟨⟨0⟩, false, .assign ⟨0⟩ none .copy (.const 3)⟩,
    ⟨⟨1⟩, true, .print (.var ⟨0⟩)⟩,
    ⟨⟨2⟩, false, .assign ⟨0⟩ (some (.var ⟨0⟩)) .minus (.const 1)⟩,
    ⟨⟨3⟩, false, .branch (.var ⟨0⟩) ⟨1⟩⟩,
    ⟨⟨4⟩, false, .nop⟩]
  names := #["n"]

/-- Whether a number will still be printed. -/
def willPrint : Analysis Bool :=
  .bit "will-print" .backward (fun instr => instr.statement matches .print _)
    fun _ => false

theorem solve_isGreatest_countdown :
    ∃ g, FlowGraph.ofProgram countdown = .ok g ∧ g.blockCount = 3 ∧
      ∃ s, solve willPrint .default countdown g = .ok s ∧ s.passes ≤ 5 ∧
        s.blocks.size = 3 ∧ willPrint.Holds countdown g (s.around willPrint) ∧
        ∀ x, willPrint.Holds countdown g x →
          ∀ b < 3, willPrint.BelowAround (x b) (s.around willPrint b) := by
  obtain ⟨g, hg⟩ := FlowGraph.exists_ofProgram (p := countdown) (by decide)
    (by decide) (by decide)
  have hcount : g.blockCount = 3 := by
    rw [(FlowGraph.spans_of_ofProgram hg).blockCount_eq]
    decide
  obtain ⟨s, hsolve, hpasses, hsize, hholds, -, hgreatest⟩ :=
    solve_isGreatest (a := willPrint) (g := g) (p := countdown)
      (Analysis.bit_laws _ _ _ _ _) (.program hg)
      (by rw [hcount]; decide)
  rw [hcount] at hpasses hsize hgreatest
  exact ⟨g, hg, hcount, s, hsolve, hpasses, hsize, hholds,
    fun x hx => hgreatest x hx (fun _ _ => ⟨trivial, trivial⟩)⟩

end Solution

end ThreeAddress
