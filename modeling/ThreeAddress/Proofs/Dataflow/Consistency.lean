import ThreeAddress.Proofs.Dataflow.Instructions
import ThreeAddress.Proofs.FlowGraph.Construction

/-!
# Solutions are consistent

The solver stops after a pass that changes nothing, and works out the facts
around single instructions afterwards.  So its result is consistent, whatever the
analysis: no law is needed for the facts of the blocks to satisfy the equations,
nor for the facts around the instructions of a block to lead from one end of the
block to the other.
-/

namespace ThreeAddress

namespace Analysis

variable {α : Type}

/-- The fact inside a block, between the instructions `pre` and `post`: what these
make of the fact at that end of the block from which facts come. -/
def amid
    (a : Analysis α) (pre post : List Instruction) (around : InOut α) : α :=
  match a.direction with
  | .forward => a.through pre around.input
  | .backward => a.through post.reverse around.output

/-- One of the facts around an instruction is what the analysis makes of the
other. -/
def Relates (a : Analysis α) (instr : Instruction) (facts : InOut α) : Prop :=
  match a.direction with
  | .forward => facts.output = a.transfer instr facts.input
  | .backward => facts.input = a.transfer instr facts.output

theorem through_concat
    (a : Analysis α) (code : List Instruction) (instr : Instruction) (x : α) :
    a.through (code ++ [instr]) x = a.transfer instr (a.through code x) :=
  List.foldl_concat ..

theorem relates_amid
    (a : Analysis α) (pre post : List Instruction) (instr : Instruction)
    (around : InOut α) :
    a.Relates instr
      ⟨a.amid pre (instr :: post) around,
        a.amid (pre ++ [instr]) post around⟩ := by
  rw [Relates]
  cases hd : a.direction with
  | forward => simp only [amid, hd, through_concat]
  | backward => simp only [amid, hd, List.reverse_cons, through_concat]

end Analysis

namespace Flow

variable {α : Type}

theorem mem_foldl_insert_iff
    {β : Type} (view : α × α → β) {items : List (InstrId × α × α)}
    {m : Std.TreeMap InstrId β} {id : InstrId} :
    id ∈ items.foldl (fun found item => found.insert item.1 (view item.2)) m ↔
      id ∈ m ∨ id ∈ items.map Prod.fst := by
  induction items generalizing m with
  | nil => simp
  | cons item rest ih =>
      rw [List.foldl_cons, ih, Std.TreeMap.mem_insert,
        Std.LawfulEqOrd.compare_eq_iff_eq, List.map_cons, List.mem_cons,
        eq_comm (a := item.1), or_assoc, or_left_comm]

/-- There are facts around exactly those instructions that stand in some
block. -/
theorem mem_instructionFacts_iff
    {f : Flow} {a : Analysis α} {facts : Array (BlockFact α)}
    (hsize : facts.size = f.size) {id : InstrId} :
    id ∈ f.instructionFacts a facts ↔
      ∃ b < f.size, id ∈ (f.code b).map Instruction.id := by
  refine (mem_foldl_insert_iff
    fun facts => a.direction.orient facts.1 facts.2).trans ?_
  rw [or_iff_right Std.TreeMap.not_mem_emptyc, List.map_flatMap]
  simp only [Analysis.map_fst_trail, List.mem_flatMap]
  constructor
  · rintro ⟨⟨fact, b⟩, hfact, hid⟩
    rw [List.mem_zipIdx_iff_getElem?, Array.getElem?_toList] at hfact
    rw [← hsize]
    exact ⟨b, (Array.getElem?_eq_some_iff.mp hfact).1, hid⟩
  · rintro ⟨b, hb, hid⟩
    refine ⟨(view a facts b, b), ?_, hid⟩
    rw [List.mem_zipIdx_iff_getElem?, Array.getElem?_toList]
    exact view_of_lt (hsize ▸ hb)

end Flow

namespace FlowGraph

variable {p : Program} {g : FlowGraph}

theorem code_eq_filterMap
    {n : NodeId} {b : Block} (hb : g.blocks[n]? = some b) :
    g.code p n = b.instrs.filterMap p.get? := by
  have hnode : g.graph.node? n = some b := by
    rwa [blocks, Array.getElem?_toList] at hb
  rw [code, hnode, Option.elim_some]

theorem map_id_code
    (h : g.Covered p) {n : NodeId} {b : Block} (hb : g.blocks[n]? = some b) :
    (g.code p n).map Instruction.id = b.instrs := by
  rw [code_eq_filterMap hb]
  exact Program.map_id_filterMap_get? (h b (List.mem_of_getElem? hb))

theorem flatMap_map_id_code (h : g.Covered p) :
    ((List.range g.blockCount).flatMap fun n =>
      (g.code p n).map Instruction.id) = g.blocks.flatMap Block.instrs := by
  have hmap : ((List.range g.blockCount).map fun n =>
      (g.code p n).map Instruction.id) = g.blocks.map Block.instrs := by
    apply List.ext_getElem?
    intro n
    rw [List.getElem?_map, List.getElem?_map]
    by_cases hn : n < g.blockCount
    · have hb : g.blocks[n]? = some (g.blocks.get ⟨n, hn⟩) :=
        List.getElem?_eq_getElem hn
      rw [List.getElem?_range hn, hb, Option.map_some, Option.map_some,
        map_id_code h hb]
    · have hb : g.blocks[n]? = none :=
        List.getElem?_eq_none (Nat.le_of_not_lt hn)
      simp [hn, hb]
  rw [List.flatMap_def, hmap, ← List.flatMap_def]

/-- The blocks of the graph hold every instruction of the program, and each of
them once. -/
def Arranges (g : FlowGraph) (p : Program) : Prop :=
  (g.blocks.flatMap Block.instrs).Perm p.ids

theorem arranges_of_ofProgram (hg : ofProgram p = .ok g) : g.Arranges p := by
  rw [Arranges, flatMap_instrs_of_ofProgram hg]

end FlowGraph

namespace Solution

variable {α : Type}

/-- The solver has returned this solution, with or without a test of the
instructions. -/
inductive Returned
    [DecidableEq α] (a : Analysis α) (settings : Settings) (p : Program)
    (g : FlowGraph) (s : Solution α) : Prop
  | plain : solve a settings p g = .ok s → Returned a settings p g s
  | within {accept : Instruction → Except Error Unit} :
      solveWithin accept a settings p g = .ok s → Returned a settings p g s

/-- The facts around the instructions of a block lead from one end of the block
to the other. -/
structure Threads
    (s : Solution α) (a : Analysis α) (code : List Instruction)
    (around : InOut α) : Prop where
  relates : ∀ instr ∈ code,
    ∃ facts, s.at? instr.id = some facts ∧ a.Relates instr facts
  joins : ∀ {pre i j post}, code = pre ++ i :: j :: post →
    ∃ before after, s.at? i.id = some before ∧ s.at? j.id = some after ∧
      before.output = after.input
  starts : ∀ {i post}, code = i :: post →
    ∃ facts, s.at? i.id = some facts ∧ facts.input = around.input
  ends : ∀ {pre i}, code = pre ++ [i] →
    ∃ facts, s.at? i.id = some facts ∧ facts.output = around.output

/-- At both ends of a block, the facts inside are those of the block. -/
theorem amid_ends
    {a : Analysis α} {p : Program} {g : FlowGraph} {s : Solution α}
    (h : a.Holds p g (s.around a)) {b : NodeId} (hb : b < g.blockCount) :
    a.amid [] (g.code p b) (s.around a b) = (s.around a b).input ∧
      a.amid (g.code p b) [] (s.around a b) = (s.around a b).output := by
  have hblock := h b hb
  cases hd : a.direction with
  | forward =>
      rw [hd] at hblock
      simp only [Analysis.amid, hd]
      exact ⟨rfl, hblock.2.symm⟩
  | backward =>
      rw [hd] at hblock
      simp only [Analysis.amid, hd]
      exact ⟨hblock.2.symm, rfl⟩

variable [DecidableEq α] {a : Analysis α} {settings : Settings} {p : Program}
  {g : FlowGraph} {s : Solution α}

theorem Returned.solve_eq (h : Returned a settings p g s) :
    solve a settings p g = .ok s := by
  cases h with
  | plain h => exact h
  | within h => exact solve_of_solveWithin h

/-- The facts around an instruction are what its block makes of the facts at the
end from which facts come. -/
theorem at?_eq_amid
    (hg : g.BuiltFrom p) (hdistinct : (g.flow a.direction p).Distinct)
    (h : solve a settings p g = .ok s) {b : NodeId}
    {pre post : List Instruction} {instr : Instruction}
    (hcode : g.code p b = pre ++ instr :: post) :
    s.at? instr.id =
      some ⟨a.amid pre (instr :: post) (s.around a b),
        a.amid (pre ++ [instr]) post (s.around a b)⟩ := by
  obtain ⟨facts, k, hs⟩ := settled_of_solve hg h
  have hb : b < (g.flow a.direction p).size := by
    rw [FlowGraph.size_flow]
    have hinstr : instr ∈ g.code p b := by simp [hcode]
    exact FlowGraph.lt_of_mem_code hinstr
  have hview := unorient_around hs b
  cases hd : a.direction with
  | forward =>
      have hsplit : (g.flow a.direction p).code b = pre ++ instr :: post := by
        rw [hd, FlowGraph.code_flow_forward, hcode]
      have hat := Flow.arrives_of_settled hdistinct hs hb hsplit
      rw [← hview, Flow.Arrives] at hat
      simp only [hd] at hat
      simp only [Analysis.amid, hd, Analysis.through_concat]
      exact hat
  | backward =>
      have hsplit : (g.flow a.direction p).code b =
          post.reverse ++ instr :: pre.reverse := by
        rw [hd, FlowGraph.code_flow_backward, hcode]
        simp
      have hat := Flow.arrives_of_settled hdistinct hs hb hsplit
      rw [← hview, Flow.Arrives] at hat
      simp only [hd] at hat
      simp only [Analysis.amid, hd, List.reverse_cons, Analysis.through_concat]
      exact hat

theorem threads_of_solve
    (hg : g.BuiltFrom p) (hdistinct : (g.flow a.direction p).Distinct)
    (h : solve a settings p g = .ok s) {b : NodeId} (hb : b < g.blockCount) :
    s.Threads a (g.code p b) (s.around a b) := by
  obtain ⟨hinput, houtput⟩ := amid_ends (holds_of_solve hg h) hb
  refine ⟨?_, ?_, ?_, ?_⟩
  · intro instr hinstr
    obtain ⟨pre, post, hcode⟩ := List.append_of_mem hinstr
    exact ⟨_, at?_eq_amid hg hdistinct h hcode, a.relates_amid pre post instr _⟩
  · intro pre i j post hcode
    have hnext : g.code p b = (pre ++ [i]) ++ j :: post := by
      rw [hcode, List.append_assoc, List.singleton_append]
    exact ⟨_, _, at?_eq_amid hg hdistinct h hcode,
      at?_eq_amid hg hdistinct h hnext, rfl⟩
  · intro i post hcode
    have hfirst : g.code p b = [] ++ i :: post := hcode
    refine ⟨_, at?_eq_amid hg hdistinct h hfirst, ?_⟩
    rw [← hinput, hcode]
  · intro pre i hcode
    refine ⟨_, at?_eq_amid hg hdistinct h hcode, ?_⟩
    rw [← houtput, hcode]

/-- There are facts around exactly the instructions of the blocks. -/
theorem mem_instructions_iff
    (hg : g.BuiltFrom p) (h : solve a settings p g = .ok s) {id : InstrId} :
    id ∈ s.instructions ↔ id ∈ g.blocks.flatMap Block.instrs := by
  obtain ⟨facts, k, hs⟩ := settled_of_solve hg h
  rw [hs.instructions_eq, Flow.mem_instructionFacts_iff hs.size_eq,
    ← FlowGraph.flatMap_map_id_code hg.covered, FlowGraph.size_flow]
  simp only [List.mem_flatMap, List.mem_range]
  refine exists_congr fun b => and_congr_right fun _ => ?_
  cases a.direction with
  | forward => rw [FlowGraph.code_flow_forward]
  | backward => rw [FlowGraph.code_flow_backward, List.map_reverse,
      List.mem_reverse]

/-- Whatever the analysis, the facts of the blocks satisfy its equations.  If the
graph is the one of the program, or else arranges its instructions, there is one
pair of facts for each instruction, and the facts inside every block lead from one
end of the block to the other. -/
theorem solve_consistent
    (hp : p.Grown) (hg : g.BuiltFrom p) (h : Returned a settings p g s) :
    s.blocks.size = g.blockCount ∧ a.Holds p g (s.around a) ∧
      (FlowGraph.ofProgram p = .ok g ∨ g.Arranges p →
        s.instructions.keys.Perm p.ids ∧
          ∀ b < g.blockCount, s.Threads a (g.code p b) (s.around a b)) := by
  have hsolve := h.solve_eq
  have hids := hp.wellFormed.nodup_ids
  refine ⟨size_blocks_of_solve hg hsolve, holds_of_solve hg hsolve, ?_⟩
  intro hwhole
  have harranges : g.Arranges p :=
    hwhole.elim FlowGraph.arranges_of_ofProgram id
  have hdistinct : (g.flow a.direction p).Distinct := by
    apply FlowGraph.distinct_flow_of_nodup
    rw [FlowGraph.flatMap_map_id_code hg.covered]
    exact harranges.nodup_iff.mpr hids
  refine ⟨?_, fun b hb => threads_of_solve hg hdistinct hsolve hb⟩
  rw [List.perm_ext_iff_of_nodup Std.TreeMap.nodup_keys hids]
  intro id
  rw [Std.TreeMap.mem_keys, mem_instructions_iff hg hsolve,
    harranges.mem_iff]

/-- Whether the number of values printed so far is odd, on the way that leads to
a block first.  The meet does not commute. -/
def parity : Analysis Bool where
  name := "parity"
  direction := .forward
  boundary := false
  initial := false
  meet first _ := first
  transfer instr odd := odd != (instr.statement matches .print _)
  height := 1

theorem grown_countdown : countdown.Grown := by
  have hbuild : (Program.ofNames ["n"]).withInstructions
      countdown.instrs.toList = .ok countdown := by
    decide +kernel
  exact (Program.Grown.ofNames _).withInstructions (by decide) hbuild

/-- The loop is entered with nothing printed, and left with one value printed. -/
theorem solve_consistent_countdown :
    ∃ g s, FlowGraph.ofProgram countdown = .ok g ∧
      solve parity .default countdown g = .ok s ∧
      s.around parity 1 = ⟨false, true⟩ ∧
      parity.Holds countdown g (s.around parity) ∧
      s.instructions.keys.Perm countdown.ids ∧
      s.Threads parity (g.code countdown 1) (s.around parity 1) := by
  obtain ⟨g, hg⟩ := FlowGraph.exists_ofProgram (p := countdown) (by decide)
    (by decide) (by decide)
  have hrun : (FlowGraph.ofProgram countdown >>=
      solve parity .default countdown).toOption.map (fun s => s.around parity 1) =
        some ⟨false, true⟩ := by
    decide +kernel
  rw [hg] at hrun
  change (solve parity .default countdown g).toOption.map _ = _ at hrun
  cases hs : solve parity .default countdown g with
  | error e =>
      rw [hs] at hrun
      contradiction
  | ok s =>
      rw [hs] at hrun
      obtain ⟨-, hholds, hinside⟩ := solve_consistent grown_countdown
        (.program hg) (Returned.plain hs)
      obtain ⟨hkeys, hthreads⟩ := hinside (Or.inl hg)
      have hcount : 1 < g.blockCount := by
        rw [(FlowGraph.spans_of_ofProgram hg).blockCount_eq]
        decide
      exact ⟨g, s, hg, hs, Option.some.inj hrun, hholds, hkeys,
        hthreads 1 hcount⟩

end Solution
end ThreeAddress
