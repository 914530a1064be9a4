import ThreeAddress.Proofs.Block.DeadCode
import ThreeAddress.Proofs.Block.Summary
import ThreeAddress.Proofs.DeadStore
import ThreeAddress.Proofs.LiveVariables

/-!
# Straight-line code

A program without jumps and labels is a single block.  A variable is live after
an instruction if the rest of the program reads it before defining it, so a store
is dead exactly if nothing in the block reads it.  Removing dead stores from the
program and removing dead definitions from the block then come to the same, round
by round.
-/

namespace ThreeAddress

open Block

/-- Whether control goes from each instruction to the next one, and comes from
nowhere else. -/
def Program.StraightLine (p : Program) : Prop :=
  ∀ i ∈ p.instrs.toList, i.isJump = false ∧ i.labelled = false

instance : DecidablePred Program.StraightLine :=
  fun p => inferInstanceAs (Decidable (∀ i ∈ p.instrs.toList, _))

namespace FlowGraph

variable {p : Program} {g : FlowGraph} (hstraight : p.StraightLine)
  (hne : p.instrs.toList ≠ [])

include hstraight

theorem jumpsLabelled_of_straightLine : p.JumpsLabelled := by
  intro i hi target htarget
  have hjump := Instruction.isJump_of_jumpTarget? htarget
  rw [(hstraight i hi).1] at hjump
  contradiction

include hne

theorem runs_of_straightLine : runs p = [p.instrs.toList] := by
  apply List.splitBy_of_isChain hne
  apply List.Pairwise.isChain
  apply List.pairwise_of_forall_mem_list
  intro i hi j hj
  rw [continues, (hstraight i hi).1, (hstraight j hj).2]
  rfl

theorem partition_of_straightLine :
    partition p = [.ofInstrs 0 p.ids] := by
  rw [partition_eq_ofRuns, runs_of_straightLine hstraight hne]
  rfl

theorem code_of_straightLine
    (hids : p.ids.Nodup) (hg : ofProgram p = .ok g) :
    g.code p entry = p.instrs.toList := by
  rw [code_eq_run hids hg, runs_of_straightLine hstraight hne]
  rfl

theorem blockCount_of_straightLine (hg : ofProgram p = .ok g) :
    g.blockCount = 1 := by
  rw [blockCount_eq_length_runs hg, runs_of_straightLine hstraight hne]
  rfl

theorem not_adjacent_of_straightLine
    (hids : p.ids.Nodup) (hg : ofProgram p = .ok g) (u v : NodeId) :
    ¬ g.graph.Adjacent u v := by
  have hspans := spans_of_ofProgram hg
  intro hadjacent
  have hu : u < g.blockCount := (hspans.wellFormed.lt_of_adjacent hadjacent).1
  have hb : g.blocks[u]? = some (g.blocks.get ⟨u, hu⟩) :=
    List.getElem?_eq_getElem hu
  obtain ⟨last, hlast⟩ :=
    exists_ends_of_ofProgram hids hg (List.mem_of_getElem? hb)
  have hjump := (hstraight last (Program.get?_eq_some hlast.2).1).1
  have hcount := blockCount_of_straightLine hstraight hne hg
  have hdegree := (outDegree_eq_zero_iff_of_ofProgram hg hb hlast).mpr
    ⟨hjump, by omega⟩
  exact hspans.wellFormed.outDegree_eq_zero_iff.mp hdegree v hadjacent

theorem successors_of_straightLine
    (hids : p.ids.Nodup) (hg : ofProgram p = .ok g) (u : NodeId) :
    g.graph.successors u = [] := by
  rw [List.eq_nil_iff_forall_not_mem]
  intro v hv
  exact not_adjacent_of_straightLine hstraight hne hids hg u v
    ((spans_of_ofProgram hg).wellFormed.mem_successors.mp hv)

theorem predecessors_of_straightLine
    (hids : p.ids.Nodup) (hg : ofProgram p = .ok g) (u : NodeId) :
    g.graph.predecessors u = [] := by
  rw [List.eq_nil_iff_forall_not_mem]
  intro v hv
  exact not_adjacent_of_straightLine hstraight hne hids hg v u
    ((spans_of_ofProgram hg).wellFormed.mem_predecessors.mp hv)

theorem blocks_of_straightLine
    (hids : p.ids.Nodup) (hg : ofProgram p = .ok g) :
    g.blocks = [.ofInstrs 0 p.ids] := by
  apply List.ext_getElem?
  intro u
  rw [getElem?_blocks_of_ofProgram hg, ← partition_of_straightLine hstraight hne,
    predecessors_of_straightLine hstraight hne hids hg,
    successors_of_straightLine hstraight hne hids hg, getElem?_partition,
    Option.map_map]
  rfl

end FlowGraph

namespace LiveVariables

/-- If nothing is live at the end of some code, those variables are live before
it that it reads before defining them. -/
theorem isLive_through_iff
    {p : Program} {code : List Instruction}
    (huses : ∀ k ∈ code, Uses p.varCount k) {v : VarId} :
    isLive ((analysis p).through code.reverse (.empty p.varCount)) v = true ↔
      Exposed v code := by
  rw [isLive, contains_through (sized_empty p.varCount) huses,
    BitSet.contains_empty]
  constructor
  · rintro (⟨hempty, -⟩ | ⟨w, hindex, hw⟩)
    · contradiction
    · rwa [← VarId.index_injective hindex]
  · intro hv
    exact Or.inr ⟨v, rfl, hv⟩

end LiveVariables

namespace DeadStore

open Chains DeadCode

section Liveness

variable {p : Program} {g : FlowGraph} {live : Solution VarSet}
  (hp : p.WellFormed) (hstraight : p.StraightLine)
  (hg : FlowGraph.ofProgram p = .ok g)
  (hlive : LiveVariables.solve p .default p g = .ok live)

include hp hstraight hg hlive

theorem isDead_iff
    {pre post : List Instruction} {d : Instruction}
    (hsplit : p.instrs.toList = pre ++ d :: post) :
    isDead live d = true ↔ ∃ v, d.defined? = some v ∧ ¬ Exposed v post := by
  have hne : p.instrs.toList ≠ [] := by simp [hsplit]
  have hsolve := Solution.solve_of_solveWithin hlive
  have hbuilt := FlowGraph.BuiltFrom.program hg
  have hcode := FlowGraph.code_of_straightLine hstraight hne hp.nodup_ids hg
  have hat := Solution.at?_eq_amid hbuilt
    (FlowGraph.distinct_flow hp.nodup_ids hg _) hsolve (hcode.trans hsplit)
  have hend : (live.around (LiveVariables.analysis p) FlowGraph.entry).output =
      .empty p.varCount := by
    have hentry := Solution.holds_of_solve hbuilt hsolve FlowGraph.entry
      (FlowGraph.entry_lt_of_ofProgram hg)
    refine hentry.1.trans ?_
    rw [FlowGraph.successors_of_straightLine hstraight hne hp.nodup_ids hg]
    rfl
  have huses : ∀ k ∈ post, LiveVariables.Uses p.varCount k := by
    intro k hk
    apply hp.index_lt
    rw [hsplit]
    exact List.mem_append_right _ (List.mem_cons_of_mem _ hk)
  rw [isDead, hat]
  cases hdefined : d.defined? with
  | none => simp
  | some v =>
      have hiff := LiveVariables.isLive_through_iff huses (v := v)
      rw [← hend] at hiff
      simp only [Option.some.injEq, exists_eq_left', ← hiff,
        Bool.not_eq_true]
      exact (Bool.not_eq_true' _).to_iff

/-- A store of the program is dead exactly if the chains of the block have no
read of it. -/
theorem mem_deadSites_iff
    {c : Chains} (hc : Chains.ofInstructions p.instrs.toList = .ok c)
    {i : Instruction} (hi : i ∈ p.instrs.toList) :
    i.id ∈ deadSites live p ↔ i.id ∈ c.dead := by
  obtain ⟨pre, post, hsplit⟩ := List.append_of_mem hi
  rw [mem_dead_iff_of_split hp.nodup_ids hc hsplit,
    ← isDead_iff hp hstraight hg hlive hsplit]
  constructor
  · exact isDead_of_mem_deadSites hp.nodup_ids hi
  · intro hdead
    exact List.mem_map_of_mem (List.mem_filter.mpr ⟨hi, hdead⟩)

theorem deadSites_eq_nil_iff
    {c : Chains} (hc : Chains.ofInstructions p.instrs.toList = .ok c) :
    deadSites live p = [] ↔ c.dead = [] := by
  have hiff := fun i => mem_deadSites_iff hp hstraight hg hlive hc (i := i)
  rw [List.eq_nil_iff_forall_not_mem, List.eq_nil_iff_forall_not_mem]
  constructor
  · intro hnone id hid
    obtain ⟨i, hi, rfl⟩ := Chains.exists_mem_of_mem_dead hc hid
    exact hnone _ ((hiff i hi).mpr hid)
  · intro hnone id hid
    obtain ⟨i, hi, rfl⟩ := List.mem_map.mp hid
    have hmem := (List.mem_filter.mp hi).1
    exact hnone _ ((hiff i hmem).mp hid)

theorem survivors_eq_drop
    {c : Chains} (hc : Chains.ofInstructions p.instrs.toList = .ok c) :
    survivors (deadSites live p) p.instrs.toList =
      drop c.dead p.instrs.toList := by
  rw [survivors, drop, ← List.filterMap_eq_filter]
  apply List.filterMap_congr
  intro i hi
  have hiff := mem_deadSites_iff hp hstraight hg hlive hc hi
  by_cases hdead : i.id ∈ c.dead
  · rw [survivor?_eq_none_iff.mpr ⟨hiff.mpr hdead, (hstraight i hi).2⟩]
    simp [Option.guard, hdead]
  · rw [survivor?_of_not_mem (mt hiff.mp hdead)]
    simp [Option.guard, hdead]

end Liveness

/-- Both ways of removing what is dead leave the same instructions. -/
theorem exists_eliminate_and_settle
    {p : Program} {c : Chains} (hp : p.WellFormed) (hstraight : p.StraightLine)
    (hne : p.instrs.toList ≠ []) (hsize : p.size + 2 ≤ Settings.maxWord)
    (hc : Chains.ofInstructions p.instrs.toList = .ok c) :
    ∃ q, eliminate .default p = .ok q ∧
      settle p.instrs.toList = .ok q.instrs.toList := by
  induction p using (wellFounded_round .default).induction generalizing c with
  | _ p ih =>
      obtain ⟨g, hg⟩ := FlowGraph.exists_ofProgram hp.nodup_ids hne
        (FlowGraph.jumpsLabelled_of_straightLine hstraight)
      obtain ⟨live, hlive, hsolve⟩ := exists_liveness hp hg hsize
      have hnil := deadSites_eq_nil_iff hp hstraight hg hsolve hc
      by_cases hdead : c.dead = []
      · exact ⟨p, eliminate_of_deadSites_eq_nil hlive (hnil.mpr hdead),
          settle_of_dead_eq_nil hc hdead⟩
      · obtain ⟨next, hround, hnext⟩ :=
          exists_round hp hlive (mt hnil.mp hdead)
        rw [survivors_eq_drop hp hstraight hg hsolve hc] at hnext
        rw [hround.eliminate_eq, settle_of_dead_ne_nil hc hdead, ← hnext]
        have hclosed : ∀ v, ¬ Exposed v next.instrs.toList := by
          rw [hnext]
          exact not_exposed_drop hp.nodup_ids hc
        have hchains := ofInstructions_eq_ok_iff.mpr ⟨hclosed, rfl⟩
        by_cases hempty : next.isEmpty = true
        · have hnone : next.instrs.toList = [] := by
            simpa [Program.isEmpty] using hempty
          refine ⟨next, if_pos hempty, ?_⟩
          rw [hnone]
          exact settle_of_dead_eq_nil (c := ⟨[]⟩) rfl rfl
        · rw [if_neg hempty]
          have hle := hround.size_le
          refine ih next hround hround.wellFormed ?_ ?_ (by omega) hchains
          · intro i hi
            rw [hnext] at hi
            exact hstraight i (mem_drop_iff.mp hi).1
          · simpa [Program.isEmpty] using hempty

/-- Straight-line code is a single block, in the program as in its flow graph.  If
the block has chains, removing dead stores from the program succeeds, and leaves
exactly the instructions that are left when dead definitions are removed from the
block. -/
theorem eliminate_agrees_with_block
    {p : Program} (hp : p.Grown) (hne : 0 < p.size)
    (hstraight : p.StraightLine) :
    ∃ b g, partition p = [b] ∧ FlowGraph.ofProgram p = .ok g ∧
      g.blocks = [b] ∧ ∀ c, Chains.ofBlock p b = .ok c →
        ∃ q b', eliminate .default p = .ok q ∧
          DeadCode.eliminate p b = .ok b' ∧ q.ids = b'.instrs := by
  have hids := hp.wellFormed.nodup_ids
  have hlist : p.instrs.toList ≠ [] := Program.toList_ne_nil hne
  -- the computed limit on the passes does not overflow
  have hsize : p.size + 2 ≤ Settings.maxWord :=
    (Nat.add_le_add_right hp.size_le 2).trans (by decide)
  obtain ⟨g, hg⟩ := FlowGraph.exists_ofProgram hids hlist
    (FlowGraph.jumpsLabelled_of_straightLine hstraight)
  refine ⟨_, g, FlowGraph.partition_of_straightLine hstraight hlist, hg,
    FlowGraph.blocks_of_straightLine hstraight hlist hids hg, ?_⟩
  intro c hc
  have hmem : ∀ id ∈ (Block.ofInstrs 0 p.ids).instrs, id ∈ p.ids :=
    fun _ hid => hid
  have hcode : (Block.ofInstrs 0 p.ids).instrs.filterMap p.get? =
      p.instrs.toList :=
    Program.filterMap_get?_map_id fun _ => Program.get?_of_mem hids
  rw [ofBlock_eq hmem, hcode] at hc
  obtain ⟨q, hq, hsettle⟩ :=
    exists_eliminate_and_settle hp.wellFormed hstraight hlist hsize hc
  rw [← hcode] at hsettle
  exact ⟨q, _, hq, eliminate_of_settle hmem hsettle, rfl⟩

theorem grown_overwriting : overwriting.Grown := by
  have hbuild : (Program.ofNames ["a", "x", "y"]).withInstructions
      overwriting.instrs.toList = .ok overwriting := by
    decide +kernel
  exact (Program.Grown.ofNames _).withInstructions (by decide) hbuild

/-- Computes values that nothing uses. -/
def idle : Program where
  instrs := #[
    ⟨⟨0⟩, false, .assign ⟨0⟩ none .copy (.const 2)⟩,
    ⟨⟨1⟩, false, .assign ⟨0⟩ (some (.var ⟨0⟩)) .mul (.var ⟨0⟩)⟩]
  names := #["x"]

theorem grown_idle : idle.Grown := by
  have hbuild : (Program.ofNames ["x"]).withInstructions
      idle.instrs.toList = .ok idle := by
    decide +kernel
  exact (Program.Grown.ofNames _).withInstructions (by decide) hbuild

/-- Of the first program a result and what it is computed from are left, and of
the second one nothing. -/
theorem eliminate_agrees_with_block_overwriting :
    (∃ q, eliminate .default overwriting = .ok q ∧ q.ids = [⟨3⟩, ⟨4⟩, ⟨5⟩]) ∧
      ∃ q, eliminate .default idle = .ok q ∧ q.ids = [] := by
  have hresult : DeadCode.eliminate overwriting (.ofInstrs 0 overwriting.ids) =
      .ok (.ofInstrs 0 [⟨3⟩, ⟨4⟩, ⟨5⟩]) := by
    decide +kernel
  have hnothing : DeadCode.eliminate idle (.ofInstrs 0 idle.ids) =
      .ok (.ofInstrs 0 []) := by
    decide +kernel
  constructor
  · obtain ⟨b, g, hb, -, -, hall⟩ := eliminate_agrees_with_block grown_overwriting
      (by decide) (by decide)
    rw [FlowGraph.partition_of_straightLine (by decide) (by decide)] at hb
    obtain rfl := List.singleton_inj.mp hb
    obtain ⟨q, b', hq, hb', hsame⟩ := hall _ rfl
    obtain rfl := Except.ok.inj (hresult.symm.trans hb')
    exact ⟨q, hq, hsame⟩
  · obtain ⟨b, g, hb, -, -, hall⟩ := eliminate_agrees_with_block grown_idle
      (by decide) (by decide)
    rw [FlowGraph.partition_of_straightLine (by decide) (by decide)] at hb
    obtain rfl := List.singleton_inj.mp hb
    obtain ⟨q, b', hq, hb', hsame⟩ := hall _ rfl
    obtain rfl := Except.ok.inj (hnothing.symm.trans hb')
    exact ⟨q, hq, hsame⟩

end DeadStore
end ThreeAddress
