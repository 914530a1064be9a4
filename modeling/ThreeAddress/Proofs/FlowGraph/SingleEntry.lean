import ThreeAddress.Proofs.Dataflow.Instructions
import ThreeAddress.Proofs.FlowGraph.Existence

/-!
# Where control enters a block

Control enters blocks only at their first instructions if all jumps name leaders.
A jump that names any other instruction enters a block in its middle, although
the program has a flow graph.  The graph then lacks this way of control.
-/

namespace ThreeAddress
namespace FlowGraph

open Block

variable {p : Program} {g : FlowGraph} {i j : Instruction}

/-- Every instruction stands in the block that the graph names for it. -/
theorem exists_blockOf?
    (hp : p.ids.Nodup) (hg : ofProgram p = .ok g)
    (hj : j ∈ p.instrs.toList) :
    ∃ b, g.blockOf? j.id = some b ∧ j ∈ g.code p b := by
  obtain ⟨b, hb⟩ := exists_locate?_partition hj
  obtain ⟨run, hrun, hmem⟩ := run_of_locate?_partition hp hj hb
  refine ⟨b, ?_, ?_⟩
  · rw [blockOf?, locate?_congr (spans_of_ofProgram hg).map_instrs, hb]
  · rw [code_eq_run hp hg, hrun]
    exact hmem

theorem run_of_mem_code
    (hp : p.ids.Nodup) (hg : ofProgram p = .ok g) {b : NodeId}
    (hj : j ∈ g.code p b) :
    (runs p)[b]? = some (g.code p b) := by
  rw [code_eq_run hp hg] at hj ⊢
  cases hrun : (runs p)[b]? with
  | none => simp [hrun] at hj
  | some run => rfl

/-- A block begins with one of its instructions exactly if this is a leader. -/
theorem head?_code_iff
    (hp : p.ids.Nodup) (hg : ofProgram p = .ok g) {b : NodeId}
    (hj : j ∈ g.code p b) :
    (g.code p b).head? = some j ↔ p.Leader j := by
  have hrun := run_of_mem_code hp hg hj
  constructor
  · intro hhead
    obtain ⟨post, hcode⟩ := List.head?_eq_some_iff.mp hhead
    rw [hcode] at hrun
    exact leader_of_run hrun
  · intro hleader
    obtain ⟨post, hcode⟩ := eq_cons_of_leader hp hrun hj hleader
    rw [hcode]
    rfl

/-- A jump does not lead on within its block, so the graph lets it lead to
leaders only. -/
theorem leader_of_next
    (hp : p.ids.Nodup) (hg : ofProgram p = .ok g) (hjump : i.isJump = true)
    (h : g.Next p i j) :
    p.Leader j := by
  rcases h with ⟨b, pre, post, hcode⟩ | ⟨u, v, pre, post, -, -, hcode⟩
  · have hi : i ∈ g.code p b := by simp [hcode]
    have hrun := run_of_mem_code hp hg hi
    have hno := (not_isJump_and_not_labelled (List.mem_of_getElem? hrun) hcode).1
    rw [hno] at hjump
    contradiction
  · have hj : j ∈ g.code p v := by simp [hcode]
    have hrun := run_of_mem_code hp hg hj
    rw [hcode] at hrun
    exact leader_of_run hrun

theorem flows_of_next
    (hp : p.ids.Nodup) (hg : ofProgram p = .ok g) (hjumps : p.JumpsToLeaders)
    (h : g.Next p i j) :
    p.Flows i j := by
  rcases h with ⟨b, pre, post, hcode⟩ | ⟨u, v, pre, post, hadj, hu, hv⟩
  · have hi : i ∈ g.code p b := by simp [hcode]
    have hrun := run_of_mem_code hp hg hi
    rw [hcode] at hrun
    exact flows_of_run hrun
  · have hi : i ∈ g.code p u := by simp [hu]
    have hj : j ∈ g.code p v := by simp [hv]
    have hrun := run_of_mem_code hp hg hi
    have hrun' := run_of_mem_code hp hg hj
    rw [hu] at hrun
    rw [hv] at hrun'
    exact flows_of_leads hp hjumps hrun hrun'
      (((spans_of_ofProgram hg).adjacent_iff u v).mp hadj)

/-- The graph has the ways of control and no others exactly if jumps name
leaders. -/
theorem flows_iff_next_iff
    (hp : p.ids.Nodup) (hg : ofProgram p = .ok g) :
    (∀ i j, p.Flows i j ↔ g.Next p i j) ↔ p.JumpsToLeaders := by
  constructor
  · intro hways i hi target htarget j hj
    have hflows : p.Flows i j := Or.inr ⟨hi, target, htarget, hj⟩
    exact leader_of_next hp hg (Instruction.isJump_of_jumpTarget? htarget)
      ((hways i j).mp hflows)
  · intro hjumps i j
    exact ⟨next_of_flows hp hg hjumps, flows_of_next hp hg hjumps⟩

/-- For a program that has a flow graph, every jump names an instruction that
stands in some block, and it is the first of the block exactly if it is a leader.
Control passes from instruction to instruction just as the graph says, within
blocks and from the last of a block to the first of a successor, exactly if this
is so for every jump. -/
theorem entered_at_first_iff_leader
    (hp : p.Grown) (hg : ofProgram p = .ok g) :
    (∀ i ∈ p.instrs.toList, ∀ target, i.jumpTarget? = some target →
        ∃ j b, p.get? target = some j ∧ g.blockOf? target = some b ∧
          j ∈ g.code p b ∧ ((g.code p b).head? = some j ↔ p.Leader j)) ∧
      ((∀ i j, p.Flows i j ↔ g.Next p i j) ↔ p.JumpsToLeaders) := by
  have hids := hp.wellFormed.nodup_ids
  refine ⟨?_, flows_iff_next_iff hids hg⟩
  intro i hi target htarget
  obtain ⟨j, hj, rfl⟩ := List.mem_map.mp
    (jumpsResolve_of_ofProgram hids hg i hi target htarget)
  obtain ⟨b, hb, hmem⟩ := exists_blockOf? hids hg hj
  exact ⟨j, b, Program.get?_of_mem hids hj, hb, hmem,
    head?_code_iff hids hg hmem⟩

/-- Shows a number, counts it down to zero, and then waits.  No instruction is
labelled, but the jumps name the first instruction and one after a jump. -/
def unlabelled : Program where
  instrs := #[
    ⟨⟨0⟩, false, .print (.var ⟨0⟩)⟩,
    ⟨⟨1⟩, false, .assign ⟨0⟩ (some (.var ⟨0⟩)) .minus (.const 1)⟩,
    ⟨⟨2⟩, false, .branch (.var ⟨0⟩) ⟨0⟩⟩,
    ⟨⟨3⟩, false, .nop⟩,
    ⟨⟨4⟩, false, .goto ⟨3⟩⟩]
  names := #["n"]

theorem grown_unlabelled : unlabelled.Grown := by
  have hbuild : (Program.ofNames ["n"]).withInstructions
      unlabelled.instrs.toList = .ok unlabelled := by
    decide +kernel
  exact (Program.Grown.ofNames _).withInstructions (by decide) hbuild

theorem entered_at_first_iff_leader_unlabelled :
    ∃ g, ofProgram unlabelled = .ok g ∧ unlabelled.Grown ∧
      unlabelled.JumpsToLeaders ∧
      ∀ i j, unlabelled.Flows i j ↔ g.Next unlabelled i j := by
  have hjumps : unlabelled.JumpsToLeaders := by decide
  obtain ⟨g, hg⟩ := (exists_ofProgram_iff (p := unlabelled) (by decide)).mpr
    ⟨by decide, by decide⟩
  exact ⟨g, hg, grown_unlabelled, hjumps,
    (entered_at_first_iff_leader grown_unlabelled hg).2.mpr hjumps⟩

/-- Shows the number. -/
def showNumber : Instruction :=
  ⟨⟨1⟩, false, .print (.var ⟨0⟩)⟩

/-- Goes back to show the next number. -/
def repeatShow : Instruction :=
  ⟨⟨3⟩, false, .branch (.var ⟨0⟩) ⟨1⟩⟩

/-- Counts down from three.  The jump names the second instruction, which carries
no label. -/
def intoBlock : Program where
  instrs := #[
    ⟨⟨0⟩, false, .assign ⟨0⟩ none .copy (.const 3)⟩,
    showNumber,
    ⟨⟨2⟩, false, .assign ⟨0⟩ (some (.var ⟨0⟩)) .minus (.const 1)⟩,
    repeatShow]
  names := #["n"]

theorem grown_intoBlock : intoBlock.Grown := by
  have hbuild : (Program.ofNames ["n"]).withInstructions
      intoBlock.instrs.toList = .ok intoBlock := by
    decide +kernel
  exact (Program.Grown.ofNames _).withInstructions (by decide) hbuild

/-- The program has a flow graph, yet control jumps into the middle of a block,
and the graph does not have this way. -/
theorem not_entered_at_first_intoBlock :
    intoBlock.Grown ∧ ∃ g, ofProgram intoBlock = .ok g ∧
      repeatShow ∈ intoBlock.instrs.toList ∧
      repeatShow.jumpTarget? = some showNumber.id ∧
      intoBlock.get? showNumber.id = some showNumber ∧
      (∃ b, g.blockOf? showNumber.id = some b ∧
        showNumber ∈ g.code intoBlock b ∧
        (g.code intoBlock b).head? ≠ some showNumber) ∧
      intoBlock.Flows repeatShow showNumber ∧
      ¬ g.Next intoBlock repeatShow showNumber := by
  have hids : intoBlock.ids.Nodup := by decide
  have hget : intoBlock.get? showNumber.id = some showNumber := by decide
  have hleader : ¬ intoBlock.Leader showNumber := by decide
  obtain ⟨g, hg⟩ := (exists_ofProgram_iff hids).mpr ⟨by decide, by decide⟩
  obtain ⟨b, hb, hmem⟩ := exists_blockOf? hids hg (j := showNumber) (by decide)
  refine ⟨grown_intoBlock, g, hg, by decide, rfl, hget, ⟨b, hb, hmem, ?_⟩,
    Or.inr ⟨by decide, _, rfl, hget⟩, ?_⟩
  · rwa [ne_eq, head?_code_iff hids hg hmem]
  · intro hnext
    exact hleader (leader_of_next hids hg rfl hnext)

end FlowGraph
end ThreeAddress
