import ThreeAddress.Proofs.Dataflow.Instructions

/-!
# Blocks from which control goes back

A pass with control visits the blocks in program order.  So facts come late only
along the edges that lead from a block to itself or to an earlier one, and the
blocks which such edges leave form a cut.  Each of them ends with a jump, so there
are no more of them than jumps in the program.
-/

namespace ThreeAddress
namespace FlowGraph

variable {p : Program} {g : FlowGraph}

/-- The blocks from which control may go to a block that is not a later one. -/
def retreating (g : FlowGraph) : List NodeId :=
  (List.range g.blockCount).filter fun u =>
    (g.graph.successors u).any fun v => decide (v ≤ u)

theorem mem_retreating (hg : g.graph.WellFormed) {u : NodeId} :
    u ∈ g.retreating ↔ ∃ v ≤ u, g.graph.Adjacent u v := by
  simp only [retreating, List.mem_filter, List.mem_range, List.any_eq_true,
    decide_eq_true_eq, hg.mem_successors]
  constructor
  · rintro ⟨-, v, hadj, hle⟩
    exact ⟨v, hle, hadj⟩
  · rintro ⟨v, hle, hadj⟩
    exact ⟨(hg.lt_of_adjacent hadj).1, v, hadj, hle⟩

theorem lt_of_mem_retreating {u : NodeId} (h : u ∈ g.retreating) :
    u < g.blockCount :=
  List.mem_range.mp (List.mem_of_mem_filter h)

theorem length_retreating_le_blockCount (g : FlowGraph) :
    g.retreating.length ≤ g.blockCount := by
  have hle := List.length_filter_le
    (fun u => (g.graph.successors u).any fun v => decide (v ≤ u))
    (List.range g.blockCount)
  rwa [List.length_range] at hle

theorem isCut_retreating (hg : g.graph.WellFormed) (p : Program) :
    (g.flow .forward p).IsCut (· ∈ g.retreating.toFinset) := by
  intro front back b horder n hn
  have hadj : g.graph.Adjacent n b := hg.mem_predecessors.mp hn
  have hrange : List.range g.blockCount = front ++ b :: back := horder
  by_cases hle : b ≤ n
  · refine Or.inr (List.mem_toFinset.mpr ?_)
    exact (mem_retreating hg).mpr ⟨b, hle, hadj⟩
  · have hsorted : (front ++ b :: back).Pairwise (· < ·) := by
      rw [← hrange]
      exact List.pairwise_lt_range
    have hback : ∀ m ∈ back, b < m :=
      (List.pairwise_cons.mp (List.pairwise_append.mp hsorted).2.1).1
    have hmem : n ∈ List.range g.blockCount :=
      List.mem_range.mpr (hg.lt_of_adjacent hadj).1
    rw [hrange] at hmem
    rcases List.mem_append.mp hmem with hfront | hlater
    · exact Or.inl hfront
    · rcases List.mem_cons.mp hlater with rfl | hlate
      · exact absurd (Nat.le_refl n) hle
      · exact absurd (Nat.le_of_lt (hback n hlate)) hle

/-- Control goes back by a jump. -/
theorem exists_isJump_of_mem_retreating
    (hg : ofProgram p = .ok g) {u : NodeId} (hu : u ∈ g.retreating) :
    ∃ j ∈ g.code p u, j.isJump = true := by
  have hspans := spans_of_ofProgram hg
  obtain ⟨v, hle, hadj⟩ := (mem_retreating hspans.wellFormed).mp hu
  obtain ⟨b, last, instr, hb, hlast, hget, hleads⟩ :=
    (hspans.adjacent_iff u v).mp hadj
  have hjump : instr.isJump = true := by
    rcases hleads with ⟨target, htarget, -⟩ | ⟨-, rfl, -⟩
    · exact Instruction.isJump_of_jumpTarget? htarget
    · exact absurd hle (Nat.not_succ_le_self u)
  refine ⟨instr, ?_, hjump⟩
  have hinstrs := congrArg (·[u]?) hspans.map_instrs
  simp only [List.getElem?_map, hb, Option.map_some, blocks,
    Array.getElem?_toList] at hinstrs
  obtain ⟨block, hblock, hsame⟩ := Option.map_eq_some_iff.mp hinstrs
  rw [code, Digraph.node?, hblock, Option.elim_some, hsame]
  exact List.mem_filterMap.mpr ⟨last, List.mem_of_getLast? hlast, hget⟩

/-- Blocks that hold a certain kind of instruction are no more than there are
such instructions. -/
theorem length_filter_le_countP
    {code : NodeId → List Instruction} {test : NodeId → Bool}
    {kind : Instruction → Bool} {nodes : List NodeId}
    (h : ∀ u ∈ nodes, test u = true → ∃ i ∈ code u, kind i = true) :
    (nodes.filter test).length ≤ (nodes.flatMap code).countP kind := by
  induction nodes with
  | nil => exact Nat.le_refl 0
  | cons u rest ih =>
      rw [List.forall_mem_cons] at h
      have hrest := ih h.2
      rw [List.flatMap_cons, List.countP_append, List.filter_cons]
      split
      · next htest =>
          have hpos : 0 < (code u).countP kind :=
            List.countP_pos_iff.mpr (h.1 htest)
          rw [List.length_cons]
          omega
      · omega

theorem length_retreating_le
    (hp : p.ids.Nodup) (hg : ofProgram p = .ok g) :
    g.retreating.length ≤ p.instrs.toList.countP Instruction.isJump := by
  rw [← flatMap_code hp hg]
  apply length_filter_le_countP
  intro u hu htest
  exact exists_isJump_of_mem_retreating hg (List.mem_filter.mpr ⟨hu, htest⟩)

end FlowGraph
end ThreeAddress
