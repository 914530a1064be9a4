import Mathlib.Algebra.Order.Ring.Nat
import Mathlib.Algebra.Order.Ring.Unbundled.Basic
import Mathlib.Tactic.Ring
import ThreeAddress.Proofs.Dataflow.Constants
import ThreeAddress.Proofs.Dataflow.Retreat

/-!
# The passes of constant propagation

The number of blocks times the number of variables may exceed the largest machine
word, and so may the number of passes that a limit on the falls of single facts
suggests.  Fewer suffice: facts come late only from blocks that end with a jump,
and only the values of assigned variables change.  As no instruction both jumps and
assigns, the product of these two numbers stays small.
-/

namespace ThreeAddress

namespace Settings

/-- A machine word has room for twice a product of two numbers that together count
no more than the handles. -/
theorem mul_add_two_le_maxWord {m n : Nat} (h : m + n ≤ UInt32.size) :
    m * (n * 2) + 2 ≤ maxWord := by
  have hquarter := four_mul_le_sq_add m n
  rw [sq] at hquarter
  have hdouble : 4 * m * n = 2 * (m * (n * 2)) := by ring
  have hsquare := Nat.mul_le_mul h h
  have hword : UInt32.size * UInt32.size = maxWord + 1 := by decide
  have hlarge : 5 ≤ maxWord := by decide
  omega

end Settings

namespace ConstantPropagation

/-- The variables that instructions of a program assign, by index. -/
def assigned (p : Program) : Finset Nat :=
  (p.instrs.toList.filterMap fun instr =>
    instr.defined?.map VarId.index).toFinset

theorem mem_assigned {p : Program} {i : Nat} :
    i ∈ assigned p ↔
      ∃ instr ∈ p.instrs.toList, instr.defined?.map VarId.index = some i := by
  simp only [assigned, List.mem_toFinset, List.mem_filterMap]

/-- The environments of the variables of a program in which nothing is known of
variables that are never assigned. -/
def Stored (p : Program) (env : ConstEnv) : Prop :=
  Sized p.varCount env ∧ ∀ i ∉ assigned p, env.value i = .undetermined

theorem stored_undetermined (p : Program) :
    Stored p (.undetermined p.varCount) :=
  ⟨sized_undetermined _, fun i _ => ConstEnv.value_undetermined _ i⟩

theorem Stored.meet
    {p : Program} {x y : ConstEnv} (hx : Stored p x) (hy : Stored p y) :
    Stored p (x.meet y) := by
  refine ⟨hx.1.meet hy.1, ?_⟩
  intro i hi
  rw [hx.1.value_meet hy.1, hx.2 i hi, hy.2 i hi]
  rfl

/-- An instruction changes nothing but the variable that it assigns. -/
theorem value_transfer_of_ne
    {instr : Instruction} {i : Nat}
    (h : instr.defined?.map VarId.index ≠ some i) (env : ConstEnv) :
    (transfer instr env).value i = env.value i := by
  rw [transfer]
  split
  · next target _ _ _ hstatement =>
      have hne : target.index ≠ i := by
        intro heq
        apply h
        rw [Instruction.defined?, hstatement, ← heq]
        rfl
      simp [ConstEnv.value, ConstEnv.set, Array.getElem?_setIfInBounds_ne hne]
  · rfl

theorem Stored.transfer
    {p : Program} {instr : Instruction} (hinstr : instr ∈ p.instrs.toList)
    {x : ConstEnv} (hx : Stored p x) :
    Stored p (transfer instr x) := by
  refine ⟨hx.1.transfer instr, ?_⟩
  intro i hi
  rw [value_transfer_of_ne (fun h => hi (mem_assigned.mpr ⟨instr, hinstr, h⟩))]
  exact hx.2 i hi

/-- The laws hold for these environments. -/
theorem laws_stored {p : Program} (hp : p.WellFormed) :
    (analysis p).Laws (Stored p) (· ∈ p.instrs.toList) :=
  ((laws p).restrict fun _ hinstr => writes_of_mem hp hinstr).narrow
    (fun hx => hx.1) (stored_undetermined p) (stored_undetermined p)
    (fun hx hy => hx.meet hy) (fun hinstr hx => hx.transfer hinstr)

theorem ranks_stored (p : Program) :
    (analysis p).Ranks (Stored p) (rankOver (assigned p))
      ((assigned p).card * 2) where
  le _ := rankOver_le _ _
  lt hx hy := by
    refine rankOver_lt hx.1 hy.1 ?_
    intro i hi
    rw [hx.2 i hi, hy.2 i hi]

/-! ## Few passes -/

theorem card_assigned_le_varCount {p : Program} (hp : p.WellFormed) :
    (assigned p).card ≤ p.varCount := by
  have hsub : assigned p ⊆ Finset.range p.varCount := by
    intro i hi
    obtain ⟨instr, hinstr, hindex⟩ := mem_assigned.mp hi
    obtain ⟨v, hv, rfl⟩ := Option.map_eq_some_iff.mp hindex
    exact Finset.mem_range.mpr (writes_of_mem hp hinstr v hv)
  rw [← Finset.card_range p.varCount]
  exact Finset.card_le_card hsub

/-- No instruction both jumps and assigns. -/
theorem countP_isJump_add_card_assigned_le (p : Program) :
    p.instrs.toList.countP Instruction.isJump + (assigned p).card ≤ p.size := by
  have hassigns : (assigned p).card ≤
      p.instrs.toList.countP fun instr => !instr.isJump := by
    refine (List.toFinset_card_le _).trans ?_
    rw [List.length_filterMap_eq_countP]
    apply List.countP_mono_left
    intro instr _ hsome
    rw [Instruction.defined?] at hsome
    rw [Instruction.isJump]
    cases hstatement : instr.statement <;>
      simp_all [Statement.defined?, Statement.isJump]
  have hlength : p.instrs.toList.length =
      p.instrs.toList.countP Instruction.isJump +
        p.instrs.toList.countP fun instr => !instr.isJump := by
    simpa only [Bool.not_eq_true, Bool.decide_eq_false] using
      List.length_eq_countP_add_countP Instruction.isJump
  rw [Array.length_toList] at hlength
  rw [Program.size]
  omega

/-- How often constants that leave blocks from which control goes back can
fall. -/
def falls (p : Program) (g : FlowGraph) : Nat :=
  g.retreating.toFinset.card * ((assigned p).card * 2)

theorem falls_add_two_le_maxWord
    {p : Program} {g : FlowGraph} (hp : p.Grown)
    (hg : FlowGraph.ofProgram p = .ok g) :
    falls p g + 2 ≤ Settings.maxWord := by
  apply Settings.mul_add_two_le_maxWord
  calc
    g.retreating.toFinset.card + (assigned p).card ≤
        p.instrs.toList.countP Instruction.isJump + (assigned p).card :=
      Nat.add_le_add_right ((List.toFinset_card_le _).trans
        (FlowGraph.length_retreating_le hp.wellFormed.nodup_ids hg)) _
    _ ≤ p.size := countP_isJump_add_card_assigned_le p
    _ ≤ UInt32.size := hp.size_le

theorem falls_add_blockCount_le
    {p : Program} (hp : p.WellFormed) (g : FlowGraph) :
    falls p g + g.blockCount ≤ g.blockCount * max (analysis p).height 1 := by
  have hblocks : g.retreating.toFinset.card ≤ g.blockCount :=
    (List.toFinset_card_le _).trans (FlowGraph.length_retreating_le_blockCount g)
  have hvars : (assigned p).card * 2 + 1 ≤ (analysis p).height := by
    rw [Nat.mul_comm]
    exact Nat.succ_le_succ
      (Nat.mul_le_mul_left 2 (card_assigned_le_varCount hp))
  calc
    falls p g + g.blockCount ≤
        g.blockCount * ((assigned p).card * 2) + g.blockCount :=
      Nat.add_le_add_right (Nat.mul_le_mul_right _ hblocks) _
    _ = g.blockCount * ((assigned p).card * 2 + 1) :=
      (Nat.mul_succ g.blockCount _).symm
    _ ≤ g.blockCount * max (analysis p).height 1 :=
      Nat.mul_le_mul_left _ (Nat.le_trans hvars (Nat.le_max_left _ _))

/-- Constants are found under every computed limit, also the strict one, for
every program that has a flow graph. -/
theorem exists_solve_of_computed
    {p : Program} {g : FlowGraph} (hp : p.Grown)
    (hg : FlowGraph.ofProgram p = .ok g) {settings : Settings}
    (hlimit : settings.Computed) :
    ∃ s, solve p settings p g = .ok s := by
  have hwell := hp.wellFormed
  have hbuilt : g.BuiltFrom p := .program hg
  have hspans := FlowGraph.spans_of_ofProgram hg
  have hpasses : falls p g + 2 ≤
      settings.passLimit g.blockCount (analysis p).height := by
    apply Settings.le_passLimit hlimit.maxPasses_eq
    · have hblocks : 0 < g.blockCount := hbuilt.entry_lt
      have hproduct := falls_add_blockCount_le hwell g
      have hslack := hlimit.slack_pos
      omega
    · exact falls_add_two_le_maxWord hp hg
  obtain ⟨s, hs, -⟩ := Solution.exists_solve_of_cut (laws_stored hwell) hbuilt
    (ranks_stored p)
    (fun b hb => FlowGraph.lt_of_mem_retreating (List.mem_toFinset.mp hb))
    (FlowGraph.isCut_retreating hspans.wellFormed p) hpasses
  refine ⟨s, ?_⟩
  rw [solve, Solution.solveWithin_eq_solve _ _ hbuilt.covered
    (fun instr hinstr => accept_eq_ok (writes_of_mem hwell hinstr)), hs]

end ConstantPropagation
end ThreeAddress
