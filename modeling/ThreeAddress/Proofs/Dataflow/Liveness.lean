import ThreeAddress.Dataflow.LiveVariables
import ThreeAddress.Fact.BitSet.Lemmas
import ThreeAddress.Proofs.Dataflow.Flags

/-!
# Live variables

The sets of live variables obey the laws of the meet.  Each variable is analysed
independently of the others and changes only once, so the passes end however
many variables there are.  The solution gives, for every instruction, sets of
variables before and after it that contain what is read and what stays alive.
-/

namespace ThreeAddress
namespace LiveVariables

/-- The sets of variables below `n`. -/
def Sized (n : Nat) (s : VarSet) : Prop :=
  s.capacity = n ∧ s.WellFormed

/-- Whether an instruction uses only variables below `n`. -/
def Uses (n : Nat) (instr : Instruction) : Prop :=
  ∀ v ∈ instr.vars, v.index < n

theorem Sized.ext
    {n : Nat} {s t : VarSet} (hs : Sized n s) (ht : Sized n t)
    (h : ∀ i, s.contains i = t.contains i) :
    s = t :=
  hs.2.ext ht.2 (hs.1.trans ht.1.symm) h

theorem Sized.contains_union
    {n : Nat} {s t : VarSet} (hs : Sized n s) (ht : Sized n t) (i : Nat) :
    (s.union t).contains i = (s.contains i || t.contains i) :=
  BitSet.contains_union hs.2 ht.2 (hs.1.trans ht.1.symm) i

theorem Sized.union
    {n : Nat} {s t : VarSet} (hs : Sized n s) (ht : Sized n t) :
    Sized n (s.union t) :=
  ⟨hs.1, hs.2.union ht.2 (hs.1.trans ht.1.symm)⟩

theorem sized_empty (n : Nat) : Sized n (.empty n) :=
  ⟨rfl, BitSet.wellFormed_empty n⟩

/-! ## Transfer -/

theorem contains_index_iff {instr : Instruction} {v : VarId} :
    (instr.used.map VarId.index).contains v.index = true ↔
      instr.reads v = true := by
  rw [Instruction.reads, List.contains_iff_mem, List.contains_iff_mem,
    List.mem_map]
  constructor
  · rintro ⟨w, hw, hindex⟩
    rwa [← VarId.index_injective hindex]
  · intro hv
    exact ⟨v, hv, rfl⟩

theorem map_index_eq_some_iff {instr : Instruction} {v : VarId} :
    instr.defined?.map VarId.index = some v.index ↔
      instr.defined? = some v := by
  rw [Option.map_eq_some_iff]
  constructor
  · rintro ⟨w, hw, hindex⟩
    rwa [← VarId.index_injective hindex]
  · intro hv
    exact ⟨v, hv, rfl⟩

/-- The variables that are still live before an instruction because they are
live after it. -/
def passing (instr : Instruction) (live : VarSet) : VarSet :=
  instr.defined?.elim live fun v => live.erase v.index

theorem transfer_eq_foldl (instr : Instruction) (live : VarSet) :
    transfer instr live =
      (instr.used.map VarId.index).foldl BitSet.insert
        (passing instr live) := by
  rw [List.foldl_map]
  rfl

theorem sized_passing
    {n : Nat} {live : VarSet} (h : Sized n live) (instr : Instruction) :
    Sized n (passing instr live) := by
  rw [passing]
  cases instr.defined? with
  | none => exact h
  | some v => exact ⟨(live.capacity_erase v.index).trans h.1, h.2.erase _⟩

theorem Sized.transfer
    {n : Nat} {live : VarSet} (h : Sized n live) (instr : Instruction) :
    Sized n (transfer instr live) := by
  rw [transfer_eq_foldl]
  have hpassing := sized_passing h instr
  exact ⟨(BitSet.capacity_foldl_insert _ _).trans hpassing.1,
    hpassing.2.foldl_insert _⟩

theorem contains_passing
    {n : Nat} {live : VarSet} (h : Sized n live) {instr : Instruction}
    (huses : Uses n instr) (i : Nat) :
    (passing instr live).contains i = true ↔
      live.contains i = true ∧ instr.defined?.map VarId.index ≠ some i := by
  rw [passing]
  cases hdefined : instr.defined? with
  | none => simp
  | some v =>
      have hlt : v.index < live.capacity := by
        rw [h.1]
        exact huses v (by simp [Instruction.vars, hdefined])
      simp only [Option.elim_some, BitSet.contains_erase h.2 hlt,
        Bool.and_eq_true, Bool.not_eq_true', decide_eq_false_iff_not,
        Option.map_some, ne_eq, Option.some.injEq, eq_comm (a := i)]

/-- What is live before an instruction: what it reads, and what is live after it
and not written. -/
theorem contains_transfer
    {n : Nat} {live : VarSet} (h : Sized n live) {instr : Instruction}
    (huses : Uses n instr) (i : Nat) :
    (transfer instr live).contains i = true ↔
      (live.contains i = true ∧ instr.defined?.map VarId.index ≠ some i) ∨
        i ∈ instr.used.map VarId.index := by
  have hpassing := sized_passing h instr
  rw [transfer_eq_foldl, BitSet.contains_foldl_insert hpassing.2,
    contains_passing h huses]
  intro j hj
  obtain ⟨v, hv, rfl⟩ := List.mem_map.mp hj
  rw [hpassing.1]
  exact huses v (List.mem_append_right _ hv)

/-! ## Laws -/

theorem meetLaws (p : Program) (code : Instruction → Prop) :
    (analysis p).MeetLaws (Sized p.varCount) code where
  boundary_mem := sized_empty p.varCount
  initial_mem := sized_empty p.varCount
  meet_mem hx hy := hx.union hy
  transfer_mem _ hx := hx.transfer _
  meet_assoc {x y z} hx hy hz := by
    apply ((hx.union hy).union hz).ext (hx.union (hy.union hz))
    intro i
    rw [(hx.union hy).contains_union hz, hx.contains_union hy,
      hx.contains_union (hy.union hz), hy.contains_union hz, Bool.or_assoc]
  meet_comm {x y} hx hy := by
    apply (hx.union hy).ext (hy.union hx)
    intro i
    rw [hx.contains_union hy, hy.contains_union hx, Bool.or_comm]
  meet_self {x} hx := by
    apply (hx.union hx).ext hx
    intro i
    rw [hx.contains_union hx, Bool.or_self]
  initial_meet {x} hx := by
    have hempty := sized_empty p.varCount
    apply (hempty.union hx).ext hx
    intro i
    rw [hempty.contains_union hx, BitSet.contains_empty, Bool.false_or]

/-- Each variable is analysed for itself. -/
theorem splits (p : Program) :
    (analysis p).Splits (Sized p.varCount) (Uses p.varCount)
      (fun _ : Fin p.varCount => false)
      (fun i instr => (instr.used.map VarId.index).contains i.val)
      (fun i instr => instr.defined?.map VarId.index == some i.val)
      fun i s => s.contains i.val where
  laws := meetLaws p _
  projects i :=
    { boundary_eq := BitSet.contains_empty p.varCount i
      initial_eq := BitSet.contains_empty p.varCount i
      meet_eq := fun hx hy => hx.contains_union hy i
      transfer_eq := fun {instr x} hcode hx => by
        rw [Bool.eq_iff_iff]
        refine (contains_transfer hx hcode i).trans ?_
        simp only [Analysis.flag, Analysis.bit, Bool.or_eq_true,
          Bool.and_eq_true, Bool.not_eq_true', beq_eq_false_iff_ne,
          List.contains_iff_mem]
        exact or_comm }
  ext {x y} hx hy hbits := by
    apply hx.ext hy
    intro i
    by_cases hi : i < p.varCount
    · exact hbits ⟨i, hi⟩
    · simp [BitSet.contains, hx.1, hy.1, hi]

/-! ## The solution -/

theorem accept_eq_ok
    {n : Nat} {instr : Instruction} (h : Uses n instr) :
    accept n instr = .ok () := by
  rw [accept]
  simp only [forM_eq_ok_iff]
  intro v hv
  exact if_pos (h v hv)

theorem Sized.transfer?_eq_ok
    {n : Nat} {live : VarSet} (h : Sized n live) {instr : Instruction}
    (huses : Uses n instr) :
    transfer? instr live = .ok (LiveVariables.transfer instr live) := by
  refine bind_eq_ok_iff.mpr ⟨(), ?_, rfl⟩
  rw [h.1]
  exact accept_eq_ok huses

theorem Sized.meet?_eq_ok
    {n : Nat} {s t : VarSet} (hs : Sized n s) (ht : Sized n t) :
    s.meet? t = .ok (s.union t) := by
  have hcheck : s.checkCapacity t = .ok () := if_pos (hs.1.trans ht.1.symm)
  rw [BitSet.meet?, BitSet.union?, hcheck]
  rfl

theorem exists_solve
    {p : Program} {g : FlowGraph} (hp : p.WellFormed) (hg : g.BuiltFrom p)
    (hword : g.blockCount + 2 ≤ Settings.maxWord) {settings : Settings}
    (hlimit : settings.Computed) :
    ∃ s, solve p settings p g = .ok s := by
  obtain ⟨s, hs⟩ := Solution.exists_solve_of_splits
    ((splits p).restrict hp.index_lt) hg
    (fun ⟨i⟩ => Nat.succ_le_succ (Nat.zero_lt_of_lt i.isLt)) hword hlimit
  refine ⟨s, ?_⟩
  rw [solve, Solution.solveWithin_eq_solve _ _ hg.covered
    (fun instr hinstr => accept_eq_ok (hp.index_lt instr hinstr)), hs]

/-- Variables before and after the instructions of a program that contain
everything read later and not written before. -/
structure Sound
    (p : Program) (before after : Instruction → VarId → Prop) : Prop where
  before_of_used : ∀ {i v}, i ∈ p.instrs.toList → v ∈ i.used → before i v
  before_of_after : ∀ {i v}, i ∈ p.instrs.toList → after i v →
    i.defined? ≠ some v → before i v
  after_of_flows : ∀ {i j v}, p.Flows i j → before j v → after i v

/-- The solution is sound, and says of each instruction which variables are live
after it. -/
theorem exists_sound
    {p : Program} {g : FlowGraph} {s : Solution VarSet} {settings : Settings}
    (hp : p.WellFormed) (hjumps : p.JumpsLabelled)
    (hg : FlowGraph.ofProgram p = .ok g)
    (hsolve : solve p settings p g = .ok s) :
    ∃ before after, Sound p before after ∧
      ∀ i ∈ p.instrs.toList, ∃ facts, s.at? i.id = some facts ∧
        ∀ v, isLive facts.output v = true ↔ after i v := by
  obtain ⟨x, hx⟩ := Solution.exists_fits hp.nodup_ids hjumps hg
    (meetLaws p _) (Solution.solve_of_solveWithin hsolve)
  refine ⟨fun i v => (transfer i (x i)).contains v.index = true,
    fun i v => (x i).contains v.index = true, ⟨?_, ?_, ?_⟩, ?_⟩
  · intro i v hi hv
    rw [contains_transfer (hx.mem i hi) (hp.index_lt i hi)]
    exact Or.inr (List.mem_map_of_mem hv)
  · intro i v hi hafter hne
    rw [contains_transfer (hx.mem i hi) (hp.index_lt i hi)]
    exact Or.inl ⟨hafter, fun hdefined =>
      hne (map_index_eq_some_iff.mp hdefined)⟩
  · intro i j v hflows hbefore
    obtain ⟨hi, hj⟩ := Program.mem_of_flows hflows
    have hbelow : (x i).union (transfer j (x j)) = x i := hx.below hflows
    rw [← hbelow, (hx.mem i hi).contains_union ((hx.mem j hj).transfer j),
      hbefore, Bool.or_true]
  · intro i hi
    exact ⟨_, hx.arrives i hi, fun v => Iff.rfl⟩

end LiveVariables
end ThreeAddress
