import ThreeAddress.Dataflow.ConstantPropagation
import ThreeAddress.Proofs.Code.Store
import ThreeAddress.Proofs.Dataflow.Solver

/-!
# Constants

Constant propagation obeys the laws of an analysis for environments of one size.
The value of a variable falls at most twice, from undetermined to a constant and
on to varying, and folding an operation keeps this order, although it does not
keep meets.
-/

namespace ThreeAddress

namespace ConstValue

/-- The order of values: the first is the meet of both. -/
def Lower (x y : ConstValue) : Prop :=
  meet x y = x

/-- A value is lower than itself, all values are lower than an undetermined one,
and a varying one is lower than all. -/
theorem lower_iff {x y : ConstValue} :
    Lower x y ↔ x = y ∨ y = undetermined ∨ x = varying := by
  rw [Lower]
  cases x <;> cases y <;> grind [meet]

/-- How often a value can still fall. -/
def rank : ConstValue → Nat
  | undetermined => 2
  | constant _ => 1
  | varying => 0

theorem rank_le (x : ConstValue) : x.rank ≤ 2 := by
  cases x with
  | undetermined => exact Nat.le_refl 2
  | constant value => exact Nat.le_succ 1
  | varying => exact Nat.zero_le 2

theorem rank_le_of_lower {x y : ConstValue} (h : Lower x y) :
    x.rank ≤ y.rank := by
  rcases lower_iff.mp h with rfl | rfl | rfl
  · exact Nat.le_refl _
  · exact rank_le x
  · exact Nat.zero_le _

theorem rank_lt_of_lower {x y : ConstValue} (h : Lower x y) (hne : x ≠ y) :
    x.rank < y.rank := by
  rcases lower_iff.mp h with heq | rfl | rfl
  · exact absurd heq hne
  · cases x <;> simp_all [rank]
  · cases y <;> simp_all [rank]

end ConstValue

namespace ConstEnv

/-- The value at an index.  Nothing is known outside the environment. -/
def value (env : ConstEnv) (i : Nat) : ConstValue :=
  env.values.getD i .undetermined

theorem get_eq_value (env : ConstEnv) (v : VarId) :
    env.get v = env.value v.index :=
  rfl

theorem value_undetermined (n i : Nat) :
    (undetermined n).value i = .undetermined := by
  by_cases hi : i < n
  · simp [value, undetermined, hi]
  · simp [value, undetermined, hi]

theorem ext_value
    {a b : ConstEnv} (hsize : a.values.size = b.values.size)
    (h : ∀ i < a.values.size, a.value i = b.value i) :
    a = b := by
  obtain ⟨as⟩ := a
  obtain ⟨bs⟩ := b
  congr 1
  apply Array.ext hsize
  intro i hi hi'
  have hvalue := h i hi
  simpa [value, hi, hi'] using hvalue

theorem size_set (env : ConstEnv) (v : VarId) (x : ConstValue) :
    (env.set v x).values.size = env.values.size := by
  simp [set]

theorem value_set
    {env : ConstEnv} {v : VarId} (hv : v.index < env.values.size)
    (x : ConstValue) (i : Nat) :
    (env.set v x).value i = if i = v.index then x else env.value i := by
  by_cases hi : i = v.index
  · subst hi
    simp [value, set, hv]
  · simp [value, set, hi, Array.getElem?_setIfInBounds_ne (Ne.symm hi)]

end ConstEnv

namespace ConstantPropagation

/-! ## Folding -/

/-- What is known of an operation whose operands have these values. -/
def combine
    (left : Option ConstValue) (op : Operation) (right : ConstValue) :
    ConstValue :=
  let operands := left.toList ++ [right]
  if operands.contains .varying then
    .varying
  else if operands.contains .undetermined then
    .undetermined
  else
    match right.constant? with
    | none => .varying
    | some value =>
        match op.evaluate (left.bind ConstValue.constant?) value with
        | some result => .constant result
        | none => .varying

theorem fold_eq_combine
    (env : ConstEnv) (left : Option Operand) (op : Operation)
    (right : Operand) :
    fold env left op right =
      combine (left.map (operandValue env)) op (operandValue env right) :=
  rfl

theorem combine_of_varying
    {left : Option ConstValue} {right : ConstValue} (op : Operation)
    (h : .varying ∈ left.toList ++ [right]) :
    combine left op right = .varying := by
  simp only [combine, List.contains_iff_mem, h, if_true]

theorem combine_of_undetermined
    {left : Option ConstValue} {right : ConstValue} (op : Operation)
    (hvarying : .varying ∉ left.toList ++ [right])
    (h : .undetermined ∈ left.toList ++ [right]) :
    combine left op right = .undetermined := by
  simp only [combine, List.contains_iff_mem, hvarying, h, if_true, if_false]

theorem combine_constant
    (left : Option Int64) (op : Operation) (right : Int64) :
    combine (left.map .constant) op (.constant right) =
      ((op.evaluate left right).map .constant).getD .varying := by
  have hleft : (left.map ConstValue.constant).bind ConstValue.constant? =
      left := by
    cases left <;> rfl
  have hvarying : ConstValue.varying ∉
      (left.map ConstValue.constant).toList ++ [.constant right] := by
    cases left <;> simp
  have hundetermined : ConstValue.undetermined ∉
      (left.map ConstValue.constant).toList ++ [.constant right] := by
    cases left <;> simp
  simp only [combine, List.contains_iff_mem, hvarying, hundetermined, if_false,
    hleft, ConstValue.constant?]
  cases op.evaluate left right with
  | none => rfl
  | some result => rfl

/-- Operands without a varying and without an undetermined one are
constants. -/
theorem exists_constants
    {left : Option ConstValue} {right : ConstValue}
    (hvarying : .varying ∉ left.toList ++ [right])
    (hundetermined : .undetermined ∉ left.toList ++ [right]) :
    ∃ l r, left = Option.map .constant l ∧ right = .constant r := by
  have hconstant : ∀ x ∈ left.toList ++ [right], ∃ w, x = .constant w := by
    intro x hx
    cases x with
    | undetermined => exact absurd hx hundetermined
    | constant w => exact ⟨w, rfl⟩
    | varying => exact absurd hx hvarying
  obtain ⟨r, rfl⟩ := hconstant right (by simp)
  cases left with
  | none => exact ⟨none, r, rfl, rfl⟩
  | some x =>
      obtain ⟨l, rfl⟩ := hconstant x (by simp)
      exact ⟨some l, r, rfl, rfl⟩

/-- Lower operands give a lower result.  The operands of one assignment are
given by a function, so that they correspond. -/
theorem combine_lower
    {β : Type} {x y : β → ConstValue} (left : Option β) (op : Operation)
    (right : β)
    (h : ∀ operand ∈ left.toList ++ [right], (x operand).Lower (y operand)) :
    (combine (left.map x) op (x right)).Lower
      (combine (left.map y) op (y right)) := by
  have hmap : ∀ z : β → ConstValue, (left.map z).toList ++ [z right] =
      (left.toList ++ [right]).map z := by
    intro z
    cases left <;> rfl
  rw [ConstValue.lower_iff]
  by_cases hx : .varying ∈ (left.map x).toList ++ [x right]
  · exact Or.inr (Or.inr (combine_of_varying op hx))
  · -- an operand that is not varying stays, unless it was undetermined before
    have hsame : ∀ operand ∈ left.toList ++ [right],
        x operand = y operand ∨ y operand = .undetermined := by
      intro operand hoperand
      rcases ConstValue.lower_iff.mp (h operand hoperand) with
        heq | hundetermined | hvarying
      · exact Or.inl heq
      · exact Or.inr hundetermined
      · rw [hmap, ← hvarying] at hx
        exact absurd (List.mem_map_of_mem hoperand) hx
    have hy : .varying ∉ (left.map y).toList ++ [y right] := by
      rw [hmap, List.mem_map]
      rintro ⟨operand, hoperand, hvarying⟩
      rcases hsame operand hoperand with heq | hundetermined
      · rw [hmap, ← hvarying, ← heq] at hx
        exact hx (List.mem_map_of_mem hoperand)
      · rw [hvarying] at hundetermined
        contradiction
    by_cases hund : .undetermined ∈ (left.map y).toList ++ [y right]
    · exact Or.inr (Or.inl (combine_of_undetermined op hy hund))
    · have heq : ∀ operand ∈ left.toList ++ [right],
          x operand = y operand := by
        intro operand hoperand
        refine (hsame operand hoperand).resolve_right ?_
        intro hundetermined
        rw [hmap, ← hundetermined] at hund
        exact hund (List.mem_map_of_mem hoperand)
      have hright : x right = y right := heq right (by simp)
      have hleft : left.map x = left.map y := by
        cases left with
        | none => rfl
        | some operand => exact congrArg some (heq operand (by simp))
      exact Or.inl (by rw [hleft, hright])

/-! ## Laws -/

/-- The environments of `n` variables. -/
def Sized (n : Nat) (env : ConstEnv) : Prop :=
  env.values.size = n

/-- Whether an instruction writes only variables below `n`. -/
def Writes (n : Nat) (instr : Instruction) : Prop :=
  ∀ v, instr.defined? = some v → v.index < n

theorem Sized.transfer
    {n : Nat} {env : ConstEnv} (h : Sized n env) (instr : Instruction) :
    Sized n (transfer instr env) := by
  rw [ConstantPropagation.transfer]
  split
  · exact (ConstEnv.size_set _ _ _).trans h
  · exact h

theorem transfer_of_defined?_eq_none
    {instr : Instruction} (h : instr.defined? = none) (env : ConstEnv) :
    transfer instr env = env := by
  rw [transfer]
  split
  · next hstatement =>
      rw [Instruction.defined?, hstatement] at h
      contradiction
  · rfl

theorem Sized.ext
    {n : Nat} {a b : ConstEnv} (ha : Sized n a) (hb : Sized n b)
    (h : ∀ i, a.value i = b.value i) :
    a = b :=
  ConstEnv.ext_value (ha.trans hb.symm) fun i _ => h i

theorem Sized.meet
    {n : Nat} {a b : ConstEnv} (ha : Sized n a) (hb : Sized n b) :
    Sized n (a.meet b) := by
  rw [Sized] at ha hb ⊢
  simp [ConstEnv.meet, ha, hb]

theorem Sized.value_meet
    {n : Nat} {a b : ConstEnv} (ha : Sized n a) (hb : Sized n b) (i : Nat) :
    (a.meet b).value i = (a.value i).meet (b.value i) := by
  rw [Sized] at ha hb
  by_cases hi : i < n
  · simp [ConstEnv.value, ConstEnv.meet, ha, hb, hi]
  · simp [ConstEnv.value, ConstEnv.meet, ha, hb, hi, ConstValue.meet]

theorem Sized.value_of_le
    {n : Nat} {env : ConstEnv} (h : Sized n env) {i : Nat} (hi : n ≤ i) :
    env.value i = .undetermined := by
  rw [Sized] at h
  simp [ConstEnv.value, h, hi]

theorem sized_undetermined (n : Nat) : Sized n (.undetermined n) :=
  Array.size_replicate

theorem meetLaws (p : Program) (code : Instruction → Prop) :
    (analysis p).MeetLaws (Sized p.varCount) code where
  boundary_mem := sized_undetermined p.varCount
  initial_mem := sized_undetermined p.varCount
  meet_mem hx hy := hx.meet hy
  transfer_mem _ hx := hx.transfer _
  meet_assoc {x y z} hx hy hz := by
    apply ((hx.meet hy).meet hz).ext (hx.meet (hy.meet hz))
    intro i
    rw [(hx.meet hy).value_meet hz, hx.value_meet hy,
      hx.value_meet (hy.meet hz), hy.value_meet hz, ConstValue.meet_assoc]
  meet_comm {x y} hx hy := by
    apply (hx.meet hy).ext (hy.meet hx)
    intro i
    rw [hx.value_meet hy, hy.value_meet hx, ConstValue.meet_comm]
  meet_self {x} hx := by
    apply (hx.meet hx).ext hx
    intro i
    rw [hx.value_meet hx, ConstValue.meet_self]
  initial_meet {x} hx := by
    have hinitial := sized_undetermined p.varCount
    apply (hinitial.meet hx).ext hx
    intro i
    rw [hinitial.value_meet hx, ConstEnv.value_undetermined,
      ConstValue.undetermined_meet]

/-- Environments are ordered value by value. -/
theorem below_iff
    {p : Program} {x y : ConstEnv} (hx : Sized p.varCount x)
    (hy : Sized p.varCount y) :
    (analysis p).Below x y ↔ ∀ i, (x.value i).Lower (y.value i) := by
  constructor
  · intro h i
    have hvalue := hx.value_meet hy i
    rw [show x.meet y = x from h] at hvalue
    exact hvalue.symm
  · intro h
    apply (hx.meet hy).ext hx
    intro i
    rw [hx.value_meet hy]
    exact h i

theorem operandValue_lower
    {x y : ConstEnv} (h : ∀ i, (x.value i).Lower (y.value i))
    (operand : Operand) :
    (operandValue x operand).Lower (operandValue y operand) := by
  cases operand with
  | var v => exact h v.index
  | const value => exact ConstValue.lower_iff.mpr (Or.inl rfl)

theorem transfer_lower
    {n : Nat} {x y : ConstEnv} (hx : Sized n x) (hy : Sized n y)
    {instr : Instruction} (hwrites : Writes n instr)
    (h : ∀ i, (x.value i).Lower (y.value i)) (i : Nat) :
    ((transfer instr x).value i).Lower ((transfer instr y).value i) := by
  rw [transfer, transfer]
  cases hstatement : instr.statement with
  | assign target left op right =>
      have htarget : target.index < n := by
        apply hwrites
        rw [Instruction.defined?, hstatement]
        rfl
      simp only
      rw [ConstEnv.value_set (hx.symm ▸ htarget),
        ConstEnv.value_set (hy.symm ▸ htarget)]
      split
      · rw [fold_eq_combine, fold_eq_combine]
        exact combine_lower left op right
          (fun operand _ => operandValue_lower h operand)
      · exact h i
  | _ => exact h i

/-- How often the values of some variables can still fall. -/
def rankOver (vars : Finset Nat) (env : ConstEnv) : Nat :=
  ∑ i ∈ vars, (env.value i).rank

theorem rankOver_le (vars : Finset Nat) (env : ConstEnv) :
    rankOver vars env ≤ vars.card * 2 :=
  Finset.sum_le_card_nsmul _ _ 2 fun i _ => (env.value i).rank_le

theorem rankOver_lt
    {p : Program} {vars : Finset Nat} {x y : ConstEnv}
    (hx : Sized p.varCount x) (hy : Sized p.varCount y)
    (hsame : ∀ i ∉ vars, y.value i = x.value i)
    (hyx : (analysis p).Below y x) (hne : y ≠ x) :
    rankOver vars y < rankOver vars x := by
  rw [below_iff hy hx] at hyx
  obtain ⟨i, hi, hdiffer⟩ : ∃ i ∈ vars, y.value i ≠ x.value i := by
    by_contra hall
    push Not at hall
    refine hne (hy.ext hx ?_)
    intro i
    by_cases hi : i ∈ vars
    · exact hall i hi
    · exact hsame i hi
  apply Finset.sum_lt_sum
  · intro j _
    exact ConstValue.rank_le_of_lower (hyx j)
  · exact ⟨i, hi, ConstValue.rank_lt_of_lower (hyx i) hdiffer⟩

theorem ranks (p : Program) :
    (analysis p).Ranks (Sized p.varCount)
      (rankOver (Finset.range p.varCount)) (2 * p.varCount) where
  le {x} _ := by
    have hle := rankOver_le (Finset.range p.varCount) x
    rwa [Finset.card_range, Nat.mul_comm] at hle
  lt {x y} hx hy := by
    refine rankOver_lt hx hy ?_
    intro i hi
    have hge : p.varCount ≤ i := Nat.not_lt.mp (mt Finset.mem_range.mpr hi)
    rw [hx.value_of_le hge, hy.value_of_le hge]

theorem laws (p : Program) :
    (analysis p).Laws (Sized p.varCount) (Writes p.varCount) where
  toMeetLaws := meetLaws p _
  transfer_mono {instr x y} hcode hx hy hxy := by
    rw [below_iff hx hy] at hxy
    exact (below_iff (hx.transfer instr) (hy.transfer instr)).mpr
      (transfer_lower hx hy hcode hxy)
  length_le_of_chain hcarrier hchain :=
    Nat.le_succ_of_le ((ranks p).length_le hcarrier hchain)

/-! ## The solution -/

theorem writes_of_mem
    {p : Program} (hp : p.WellFormed) {instr : Instruction}
    (h : instr ∈ p.instrs.toList) :
    Writes p.varCount instr := by
  intro v hv
  exact hp.index_lt instr h v (by simp [Instruction.vars, hv])

theorem accept_eq_ok
    {n : Nat} {instr : Instruction} (h : Writes n instr) :
    accept n instr = .ok () := by
  rw [accept]
  cases hdefined : instr.defined? with
  | none => rfl
  | some v => exact if_pos (h v hdefined)

theorem Sized.transfer?_eq_ok
    {n : Nat} {env : ConstEnv} (h : Sized n env) {instr : Instruction}
    (hwrites : Writes n instr) :
    transfer? instr env = .ok (ConstantPropagation.transfer instr env) := by
  refine bind_eq_ok_iff.mpr ⟨(), ?_, rfl⟩
  rw [show env.values.size = n from h]
  exact accept_eq_ok hwrites

end ConstantPropagation
end ThreeAddress
