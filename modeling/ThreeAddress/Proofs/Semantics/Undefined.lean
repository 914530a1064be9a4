import Mathlib.Logic.Function.Basic
import Mathlib.Logic.Relation
import ThreeAddress.Proofs.FlowGraph.Layout

/-!
# Execution with undefined variables

A machine whose variables are undefined at first.  Where an operation has an
exact result that is a machine word, an assignment stores it; where it has none,
the assignment may store any word.  An undefined operand makes the target
undefined, and an undefined condition lets control go either way.
-/

namespace ThreeAddress

namespace Operation

/-- The number of a truth value. -/
def truth (b : Prop) [Decidable b] : Int :=
  if b then 1 else 0

/-- The exact result of an operation in the integers.  Unary operators ignore
the left operand, binary ones need it; division goes toward zero and needs a
divisor other than zero. -/
def exactResult? (op : Operation) (left : Option Int) (right : Int) : Option Int :=
  match op with
  | copy => some right
  | neg => some (-right)
  | not => some (truth (right = 0))
  | plus => left.map (· + right)
  | minus => left.map (· - right)
  | mul => left.map (· * right)
  | div => if right = 0 then none else left.map (·.tdiv right)
  | less => left.map fun l => truth (l < right)
  | greater => left.map fun l => truth (right < l)
  | equal => left.map fun l => truth (l = right)
  | notEqual => left.map fun l => truth (l ≠ right)

theorem fit?_eq_some_iff {z : Int} {w : Int64} :
    fit? z = some w ↔ z = w.toInt := by
  constructor
  · intro h
    exact (toInt_of_fit? h).symm
  · rintro rfl
    have hmin : Int64.minValue.toInt = -2 ^ 63 := rfl
    have hmax : Int64.maxValue.toInt = 2 ^ 63 - 1 := rfl
    have hlo := w.le_toInt
    have hhi := w.toInt_lt
    rw [fit?, if_pos (by omega), Int64.ofInt_toInt]

theorem flag_eq_iff
    {b : Bool} {c : Prop} [Decidable c] (h : b = true ↔ c) {w : Int64} :
    flag b = w ↔ truth c = w.toInt := by
  rw [← Int64.toInt_inj, truth]
  by_cases hc : c
  · rw [h.mpr hc, if_pos hc]
    exact Iff.rfl
  · have hb : b = false := by
      rw [← Bool.not_eq_true, h]
      exact hc
    rw [hb, if_neg hc]
    exact Iff.rfl

theorem bind_fit?_eq_some_iff
    (f : Int → Int) {left : Option Int64} {w : Int64} :
    (left.bind fun l => fit? (f l.toInt)) = some w ↔
      (left.map Int64.toInt).map f = some w.toInt := by
  cases left with
  | none => simp
  | some l => simp [fit?_eq_some_iff]

theorem map_flag_eq_some_iff
    (b : Int64 → Bool) (c : Int → Prop) [DecidablePred c]
    (h : ∀ l, b l = true ↔ c l.toInt) {left : Option Int64} {w : Int64} :
    (left.map fun l => flag (b l)) = some w ↔
      (left.map Int64.toInt).map (fun l => truth (c l)) = some w.toInt := by
  cases left with
  | none => simp
  | some l => simp [flag_eq_iff (h l)]

theorem eq_zero_iff {w : Int64} : w = 0 ↔ w.toInt = 0 := by
  rw [← Int64.toInt_inj]
  rfl

/-- An operation has a value exactly if its exact result is a machine word. -/
theorem evaluate_eq_some_iff
    {op : Operation} {left : Option Int64} {right w : Int64} :
    op.evaluate left right = some w ↔
      op.exactResult? (left.map Int64.toInt) right.toInt = some w.toInt := by
  cases op with
  | copy => simp [evaluate, exactResult?, Int64.toInt_inj]
  | neg => simp [evaluate, exactResult?, fit?_eq_some_iff]
  | not =>
      have hnot : (right == 0) = true ↔ right.toInt = 0 :=
        beq_iff_eq.trans eq_zero_iff
      simp [evaluate, exactResult?, flag_eq_iff hnot]
  | plus => exact bind_fit?_eq_some_iff (· + right.toInt)
  | minus => exact bind_fit?_eq_some_iff (· - right.toInt)
  | mul => exact bind_fit?_eq_some_iff (· * right.toInt)
  | div =>
      by_cases hzero : right.toInt = 0
      · simp [evaluate, exactResult?, eq_zero_iff.mpr hzero]
      · have hne : right ≠ 0 := fun h => hzero (eq_zero_iff.mp h)
        simp only [evaluate, exactResult?, beq_iff_eq, if_neg hne, if_neg hzero]
        exact bind_fit?_eq_some_iff (·.tdiv right.toInt)
  | less =>
      refine map_flag_eq_some_iff (fun l => decide (l < right))
        (· < right.toInt) ?_
      intro l
      rw [decide_eq_true_iff, Int64.lt_iff_toInt_lt]
  | greater =>
      refine map_flag_eq_some_iff (fun l => decide (right < l))
        (right.toInt < ·) ?_
      intro l
      rw [decide_eq_true_iff, Int64.lt_iff_toInt_lt]
  | equal =>
      refine map_flag_eq_some_iff (· == right) (· = right.toInt) ?_
      intro l
      rw [beq_iff_eq, Int64.toInt_inj]
  | notEqual =>
      refine map_flag_eq_some_iff (· != right) (· ≠ right.toInt) ?_
      intro l
      rw [bne_iff_ne, Ne, Ne, Int64.toInt_inj]

/-- The words that an operation may store: its exact result if that is a word,
and any word otherwise. -/
def Yields
    (op : Operation) (left : Option Int64) (right w : Int64) : Prop :=
  ∀ z : Int64, op.exactResult? (left.map Int64.toInt) right.toInt = some z.toInt →
    w = z

end Operation

/-- The values of the variables, some of which are undefined. -/
abbrev PartialStore := VarId → Option Int64

/-- The value of an operand, if it is defined. -/
def Operand.value? (σ : PartialStore) : Operand → Option Int64
  | var v => σ v
  | const value => some value

/-- What an assignment may store. -/
inductive Assigned
    (σ : PartialStore) (left : Option Operand) (op : Operation)
    (right : Operand) : Option Int64 → Prop
  | undefined {operand : Operand} :
      operand ∈ left.toList ++ [right] → operand.value? σ = none →
      Assigned σ left op right none
  | defined {l : Option Int64} {r w : Int64} :
      left.map (Operand.value? σ) = l.map some → right.value? σ = some r →
      op.Yields l r w → Assigned σ left op right (some w)

/-- The state of a run. -/
structure Config where
  position : Nat
  store : PartialStore

namespace Config

/-- All variables are undefined before the first instruction. -/
def start : Config :=
  ⟨0, fun _ => none⟩

/-- One move of the machine. -/
inductive Moves (p : Program) : Config → Config → Prop
  | assign {k : Nat} {σ : PartialStore} {i : Instruction} {target : VarId}
      {left : Option Operand} {op : Operation} {right : Operand}
      {result : Option Int64} :
      p.at? k = some i → i.statement = .assign target left op right →
      Assigned σ left op right result →
      Moves p ⟨k, σ⟩ ⟨k + 1, Function.update σ target result⟩
  | goto {k l : Nat} {σ : PartialStore} {i : Instruction} {target : InstrId} :
      p.at? k = some i → i.statement = .goto target →
      p.position? target = some l → Moves p ⟨k, σ⟩ ⟨l, σ⟩
  | taken {k l : Nat} {σ : PartialStore} {i : Instruction}
      {condition : Operand} {target : InstrId} :
      p.at? k = some i → i.statement = .branch condition target →
      condition.value? σ ≠ some 0 → p.position? target = some l →
      Moves p ⟨k, σ⟩ ⟨l, σ⟩
  | untaken {k : Nat} {σ : PartialStore} {i : Instruction}
      {condition : Operand} {target : InstrId} :
      p.at? k = some i → i.statement = .branch condition target →
      (∀ w, condition.value? σ = some w → w = 0) →
      Moves p ⟨k, σ⟩ ⟨k + 1, σ⟩
  | print {k : Nat} {σ : PartialStore} {i : Instruction} {value : Operand} :
      p.at? k = some i → i.statement = .print value →
      Moves p ⟨k, σ⟩ ⟨k + 1, σ⟩
  | nop {k : Nat} {σ : PartialStore} {i : Instruction} :
      p.at? k = some i → i.statement = .nop → Moves p ⟨k, σ⟩ ⟨k + 1, σ⟩

/-- The states that some run reaches. -/
def Reachable (p : Program) (c : Config) : Prop :=
  Relation.ReflTransGen (Moves p) start c

theorem exists_at?_of_moves
    {p : Program} {c d : Config} (h : Moves p c d) :
    ∃ i, p.at? c.position = some i := by
  cases h with
  | assign hi => exact ⟨_, hi⟩
  | goto hi => exact ⟨_, hi⟩
  | taken hi => exact ⟨_, hi⟩
  | untaken hi => exact ⟨_, hi⟩
  | print hi => exact ⟨_, hi⟩
  | nop hi => exact ⟨_, hi⟩

/-- Control passes as the program says. -/
theorem flows_of_moves
    {p : Program} (hp : p.ids.Nodup) {c d : Config} (h : Moves p c d)
    {i j : Instruction} (hi : p.at? c.position = some i)
    (hj : p.at? d.position = some j) :
    p.Flows i j := by
  have hfalls : ∀ {k : Nat} {i' : Instruction}, p.at? k = some i' →
      p.at? k = some i → p.at? (k + 1) = some j →
      i'.statement.fallsThrough = true → p.Flows i j := by
    intro k i' hi' hi hj hfalls
    obtain rfl := Option.some.inj (hi'.symm.trans hi)
    exact Program.flows_of_next hi hj hfalls
  have hjumps : ∀ {k l : Nat} {i' : Instruction} {target : InstrId},
      p.at? k = some i' → p.at? k = some i → p.at? l = some j →
      i'.jumpTarget? = some target → p.position? target = some l →
      p.Flows i j := by
    intro k l i' target hi' hi hj htarget hl
    obtain rfl := Option.some.inj (hi'.symm.trans hi)
    exact Program.flows_of_jump hp (Program.mem_of_at? hi) htarget hl hj
  cases h with
  | assign hi' hstatement =>
      exact hfalls hi' hi hj (by rw [hstatement]; rfl)
  | goto hi' hstatement hl =>
      exact hjumps hi' hi hj
        (by rw [Instruction.jumpTarget?, hstatement]; rfl) hl
  | taken hi' hstatement _ hl =>
      exact hjumps hi' hi hj
        (by rw [Instruction.jumpTarget?, hstatement]; rfl) hl
  | untaken hi' hstatement =>
      exact hfalls hi' hi hj (by rw [hstatement]; rfl)
  | print hi' hstatement =>
      exact hfalls hi' hi hj (by rw [hstatement]; rfl)
  | nop hi' hstatement =>
      exact hfalls hi' hi hj (by rw [hstatement]; rfl)

end Config
end ThreeAddress
