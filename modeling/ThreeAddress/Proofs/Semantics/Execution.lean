import Mathlib.Logic.Function.Basic
import ThreeAddress.Proofs.FlowGraph.Layout
import ThreeAddress.Proofs.Semantics.Simulation

/-!
# Execution of programs

The machine that runs a program on a store of 64-bit integers.  What an
operation without a value stores is left to an evaluator.  Control goes on to
the next instruction or to the target of a jump, and the machine halts when it
runs past the last instruction.
-/

namespace ThreeAddress

/-- What the operations come to, which may be anything. -/
abbrev Meaning := Operation → Option Int64 → Int64 → Int64

/-- A total meaning of the operations: their value where they have one, and
anything elsewhere. -/
structure Evaluator where
  apply : Meaning
  apply_eq : ∀ {op left right value}, op.evaluate left right = some value →
    apply op left right = value

/-- The evaluator that gives zero where an operation has no value. -/
def Evaluator.zero : Evaluator where
  apply op left right := (op.evaluate left right).getD 0
  apply_eq h := by rw [h, Option.getD_some]

/-- The values of the variables. -/
abbrev Store := VarId → Int64

/-- The value of an operand. -/
def Operand.value (σ : Store) : Operand → Int64
  | var v => σ v
  | const value => value

namespace Statement

/-- The store after a statement, under any meaning of the operations. -/
def storedBy (apply : Meaning) (σ : Store) : Statement → Store
  | assign target left op right =>
      Function.update σ target
        (apply op (left.map (Operand.value σ)) (right.value σ))
  | _ => σ

/-- The store after a statement. -/
def stored (e : Evaluator) (σ : Store) (statement : Statement) : Store :=
  statement.storedBy e.apply σ

/-- What a statement prints. -/
def printed (σ : Store) : Statement → List Int64
  | print value => [value.value σ]
  | _ => []

/-- Where a statement jumps, if it does. -/
def jumped? (σ : Store) : Statement → Option InstrId
  | goto target => some target
  | branch condition target =>
      if condition.value σ = 0 then none else some target
  | _ => none

end Statement

/-- The position after position `k`, given where the instruction there jumps.
A jump out of the program ends the run. -/
def Program.landing (p : Program) (k : Nat) : Option InstrId → Nat
  | none => k + 1
  | some target => (p.position? target).getD p.size

/-- The state of a run. -/
structure State where
  position : Nat
  store : Store
  output : List Int64

namespace State

/-- The state before the first instruction. -/
def start (σ : Store) : State :=
  ⟨0, σ, []⟩

/-- The state after an instruction. -/
def execute
    (e : Evaluator) (p : Program) (instr : Instruction) (s : State) :
    State where
  position := p.landing s.position (instr.statement.jumped? s.store)
  store := instr.statement.stored e s.store
  output := s.output ++ instr.statement.printed s.store

/-- The next state, unless the run has halted. -/
def next? (e : Evaluator) (p : Program) (s : State) : Option State :=
  (p.at? s.position).map fun instr => s.execute e p instr

end State

namespace Program

/-- Whether a run from a store has printed exactly these values at some time. -/
def Prints
    (e : Evaluator) (p : Program) (σ : Store) (values : List Int64) : Prop :=
  ∃ n, (Machine.run (State.next? e p) n (.start σ)).output = values

/-- Whether a run from a store halts. -/
def Halts (e : Evaluator) (p : Program) (σ : Store) : Prop :=
  Machine.Halts (State.next? e p) (.start σ)

/-- Two programs print the same values and halt on the same stores. -/
structure Equivalent (p q : Program) : Prop where
  prints_iff : ∀ e σ values, p.Prints e σ values ↔ q.Prints e σ values
  halts_iff : ∀ e σ, p.Halts e σ ↔ q.Halts e σ

theorem Equivalent.refl (p : Program) : p.Equivalent p :=
  ⟨fun _ _ _ => Iff.rfl, fun _ _ => Iff.rfl⟩

theorem Equivalent.trans
    {p q r : Program} (hpq : p.Equivalent q) (hqr : q.Equivalent r) :
    p.Equivalent r where
  prints_iff e σ values :=
    (hpq.prints_iff e σ values).trans (hqr.prints_iff e σ values)
  halts_iff e σ := (hpq.halts_iff e σ).trans (hqr.halts_iff e σ)

theorem equivalent_of_simulation
    {p q : Program}
    (h : ∀ e, ∃ (R : State → State → Prop) (rank : State → Nat),
      Machine.Simulation (State.next? e p) (State.next? e q) R rank ∧
        (∀ σ, R (.start σ) (.start σ)) ∧
        ∀ {s t}, R s t → s.output = t.output) :
    p.Equivalent q := by
  refine ⟨?_, ?_⟩
  · intro e σ values
    obtain ⟨R, rank, hsim, hstart, houtput⟩ := h e
    constructor
    · rintro ⟨n, rfl⟩
      obtain ⟨m, hm⟩ := hsim.exists_run_right (hstart σ) n
      exact ⟨m, (houtput hm).symm⟩
    · rintro ⟨m, rfl⟩
      obtain ⟨n, hn⟩ := hsim.exists_run_left (hstart σ) m
      exact ⟨n, houtput hn⟩
  · intro e σ
    obtain ⟨R, rank, hsim, hstart, -⟩ := h e
    exact hsim.halts_iff (hstart σ)

end Program

/-! ## What a statement depends on -/

namespace Statement

theorem value_congr
    {σ τ : Store} {operand : Operand}
    (h : ∀ v, operand.var? = some v → σ v = τ v) :
    operand.value σ = operand.value τ := by
  cases operand with
  | var v => exact h v rfl
  | const value => rfl

theorem jumped?_congr
    {σ τ : Store} {statement : Statement}
    (h : ∀ v ∈ statement.used, σ v = τ v) :
    statement.jumped? σ = statement.jumped? τ := by
  cases statement with
  | branch condition target =>
      have hvalue : condition.value σ = condition.value τ := by
        apply value_congr
        intro v hv
        exact h v (by simp [used, hv])
      rw [jumped?, jumped?, hvalue]
  | _ => rfl

theorem printed_congr
    {σ τ : Store} {statement : Statement}
    (h : ∀ v ∈ statement.used, σ v = τ v) :
    statement.printed σ = statement.printed τ := by
  cases statement with
  | print value =>
      have hvalue : value.value σ = value.value τ := by
        apply value_congr
        intro v hv
        exact h v (by simp [used, hv])
      rw [printed, printed, hvalue]
  | _ => rfl

/-- A statement leaves other variables alone. -/
theorem storedBy_of_ne
    (apply : Meaning) (σ : Store) {statement : Statement} {v : VarId}
    (h : statement.defined? ≠ some v) :
    statement.storedBy apply σ v = σ v := by
  cases statement with
  | assign target left op right =>
      have hne : v ≠ target := by
        rintro rfl
        exact h rfl
      rw [storedBy, Function.update_of_ne hne]
  | _ => rfl

/-- What a statement writes depends only on what it reads. -/
theorem storedBy_congr
    (apply : Meaning) {σ τ : Store} {statement : Statement} {v : VarId}
    (h : ∀ w ∈ statement.used, σ w = τ w)
    (hv : statement.defined? = some v) :
    statement.storedBy apply σ v = statement.storedBy apply τ v := by
  cases statement with
  | assign target left op right =>
      obtain rfl := Option.some.inj hv
      have hright : right.value σ = right.value τ := by
        apply value_congr
        intro w hw
        exact h w (by simp [used, hw])
      have hleft : left.map (Operand.value σ) =
          left.map (Operand.value τ) := by
        cases left with
        | none => rfl
        | some operand =>
            have hoperand : operand.value σ = operand.value τ := by
              apply value_congr
              intro w hw
              exact h w (by simp [used, hw])
            rw [Option.map_some, Option.map_some, hoperand]
      rw [storedBy, storedBy, Function.update_self, Function.update_self, hleft,
        hright]
  | _ => contradiction

theorem stored_of_ne
    (e : Evaluator) (σ : Store) {statement : Statement} {v : VarId}
    (h : statement.defined? ≠ some v) :
    statement.stored e σ v = σ v :=
  storedBy_of_ne e.apply σ h

theorem stored_congr
    (e : Evaluator) {σ τ : Store} {statement : Statement} {v : VarId}
    (h : ∀ w ∈ statement.used, σ w = τ w)
    (hv : statement.defined? = some v) :
    statement.stored e σ v = statement.stored e τ v :=
  storedBy_congr e.apply h hv

theorem jumpTarget?_of_jumped?
    {σ : Store} {statement : Statement} {target : InstrId}
    (h : statement.jumped? σ = some target) :
    statement.jumpTarget? = some target := by
  cases statement with
  | goto target' => exact h
  | branch condition target' =>
      rw [jumped?] at h
      split at h
      · contradiction
      · exact h
  | _ => contradiction

theorem fallsThrough_of_jumped?
    {σ : Store} {statement : Statement} (h : statement.jumped? σ = none) :
    statement.fallsThrough = true := by
  cases statement with
  | goto target => contradiction
  | _ => rfl

end Statement

namespace State

theorem flows_of_execute
    {e : Evaluator} {p : Program} (hp : p.ids.Nodup) {s : State}
    {i j : Instruction} (hi : p.at? s.position = some i)
    (hj : p.at? (s.execute e p i).position = some j) :
    p.Flows i j := by
  rw [execute] at hj
  cases hjump : i.statement.jumped? s.store with
  | none =>
      simp only [hjump, Program.landing] at hj
      exact Program.flows_of_next hi hj
        (Statement.fallsThrough_of_jumped? hjump)
  | some target =>
      simp only [hjump, Program.landing] at hj
      cases hposition : p.position? target with
      | none =>
          rw [hposition] at hj
          exact absurd (Program.lt_of_at? hj) (Nat.lt_irrefl _)
      | some l =>
          rw [hposition] at hj
          exact Program.flows_of_jump hp (Program.mem_of_at? hi)
            (Statement.jumpTarget?_of_jumped? hjump) hposition hj

end State
end ThreeAddress
