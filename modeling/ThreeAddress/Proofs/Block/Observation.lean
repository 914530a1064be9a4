import ThreeAddress.Proofs.Block.DeadCode
import ThreeAddress.Proofs.Semantics.Execution

/-!
# What a block shows

Executing the instructions of a block in order shows the values that it prints and
the values that its branches test.  A definition that nothing later in the block
reads has no part in this.  Without it the stores differ, but they agree on every
variable that the rest of the block reads before defining it, and this stays so to
the end.
-/

namespace ThreeAddress

/-- What can be seen of an execution: a printed value, or the value that a branch
tests. -/
inductive Event
  | printed (value : Int64)
  | tested (branch : InstrId) (value : Int64)
deriving DecidableEq

/-- The value that a statement tests. -/
def Statement.tested? (σ : Store) : Statement → Option Int64
  | branch condition _ => some (condition.value σ)
  | _ => none

/-- What an instruction shows. -/
def Instruction.events (σ : Store) (instr : Instruction) : List Event :=
  (instr.statement.printed σ).map .printed ++
    (instr.statement.tested? σ).toList.map (.tested instr.id)

/-- What the execution of some code shows, instruction by instruction from the
first to the last.  Jumps are not taken. -/
def Block.trace (apply : Meaning) (σ : Store) : List Instruction → List Event
  | [] => []
  | instr :: rest =>
      instr.events σ ++ trace apply (instr.statement.storedBy apply σ) rest

theorem Statement.tested?_congr
    {σ τ : Store} {statement : Statement}
    (h : ∀ v ∈ statement.used, σ v = τ v) :
    statement.tested? σ = statement.tested? τ := by
  cases statement with
  | branch condition target =>
      have hvalue : condition.value σ = condition.value τ := by
        apply value_congr
        intro v hv
        exact h v (by simp [used, hv])
      rw [tested?, tested?, hvalue]
  | _ => rfl

namespace Instruction

theorem events_congr
    {σ τ : Store} {instr : Instruction} (h : ∀ v ∈ instr.used, σ v = τ v) :
    instr.events σ = instr.events τ := by
  rw [events, events, Statement.printed_congr h, Statement.tested?_congr h]

theorem events_of_defined?
    {instr : Instruction} {v : VarId} (h : instr.defined? = some v)
    (σ : Store) :
    instr.events σ = [] := by
  obtain ⟨id, labelled, statement⟩ := instr
  cases statement with
  | assign target left op right => rfl
  | _ => contradiction

end Instruction

namespace DeadCode

open Block Chains

/-! ## Leaving definitions out -/

/-- The second code is the first without some definitions that nothing later in the
first reads. -/
inductive Thins : List Instruction → List Instruction → Prop
  | nil : Thins [] []
  | keep (instr : Instruction) {rest thin : List Instruction} :
      Thins rest thin → Thins (instr :: rest) (instr :: thin)
  | skip {instr : Instruction} {v : VarId} {rest thin : List Instruction} :
      instr.defined? = some v → ¬ Exposed v rest → Thins rest thin →
      Thins (instr :: rest) thin

/-- Both codes show the same from stores that agree on what the first one
exposes. -/
theorem Thins.trace_eq
    {code thin : List Instruction} (h : Thins code thin) (apply : Meaning)
    {σ τ : Store} (hagree : ∀ v, Exposed v code → σ v = τ v) :
    trace apply σ code = trace apply τ thin := by
  induction h generalizing σ τ with
  | nil => rfl
  | @keep instr rest thin _ ih =>
      have hused : ∀ v ∈ instr.used, σ v = τ v := by
        intro v hv
        exact hagree v (Or.inl hv)
      rw [trace, trace, Instruction.events_congr hused]
      refine congrArg (_ ++ ·) (ih ?_)
      intro v hv
      by_cases hdefined : instr.defined? = some v
      · exact Statement.storedBy_congr apply hused hdefined
      · rw [Statement.storedBy_of_ne apply σ hdefined,
          Statement.storedBy_of_ne apply τ hdefined]
        exact hagree v (Or.inr ⟨hdefined, hv⟩)
  | @skip instr v rest thin hdefined hunread _ ih =>
      rw [trace, Instruction.events_of_defined? hdefined, List.nil_append]
      apply ih
      intro w hw
      -- only `v` has changed, and the rest does not read it
      have hne : instr.defined? ≠ some w := by
        intro heq
        obtain rfl := Option.some.inj (hdefined.symm.trans heq)
        exact hunread hw
      rw [Statement.storedBy_of_ne apply σ hne]
      exact hagree w (Or.inr ⟨hne, hw⟩)

theorem thins_drop
    {code : List Instruction} {c : Chains}
    (hids : (code.map Instruction.id).Nodup) (h : ofInstructions code = .ok c)
    (pre post : List Instruction) (hsplit : code = pre ++ post) :
    Thins post (drop c.dead post) := by
  induction post generalizing pre with
  | nil => exact .nil
  | cons instr rest ih =>
      have hrest := ih (pre ++ [instr]) (by simp [hsplit])
      by_cases hdead : instr.id ∈ c.dead
      · obtain ⟨v, hv, hunread⟩ :=
          (mem_dead_iff_of_split hids h hsplit).mp hdead
        rw [drop, List.filter_cons_of_neg (by simpa using hdead)]
        exact .skip hv hunread hrest
      · rw [drop, List.filter_cons_of_pos (by simpa using hdead)]
        exact .keep instr hrest

theorem sublist_of_settle
    {code rest : List Instruction} (h : settle code = .ok rest) :
    rest.Sublist code := by
  fun_induction settle code with
  | case1 => contradiction
  | case2 code chains hchains hdead =>
      rw [Except.ok.inj h]
  | case3 code chains hchains hdead ih =>
      exact (ih h).trans List.filter_sublist

/-- No round changes what the code shows. -/
theorem trace_settle
    {code rest : List Instruction} (hids : (code.map Instruction.id).Nodup)
    (h : settle code = .ok rest) (apply : Meaning) (σ : Store) :
    trace apply σ rest = trace apply σ code := by
  fun_induction settle code with
  | case1 => contradiction
  | case2 code chains hchains hdead => rw [Except.ok.inj h]
  | case3 code chains hchains hdead ih =>
      have hsublist : (drop chains.dead code).Sublist code :=
        List.filter_sublist
      rw [ih ((hsublist.map _).nodup hids) h]
      exact ((thins_drop hids hchains [] code rfl).trace_eq apply
        fun _ _ => rfl).symm

/-! ## Blocks -/

/-- A block of distinct instructions shows the same before and after its dead
definitions are removed: it prints the same values, and its branches test the same
values, whatever the operations mean and whatever the store is. -/
theorem eliminate_trace_eq
    {p : Program} {b b' : Block} (hnodup : b.instrs.Nodup)
    (h : eliminate p b = .ok b') :
    ∃ code thin, b.resolve p = .ok code ∧ b'.resolve p = .ok thin ∧
      ∀ apply σ, trace apply σ thin = trace apply σ code := by
  obtain ⟨code, hcode, h⟩ := bind_eq_ok_iff.mp h
  obtain ⟨thin, hthin, hb'⟩ := bind_eq_ok_iff.mp h
  obtain rfl := Except.ok.inj hb'
  have hmem := mem_ids_of_resolve hcode
  obtain rfl := Except.ok.inj (hcode.symm.trans (resolve_eq_ok hmem))
  have hids := Program.map_id_filterMap_get? hmem
  have hsublist := sublist_of_settle hthin
  have hleft : (thin.map Instruction.id).filterMap p.get? = thin :=
    Program.filterMap_get?_map_id_of_subset hsublist.subset
  refine ⟨_, thin, hcode, ?_, ?_⟩
  · rw [resolve_eq_ok, hleft]
    intro id hid
    have hold := (hsublist.map Instruction.id).subset hid
    rw [hids] at hold
    exact hmem id hold
  · intro apply σ
    exact trace_settle (by rwa [hids]) hthin apply σ

/-- Computes `x` twice, tests it and prints it.  The second time it divides by
zero. -/
def dividing : Program where
  instrs := #[
    ⟨⟨0⟩, false, .assign ⟨0⟩ none .copy (.const 5)⟩,
    ⟨⟨1⟩, false, .assign ⟨1⟩ (some (.var ⟨0⟩)) .mul (.var ⟨0⟩)⟩,
    ⟨⟨2⟩, false, .assign ⟨1⟩ (some (.const 3)) .div (.const 0)⟩,
    ⟨⟨3⟩, false, .branch (.var ⟨1⟩) ⟨5⟩⟩,
    ⟨⟨4⟩, false, .assign ⟨0⟩ (some (.var ⟨1⟩)) .plus (.const 1)⟩,
    ⟨⟨5⟩, true, .print (.var ⟨1⟩)⟩]
  names := #["a", "x"]

/-- Whatever the quotient is, it is tested and printed. -/
theorem eliminate_trace_eq_dividing :
    eliminate dividing (.ofInstrs 0 dividing.ids) =
        .ok (.ofInstrs 0 [⟨2⟩, ⟨3⟩, ⟨5⟩]) ∧
      ∃ code, (Block.ofInstrs 0 dividing.ids).resolve dividing = .ok code ∧
        ∀ apply σ, trace apply σ code =
          [.tested ⟨3⟩ (apply .div (some 3) 0),
            .printed (apply .div (some 3) 0)] := by
  have hrun : eliminate dividing (.ofInstrs 0 dividing.ids) =
      .ok (.ofInstrs 0 [⟨2⟩, ⟨3⟩, ⟨5⟩]) := by
    decide +kernel
  obtain ⟨code, thin, hcode, hthin, htrace⟩ :=
    eliminate_trace_eq (by decide) hrun
  refine ⟨hrun, code, hcode, ?_⟩
  intro apply σ
  have hshort : (Block.ofInstrs 0 [⟨2⟩, ⟨3⟩, ⟨5⟩]).resolve dividing = .ok [
      ⟨⟨2⟩, false, .assign ⟨1⟩ (some (.const 3)) .div (.const 0)⟩,
      ⟨⟨3⟩, false, .branch (.var ⟨1⟩) ⟨5⟩⟩,
      ⟨⟨5⟩, true, .print (.var ⟨1⟩)⟩] := by
    decide +kernel
  obtain rfl := Except.ok.inj (hshort.symm.trans hthin)
  rw [← htrace]
  rfl

end DeadCode
end ThreeAddress
