import ThreeAddress.Code.Handle
import ThreeAddress.Digraph.Handle

/-!
# Causes of failure

Every operation that can fail says why with one of these causes.  The wording
of a cause is fixed by `Error.message` alone.
-/

namespace ThreeAddress

/-- The two ends of an edge. -/
inductive Endpoint
  | source
  | target
deriving DecidableEq, Repr

namespace Endpoint

def text : Endpoint → String
  | source => "source"
  | target => "target"

end Endpoint

/-- Why an operation failed. -/
inductive Error
  /-- The program holds an instruction with this handle. -/
  | duplicateInstruction (id : InstrId)
  /-- The instruction names a variable that the program has not interned. -/
  | uninternedVariable (id : InstrId) (v : VarId)
  /-- A flow graph needs a program with instructions. -/
  | emptyProgram
  /-- A flow graph needs at least one block. -/
  | noBlocks
  /-- A block of a flow graph needs at least one instruction. -/
  | emptyBlock (block : NodeId)
  /-- The last instruction of a block is not in the program. -/
  | missingTerminator (id : InstrId) (block : NodeId)
  /-- A jump names an instruction that stands in no block. -/
  | unresolvedJump (jump target : InstrId)
  /-- A block lists an instruction that is not in the program. -/
  | unresolvedInstruction (block : NodeId) (id : InstrId)
  /-- A block reads a variable before defining it. -/
  | undefinedUse (v : VarId) (id : InstrId)
  /-- The passes allowed did not reach a fixed point. -/
  | nonConvergence (analysis : String) (passes : Nat)
  /-- An edge names a node that the graph lacks. -/
  | missingNode (endpoint : Endpoint) (node : NodeId) (count : Nat)
  /-- An index lies outside the capacity of a set. -/
  | outOfCapacity (index capacity : Nat)
  /-- Two sets of different capacities cannot be combined. -/
  | capacityMismatch (left right : Nat)
  /-- A variable lies outside an environment. -/
  | outOfEnvironment (v : VarId) (size : Nat)
deriving DecidableEq, Repr

namespace Error

/-- The wording of a cause that concerns the shape of a program, its blocks or
its flow graph. -/
def structural (detail : String) : String :=
  "Structural error: " ++ detail

/-- The wording of a cause. -/
def message : Error → String
  | duplicateInstruction id =>
      structural s!"instruction {id.text} is already in the program"
  | uninternedVariable id v =>
      structural
        (s!"instruction {id.text} uses {v.handleText}, " ++
          "which is not interned in the program")
  | emptyProgram =>
      structural "cannot build a control-flow graph for an empty program"
  | noBlocks =>
      structural "cannot build a control-flow graph without blocks"
  | emptyBlock block =>
      structural s!"block {NodeId.text block} has no instructions"
  | missingTerminator id block =>
      structural
        (s!"instruction {id.text} of block {NodeId.text block} " ++
          "is not in the program")
  | unresolvedJump jump target =>
      structural
        s!"jump {jump.text} targets unknown instruction {target.text}"
  | unresolvedInstruction block id =>
      structural
        (s!"block {NodeId.text block} references " ++
          s!"unknown instruction {id.text}")
  | undefinedUse v id =>
      s!"Variable {v.text} used at {id.text} has no definition in its block"
  | nonConvergence analysis passes =>
      s!"Analysis '{analysis}' did not converge within {passes} passes"
  | missingNode endpoint node count =>
      s!"{endpoint.text} node {NodeId.text node} does not exist " ++
        s!"in graph with {count} nodes"
  | outOfCapacity index capacity =>
      s!"index {index} out of bounds for capacity {capacity}"
  | capacityMismatch left right =>
      s!"sets of capacities {left} and {right} cannot be combined"
  | outOfEnvironment v size =>
      s!"variable {v.text} lies outside an environment of {size} variables"

end Error

/-- A computation in two steps succeeds if both steps do. -/
theorem bind_eq_ok_iff
    {ε α β : Type} {x : Except ε α} {f : α → Except ε β} {b : β} :
    x >>= f = .ok b ↔ ∃ a, x = .ok a ∧ f a = .ok b := by
  cases x with
  | error e => simp [bind, Except.bind]
  | ok a => simp [bind, Except.bind]

/-- It fails if one of them does. -/
theorem bind_eq_error_iff
    {ε α β : Type} {x : Except ε α} {f : α → Except ε β} {e : ε} :
    x >>= f = .error e ↔ x = .error e ∨ ∃ a, x = .ok a ∧ f a = .error e := by
  cases x with
  | error e => simp [bind, Except.bind]
  | ok a => simp [bind, Except.bind]

/-- A test of all members of a list succeeds if it does for each. -/
theorem forM_eq_ok_iff
    {ε α : Type} {f : α → Except ε Unit} {xs : List α} :
    xs.forM f = .ok () ↔ ∀ x ∈ xs, f x = .ok () := by
  induction xs with
  | nil => simp [List.forM, pure, Except.pure]
  | cons x rest ih =>
      have hstep : (x :: rest).forM f = f x >>= fun _ => rest.forM f := rfl
      rw [hstep, bind_eq_ok_iff, List.forall_mem_cons, ← ih]
      constructor
      · rintro ⟨_, hx, hrest⟩
        exact ⟨hx, hrest⟩
      · rintro ⟨hx, hrest⟩
        exact ⟨(), hx, hrest⟩

/-- A step for all members of a list succeeds if it does for each. -/
theorem mapM_eq_ok
    {ε α β : Type} {f : α → Except ε β} {g : α → Option β} {xs : List α}
    (h : ∀ x ∈ xs, ∃ y, f x = .ok y ∧ g x = some y) :
    xs.mapM f = .ok (xs.filterMap g) := by
  induction xs with
  | nil => rfl
  | cons x rest ih =>
      rw [List.forall_mem_cons] at h
      obtain ⟨⟨y, hf, hg⟩, hrest⟩ := h
      rw [List.mapM_cons, hf, ih hrest, List.filterMap_cons_some hg]
      rfl

/-- Where a step for all members of a list succeeds, it does for each. -/
theorem exists_ok_of_mapM
    {ε α β : Type} {f : α → Except ε β} {xs : List α} {ys : List β}
    (h : xs.mapM f = .ok ys) :
    ∀ x ∈ xs, ∃ y, f x = .ok y := by
  induction xs generalizing ys with
  | nil => simp
  | cons x rest ih =>
      rw [List.mapM_cons, bind_eq_ok_iff] at h
      obtain ⟨y, hy, h⟩ := h
      obtain ⟨tail, htail, -⟩ := bind_eq_ok_iff.mp h
      exact List.forall_mem_cons.mpr ⟨⟨y, hy⟩, ih htail⟩

end ThreeAddress
