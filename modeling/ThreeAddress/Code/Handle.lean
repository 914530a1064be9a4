/-!
# Handles of three-address code

Instructions and variables are named by handles.  An instruction keeps its
handle for life, whatever is done to it; results that range over instructions
are ordered by it.  A variable handle is a dense 32-bit index into the name
table of a program.
-/

namespace ThreeAddress

/-- The identity of an instruction. -/
structure InstrId where
  val : Nat
deriving DecidableEq, Repr, Inhabited, Hashable

namespace InstrId

/-- Instruction handles are ordered by number. -/
instance : Ord InstrId where
  compare a b := compare a.val b.val

theorem compare_def (a b : InstrId) : compare a b = compare a.val b.val :=
  rfl

instance : Std.TransOrd InstrId where
  eq_swap {a b} := by
    rw [compare_def, compare_def]
    exact Std.OrientedOrd.eq_swap
  isLE_trans {a b c} hab hbc := by
    rw [compare_def] at *
    exact Std.TransOrd.isLE_trans hab hbc

instance : Std.LawfulEqOrd InstrId where
  eq_of_compare {a b} h := by
    obtain ⟨a⟩ := a
    obtain ⟨b⟩ := b
    rw [compare_def] at h
    exact congrArg InstrId.mk (Std.LawfulEqOrd.eq_of_compare h)

/-- The text of an instruction handle, such as `#3`. -/
def text (id : InstrId) : String :=
  s!"#{id.val}"

end InstrId

/-- The handle of an interned variable. -/
structure VarId where
  val : UInt32
deriving DecidableEq, Repr, Inhabited

namespace VarId

/-- The handle of the `n`-th variable.  Only the low 32 bits count. -/
def ofIndex (n : Nat) : VarId :=
  ⟨n.toUInt32⟩

/-- The position of the variable in the name table. -/
def index (v : VarId) : Nat :=
  v.val.toNat

/-- The text of a variable that has no name, such as `v3`. -/
def text (v : VarId) : String :=
  s!"v{v.index}"

/-- The text of the bare handle, such as `VarId(3)`. -/
def handleText (v : VarId) : String :=
  s!"VarId({v.index})"

theorem index_ofIndex (n : Nat) : (ofIndex n).index = n % UInt32.size :=
  rfl

theorem index_ofIndex_of_lt
    {n : Nat} (h : n < UInt32.size) :
    (ofIndex n).index = n := by
  rw [index_ofIndex, Nat.mod_eq_of_lt h]

theorem index_lt (v : VarId) : v.index < UInt32.size :=
  v.val.toNat_lt

@[simp]
theorem ofIndex_index (v : VarId) : ofIndex v.index = v := by
  obtain ⟨val⟩ := v
  simp [ofIndex, index]

theorem index_injective
    {v w : VarId} (h : v.index = w.index) :
    v = w := by
  rw [← ofIndex_index v, ← ofIndex_index w, h]

end VarId

end ThreeAddress
