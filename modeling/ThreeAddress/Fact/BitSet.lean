import ThreeAddress.Error
import ThreeAddress.Text.Braced

/-!
# Sets of small indices

A set of indices below a fixed capacity, kept in 64-bit words: index `i` is bit
`i % 64` of word `i / 64`.  `insert`, `erase` and the combining operations are
total and leave an index outside the capacity alone; the forms that end in `?`
report such an index, or a pair of different capacities, as an error.
-/

namespace ThreeAddress

/-- A set of indices below `capacity`. -/
structure BitSet where
  capacity : Nat
  words : Array UInt64
deriving DecidableEq, Repr, Inhabited

namespace BitSet

/-- The number of words that hold `capacity` bits. -/
def wordCount (capacity : Nat) : Nat :=
  (capacity + 63) / 64

/-- The set without members. -/
def empty (capacity : Nat) : BitSet :=
  ⟨capacity, Array.replicate (wordCount capacity) 0⟩

/-- The word whose only bit is that of index `i`. -/
def mask (i : Nat) : UInt64 :=
  UInt64.ofBitVec (BitVec.twoPow 64 (i % 64))

/-- Whether bit `k` of a word is set. -/
def bit (w : UInt64) (k : Nat) : Bool :=
  w.toBitVec.getLsbD k

/-- Whether an index is a member.  Indices outside the capacity are not. -/
def contains (s : BitSet) (i : Nat) : Bool :=
  decide (i < s.capacity) && bit (s.words.getD (i / 64) 0) (i % 64)

/-- The set with one more member. -/
def insert (s : BitSet) (i : Nat) : BitSet :=
  if i < s.capacity then
    { s with words := s.words.modify (i / 64) (· ||| mask i) }
  else
    s

/-- The set with one member less. -/
def erase (s : BitSet) (i : Nat) : BitSet :=
  if i < s.capacity then
    { s with words := s.words.modify (i / 64) (· &&& ~~~mask i) }
  else
    s

/-- Refuses an index outside the capacity. -/
def checkIndex (s : BitSet) (i : Nat) : Except Error Unit :=
  if i < s.capacity then .ok () else .error (.outOfCapacity i s.capacity)

/-- The set with one more member, and whether it was absent, if the index lies
below the capacity. -/
def insert? (s : BitSet) (i : Nat) : Except Error (Bool × BitSet) := do
  s.checkIndex i
  return (!s.contains i, s.insert i)

/-- The set with one member less, and whether it was present, if the index lies
below the capacity. -/
def erase? (s : BitSet) (i : Nat) : Except Error (Bool × BitSet) := do
  s.checkIndex i
  return (s.contains i, s.erase i)

/-- The set of the same capacity without members. -/
def clear (s : BitSet) : BitSet :=
  { s with words := s.words.map fun _ => 0 }

/-- The set whose words come from the words of two sets, pair by pair. -/
def combine
    (op : UInt64 → UInt64 → UInt64) (s t : BitSet) :
    BitSet :=
  { s with words := Array.zipWith op s.words t.words }

/-- The members of either set. -/
def union (s t : BitSet) : BitSet :=
  combine (· ||| ·) s t

/-- The members of both sets. -/
def inter (s t : BitSet) : BitSet :=
  combine (· &&& ·) s t

/-- The members of the first set that are not in the second. -/
def diff (s t : BitSet) : BitSet :=
  combine (fun a b => a &&& ~~~b) s t

/-- Refuses two sets of different capacities. -/
def checkCapacity (s t : BitSet) : Except Error Unit :=
  if s.capacity = t.capacity then
    .ok ()
  else
    .error (.capacityMismatch s.capacity t.capacity)

/-- A set that comes after another, and whether it differs from it. -/
def changed (s t : BitSet) : Bool × BitSet :=
  (s.words != t.words, t)

/-- The members of either set, and whether the first set lacked one, if the
capacities agree. -/
def union? (s t : BitSet) : Except Error (Bool × BitSet) := do
  s.checkCapacity t
  return s.changed (s.union t)

/-- The members of both sets, and whether the first set had another, if the
capacities agree. -/
def inter? (s t : BitSet) : Except Error (Bool × BitSet) := do
  s.checkCapacity t
  return s.changed (s.inter t)

/-- The members of the first set that are not in the second, and whether the
first set had another, if the capacities agree. -/
def diff? (s t : BitSet) : Except Error (Bool × BitSet) := do
  s.checkCapacity t
  return s.changed (s.diff t)

/-- The members of either set, if the capacities agree. -/
def meet? (s t : BitSet) : Except Error BitSet := do
  return (← s.union? t).2

/-- Whether the first set lies in the second, as far as both have words. -/
def isSubset (s t : BitSet) : Bool :=
  (s.words.zip t.words).all fun (a, b) => a &&& ~~~b == 0

/-- Whether the set has no members. -/
def isEmpty (s : BitSet) : Bool :=
  s.words.all (· == 0)

/-- The position of the lowest bit that is set in a word. -/
def lowest (w : UInt64) : Nat :=
  w.toBitVec.ctz.toNat

/-- The word without its lowest bit. -/
def clearLowest (w : UInt64) : UInt64 :=
  w &&& (w - 1)

theorem toNat_pred {w : UInt64} (hw : w ≠ 0) : (w - 1).toNat = w.toNat - 1 := by
  have hpos : 1 ≤ w.toNat := by
    apply Nat.one_le_iff_ne_zero.mpr
    intro hzero
    exact hw (UInt64.toNat.inj hzero)
  exact UInt64.toNat_sub_of_le w 1 (UInt64.le_iff_toNat_le.mpr hpos)

theorem toNat_clearLowest_lt {w : UInt64} (hw : w ≠ 0) :
    (clearLowest w).toNat < w.toNat := by
  have hle : (clearLowest w).toNat ≤ (w - 1).toNat := by
    rw [clearLowest, UInt64.toNat_and]
    exact Nat.and_le_right
  have hne : w.toNat ≠ 0 := fun hzero => hw (UInt64.toNat.inj hzero)
  rw [toNat_pred hw] at hle
  omega

/-- The positions of the bits that are set in a word, in ascending order: the
lowest one is taken and cleared as long as there is one. -/
def wordBits (w : UInt64) : List Nat :=
  if w = 0 then
    []
  else
    lowest w :: wordBits (clearLowest w)
termination_by w.toNat
decreasing_by exact toNat_clearLowest_lt ‹w ≠ 0›

/-- The number of members. -/
def count (s : BitSet) : Nat :=
  s.words.foldl (fun n w => n + (List.range 64).countP (bit w)) 0

/-- The members in ascending order. -/
def toList (s : BitSet) : List Nat :=
  s.words.toList.zipIdx.flatMap fun (w, k) =>
    (wordBits w).map (64 * k + ·)

/-- The members between braces. -/
def text (s : BitSet) : String :=
  braced (s.toList.map toString)

end BitSet

/-- A set of variables, by index. -/
abbrev VarSet := BitSet

namespace VarSet

/-- The variables between braces, under a naming. -/
def text (name : VarId → String) (s : VarSet) : String :=
  braced (s.toList.map fun i => name (VarId.ofIndex i))

end VarSet

end ThreeAddress
