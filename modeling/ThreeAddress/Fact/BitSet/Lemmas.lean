import ThreeAddress.Fact.BitSet

/-!
# Membership in sets of small indices

What each operation on bit sets does to membership.  The statements need the
set to be well formed: it has as many words as its capacity asks for, and no
bit at or above the capacity is set.  Every operation keeps that.
-/

namespace ThreeAddress
namespace BitSet

/-- The stored bit of an index, whether or not it lies below the capacity. -/
def stored (s : BitSet) (i : Nat) : Bool :=
  bit (s.words.getD (i / 64) 0) (i % 64)

/-- A set whose words match its capacity. -/
structure WellFormed (s : BitSet) : Prop where
  size_words : s.words.size = wordCount s.capacity
  stored_eq_false : ∀ i, s.capacity ≤ i → s.stored i = false

theorem contains_eq_stored
    {s : BitSet} (hs : s.WellFormed) (i : Nat) :
    s.contains i = s.stored i := by
  by_cases hi : i < s.capacity
  · simp [contains, stored, hi]
  · rw [hs.stored_eq_false i (Nat.le_of_not_lt hi)]
    simp [contains, hi]

theorem div_lt_wordCount {i capacity : Nat} (hi : i < capacity) :
    i / 64 < wordCount capacity := by
  rw [wordCount]
  omega

theorem bit_zero (k : Nat) : bit 0 k = false := by
  simp [bit]

theorem bit_or (a b : UInt64) (k : Nat) :
    bit (a ||| b) k = (bit a k || bit b k) := by
  simp [bit]

theorem bit_and (a b : UInt64) (k : Nat) :
    bit (a &&& b) k = (bit a k && bit b k) := by
  simp [bit]

theorem bit_and_not {a b : UInt64} {k : Nat} :
    bit (a &&& ~~~b) k = (bit a k && !bit b k) := by
  by_cases hk : k < 64
  · simp [bit, hk]
  · simp [bit, BitVec.getLsbD_of_ge, Nat.le_of_not_lt hk]

theorem bit_mask (i k : Nat) : bit (mask i) k = decide (k = i % 64) := by
  have hi : i % 64 < 64 := Nat.mod_lt i (by decide)
  simp only [bit, mask, BitVec.getLsbD_twoPow]
  by_cases h : k = i % 64
  · simp [h, hi]
  · simp [h, Ne.symm h]

/-- The bit that a changed word stores. -/
theorem stored_modify
    (s : BitSet) (f : UInt64 → UInt64) {i : Nat}
    (hi : i / 64 < s.words.size) (j : Nat) :
    stored { s with words := s.words.modify (i / 64) f } j =
      if j / 64 = i / 64 then
        bit (f (s.words.getD (i / 64) 0)) (j % 64)
      else
        s.stored j := by
  by_cases h : j / 64 = i / 64
  · simp [stored, h, hi, Array.getElem_modify]
  · by_cases hj : j / 64 < s.words.size
    · simp [stored, h, hj, Array.getElem_modify, Ne.symm h]
    · simp [stored, h, hj]

theorem stored_insert
    {s : BitSet} (hs : s.WellFormed) {i : Nat} (hi : i < s.capacity)
    (j : Nat) :
    (s.insert i).stored j = (s.stored j || decide (j = i)) := by
  have hword : i / 64 < s.words.size := by
    rw [hs.size_words]
    exact div_lt_wordCount hi
  rw [insert, if_pos hi, stored_modify s _ hword]
  by_cases h : j / 64 = i / 64
  · have hmod : decide (j % 64 = i % 64) = decide (j = i) :=
      decide_eq_decide.mpr (by omega)
    rw [if_pos h, bit_or, bit_mask, hmod, stored, h]
  · have hne : j ≠ i := fun hji => h (by rw [hji])
    simp [h, hne]

theorem stored_erase
    {s : BitSet} (hs : s.WellFormed) {i : Nat} (hi : i < s.capacity)
    (j : Nat) :
    (s.erase i).stored j = (s.stored j && !decide (j = i)) := by
  have hword : i / 64 < s.words.size := by
    rw [hs.size_words]
    exact div_lt_wordCount hi
  rw [erase, if_pos hi, stored_modify s _ hword]
  by_cases h : j / 64 = i / 64
  · have hmod : decide (j % 64 = i % 64) = decide (j = i) :=
      decide_eq_decide.mpr (by omega)
    rw [if_pos h, bit_and_not, bit_mask, hmod, stored, h]
  · have hne : j ≠ i := fun hji => h (by rw [hji])
    simp [h, hne]

@[simp]
theorem capacity_insert (s : BitSet) (i : Nat) :
    (s.insert i).capacity = s.capacity := by
  rw [insert]
  split <;> rfl

@[simp]
theorem capacity_erase (s : BitSet) (i : Nat) :
    (s.erase i).capacity = s.capacity := by
  rw [erase]
  split <;> rfl

theorem stored_empty (capacity i : Nat) :
    (empty capacity).stored i = false := by
  by_cases h : i / 64 < wordCount capacity <;>
    simp [stored, empty, h, bit_zero]

theorem wellFormed_empty (capacity : Nat) : (empty capacity).WellFormed where
  size_words := by simp [empty]
  stored_eq_false i _ := stored_empty capacity i

theorem WellFormed.insert
    {s : BitSet} (hs : s.WellFormed) (i : Nat) :
    (s.insert i).WellFormed := by
  by_cases hi : i < s.capacity
  · refine ⟨?_, ?_⟩
    · simp [BitSet.insert, hi, hs.size_words]
    · intro j hj
      rw [capacity_insert] at hj
      have hne : j ≠ i := by omega
      simp [stored_insert hs hi, hs.stored_eq_false j hj, hne]
  · simpa [BitSet.insert, hi] using hs

theorem WellFormed.erase
    {s : BitSet} (hs : s.WellFormed) (i : Nat) :
    (s.erase i).WellFormed := by
  by_cases hi : i < s.capacity
  · refine ⟨?_, ?_⟩
    · simp [BitSet.erase, hi, hs.size_words]
    · intro j hj
      rw [capacity_erase] at hj
      simp [stored_erase hs hi, hs.stored_eq_false j hj]
  · simpa [BitSet.erase, hi] using hs

theorem contains_empty (capacity i : Nat) :
    (empty capacity).contains i = false := by
  rw [contains_eq_stored (wellFormed_empty capacity), stored_empty]

theorem contains_insert
    {s : BitSet} (hs : s.WellFormed) {i : Nat} (hi : i < s.capacity)
    (j : Nat) :
    (s.insert i).contains j = (s.contains j || decide (j = i)) := by
  rw [contains_eq_stored (hs.insert i), contains_eq_stored hs,
    stored_insert hs hi]

theorem contains_erase
    {s : BitSet} (hs : s.WellFormed) {i : Nat} (hi : i < s.capacity)
    (j : Nat) :
    (s.erase i).contains j = (s.contains j && !decide (j = i)) := by
  rw [contains_eq_stored (hs.erase i), contains_eq_stored hs,
    stored_erase hs hi]

/-- The bit that a combined word stores. -/
theorem stored_combine
    {op : UInt64 → UInt64 → UInt64} (hop : op 0 0 = 0) {s t : BitSet}
    (hs : s.WellFormed) (ht : t.WellFormed)
    (hcap : s.capacity = t.capacity) (j : Nat) :
    (combine op s t).stored j =
      bit (op (s.words.getD (j / 64) 0) (t.words.getD (j / 64) 0))
        (j % 64) := by
  have hsize : s.words.size = t.words.size := by
    rw [hs.size_words, ht.size_words, hcap]
  simp only [stored, combine, Array.getD_eq_getD_getElem?,
    Array.getElem?_zipWith]
  by_cases hj : j / 64 < s.words.size
  · have hj' : j / 64 < t.words.size := hsize ▸ hj
    simp [hj, hj']
  · have hj' : ¬ j / 64 < t.words.size := hsize ▸ hj
    simp [hj, hj', hop]

theorem WellFormed.combine
    {op : UInt64 → UInt64 → UInt64} (hop : op 0 0 = 0)
    (hbit : ∀ a b k, bit (op a b) k = true → bit a k = true ∨ bit b k = true)
    {s t : BitSet} (hs : s.WellFormed) (ht : t.WellFormed)
    (hcap : s.capacity = t.capacity) :
    (BitSet.combine op s t).WellFormed := by
  refine ⟨?_, ?_⟩
  · simp [BitSet.combine, hs.size_words, ht.size_words, hcap]
  · intro j hj
    have hfirst : s.stored j = false := hs.stored_eq_false j hj
    have hsecond : t.stored j = false := ht.stored_eq_false j (hcap ▸ hj)
    rw [stored_combine hop hs ht hcap]
    apply Bool.eq_false_iff.mpr
    intro hset
    rcases hbit _ _ _ hset with h | h
    · rw [stored, h] at hfirst
      contradiction
    · rw [stored, h] at hsecond
      contradiction

theorem WellFormed.union
    {s t : BitSet} (hs : s.WellFormed) (ht : t.WellFormed)
    (hcap : s.capacity = t.capacity) :
    (s.union t).WellFormed := by
  refine WellFormed.combine (by decide) (fun a b k h => ?_) hs ht hcap
  simpa [bit_or] using h

theorem WellFormed.inter
    {s t : BitSet} (hs : s.WellFormed) (ht : t.WellFormed)
    (hcap : s.capacity = t.capacity) :
    (s.inter t).WellFormed := by
  refine WellFormed.combine (by decide) (fun a b k h => ?_) hs ht hcap
  rw [bit_and, Bool.and_eq_true] at h
  exact Or.inl h.1

theorem WellFormed.diff
    {s t : BitSet} (hs : s.WellFormed) (ht : t.WellFormed)
    (hcap : s.capacity = t.capacity) :
    (s.diff t).WellFormed := by
  refine WellFormed.combine (by decide) (fun a b k h => ?_) hs ht hcap
  rw [bit_and_not, Bool.and_eq_true] at h
  exact Or.inl h.1

theorem contains_union
    {s t : BitSet} (hs : s.WellFormed) (ht : t.WellFormed)
    (hcap : s.capacity = t.capacity) (j : Nat) :
    (s.union t).contains j = (s.contains j || t.contains j) := by
  rw [contains_eq_stored (hs.union ht hcap), contains_eq_stored hs,
    contains_eq_stored ht, union, stored_combine (by decide) hs ht hcap,
    bit_or]
  rfl

theorem contains_inter
    {s t : BitSet} (hs : s.WellFormed) (ht : t.WellFormed)
    (hcap : s.capacity = t.capacity) (j : Nat) :
    (s.inter t).contains j = (s.contains j && t.contains j) := by
  rw [contains_eq_stored (hs.inter ht hcap), contains_eq_stored hs,
    contains_eq_stored ht, inter, stored_combine (by decide) hs ht hcap,
    bit_and]
  rfl

theorem contains_diff
    {s t : BitSet} (hs : s.WellFormed) (ht : t.WellFormed)
    (hcap : s.capacity = t.capacity) (j : Nat) :
    (s.diff t).contains j = (s.contains j && !t.contains j) := by
  rw [contains_eq_stored (hs.diff ht hcap), contains_eq_stored hs,
    contains_eq_stored ht, diff, stored_combine (by decide) hs ht hcap,
    bit_and_not]
  rfl

@[simp]
theorem capacity_union (s t : BitSet) : (s.union t).capacity = s.capacity :=
  rfl

@[simp]
theorem capacity_inter (s t : BitSet) : (s.inter t).capacity = s.capacity :=
  rfl

@[simp]
theorem capacity_foldl_insert (s : BitSet) (is : List Nat) :
    (is.foldl insert s).capacity = s.capacity := by
  induction is generalizing s with
  | nil => rfl
  | cons i is ih => rw [List.foldl_cons, ih, capacity_insert]

theorem WellFormed.foldl_insert
    {s : BitSet} (hs : s.WellFormed) (is : List Nat) :
    (is.foldl BitSet.insert s).WellFormed := by
  induction is generalizing s with
  | nil => exact hs
  | cons i is ih => exact ih (hs.insert i)

theorem contains_foldl_insert
    {s : BitSet} (hs : s.WellFormed) {is : List Nat}
    (his : ∀ i ∈ is, i < s.capacity) (j : Nat) :
    (is.foldl insert s).contains j = true ↔ s.contains j = true ∨ j ∈ is := by
  induction is generalizing s with
  | nil => simp
  | cons i is ih =>
      have hi : i < s.capacity := his i List.mem_cons_self
      have hrest : ∀ k ∈ is, k < (s.insert i).capacity := by
        intro k hk
        rw [capacity_insert]
        exact his k (List.mem_cons_of_mem i hk)
      rw [List.foldl_cons, ih (hs.insert i) hrest, contains_insert hs hi,
        Bool.or_eq_true, decide_eq_true_eq, List.mem_cons, or_assoc]

@[simp]
theorem capacity_foldl_inter (s : BitSet) (ts : List BitSet) :
    (ts.foldl inter s).capacity = s.capacity := by
  induction ts generalizing s with
  | nil => rfl
  | cons t ts ih => rw [List.foldl_cons, ih, capacity_inter]

theorem WellFormed.foldl_inter
    {s : BitSet} (hs : s.WellFormed) {ts : List BitSet}
    (hts : ∀ t ∈ ts, t.WellFormed ∧ t.capacity = s.capacity) :
    (ts.foldl BitSet.inter s).WellFormed := by
  induction ts generalizing s with
  | nil => exact hs
  | cons t ts ih =>
      obtain ⟨ht, hcap⟩ := hts t List.mem_cons_self
      refine ih (hs.inter ht hcap.symm) ?_
      intro u hu
      exact hts u (List.mem_cons_of_mem t hu)

theorem contains_foldl_inter
    {s : BitSet} (hs : s.WellFormed) {ts : List BitSet}
    (hts : ∀ t ∈ ts, t.WellFormed ∧ t.capacity = s.capacity) (j : Nat) :
    (ts.foldl inter s).contains j = true ↔
      s.contains j = true ∧ ∀ t ∈ ts, t.contains j = true := by
  induction ts generalizing s with
  | nil => simp
  | cons t ts ih =>
      obtain ⟨ht, hcap⟩ := hts t List.mem_cons_self
      have hrest : ∀ u ∈ ts,
          u.WellFormed ∧ u.capacity = (s.inter t).capacity := by
        intro u hu
        exact hts u (List.mem_cons_of_mem t hu)
      rw [List.foldl_cons, ih (hs.inter ht hcap.symm) hrest,
        contains_inter hs ht hcap.symm, Bool.and_eq_true, List.forall_mem_cons,
        and_assoc]

theorem eq_of_bit_eq
    {a b : UInt64} (h : ∀ k, k < 64 → bit a k = bit b k) :
    a = b := by
  apply UInt64.toBitVec_inj.mp
  exact BitVec.eq_of_getLsbD_eq h

/-- Well-formed sets of one capacity are equal when they have the same
members. -/
theorem WellFormed.ext
    {s t : BitSet} (hs : s.WellFormed) (ht : t.WellFormed)
    (hcap : s.capacity = t.capacity)
    (hmem : ∀ i, s.contains i = t.contains i) :
    s = t := by
  have hsize : s.words.size = t.words.size := by
    rw [hs.size_words, ht.size_words, hcap]
  have hwords : s.words = t.words := by
    apply Array.ext hsize
    intro i hi hi'
    apply eq_of_bit_eq
    intro k hk
    have hindex := hmem (64 * i + k)
    rw [contains_eq_stored hs, contains_eq_stored ht] at hindex
    have hdiv : (64 * i + k) / 64 = i := by omega
    have hmod : (64 * i + k) % 64 = k := by omega
    simpa [stored, hdiv, hmod, hi, hi'] using hindex
  obtain ⟨capacity, words⟩ := s
  obtain ⟨capacity', words'⟩ := t
  exact congr (congrArg BitSet.mk hcap) hwords

end BitSet
end ThreeAddress
