import ThreeAddress.Proofs.Fact.Members

/-!
# Inclusion of sets of small indices

The test for inclusion compares two sets word by word, as far as both have words.
So it asks about the members of the first set in the words of the second, and no
others.  This is inclusion exactly if the second set has room for as many words
as the first: a member beyond the last word of the second set goes unnoticed.
-/

namespace ThreeAddress
namespace BitSet

/-- Every member of the first set is one of the second. -/
def Within (s t : BitSet) : Prop :=
  ∀ i, s.contains i = true → t.contains i = true

/-! ## Words -/

theorem and_not_eq_zero_iff {a b : UInt64} :
    (a &&& ~~~b) = 0 ↔ ∀ k < 64, bit a k = true → bit b k = true := by
  constructor
  · intro hzero k _ hk
    have hbit : bit (a &&& ~~~b) k = false := by rw [hzero, bit_zero]
    rw [bit_and_not, hk, Bool.true_and, Bool.not_eq_false'] at hbit
    exact hbit
  · intro hbits
    apply eq_of_bit_eq
    intro k hk
    rw [bit_and_not, bit_zero]
    cases ha : bit a k with
    | false => rfl
    | true => rw [hbits k hk ha]; rfl

/-- The test compares the words that both sets have. -/
theorem isSubset_iff_words {s t : BitSet} :
    s.isSubset t = true ↔ ∀ k < s.words.size, k < t.words.size →
      (s.words.getD k 0 &&& ~~~t.words.getD k 0) = 0 := by
  rw [isSubset, Array.all_eq_true]
  constructor
  · intro hall k hs ht
    have hk : k < (s.words.zip t.words).size := by
      rw [Array.size_zip]
      exact Nat.lt_min.mpr ⟨hs, ht⟩
    simpa [hs, ht] using hall k hk
  · intro hall k hk
    obtain ⟨hs, ht⟩ := Nat.lt_min.mp (Array.size_zip ▸ hk)
    simpa [hs, ht] using hall k hs ht

theorem isSubset_iff_stored {s t : BitSet} :
    s.isSubset t = true ↔ ∀ i, i / 64 < t.words.size →
      s.stored i = true → t.stored i = true := by
  rw [isSubset_iff_words]
  constructor
  · intro hwords i ht hi
    by_cases hs : i / 64 < s.words.size
    · exact and_not_eq_zero_iff.mp (hwords _ hs ht) (i % 64)
        (Nat.mod_lt i (by decide)) hi
    · simp [stored, hs, bit_zero] at hi
  · intro hstored k _ ht
    rw [and_not_eq_zero_iff]
    intro j hj
    have hdiv : (64 * k + j) / 64 = k := by omega
    have hmod : (64 * k + j) % 64 = j := by omega
    have hindex := hstored (64 * k + j) (hdiv.symm ▸ ht)
    rwa [stored, stored, hdiv, hmod] at hindex

/-! ## Members -/

theorem lt_mul_wordCount_iff {i capacity : Nat} :
    i < 64 * wordCount capacity ↔ i / 64 < wordCount capacity := by
  omega

theorem lt_capacity_of_contains
    {s : BitSet} {i : Nat} (h : s.contains i = true) :
    i < s.capacity := by
  rw [contains, Bool.and_eq_true, decide_eq_true_eq] at h
  exact h.1

theorem isSubset_iff_contains
    {s t : BitSet} (hs : s.WellFormed) (ht : t.WellFormed) :
    s.isSubset t = true ↔ ∀ i < 64 * wordCount t.capacity,
      s.contains i = true → t.contains i = true := by
  simp only [isSubset_iff_stored, ht.size_words, contains_eq_stored hs,
    contains_eq_stored ht, lt_mul_wordCount_iff]

theorem isSubset_iff_within
    {s t : BitSet} (hs : s.WellFormed) (ht : t.WellFormed)
    (hwords : wordCount s.capacity ≤ wordCount t.capacity) :
    s.isSubset t = true ↔ s.Within t := by
  rw [isSubset_iff_contains hs ht]
  constructor
  · intro hsome i hi
    have hlt := div_lt_wordCount (lt_capacity_of_contains hi)
    exact hsome i (lt_mul_wordCount_iff.mpr (by omega)) hi
  · exact fun hall i _ => hall i

/-- A set with a single member. -/
theorem exists_singleton {i capacity : Nat} (hi : i < capacity) :
    ∃ s : BitSet, s.Grown ∧ s.capacity = capacity ∧
      ∀ j, s.contains j = true ↔ j = i := by
  have hinsert := insert?_eq_ok_iff.mpr
    ⟨show i < (empty capacity).capacity from hi, rfl, rfl⟩
  refine ⟨_, .insert (.empty capacity) hinsert, capacity_insert _ i, ?_⟩
  intro j
  rw [contains_insert (wellFormed_empty capacity) hi, contains_empty,
    Bool.false_or, decide_eq_true_eq]

/-- If the first capacity asks for more words, the first member beyond the words
of the second is overlooked. -/
theorem exists_isSubset_not_within
    {m n : Nat} (hwords : wordCount n < wordCount m) :
    ∃ s t : BitSet, s.Grown ∧ t.Grown ∧ s.capacity = m ∧ t.capacity = n ∧
      s.isSubset t = true ∧ ¬ s.Within t := by
  have hlt : 64 * wordCount n < m := by
    simp only [wordCount] at hwords ⊢
    omega
  obtain ⟨s, hs, hcapacity, hmember⟩ := exists_singleton hlt
  refine ⟨s, empty n, hs, .empty n, hcapacity, rfl, ?_, ?_⟩
  · rw [isSubset_iff_contains hs.wellFormed (wellFormed_empty n)]
    intro i hi hcontains
    exact absurd ((hmember i).mp hcontains) (Nat.ne_of_lt hi)
  · intro hwithin
    have hcontains := hwithin _ ((hmember _).mpr rfl)
    rw [contains_empty] at hcontains
    contradiction

/-- For sets of two capacities, however they have come about, the test says
whether the members of the first set in the words of the second are members of
the second.  It says whether the first set lies within the second, for all sets
of these capacities, exactly if the second capacity asks for at least as many
words as the first. -/
theorem isSubset_within_iff_words_suffice (m n : Nat) :
    (∀ s t : BitSet, s.Grown → t.Grown → s.capacity = m → t.capacity = n →
      (s.isSubset t = true ↔ ∀ i < 64 * wordCount n,
        s.contains i = true → t.contains i = true)) ∧
    ((∀ s t : BitSet, s.Grown → t.Grown → s.capacity = m → t.capacity = n →
      (s.isSubset t = true ↔ s.Within t)) ↔ wordCount m ≤ wordCount n) := by
  refine ⟨?_, ?_, ?_⟩
  · rintro s t hs ht - rfl
    exact isSubset_iff_contains hs.wellFormed ht.wellFormed
  · intro hexact
    by_contra hwords
    obtain ⟨s, t, hs, ht, hm, hn, htest, hnot⟩ :=
      exists_isSubset_not_within (Nat.lt_of_not_le hwords)
    exact hnot ((hexact s t hs ht hm hn).mp htest)
  · rintro hwords s t hs ht rfl rfl
    exact isSubset_iff_within hs.wellFormed ht.wellFormed hwords

/-- The test finds `{70}` within an empty set of capacity 10. -/
theorem isSubset_overlooks_seventy :
    ∃ s t : BitSet, s.Grown ∧ t.Grown ∧ s.contains 70 = true ∧
      t.contains 70 = false ∧ s.isSubset t = true := by
  have hinsert : (empty 100).insert? 70 = .ok (true, (empty 100).insert 70) := by
    decide +kernel
  refine ⟨_, empty 10, .insert (.empty 100) hinsert, .empty 10, ?_, ?_, ?_⟩
  · decide +kernel
  · decide +kernel
  · decide +kernel

end BitSet
end ThreeAddress
