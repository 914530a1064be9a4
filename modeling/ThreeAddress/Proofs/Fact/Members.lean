import Mathlib.Algebra.Ring.Parity
import Mathlib.Data.List.Nodup
import Mathlib.Data.List.Sort
import ThreeAddress.Fact.BitSet.Lemmas

/-!
# The members of a set of small indices

However a set has come about, its words match its capacity.  The listing of its
members then holds each member once, in ascending order, and the number of
members is the length of the listing.
-/

namespace ThreeAddress
namespace BitSet

/-- The sets that arise from empty ones by the operations that check their
arguments. -/
inductive Grown : BitSet → Prop
  | empty (capacity : Nat) : Grown (empty capacity)
  | insert {s t : BitSet} {i : Nat} {absent : Bool} :
      Grown s → s.insert? i = .ok (absent, t) → Grown t
  | erase {s t : BitSet} {i : Nat} {present : Bool} :
      Grown s → s.erase? i = .ok (present, t) → Grown t
  | clear {s : BitSet} : Grown s → Grown s.clear
  | union {s t u : BitSet} {changed : Bool} :
      Grown s → Grown t → s.union? t = .ok (changed, u) → Grown u
  | inter {s t u : BitSet} {changed : Bool} :
      Grown s → Grown t → s.inter? t = .ok (changed, u) → Grown u
  | diff {s t u : BitSet} {changed : Bool} :
      Grown s → Grown t → s.diff? t = .ok (changed, u) → Grown u
  | meet {s t u : BitSet} : Grown s → Grown t → s.meet? t = .ok u → Grown u

/-! ## Checked operations -/

theorem checkIndex_eq_ok_iff {s : BitSet} {i : Nat} :
    s.checkIndex i = .ok () ↔ i < s.capacity := by
  simp [checkIndex]

theorem checkCapacity_eq_ok_iff {s t : BitSet} :
    s.checkCapacity t = .ok () ↔ s.capacity = t.capacity := by
  simp [checkCapacity]

/-- A checked operation succeeds if the check does, and then gives what the
operation gives. -/
theorem check_bind_eq_ok_iff
    {α : Type} {check : Except Error Unit} {value result : α} :
    (check >>= fun _ => pure value) = .ok result ↔
      check = .ok () ∧ value = result := by
  rw [bind_eq_ok_iff]
  constructor
  · rintro ⟨⟨⟩, hcheck, hvalue⟩
    exact ⟨hcheck, Except.ok.inj hvalue⟩
  · rintro ⟨hcheck, rfl⟩
    exact ⟨(), hcheck, rfl⟩

theorem insert?_eq_ok_iff {s t : BitSet} {i : Nat} {absent : Bool} :
    s.insert? i = .ok (absent, t) ↔
      i < s.capacity ∧ (!s.contains i) = absent ∧ s.insert i = t := by
  rw [insert?, check_bind_eq_ok_iff, checkIndex_eq_ok_iff, Prod.mk.injEq]

theorem erase?_eq_ok_iff {s t : BitSet} {i : Nat} {present : Bool} :
    s.erase? i = .ok (present, t) ↔
      i < s.capacity ∧ s.contains i = present ∧ s.erase i = t := by
  rw [erase?, check_bind_eq_ok_iff, checkIndex_eq_ok_iff, Prod.mk.injEq]

theorem union?_eq_ok_iff {s t : BitSet} {result : Bool × BitSet} :
    s.union? t = .ok result ↔
      s.capacity = t.capacity ∧ s.changed (s.union t) = result := by
  rw [union?, check_bind_eq_ok_iff, checkCapacity_eq_ok_iff]

theorem inter?_eq_ok_iff {s t : BitSet} {result : Bool × BitSet} :
    s.inter? t = .ok result ↔
      s.capacity = t.capacity ∧ s.changed (s.inter t) = result := by
  rw [inter?, check_bind_eq_ok_iff, checkCapacity_eq_ok_iff]

theorem diff?_eq_ok_iff {s t : BitSet} {result : Bool × BitSet} :
    s.diff? t = .ok result ↔
      s.capacity = t.capacity ∧ s.changed (s.diff t) = result := by
  rw [diff?, check_bind_eq_ok_iff, checkCapacity_eq_ok_iff]

theorem meet?_eq_ok_iff {s t u : BitSet} :
    s.meet? t = .ok u ↔ s.capacity = t.capacity ∧ s.union t = u := by
  rw [meet?, bind_eq_ok_iff]
  simp only [union?_eq_ok_iff]
  constructor
  · rintro ⟨_, ⟨hcap, rfl⟩, hu⟩
    exact ⟨hcap, Except.ok.inj hu⟩
  · rintro ⟨hcap, rfl⟩
    exact ⟨_, ⟨hcap, rfl⟩, rfl⟩

theorem wellFormed_clear {s : BitSet} (hs : s.WellFormed) :
    s.clear.WellFormed := by
  refine ⟨?_, ?_⟩
  · simp [clear, hs.size_words]
  · intro i _
    by_cases hi : i / 64 < s.words.size <;> simp [stored, clear, hi, bit_zero]

theorem Grown.wellFormed {s : BitSet} (hs : s.Grown) : s.WellFormed := by
  induction hs with
  | empty capacity => exact wellFormed_empty capacity
  | insert _ h ih =>
      obtain ⟨-, -, rfl⟩ := insert?_eq_ok_iff.mp h
      exact ih.insert _
  | erase _ h ih =>
      obtain ⟨-, -, rfl⟩ := erase?_eq_ok_iff.mp h
      exact ih.erase _
  | clear _ ih => exact wellFormed_clear ih
  | union _ _ h ihs iht =>
      obtain ⟨hcap, heq⟩ := union?_eq_ok_iff.mp h
      exact (Prod.mk.inj heq).2 ▸ ihs.union iht hcap
  | inter _ _ h ihs iht =>
      obtain ⟨hcap, heq⟩ := inter?_eq_ok_iff.mp h
      exact (Prod.mk.inj heq).2 ▸ ihs.inter iht hcap
  | diff _ _ h ihs iht =>
      obtain ⟨hcap, heq⟩ := diff?_eq_ok_iff.mp h
      exact (Prod.mk.inj heq).2 ▸ ihs.diff iht hcap
  | meet _ _ h ihs iht =>
      obtain ⟨hcap, rfl⟩ := meet?_eq_ok_iff.mp h
      exact ihs.union iht hcap

/-! ## The bits of a word -/

theorem bit_eq_testBit (w : UInt64) (k : Nat) : bit w k = w.toNat.testBit k :=
  BitVec.testBit_toNat w.toBitVec

theorem lt_of_bit {w : UInt64} {k : Nat} (h : bit w k = true) : k < 64 :=
  BitVec.lt_of_getLsbD h

theorem bit_lowest {w : UInt64} (hw : w ≠ 0) : bit w (lowest w) = true :=
  BitVec.getLsbD_true_ctz_of_ne_zero fun hzero => hw (UInt64.toBitVec_inj.mp hzero)

theorem bit_of_lt_lowest {w : UInt64} {k : Nat} (h : k < lowest w) :
    bit w k = false :=
  BitVec.getLsbD_false_of_lt_ctz h

/-- A number and its predecessor share the bits above the lowest one of the
number. -/
theorem testBit_and_pred
    {n c : Nat} (hset : n.testBit c = true)
    (hbelow : ∀ i < c, n.testBit i = false) (k : Nat) :
    (n &&& (n - 1)).testBit k = (n.testBit k && decide (k ≠ c)) := by
  have hlow : n % 2 ^ (c + 1) = 2 ^ c := by
    apply Nat.eq_of_testBit_eq
    intro i
    rw [Nat.testBit_mod_two_pow, Nat.testBit_two_pow]
    rcases Nat.lt_trichotomy i c with hlt | rfl | hgt
    · simp [hbelow i hlt, Nat.ne_of_gt hlt]
    · simp [hset]
    · have hi : ¬ i < c + 1 := by omega
      simp [hi, Nat.ne_of_lt hgt]
  obtain ⟨high, rfl⟩ : ∃ high, n = 2 ^ (c + 1) * high + 2 ^ c :=
    ⟨n / 2 ^ (c + 1), by rw [← hlow, Nat.div_add_mod]⟩
  have hpos : 0 < 2 ^ c := Nat.two_pow_pos c
  have hlt : 2 ^ c < 2 ^ (c + 1) := by omega
  have hpred : 2 ^ (c + 1) * high + 2 ^ c - 1 =
      2 ^ (c + 1) * high + (2 ^ c - 1) := by omega
  rw [Nat.testBit_and, hpred, Nat.testBit_two_pow_mul_add _ hlt,
    Nat.testBit_two_pow_mul_add _ (by omega : 2 ^ c - 1 < 2 ^ (c + 1))]
  by_cases hk : k < c + 1
  · simp only [if_pos hk, Nat.testBit_two_pow, Nat.testBit_two_pow_sub_one]
    grind
  · have hne : k ≠ c := by omega
    simp [hk, hne]

theorem bit_clearLowest {w : UInt64} (hw : w ≠ 0) (k : Nat) :
    bit (clearLowest w) k = (bit w k && decide (k ≠ lowest w)) := by
  rw [bit_eq_testBit, bit_eq_testBit, clearLowest, UInt64.toNat_and, toNat_pred hw]
  apply testBit_and_pred
  · rw [← bit_eq_testBit]
    exact bit_lowest hw
  · intro i hi
    rw [← bit_eq_testBit]
    exact bit_of_lt_lowest hi

theorem mem_wordBits {w : UInt64} {k : Nat} :
    k ∈ wordBits w ↔ k < 64 ∧ bit w k = true := by
  fun_induction wordBits w with
  | case1 => simp [bit_zero]
  | case2 w hw ih =>
      rw [List.mem_cons, ih, bit_clearLowest hw, Bool.and_eq_true,
        decide_eq_true_eq]
      constructor
      · rintro (rfl | ⟨hk, hbit, -⟩)
        · exact ⟨lt_of_bit (bit_lowest hw), bit_lowest hw⟩
        · exact ⟨hk, hbit⟩
      · rintro ⟨hk, hbit⟩
        by_cases hlowest : k = lowest w
        · exact Or.inl hlowest
        · exact Or.inr ⟨hk, hbit, hlowest⟩

theorem pairwise_wordBits (w : UInt64) : (wordBits w).Pairwise (· < ·) := by
  fun_induction wordBits w with
  | case1 => exact List.Pairwise.nil
  | case2 w hw ih =>
      rw [List.pairwise_cons]
      refine ⟨?_, ih⟩
      intro k hk
      obtain ⟨-, hbit⟩ := mem_wordBits.mp hk
      rw [bit_clearLowest hw, Bool.and_eq_true, decide_eq_true_eq] at hbit
      refine Nat.lt_of_le_of_ne (Nat.le_of_not_lt ?_) (Ne.symm hbit.2)
      intro hbelow
      rw [bit_of_lt_lowest hbelow] at hbit
      exact absurd hbit.1 Bool.false_ne_true

/-- The bits taken from below are those that a search through the word finds. -/
theorem wordBits_eq_filter (w : UInt64) :
    wordBits w = (List.range 64).filter (bit w) := by
  refine (pairwise_wordBits w).eq_of_mem_iff
    (List.pairwise_lt_range.sublist List.filter_sublist) ?_
  intro k
  rw [mem_wordBits, List.mem_filter, List.mem_range]

/-! ## The listing -/

theorem mem_toList_iff_stored {s : BitSet} {i : Nat} :
    i ∈ s.toList ↔ s.stored i = true := by
  have hword : ∀ k, (∃ w, s.words[k]? = some w ∧ bit w (i % 64) = true) ↔
      bit (s.words.getD k 0) (i % 64) = true := by
    intro k
    by_cases hk : k < s.words.size
    · simp [hk]
    · simp [hk, bit_zero]
  rw [stored, ← hword, toList, List.mem_flatMap]
  constructor
  · rintro ⟨⟨w, k⟩, hw, hi⟩
    obtain ⟨j, hj, rfl⟩ := List.mem_map.mp hi
    obtain ⟨hlt, hbit⟩ := mem_wordBits.mp hj
    rw [List.mk_mem_zipIdx_iff_getElem?, Array.getElem?_toList] at hw
    have hdiv : (64 * k + j) / 64 = k := by omega
    have hmod : (64 * k + j) % 64 = j := by omega
    rw [hdiv, hmod]
    exact ⟨w, hw, hbit⟩
  · rintro ⟨w, hw, hbit⟩
    refine ⟨(w, i / 64), ?_, List.mem_map.mpr ⟨i % 64, ?_, ?_⟩⟩
    · rw [List.mk_mem_zipIdx_iff_getElem?, Array.getElem?_toList]
      exact hw
    · exact mem_wordBits.mpr ⟨Nat.mod_lt i (by decide), hbit⟩
    · exact Nat.div_add_mod i 64

theorem mem_toList {s : BitSet} (hs : s.WellFormed) {i : Nat} :
    i ∈ s.toList ↔ s.contains i = true := by
  rw [mem_toList_iff_stored, contains_eq_stored hs]

/-- The members are listed in ascending order, word by word and within a word bit
by bit. -/
theorem pairwise_toList (s : BitSet) : s.toList.Pairwise (· < ·) := by
  rw [toList, List.pairwise_flatMap]
  constructor
  · rintro ⟨w, k⟩ -
    refine List.Pairwise.map _ ?_ (pairwise_wordBits w)
    intro a b hab
    omega
  · have hordered : s.words.toList.zipIdx.Pairwise fun x y => x.2 < y.2 := by
      rw [← List.pairwise_map, List.zipIdx_map_snd]
      exact List.pairwise_lt_range'
    refine hordered.imp ?_
    rintro ⟨w, k⟩ ⟨w', k'⟩ hlt x hx y hy
    obtain ⟨i, hi, rfl⟩ := List.mem_map.mp hx
    obtain ⟨j, -, rfl⟩ := List.mem_map.mp hy
    have hbit := (mem_wordBits.mp hi).1
    omega

theorem nodup_toList (s : BitSet) : s.toList.Nodup :=
  (pairwise_toList s).imp Nat.ne_of_lt

theorem count_eq_length_toList (s : BitSet) : s.count = s.toList.length := by
  have hsum : ∀ (words : List UInt64) (k n : Nat),
      words.foldl (fun n w => n + (List.range 64).countP (bit w)) n =
        n + ((words.zipIdx k).flatMap fun entry =>
          (wordBits entry.1).map (64 * entry.2 + ·)).length := by
    intro words
    induction words with
    | nil => simp
    | cons w rest ih =>
        intro k n
        rw [List.foldl_cons, ih (k + 1), List.zipIdx_cons, List.flatMap_cons,
          List.length_append, List.length_map, wordBits_eq_filter,
          ← List.countP_eq_length_filter, Nat.add_assoc]
  rw [count, ← Array.foldl_toList, hsum _ 0 0, Nat.zero_add]
  rfl

theorem isEmpty_iff {s : BitSet} (hs : s.WellFormed) :
    s.isEmpty = true ↔ ∀ i, s.contains i = false := by
  rw [isEmpty, Array.all_eq_true']
  constructor
  · intro hzero i
    have hword : s.words.getD (i / 64) 0 = 0 := by
      by_cases hi : i / 64 < s.words.size
      · simpa [hi] using hzero _ (Array.getElem_mem hi)
      · simp [hi]
    rw [contains_eq_stored hs, stored, hword, bit_zero]
  · intro hnone w hw
    obtain ⟨k, hk, rfl⟩ := Array.mem_iff_getElem.mp hw
    rw [beq_iff_eq]
    apply eq_of_bit_eq
    intro j hj
    have hindex := hnone (64 * k + j)
    have hdiv : (64 * k + j) / 64 = k := by omega
    have hmod : (64 * k + j) % 64 = j := by omega
    rw [contains_eq_stored hs] at hindex
    simpa [stored, hdiv, hmod, hk, bit_zero] using hindex

end BitSet
end ThreeAddress
