import Mathlib.Algebra.Order.Floor.Div
import Mathlib.Data.Finset.Basic
import Mathlib.Data.Finset.Card
import Mathlib.Logic.Function.Basic
import ThreeAddress.Proofs.Fact.Members

/-!
# Bit sets as finite sets

A bit set stands for a finite set of indices below its capacity.  The operations
on finite sets are stated next to those on bit sets, with the same answers and the
same errors, and both are run on the same requests.  The two runs agree at every
step: they give the same answers or stop with the same error, and each bit set
stands for the finite set in its place.  Whatever is read off a bit set is then
read off the finite set, and words that differ hold different members, since no
bit outside the capacity is ever set.
-/

namespace ThreeAddress

/-! ## Sets in slots -/

/-- The operations on a kind of sets.  Those that change a set say whether they
did. -/
structure SetOperations (σ : Type) where
  empty : Nat → σ
  insert : σ → Nat → Except Error (Bool × σ)
  erase : σ → Nat → Except Error (Bool × σ)
  clear : σ → σ
  union : σ → σ → Except Error (Bool × σ)
  inter : σ → σ → Except Error (Bool × σ)
  diff : σ → σ → Except Error (Bool × σ)
  meet : σ → σ → Except Error σ

namespace SetOperations

/-- What a client asks of sets that it keeps in numbered slots. -/
inductive Request
  | new (k capacity : Nat)
  | insert (k i : Nat)
  | erase (k i : Nat)
  | clear (k : Nat)
  | union (k l : Nat)
  | inter (k l : Nat)
  | diff (k l : Nat)
  | meet (k l result : Nat)

variable {σ : Type}

/-- Puts a changed set into a slot, and answers whether it has changed. -/
def assign
    (slots : Nat → σ) (k : Nat) (outcome : Except Error (Bool × σ)) :
    Except Error (Option Bool × (Nat → σ)) := do
  let change ← outcome
  return (some change.1, Function.update slots k change.2)

/-- The answer to a request, and the sets in the slots after it. -/
def perform
    (ops : SetOperations σ) (slots : Nat → σ) :
    Request → Except Error (Option Bool × (Nat → σ))
  | .new k capacity =>
      .ok (none, Function.update slots k (ops.empty capacity))
  | .insert k i => assign slots k (ops.insert (slots k) i)
  | .erase k i => assign slots k (ops.erase (slots k) i)
  | .clear k => .ok (none, Function.update slots k (ops.clear (slots k)))
  | .union k l => assign slots k (ops.union (slots k) (slots l))
  | .inter k l => assign slots k (ops.inter (slots k) (slots l))
  | .diff k l => assign slots k (ops.diff (slots k) (slots l))
  | .meet k l result => do
      let met ← ops.meet (slots k) (slots l)
      return (none, Function.update slots result met)

/-- The answers to some requests, and the sets in the slots after them.  At first
all slots hold sets that have no room for members.  The first error ends the
run. -/
def run
    (ops : SetOperations σ) (requests : List Request) :
    Except Error (List (Option Bool) × (Nat → σ)) :=
  requests.foldlM
    (fun state request => do
      let next ← ops.perform state.2 request
      return (state.1 ++ [next.1], next.2))
    ([], fun _ => ops.empty 0)

/-- Two computations stop with the same error, or both succeed with related
results. -/
inductive Agree
    {α β : Type} (R : α → β → Prop) : Except Error α → Except Error β → Prop
  | ok {a : α} {b : β} : R a b → Agree R (.ok a) (.ok b)
  | error (e : Error) : Agree R (.error e) (.error e)

theorem Agree.bind
    {α β γ δ : Type} {R : α → β → Prop} {S : γ → δ → Prop}
    {x : Except Error α} {y : Except Error β} {f : α → Except Error γ}
    {g : β → Except Error δ} (h : Agree R x y)
    (hnext : ∀ a b, R a b → Agree S (f a) (g b)) :
    Agree S (x >>= f) (y >>= g) := by
  cases h with
  | ok hab => exact hnext _ _ hab
  | error e => exact .error e

theorem Agree.imp
    {α β : Type} {R S : α → β → Prop} {x : Except Error α} {y : Except Error β}
    (h : Agree R x y) (himp : ∀ a b, R a b → S a b) :
    Agree S x y := by
  cases h with
  | ok hab => exact .ok (himp _ _ hab)
  | error e => exact .error e

section Simulation

variable {τ : Type}

/-- The same answer, with related sets. -/
def Answers {γ α β : Type} (R : α → β → Prop) (x : γ × α) (y : γ × β) : Prop :=
  x.1 = y.1 ∧ R x.2 y.2

/-- A relation between two kinds of sets that all operations keep. -/
structure Simulates
    (ops : SetOperations σ) (ops' : SetOperations τ) (R : σ → τ → Prop) :
    Prop where
  empty : ∀ capacity, R (ops.empty capacity) (ops'.empty capacity)
  insert : ∀ {s A}, R s A → ∀ i,
    Agree (Answers R) (ops.insert s i) (ops'.insert A i)
  erase : ∀ {s A}, R s A → ∀ i,
    Agree (Answers R) (ops.erase s i) (ops'.erase A i)
  clear : ∀ {s A}, R s A → R (ops.clear s) (ops'.clear A)
  union : ∀ {s A t B}, R s A → R t B →
    Agree (Answers R) (ops.union s t) (ops'.union A B)
  inter : ∀ {s A t B}, R s A → R t B →
    Agree (Answers R) (ops.inter s t) (ops'.inter A B)
  diff : ∀ {s A t B}, R s A → R t B →
    Agree (Answers R) (ops.diff s t) (ops'.diff A B)
  meet : ∀ {s A t B}, R s A → R t B → Agree R (ops.meet s t) (ops'.meet A B)

variable {ops : SetOperations σ} {ops' : SetOperations τ} {R : σ → τ → Prop}
  {slots : Nat → σ} {slots' : Nat → τ}

theorem rel_update
    (hslots : ∀ k, R (slots k) (slots' k)) (j : Nat) {s : σ} {A : τ}
    (h : R s A) (k : Nat) :
    R (Function.update slots j s k) (Function.update slots' j A k) := by
  by_cases hkj : k = j
  · subst hkj
    rwa [Function.update_self, Function.update_self]
  · rw [Function.update_of_ne hkj, Function.update_of_ne hkj]
    exact hslots k

theorem agree_assign
    (hslots : ∀ k, R (slots k) (slots' k)) (j : Nat)
    {x : Except Error (Bool × σ)} {y : Except Error (Bool × τ)}
    (h : Agree (Answers R) x y) :
    Agree (Answers fun slots slots' => ∀ k, R (slots k) (slots' k))
      (assign slots j x) (assign slots' j y) := by
  refine h.bind ?_
  rintro change change' ⟨hanswer, hset⟩
  exact .ok ⟨congrArg some hanswer, rel_update hslots j hset⟩

theorem Simulates.perform
    (h : Simulates ops ops' R) (hslots : ∀ k, R (slots k) (slots' k))
    (request : Request) :
    Agree (Answers fun slots slots' => ∀ k, R (slots k) (slots' k))
      (ops.perform slots request) (ops'.perform slots' request) := by
  cases request with
  | new k capacity => exact .ok ⟨rfl, rel_update hslots k (h.empty capacity)⟩
  | insert k i => exact agree_assign hslots k (h.insert (hslots k) i)
  | erase k i => exact agree_assign hslots k (h.erase (hslots k) i)
  | clear k => exact .ok ⟨rfl, rel_update hslots k (h.clear (hslots k))⟩
  | union k l => exact agree_assign hslots k (h.union (hslots k) (hslots l))
  | inter k l => exact agree_assign hslots k (h.inter (hslots k) (hslots l))
  | diff k l => exact agree_assign hslots k (h.diff (hslots k) (hslots l))
  | meet k l result =>
      refine (h.meet (hslots k) (hslots l)).bind ?_
      intro met met' hmet
      exact .ok ⟨rfl, rel_update hslots result hmet⟩

/-- Runs on two kinds of sets agree if single operations do. -/
theorem Simulates.run (h : Simulates ops ops' R) (requests : List Request) :
    Agree (Answers fun slots slots' => ∀ k, R (slots k) (slots' k))
      (ops.run requests) (ops'.run requests) := by
  have hfold : ∀ (state : List (Option Bool) × (Nat → σ))
      (state' : List (Option Bool) × (Nat → τ)),
      Answers (fun slots slots' => ∀ k, R (slots k) (slots' k)) state state' →
      Agree (Answers fun slots slots' => ∀ k, R (slots k) (slots' k))
        (requests.foldlM
          (fun state request => do
            let next ← ops.perform state.2 request
            return (state.1 ++ [next.1], next.2))
          state)
        (requests.foldlM
          (fun state request => do
            let next ← ops'.perform state.2 request
            return (state.1 ++ [next.1], next.2))
          state') := by
    -- over the requests, for the answers and slots reached so far
    induction requests with
    | nil => exact fun state state' hstate => .ok hstate
    | cons request rest ih =>
        rintro state state' ⟨hanswers, hslots⟩
        rw [List.foldlM_cons, List.foldlM_cons]
        refine Agree.bind ((h.perform hslots request).bind ?_) ih
        rintro next next' ⟨hanswer, hnext⟩
        exact .ok ⟨by rw [hanswers, hanswer], hnext⟩
  exact hfold _ _ ⟨rfl, fun _ => h.empty 0⟩

end Simulation

end SetOperations

/-! ## Finite sets of indices -/

/-- A capacity and a finite set of indices. -/
structure IndexSet where
  capacity : Nat
  members : Finset Nat
deriving DecidableEq

namespace IndexSet

/-- The set with other members, and whether they are others. -/
def become (A : IndexSet) (members : Finset Nat) : Bool × IndexSet :=
  (decide (members ≠ A.members), ⟨A.capacity, members⟩)

/-- A change at an index, which must lie below the capacity. -/
def becomeAt
    (A : IndexSet) (i : Nat) (members : Finset Nat) :
    Except Error (Bool × IndexSet) :=
  if i < A.capacity then
    .ok (A.become members)
  else
    .error (.outOfCapacity i A.capacity)

/-- A change by another set, which must have the same capacity. -/
def becomeBy
    (A B : IndexSet) (members : Finset Nat) :
    Except Error (Bool × IndexSet) :=
  if A.capacity = B.capacity then
    .ok (A.become members)
  else
    .error (.capacityMismatch A.capacity B.capacity)

/-- The operations of set theory. -/
def operations : SetOperations IndexSet where
  empty capacity := ⟨capacity, ∅⟩
  insert A i := A.becomeAt i (insert i A.members)
  erase A i := A.becomeAt i (A.members.erase i)
  clear A := ⟨A.capacity, ∅⟩
  union A B := A.becomeBy B (A.members ∪ B.members)
  inter A B := A.becomeBy B (A.members ∩ B.members)
  diff A B := A.becomeBy B (A.members \ B.members)
  meet A B := do return (← A.becomeBy B (A.members ∪ B.members)).2

end IndexSet

namespace BitSet

open SetOperations (Agree Answers)

/-- The operations that check their arguments. -/
def operations : SetOperations BitSet where
  empty := empty
  insert := insert?
  erase := erase?
  clear := clear
  union := union?
  inter := inter?
  diff := diff?
  meet := meet?

/-- The bit set is well formed and holds the members of a finite set. -/
structure Represents (s : BitSet) (A : IndexSet) : Prop where
  wellFormed : s.WellFormed
  capacity_eq : s.capacity = A.capacity
  contains_iff : ∀ i, s.contains i = true ↔ i ∈ A.members

/-- Two bit sets are equal exactly if they stand for the same set. -/
theorem Represents.eq_iff
    {s t : BitSet} {A B : IndexSet} (hs : s.Represents A)
    (ht : t.Represents B) :
    s = t ↔ A.capacity = B.capacity ∧ A.members = B.members := by
  constructor
  · rintro rfl
    refine ⟨hs.capacity_eq.symm.trans ht.capacity_eq, ?_⟩
    ext i
    rw [← hs.contains_iff, ht.contains_iff]
  · rintro ⟨hcapacity, hmembers⟩
    refine hs.wellFormed.ext ht.wellFormed ?_ ?_
    · rw [hs.capacity_eq, hcapacity, ht.capacity_eq]
    · intro i
      rw [Bool.eq_iff_iff, hs.contains_iff, ht.contains_iff, hmembers]

/-! ## Refusals -/

theorem check_bind_eq_error_iff
    {α : Type} {check : Except Error Unit} {value : α} {e : Error} :
    (check >>= fun _ => pure value) = .error e ↔ check = .error e := by
  cases check with
  | error e => simp [bind, Except.bind]
  | ok _ => simp [bind, Except.bind, pure, Except.pure]

theorem checkIndex_eq_error_iff {s : BitSet} {i : Nat} {e : Error} :
    s.checkIndex i = .error e ↔
      s.capacity ≤ i ∧ e = .outOfCapacity i s.capacity := by
  by_cases hi : i < s.capacity
  · simp [checkIndex, hi]
  · simp [checkIndex, hi, Nat.le_of_not_lt hi, eq_comm]

theorem checkCapacity_eq_error_iff {s t : BitSet} {e : Error} :
    s.checkCapacity t = .error e ↔
      s.capacity ≠ t.capacity ∧ e = .capacityMismatch s.capacity t.capacity := by
  by_cases hcapacity : s.capacity = t.capacity
  · simp [checkCapacity, hcapacity]
  · simp [checkCapacity, hcapacity, eq_comm]

theorem insert?_eq_error_iff {s : BitSet} {i : Nat} {e : Error} :
    s.insert? i = .error e ↔
      s.capacity ≤ i ∧ e = .outOfCapacity i s.capacity := by
  rw [insert?, check_bind_eq_error_iff, checkIndex_eq_error_iff]

theorem erase?_eq_error_iff {s : BitSet} {i : Nat} {e : Error} :
    s.erase? i = .error e ↔
      s.capacity ≤ i ∧ e = .outOfCapacity i s.capacity := by
  rw [erase?, check_bind_eq_error_iff, checkIndex_eq_error_iff]

theorem union?_eq_error_iff {s t : BitSet} {e : Error} :
    s.union? t = .error e ↔
      s.capacity ≠ t.capacity ∧ e = .capacityMismatch s.capacity t.capacity := by
  rw [union?, check_bind_eq_error_iff, checkCapacity_eq_error_iff]

theorem inter?_eq_error_iff {s t : BitSet} {e : Error} :
    s.inter? t = .error e ↔
      s.capacity ≠ t.capacity ∧ e = .capacityMismatch s.capacity t.capacity := by
  rw [inter?, check_bind_eq_error_iff, checkCapacity_eq_error_iff]

theorem diff?_eq_error_iff {s t : BitSet} {e : Error} :
    s.diff? t = .error e ↔
      s.capacity ≠ t.capacity ∧ e = .capacityMismatch s.capacity t.capacity := by
  rw [diff?, check_bind_eq_error_iff, checkCapacity_eq_error_iff]

theorem meet?_eq_error_iff {s t : BitSet} {e : Error} :
    s.meet? t = .error e ↔
      s.capacity ≠ t.capacity ∧ e = .capacityMismatch s.capacity t.capacity := by
  rw [meet?, bind_eq_error_iff, union?_eq_error_iff]
  simp [pure, Except.pure]

/-! ## Operations -/

theorem represents_empty (capacity : Nat) :
    (empty capacity).Represents ⟨capacity, ∅⟩ where
  wellFormed := wellFormed_empty capacity
  capacity_eq := rfl
  contains_iff i := by simp [contains_empty]

theorem contains_clear (s : BitSet) (i : Nat) : s.clear.contains i = false := by
  by_cases hi : i / 64 < s.words.size <;>
    simp [contains, clear, hi, bit_zero]

theorem Represents.clear
    {s : BitSet} {A : IndexSet} (hs : s.Represents A) :
    s.clear.Represents ⟨A.capacity, ∅⟩ where
  wellFormed := wellFormed_clear hs.wellFormed
  capacity_eq := hs.capacity_eq
  contains_iff i := by simp [contains_clear]

theorem Represents.insert
    {s : BitSet} {A : IndexSet} (hs : s.Represents A) {i : Nat}
    (hi : i < s.capacity) :
    (s.insert i).Represents ⟨A.capacity, Insert.insert i A.members⟩ where
  wellFormed := hs.wellFormed.insert i
  capacity_eq := (capacity_insert s i).trans hs.capacity_eq
  contains_iff j := by
    rw [contains_insert hs.wellFormed hi, Bool.or_eq_true, hs.contains_iff,
      decide_eq_true_eq, Finset.mem_insert, or_comm]

theorem Represents.erase
    {s : BitSet} {A : IndexSet} (hs : s.Represents A) {i : Nat}
    (hi : i < s.capacity) :
    (s.erase i).Represents ⟨A.capacity, A.members.erase i⟩ where
  wellFormed := hs.wellFormed.erase i
  capacity_eq := (capacity_erase s i).trans hs.capacity_eq
  contains_iff j := by
    rw [contains_erase hs.wellFormed hi, Bool.and_eq_true, hs.contains_iff,
      Bool.not_eq_true', decide_eq_false_iff_not, Finset.mem_erase, and_comm]

/-- An operation that checks an index agrees with one on finite sets, if it does so
for an index below the capacity. -/
theorem Represents.changeAt?
    {s u : BitSet} {A : IndexSet} (hs : s.Represents A) {i : Nat}
    {members : Finset Nat} {outcome : Except Error (Bool × BitSet)}
    {answer : Bool}
    (hok : outcome = .ok (answer, u) ↔ i < s.capacity)
    (herror : ∀ e, outcome = .error e ↔
      s.capacity ≤ i ∧ e = .outOfCapacity i s.capacity)
    (hanswer : answer = true ↔ members ≠ A.members)
    (hu : i < s.capacity → u.Represents ⟨A.capacity, members⟩) :
    Agree (Answers Represents) outcome (A.becomeAt i members) := by
  rw [IndexSet.becomeAt, ← hs.capacity_eq]
  by_cases hi : i < s.capacity
  · rw [hok.mpr hi, if_pos hi]
    refine .ok ⟨?_, hu hi⟩
    rw [IndexSet.become, Bool.eq_iff_iff, hanswer, decide_eq_true_eq]
  · rw [(herror _).mpr ⟨Nat.le_of_not_lt hi, rfl⟩, if_neg hi]
    exact .error _

theorem Represents.insert?
    {s : BitSet} {A : IndexSet} (hs : s.Represents A) (i : Nat) :
    Agree (Answers Represents) (s.insert? i)
      (IndexSet.operations.insert A i) := by
  have hanswer : (!s.contains i) = true ↔
      Insert.insert i A.members ≠ A.members := by
    rw [Bool.not_eq_true', ← Bool.not_eq_true, hs.contains_iff, ne_eq,
      Finset.insert_eq_self]
  have hok : s.insert? i = .ok (!s.contains i, s.insert i) ↔
      i < s.capacity := by
    rw [insert?_eq_ok_iff]
    simp
  exact hs.changeAt? hok (fun _ => insert?_eq_error_iff) hanswer hs.insert

theorem Represents.erase?
    {s : BitSet} {A : IndexSet} (hs : s.Represents A) (i : Nat) :
    Agree (Answers Represents) (s.erase? i)
      (IndexSet.operations.erase A i) := by
  have hanswer : s.contains i = true ↔ A.members.erase i ≠ A.members := by
    rw [hs.contains_iff, ne_eq, Finset.erase_eq_self, not_not]
  have hok : s.erase? i = .ok (s.contains i, s.erase i) ↔ i < s.capacity := by
    rw [erase?_eq_ok_iff]
    simp
  exact hs.changeAt? hok (fun _ => erase?_eq_error_iff) hanswer hs.erase

/-- The words of a set of the same capacity differ exactly if its members do. -/
theorem Represents.changed
    {s u : BitSet} {A : IndexSet} {members : Finset Nat} (hs : s.Represents A)
    (hu : u.Represents ⟨A.capacity, members⟩) :
    Answers Represents (s.changed u) (A.become members) := by
  refine ⟨?_, hu⟩
  have hwords : s.words = u.words ↔ members = A.members := by
    have hcapacity : s.capacity = u.capacity :=
      hs.capacity_eq.trans hu.capacity_eq.symm
    -- words alone tell sets of one capacity apart
    have hsame : s.words = u.words ↔ s = u := by
      obtain ⟨capacity, words⟩ := s
      obtain ⟨capacity', words'⟩ := u
      obtain rfl : capacity = capacity' := hcapacity
      simp
    rw [hsame, hs.eq_iff hu]
    simp [eq_comm]
  rw [BitSet.changed, IndexSet.become, Bool.eq_iff_iff, bne_iff_ne, ne_eq, hwords,
    decide_eq_true_eq]

section Combination

variable {s t : BitSet} {A B : IndexSet}

theorem Represents.union
    (hs : s.Represents A) (ht : t.Represents B)
    (hcapacity : s.capacity = t.capacity) :
    (s.union t).Represents ⟨A.capacity, A.members ∪ B.members⟩ where
  wellFormed := hs.wellFormed.union ht.wellFormed hcapacity
  capacity_eq := hs.capacity_eq
  contains_iff i := by
    rw [contains_union hs.wellFormed ht.wellFormed hcapacity, Bool.or_eq_true,
      hs.contains_iff, ht.contains_iff, Finset.mem_union]

theorem Represents.inter
    (hs : s.Represents A) (ht : t.Represents B)
    (hcapacity : s.capacity = t.capacity) :
    (s.inter t).Represents ⟨A.capacity, A.members ∩ B.members⟩ where
  wellFormed := hs.wellFormed.inter ht.wellFormed hcapacity
  capacity_eq := hs.capacity_eq
  contains_iff i := by
    rw [contains_inter hs.wellFormed ht.wellFormed hcapacity, Bool.and_eq_true,
      hs.contains_iff, ht.contains_iff, Finset.mem_inter]

theorem Represents.diff
    (hs : s.Represents A) (ht : t.Represents B)
    (hcapacity : s.capacity = t.capacity) :
    (s.diff t).Represents ⟨A.capacity, A.members \ B.members⟩ where
  wellFormed := hs.wellFormed.diff ht.wellFormed hcapacity
  capacity_eq := hs.capacity_eq
  contains_iff i := by
    rw [contains_diff hs.wellFormed ht.wellFormed hcapacity, Bool.and_eq_true,
      Bool.not_eq_true', ← Bool.not_eq_true, hs.contains_iff, ht.contains_iff,
      Finset.mem_sdiff]

/-- An operation that checks capacities agrees with one on finite sets, if what it
gives for equal capacities stands for what that one gives. -/
theorem Represents.combine?
    (hs : s.Represents A) (ht : t.Represents B) {u : BitSet}
    {members : Finset Nat} {outcome : Except Error (Bool × BitSet)}
    (hok : ∀ result, outcome = .ok result ↔
      s.capacity = t.capacity ∧ s.changed u = result)
    (herror : ∀ e, outcome = .error e ↔
      s.capacity ≠ t.capacity ∧ e = .capacityMismatch s.capacity t.capacity)
    (hu : s.capacity = t.capacity →
      u.Represents ⟨A.capacity, members⟩) :
    Agree (Answers Represents) outcome (A.becomeBy B members) := by
  rw [IndexSet.becomeBy, ← hs.capacity_eq, ← ht.capacity_eq]
  by_cases hcapacity : s.capacity = t.capacity
  · rw [(hok _).mpr ⟨hcapacity, rfl⟩, if_pos hcapacity]
    exact .ok (hs.changed (hu hcapacity))
  · rw [(herror _).mpr ⟨hcapacity, rfl⟩, if_neg hcapacity]
    exact .error _

theorem Represents.union?
    (hs : s.Represents A) (ht : t.Represents B) :
    Agree (Answers Represents) (s.union? t) (IndexSet.operations.union A B) :=
  hs.combine? ht (fun _ => union?_eq_ok_iff) (fun _ => union?_eq_error_iff)
    (hs.union ht)

end Combination

/-- Bit sets do what finite sets do. -/
theorem simulates : operations.Simulates IndexSet.operations Represents where
  empty := represents_empty
  insert hs i := hs.insert? i
  erase hs i := hs.erase? i
  clear hs := hs.clear
  union hs ht := hs.union? ht
  inter hs ht := hs.combine? ht (fun _ => inter?_eq_ok_iff)
    (fun _ => inter?_eq_error_iff) (hs.inter ht)
  diff hs ht := hs.combine? ht (fun _ => diff?_eq_ok_iff)
    (fun _ => diff?_eq_error_iff) (hs.diff ht)
  meet hs ht := (hs.union? ht).bind fun _ _ hunion => .ok hunion.2

/-! ## What can be read off -/

/-- What a bit set stores, lists, counts and refuses, in terms of the finite set
that it stands for. -/
structure Refines (s : BitSet) (A : IndexSet) : Prop where
  capacity_eq : s.capacity = A.capacity
  size_words : s.words.size = A.capacity ⌈/⌉ 64
  stored_eq_false : ∀ i, A.capacity ≤ i → s.stored i = false
  lt_of_mem : ∀ i ∈ A.members, i < A.capacity
  contains_iff : ∀ i, s.contains i = true ↔ i ∈ A.members
  ascending_toList : s.toList.Pairwise (· < ·)
  mem_toList_iff : ∀ i, i ∈ s.toList ↔ i ∈ A.members
  count_eq : s.count = A.members.card
  isEmpty_iff : s.isEmpty = true ↔ A.members = ∅
  insert?_refuses_iff : ∀ i,
    (∃ e, s.insert? i = .error e) ↔ ¬ i < A.capacity
  erase?_refuses_iff : ∀ i,
    (∃ e, s.erase? i = .error e) ↔ ¬ i < A.capacity

theorem Represents.refines
    {s : BitSet} {A : IndexSet} (hs : s.Represents A) : s.Refines A where
  capacity_eq := hs.capacity_eq
  size_words := by
    rw [hs.wellFormed.size_words, hs.capacity_eq]
    rfl
  stored_eq_false i hi :=
    hs.wellFormed.stored_eq_false i (hs.capacity_eq ▸ hi)
  lt_of_mem i hi := by
    have hcontains := (hs.contains_iff i).mpr hi
    rw [contains, Bool.and_eq_true, decide_eq_true_eq, hs.capacity_eq] at hcontains
    exact hcontains.1
  contains_iff := hs.contains_iff
  ascending_toList := pairwise_toList s
  mem_toList_iff i := by rw [mem_toList hs.wellFormed, hs.contains_iff]
  count_eq := by
    have hmembers : s.toList.toFinset = A.members := by
      ext i
      rw [List.mem_toFinset, mem_toList hs.wellFormed, hs.contains_iff]
    rw [count_eq_length_toList, ← hmembers,
      List.toFinset_card_of_nodup (nodup_toList s)]
  isEmpty_iff := by
    rw [BitSet.isEmpty_iff hs.wellFormed, Finset.eq_empty_iff_forall_notMem]
    simp only [← Bool.not_eq_true, hs.contains_iff]
  insert?_refuses_iff i := by
    simp [insert?_eq_error_iff, hs.capacity_eq]
  erase?_refuses_iff i := by
    simp [erase?_eq_error_iff, hs.capacity_eq]

/-- The sets in slots, read off finite sets: two of them are equal exactly if
capacities and members are, and are combined exactly if capacities are equal. -/
structure Mirrors (slots : Nat → BitSet) (sets : Nat → IndexSet) : Prop where
  refines : ∀ k, (slots k).Refines (sets k)
  eq_iff : ∀ k l, slots k = slots l ↔
    (sets k).capacity = (sets l).capacity ∧ (sets k).members = (sets l).members
  union?_refuses_iff : ∀ k l,
    (∃ e, (slots k).union? (slots l) = .error e) ↔
      (sets k).capacity ≠ (sets l).capacity
  inter?_refuses_iff : ∀ k l,
    (∃ e, (slots k).inter? (slots l) = .error e) ↔
      (sets k).capacity ≠ (sets l).capacity
  diff?_refuses_iff : ∀ k l,
    (∃ e, (slots k).diff? (slots l) = .error e) ↔
      (sets k).capacity ≠ (sets l).capacity
  meet?_refuses_iff : ∀ k l,
    (∃ e, (slots k).meet? (slots l) = .error e) ↔
      (sets k).capacity ≠ (sets l).capacity

theorem mirrors_of_represents
    {slots : Nat → BitSet} {sets : Nat → IndexSet}
    (h : ∀ k, (slots k).Represents (sets k)) :
    Mirrors slots sets where
  refines k := (h k).refines
  eq_iff k l := (h k).eq_iff (h l)
  union?_refuses_iff k l := by
    simp [union?_eq_error_iff, (h k).capacity_eq, (h l).capacity_eq]
  inter?_refuses_iff k l := by
    simp [inter?_eq_error_iff, (h k).capacity_eq, (h l).capacity_eq]
  diff?_refuses_iff k l := by
    simp [diff?_eq_error_iff, (h k).capacity_eq, (h l).capacity_eq]
  meet?_refuses_iff k l := by
    simp [meet?_eq_error_iff, (h k).capacity_eq, (h l).capacity_eq]

/-- A run on bit sets gives the answers of the run on finite sets, or stops with
its error, and everything about the sets in the slots is read off the finite
sets. -/
theorem run_refines_finite_sets (requests : List SetOperations.Request) :
    Agree (Answers Mirrors) (operations.run requests)
      (IndexSet.operations.run requests) := by
  refine (simulates.run requests).imp ?_
  intro x y hxy
  exact ⟨hxy.1, mirrors_of_represents hxy.2⟩

example :
    (operations.run [.new 0 70, .insert 0 3, .insert 0 65, .insert 0 3,
      .new 1 70, .insert 1 65, .inter 0 1, .inter 0 1]).map Prod.fst =
      .ok [none, some true, some true, some false, none, some true, some true,
        some false] := by
  decide +kernel

end BitSet

end ThreeAddress
