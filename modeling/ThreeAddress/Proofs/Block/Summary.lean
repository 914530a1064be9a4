import ThreeAddress.Block.Summary
import ThreeAddress.Proofs.Block.Chains
import ThreeAddress.Proofs.Dataflow.Consistency
import ThreeAddress.Proofs.Dataflow.Liveness
import ThreeAddress.Proofs.Fact.Members

/-!
# Live variables of a block

The summary of a block, built from its first instruction on, holds the variables
that the block defines and those that it exposes.  Liveness goes through the block
from its last instruction on.  Both come to the same: what is live before the block
is what is live after it and not defined in it, together with what it exposes.
-/

namespace ThreeAddress

open LiveVariables

namespace Block

theorem exposed_append {v : VarId} {pre post : List Instruction} :
    Exposed v (pre ++ post) ↔
      Exposed v pre ∨ (∀ k ∈ pre, k.defined? ≠ some v) ∧ Exposed v post := by
  induction pre with
  | nil => simp [Exposed]
  | cons instr rest ih =>
      rw [List.cons_append, Exposed, Exposed, ih, List.forall_mem_cons, or_assoc,
        and_or_left, and_assoc]

theorem exposed_singleton {v : VarId} {instr : Instruction} :
    Exposed v [instr] ↔ v ∈ instr.used := by
  simp [Exposed]

end Block

theorem LiveVariables.uses_of_mem_filterMap
    {p : Program} (hp : p.WellFormed) {ids : List InstrId} :
    ∀ k ∈ ids.filterMap p.get?, Uses p.varCount k := by
  intro k hk
  exact hp.index_lt k (Program.get?_eq_some (Program.get?_of_mem_filterMap hk)).1

namespace Summary

open Block

/-- A summary over `n` variables says what some code defines, and what it
exposes. -/
structure Describes
    (n : Nat) (code : List Instruction) (s : Summary) : Prop where
  sized_defs : Sized n s.defs
  sized_exposed : Sized n s.exposed
  defs_iff : ∀ i, s.defs.contains i = true ↔
    ∃ k ∈ code, k.defined?.map VarId.index = some i
  exposed_iff : ∀ i, s.exposed.contains i = true ↔
    ∃ v : VarId, v.index = i ∧ Exposed v code

variable {n : Nat} {code : List Instruction} {s : Summary}

theorem describes_empty (n : Nat) : Describes n [] (empty n) where
  sized_defs := sized_empty n
  sized_exposed := sized_empty n
  defs_iff i := by simp [empty, BitSet.contains_empty]
  exposed_iff i := by simp [empty, BitSet.contains_empty, Exposed]

/-- The variables that an instruction exposes where the code before it has this
summary. -/
def unmet (s : Summary) (instr : Instruction) : List VarId :=
  instr.used.filter fun v => !s.defs.contains v.index

theorem exposed_add (s : Summary) (instr : Instruction) :
    (s.add instr).exposed =
      ((s.unmet instr).map VarId.index).foldl BitSet.insert s.exposed := by
  rw [List.foldl_map]
  rfl

theorem Describes.not_contains_defs_iff
    (h : Describes n code s) {v : VarId} :
    s.defs.contains v.index = false ↔ ∀ k ∈ code, k.defined? ≠ some v := by
  rw [← Bool.not_eq_true, h.defs_iff]
  simp only [map_index_eq_some_iff, not_exists, not_and, ne_eq]

theorem Describes.mem_unmet_iff
    (h : Describes n code s) {instr : Instruction} {v : VarId} :
    v ∈ s.unmet instr ↔
      (∀ k ∈ code, k.defined? ≠ some v) ∧ v ∈ instr.used := by
  rw [unmet, List.mem_filter, Bool.not_eq_true', h.not_contains_defs_iff,
    and_comm]

theorem Describes.contains_defs_add
    (h : Describes n code s) {instr : Instruction} (huses : Uses n instr)
    (i : Nat) :
    (s.add instr).defs.contains i = true ↔
      s.defs.contains i = true ∨ instr.defined?.map VarId.index = some i := by
  rw [add]
  cases hdefined : instr.defined? with
  | none => simp
  | some v =>
      have hlt : v.index < s.defs.capacity := by
        rw [h.sized_defs.1]
        exact huses v (by simp [Instruction.vars, hdefined])
      rw [Option.elim_some, BitSet.contains_insert h.sized_defs.2 hlt,
        Bool.or_eq_true, decide_eq_true_eq, Option.map_some, Option.some.injEq,
        eq_comm (a := i)]

theorem Describes.contains_exposed_add
    (h : Describes n code s) {instr : Instruction} (huses : Uses n instr)
    (i : Nat) :
    (s.add instr).exposed.contains i = true ↔
      s.exposed.contains i = true ∨ ∃ v ∈ s.unmet instr, v.index = i := by
  rw [exposed_add, BitSet.contains_foldl_insert h.sized_exposed.2, List.mem_map]
  intro j hj
  obtain ⟨v, hv, rfl⟩ := List.mem_map.mp hj
  rw [h.sized_exposed.1]
  exact huses v (List.mem_append_right _ (List.mem_of_mem_filter hv))

theorem Describes.add
    (h : Describes n code s) {instr : Instruction} (huses : Uses n instr) :
    Describes n (code ++ [instr]) (s.add instr) := by
  refine ⟨?_, ?_, ?_, ?_⟩
  · rw [Summary.add]
    cases instr.defined? with
    | none => exact h.sized_defs
    | some v =>
        exact ⟨(BitSet.capacity_insert _ _).trans h.sized_defs.1,
          h.sized_defs.2.insert _⟩
  · rw [exposed_add]
    exact ⟨(BitSet.capacity_foldl_insert _ _).trans h.sized_exposed.1,
      h.sized_exposed.2.foldl_insert _⟩
  · intro i
    rw [h.contains_defs_add huses, h.defs_iff]
    simp [or_and_right, exists_or]
  · intro i
    rw [h.contains_exposed_add huses, h.exposed_iff]
    simp only [exposed_append, exposed_singleton, h.mem_unmet_iff, and_or_left,
      exists_or, and_comm (b := VarId.index _ = i)]

theorem describes_foldl_add
    (huses : ∀ k ∈ code, Uses n k) :
    Describes n code (code.foldl add (empty n)) := by
  induction code using List.reverseRecOn with
  | nil => exact describes_empty n
  | append_singleton front last ih =>
      rw [List.forall_mem_append, List.forall_mem_singleton] at huses
      rw [List.foldl_concat]
      exact (ih huses.1).add huses.2

theorem exists_ofBlock
    {p : Program} {b : Block} (hp : p.WellFormed)
    (hmem : ∀ id ∈ b.instrs, id ∈ p.ids) :
    ∃ s, ofBlock p b = .ok s ∧
      Describes p.varCount (b.instrs.filterMap p.get?) s := by
  refine ⟨_, ?_, describes_foldl_add (uses_of_mem_filterMap hp)⟩
  rw [ofBlock, resolve_eq_ok hmem]
  rfl

/-- Nothing is entered as exposed exactly if the code exposes nothing. -/
theorem Describes.isEmpty_exposed_iff (h : Describes n code s) :
    s.exposed.isEmpty = true ↔ ∀ v, ¬ Exposed v code := by
  rw [BitSet.isEmpty_iff h.sized_exposed.2]
  simp only [← Bool.not_eq_true, h.exposed_iff, not_exists, not_and]
  constructor
  · intro hnone v
    exact hnone v.index v rfl
  · intro hnone i v _
    exact hnone v

end Summary

namespace LiveVariables

open Block

variable {p : Program} {code : List Instruction} {out : VarSet}

theorem Sized.through (hout : Sized p.varCount out) (code : List Instruction) :
    Sized p.varCount ((analysis p).through code out) :=
  (meetLaws p fun _ => True).through_mem (fun _ _ => trivial) hout

theorem Sized.diff
    {n : Nat} {s t : VarSet} (hs : Sized n s) (ht : Sized n t) :
    Sized n (s.diff t) :=
  ⟨hs.1, hs.2.diff ht.2 (hs.1.trans ht.1.symm)⟩

theorem Sized.contains_diff
    {n : Nat} {s t : VarSet} (hs : Sized n s) (ht : Sized n t) (i : Nat) :
    (s.diff t).contains i = (s.contains i && !t.contains i) :=
  BitSet.contains_diff hs.2 ht.2 (hs.1.trans ht.1.symm) i

/-- What is live before some code: what is live after it and not defined in it, and
what it exposes. -/
theorem contains_through
    (hout : Sized p.varCount out) (huses : ∀ k ∈ code, Uses p.varCount k)
    (i : Nat) :
    ((analysis p).through code.reverse out).contains i = true ↔
      (out.contains i = true ∧
        ∀ k ∈ code, k.defined?.map VarId.index ≠ some i) ∨
      ∃ v : VarId, v.index = i ∧ Exposed v code := by
  induction code with
  | nil => simp [Analysis.through, Exposed]
  | cons instr rest ih =>
      rw [List.forall_mem_cons] at huses
      rw [List.reverse_cons, Analysis.through_concat]
      refine (contains_transfer (hout.through rest.reverse) huses.1 i).trans ?_
      have hexposed : (∃ v : VarId, v.index = i ∧ Exposed v (instr :: rest)) ↔
          i ∈ instr.used.map VarId.index ∨
            instr.defined?.map VarId.index ≠ some i ∧
              ∃ v : VarId, v.index = i ∧ Exposed v rest := by
        rw [List.mem_map]
        constructor
        · rintro ⟨v, rfl, hread | ⟨hne, hlater⟩⟩
          · exact Or.inl ⟨v, hread, rfl⟩
          · exact Or.inr ⟨mt map_index_eq_some_iff.mp hne, v, rfl, hlater⟩
        · rintro (⟨v, hread, rfl⟩ | ⟨hne, v, rfl, hlater⟩)
          · exact ⟨v, rfl, Or.inl hread⟩
          · exact ⟨v, rfl, Or.inr ⟨mt map_index_eq_some_iff.mpr hne, hlater⟩⟩
      rw [ih huses.2, hexposed, List.forall_mem_cons]
      rw [or_and_right, and_assoc, and_comm (b := _ ≠ _), or_assoc,
        or_comm (b := i ∈ _), and_comm (b := _ ≠ _)]

theorem foldlM_transfer?
    (hout : Sized p.varCount out) (huses : ∀ k ∈ code, Uses p.varCount k) :
    code.foldlM (fun live instr => transfer? instr live) out =
      .ok ((analysis p).through code out) := by
  induction code generalizing out with
  | nil => rfl
  | cons instr rest ih =>
      rw [List.forall_mem_cons] at huses
      rw [List.foldlM_cons, hout.transfer?_eq_ok huses.1]
      exact ih (hout.transfer instr) huses.2

/-- Going through the instructions of a block from the last to the first gives what
the summary of the block gives in one step: the variables that are live after it
without those that it defines, together with those that it exposes. -/
theorem through_eq_diff_union
    {b : Block} (hp : p.Grown) (hmem : ∀ id ∈ b.instrs, id ∈ p.ids)
    (hout : out.Grown) (hcap : out.capacity = p.varCount) :
    ∃ code s rest live, b.resolve p = .ok code ∧ Summary.ofBlock p b = .ok s ∧
      out.diff? s.defs = .ok rest ∧ rest.2.union? s.exposed = .ok live ∧
      (analysis p).through code.reverse out = live.2 ∧
      code.reverse.foldlM (fun live instr => transfer? instr live) out =
        .ok live.2 := by
  have hsized : Sized p.varCount out := ⟨hcap, hout.wellFormed⟩
  have hcode : ∀ k ∈ b.instrs.filterMap p.get?, Uses p.varCount k :=
    uses_of_mem_filterMap hp.wellFormed
  obtain ⟨s, hs, hdescribes⟩ := Summary.exists_ofBlock hp.wellFormed hmem
  have hrest : Sized p.varCount (out.diff s.defs) :=
    hsized.diff hdescribes.sized_defs
  have hequal : (analysis p).through (b.instrs.filterMap p.get?).reverse out =
      (out.diff s.defs).union s.exposed := by
    apply (hsized.through _).ext (hrest.union hdescribes.sized_exposed)
    intro i
    rw [Bool.eq_iff_iff, contains_through hsized hcode,
      hrest.contains_union hdescribes.sized_exposed, Bool.or_eq_true,
      hsized.contains_diff hdescribes.sized_defs, Bool.and_eq_true,
      Bool.not_eq_true', ← Bool.not_eq_true, hdescribes.defs_iff,
      hdescribes.exposed_iff]
    simp
  refine ⟨_, s, _, _, resolve_eq_ok hmem, hs,
    BitSet.diff?_eq_ok_iff.mpr ⟨hcap.trans hdescribes.sized_defs.1.symm, rfl⟩,
    BitSet.union?_eq_ok_iff.mpr
      ⟨hrest.1.trans hdescribes.sized_exposed.1.symm, rfl⟩, hequal, ?_⟩
  rw [foldlM_transfer? hsized, hequal]
  · rfl
  · intro k hk
    exact hcode k (List.mem_reverse.mp hk)

/-- Adds `y` to `x`, and computes a new `y` from the sum. -/
def summing : Program where
  instrs := #[
    ⟨⟨0⟩, false, .assign ⟨0⟩ (some (.var ⟨0⟩)) .plus (.var ⟨1⟩)⟩,
    ⟨⟨1⟩, false, .assign ⟨2⟩ none .copy (.var ⟨0⟩)⟩,
    ⟨⟨2⟩, false, .assign ⟨1⟩ (some (.var ⟨2⟩)) .mul (.var ⟨2⟩)⟩,
    ⟨⟨3⟩, false, .print (.var ⟨3⟩)⟩]
  names := #["x", "y", "z", "w"]

theorem grown_summing : summing.Grown := by
  have hbuild : (Program.ofNames ["x", "y", "z", "w"]).withInstructions
      summing.instrs.toList = .ok summing := by
    decide +kernel
  exact (Program.Grown.ofNames _).withInstructions (by decide) hbuild

/-- The set of `z` and `w`. -/
theorem grown_lastTwo : BitSet.Grown ⟨4, #[12]⟩ := by
  have hfirst : (BitSet.empty 4).insert? 2 = .ok (true, ⟨4, #[4]⟩) := by
    decide +kernel
  have hsecond : BitSet.insert? ⟨4, #[4]⟩ 3 = .ok (true, ⟨4, #[12]⟩) := by
    decide +kernel
  exact .insert (.insert (.empty 4) hfirst) hsecond

/-- The block reads `x` and `y` before it defines them, and defines `z` before it
reads it.  So `x`, `y` and `w` are live before it if `z` and `w` are live after
it. -/
theorem through_eq_diff_union_summing :
    summing.Grown ∧ BitSet.Grown ⟨4, #[12]⟩ ∧
      ∃ code, (Block.ofInstrs 0 [⟨0⟩, ⟨1⟩, ⟨2⟩]).resolve summing = .ok code ∧
        Summary.ofBlock summing (.ofInstrs 0 [⟨0⟩, ⟨1⟩, ⟨2⟩]) =
          .ok ⟨⟨4, #[7]⟩, ⟨4, #[3]⟩⟩ ∧
        (analysis summing).through code.reverse ⟨4, #[12]⟩ = ⟨4, #[11]⟩ := by
  have hsummary : Summary.ofBlock summing (.ofInstrs 0 [⟨0⟩, ⟨1⟩, ⟨2⟩]) =
      .ok ⟨⟨4, #[7]⟩, ⟨4, #[3]⟩⟩ := by
    decide +kernel
  obtain ⟨code, s, rest, live, hcode, hs, hrest, hlive, hthrough, -⟩ :=
    through_eq_diff_union (b := .ofInstrs 0 [⟨0⟩, ⟨1⟩, ⟨2⟩]) grown_summing
      (by decide) grown_lastTwo rfl
  obtain rfl := Except.ok.inj (hsummary.symm.trans hs)
  obtain ⟨-, rfl⟩ := BitSet.diff?_eq_ok_iff.mp hrest
  obtain ⟨-, rfl⟩ := BitSet.union?_eq_ok_iff.mp hlive
  refine ⟨grown_summing, grown_lastTwo, code, hcode, hsummary, ?_⟩
  rw [hthrough]
  decide +kernel

end LiveVariables
end ThreeAddress
