import Mathlib.Data.Fintype.Card
import Mathlib.Data.Fintype.List
import ThreeAddress.Proofs.Dataflow.Constants
import ThreeAddress.Proofs.Dataflow.Liveness
import ThreeAddress.Proofs.ReachingDefinitions
import ThreeAddress.Proofs.ReachingExpressions

/-!
# What the solver may ask of an analysis

The limit of the strict settings rests on more than the laws of an analysis:
facts must fall less often than the height says.  For facts made of bits the
order is that of the bits, whether a bit says that a site is in a set or that it
is missing from it, and a fact falls at most once for every bit.  Constants fall
twice for every variable.  So the four analyses meet all that is asked, for the
facts that their programs can express.
-/

namespace ThreeAddress

namespace Analysis

variable {α : Type} {a : Analysis α} {carrier : α → Prop}
  {code : Instruction → Prop}

/-- Besides the laws, no fact falls as often as the height says. -/
structure StrictLaws
    (a : Analysis α) (carrier : α → Prop) (code : Instruction → Prop) : Prop
    extends Laws a carrier code where
  lt_height_of_falls : ∀ {x n}, a.Falls carrier x n → n < a.height

theorem Ranks.le_of_falls
    {rank : α → Nat} {bound : Nat} (h : a.Ranks carrier rank bound) {x : α}
    {n : Nat} (hfalls : a.Falls carrier x n) :
    n ≤ bound := by
  obtain ⟨chain, hcarrier, hchain, rfl⟩ := hfalls
  have hlength := h.length_le hcarrier hchain
  rw [List.length_cons] at hlength
  exact Nat.le_of_succ_le_succ hlength

/-- The laws are strict if facts can be ranked below the height. -/
theorem Laws.strict
    (h : a.Laws carrier code) {rank : α → Nat} {bound : Nat}
    (hranks : a.Ranks carrier rank bound) (hheight : bound < a.height) :
    a.StrictLaws carrier code where
  toLaws := h
  lt_height_of_falls hfalls :=
    Nat.lt_of_le_of_lt (hranks.le_of_falls hfalls) hheight

/-- The strict laws hold for fewer instructions too. -/
theorem StrictLaws.restrict
    {code' : Instruction → Prop} (h : a.StrictLaws carrier code)
    (hcode : ∀ instr, code' instr → code instr) :
    a.StrictLaws carrier code' where
  toLaws := h.toLaws.restrict hcode
  lt_height_of_falls := h.lt_height_of_falls

/-! ## Facts made of bits -/

section Splits

variable {ι : Type} {boundary : ι → Bool} {sets clears : ι → Instruction → Bool}
  {bit : ι → α → Bool}

/-- The lower of two facts has every bit of the other. -/
theorem Splits.below_iff
    (h : a.Splits carrier code boundary sets clears bit) {x y : α}
    (hx : carrier x) (hy : carrier y) :
    a.Below x y ↔ ∀ i, bit i y = true → bit i x = true := by
  have hbit : ∀ i, bit i (a.meet x y) = (bit i x || bit i y) :=
    fun i => (h.projects i).meet_eq hx hy
  constructor
  · intro hbelow i hi
    rw [← show a.meet x y = x from hbelow, hbit, hi, Bool.or_true]
  · intro hbits
    refine h.ext (h.laws.meet_mem hx hy) hx fun i => ?_
    rw [hbit]
    cases hi : bit i y with
    | false => rw [Bool.or_false]
    | true => rw [hbits i hi, Bool.or_true]

theorem Splits.transfer_mono
    (h : a.Splits carrier code boundary sets clears bit) {instr : Instruction}
    (hinstr : code instr) {x y : α} (hx : carrier x) (hy : carrier y)
    (hxy : a.Below x y) :
    a.Below (a.transfer instr x) (a.transfer instr y) := by
  have hbit : ∀ {z}, carrier z → ∀ i, bit i (a.transfer instr z) =
      (sets i instr || (bit i z && !clears i instr)) :=
    fun hz i => (h.projects i).transfer_eq hinstr hz
  rw [h.below_iff (h.laws.transfer_mem hinstr hx) (h.laws.transfer_mem hinstr hy)]
  intro i hi
  rw [hbit hy, Bool.or_eq_true, Bool.and_eq_true] at hi
  rw [hbit hx, Bool.or_eq_true, Bool.and_eq_true]
  refine hi.imp_right fun hpasses => ⟨?_, hpasses.2⟩
  exact (h.below_iff hx hy).mp hxy i hpasses.1

/-- The number of bits that are not set yet. -/
def unset [Fintype ι] (bit : ι → α → Bool) (x : α) : Nat :=
  (Finset.univ.filter fun i => bit i x = false).card

theorem Splits.ranks
    [Fintype ι] (h : a.Splits carrier code boundary sets clears bit) :
    a.Ranks carrier (unset bit) (Fintype.card ι) where
  le _ := Finset.card_le_univ _
  lt {x y} hx hy hyx hne := by
    have hbits := (h.below_iff hy hx).mp hyx
    obtain ⟨i, hi⟩ : ∃ i, bit i y ≠ bit i x := by
      by_contra hall
      push Not at hall
      exact hne (h.ext hy hx hall)
    apply Finset.card_lt_card
    rw [Finset.ssubset_iff_of_subset]
    · -- the bit in which the two differ is set in the lower fact only
      have hclear : bit i x = false := by
        by_contra hset
        rw [Bool.not_eq_false] at hset
        exact hi ((hbits i hset).trans hset.symm)
      refine ⟨i, by simp [hclear], ?_⟩
      rw [hclear] at hi
      simpa using hi
    · intro j hj
      rw [Finset.mem_filter] at hj ⊢
      refine ⟨hj.1, ?_⟩
      cases hset : bit j x with
      | false => rfl
      | true => rw [hbits j hset] at hj; simp at hj

theorem Splits.strictLaws
    [Fintype ι] (h : a.Splits carrier code boundary sets clears bit)
    (hheight : Fintype.card ι < a.height) :
    a.StrictLaws carrier code := by
  have hlaws : a.Laws carrier code :=
    { h.laws with
      transfer_mono := fun hinstr => h.transfer_mono hinstr
      length_le_of_chain := fun hcarrier hchain =>
        Nat.le_trans (h.ranks.length_le hcarrier hchain) (by omega) }
  exact hlaws.strict h.ranks hheight

end Splits

end Analysis

/-! ## The four analyses -/

theorem ReachingDefinitions.strictLaws (p : Program) :
    (analysis p).StrictLaws (SiteSet.Among (definitions p))
      (· ∈ p.instrs.toList) := by
  refine (splits p).strictLaws (Nat.lt_succ_of_le ?_)
  rw [Fintype.card_of_subtype (definitions p).toFinset fun _ =>
    List.mem_toFinset, ← length_definitions]
  exact List.toFinset_card_le _

theorem ReachingExpressions.card_sites_le (p : Program) :
    Fintype.card { id // id ∈ (sites p).map Instruction.id } ≤
      (allSites p).size := by
  have hmem : ∀ id, id ∈ (allSites p).toList.toFinset ↔
      id ∈ (sites p).map Instruction.id := by
    intro id
    rw [List.mem_toFinset, Std.ExtTreeSet.mem_toList]
    exact SiteSet.mem_ofList
  rw [Fintype.card_of_subtype _ hmem, ← Std.ExtTreeSet.length_toList]
  exact List.toFinset_card_le _

theorem ReachingExpressions.strictLaws (p : Program) (kind : SiteMeet) :
    (analysis p kind).StrictLaws
      (SiteSet.Among ((sites p).map Instruction.id))
      (· ∈ p.instrs.toList) := by
  have hheight : Fintype.card { id // id ∈ (sites p).map Instruction.id } <
      (analysis p kind).height := Nat.lt_succ_of_le (card_sites_le p)
  cases kind with
  | intersection => exact (splits_intersection p).strictLaws hheight
  | union => exact (splits_union p).strictLaws hheight

theorem ConstantPropagation.strictLaws (p : Program) :
    (analysis p).StrictLaws (Sized p.varCount) (Writes p.varCount) :=
  (laws p).strict (ranks p) (Nat.lt_succ_self _)

theorem LiveVariables.strictLaws (p : Program) :
    (analysis p).StrictLaws (Sized p.varCount) (Uses p.varCount) := by
  refine (splits p).strictLaws ?_
  rw [Fintype.card_fin]
  exact Nat.lt_succ_self _

/-- What the solver may ask of the analyses of a program.  Facts are sets of
definitions, sets of expression sites, environments and sets of the variables of
the program.  The checks on environments and on sets of variables refuse none of
these facts. -/
structure Program.Obligations (p : Program) : Prop where
  definitions : (ReachingDefinitions.analysis p).StrictLaws
    (SiteSet.Among (ReachingDefinitions.definitions p)) (· ∈ p.instrs.toList)
  expressions : ∀ kind, (ReachingExpressions.analysis p kind).StrictLaws
    (SiteSet.Among ((ReachingExpressions.sites p).map Instruction.id))
    (· ∈ p.instrs.toList)
  constants : (ConstantPropagation.analysis p).StrictLaws
    (ConstantPropagation.Sized p.varCount) (· ∈ p.instrs.toList)
  live : (LiveVariables.analysis p).StrictLaws
    (LiveVariables.Sized p.varCount) (· ∈ p.instrs.toList)
  transfer_constants : ∀ {instr : Instruction} {env : ConstEnv},
    instr ∈ p.instrs.toList → ConstantPropagation.Sized p.varCount env →
    ConstantPropagation.transfer? instr env =
      .ok ((ConstantPropagation.analysis p).transfer instr env)
  meet_live : ∀ {s t : VarSet}, LiveVariables.Sized p.varCount s →
    LiveVariables.Sized p.varCount t →
    s.meet? t = .ok ((LiveVariables.analysis p).meet s t)
  transfer_live : ∀ {instr : Instruction} {s : VarSet},
    instr ∈ p.instrs.toList → LiveVariables.Sized p.varCount s →
    LiveVariables.transfer? instr s =
      .ok ((LiveVariables.analysis p).transfer instr s)

namespace Program

/-- However a program has come about, its four analyses meet the obligations of
the solver, under both meets of expression sites: no operation leaves the facts,
the meet is that of a semilattice with the initial fact on top, transfer keeps
the order, and descending chains have fewer steps than the height says. -/
theorem analyses_meet_obligations {p : Program} (hp : p.Grown) :
    p.Obligations where
  definitions := ReachingDefinitions.strictLaws p
  expressions kind := ReachingExpressions.strictLaws p kind
  constants := (ConstantPropagation.strictLaws p).restrict fun _ hinstr =>
    ConstantPropagation.writes_of_mem hp.wellFormed hinstr
  live := (LiveVariables.strictLaws p).restrict hp.wellFormed.index_lt
  transfer_constants hinstr henv :=
    henv.transfer?_eq_ok (ConstantPropagation.writes_of_mem hp.wellFormed hinstr)
  meet_live hs ht := hs.meet?_eq_ok ht
  transfer_live hinstr hs :=
    hs.transfer?_eq_ok (hp.wellFormed.index_lt _ hinstr)

/-- Squares a number and steps back from the square, again and again. -/
def overshooting : Program where
  instrs := #[
    ⟨⟨0⟩, false, .assign ⟨0⟩ none .copy (.const 2)⟩,
    ⟨⟨1⟩, true, .assign ⟨1⟩ (some (.var ⟨0⟩)) .mul (.var ⟨0⟩)⟩,
    ⟨⟨2⟩, false, .assign ⟨0⟩ (some (.var ⟨1⟩)) .minus (.const 1)⟩,
    ⟨⟨3⟩, false, .branch (.var ⟨1⟩) ⟨1⟩⟩,
    ⟨⟨4⟩, false, .print (.var ⟨0⟩)⟩]
  names := #["x", "square"]

theorem grown_overshooting : overshooting.Grown := by
  have hbuild : (ofNames ["x", "square"]).withInstructions
      overshooting.instrs.toList = .ok overshooting := by
    decide +kernel
  exact (Grown.ofNames _).withInstructions (by decide) hbuild

/-- A varying number is lower than a constant one, and so are their squares. -/
theorem analyses_meet_obligations_overshooting :
    overshooting.Grown ∧ overshooting.Obligations ∧
      (ConstantPropagation.analysis overshooting).Below
        ⟨#[.varying, .varying]⟩ ⟨#[.constant 2, .constant 4]⟩ := by
  have h := analyses_meet_obligations grown_overshooting
  have hbelow : (ConstantPropagation.analysis overshooting).Below
      ⟨#[.varying, .undetermined]⟩ ⟨#[.constant 2, .undetermined]⟩ := by
    rw [Analysis.Below]
    decide +kernel
  have hlow : ConstantPropagation.Sized overshooting.varCount
      ⟨#[.varying, .undetermined]⟩ := rfl
  have hhigh : ConstantPropagation.Sized overshooting.varCount
      ⟨#[.constant 2, .undetermined]⟩ := rfl
  have hsquare : ⟨⟨1⟩, true, .assign ⟨1⟩ (some (.var ⟨0⟩)) .mul (.var ⟨0⟩)⟩ ∈
      overshooting.instrs.toList := by
    decide
  exact ⟨grown_overshooting, h,
    h.constants.transfer_mono hsquare hlow hhigh hbelow⟩

end Program

end ThreeAddress
