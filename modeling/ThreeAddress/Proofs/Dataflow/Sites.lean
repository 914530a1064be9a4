import Std.Data.ExtTreeSet.Lemmas
import ThreeAddress.Fact.SiteSet
import ThreeAddress.Proofs.Dataflow.Flags

/-!
# Analyses of sites

An analysis whose facts are sets of sites is made of bits, one for each site, as
soon as every instruction either brings a site in, or takes it out, or leaves it
alone.  Where sets are united, the bit says that the site is in the set; where
they are intersected, it says that the site is missing.
-/

namespace ThreeAddress
namespace SiteSet

/-- All sites of a set come from a list. -/
def Among (sites : List InstrId) (s : SiteSet) : Prop :=
  ∀ id ∈ s, id ∈ sites

theorem mem_insert_iff {s : SiteSet} {site id : InstrId} :
    id ∈ s.insert site ↔ id = site ∨ id ∈ s := by
  rw [Std.ExtTreeSet.mem_insert, Std.LawfulEqOrd.compare_eq_iff_eq, eq_comm]

theorem among_empty (sites : List InstrId) : Among sites ∅ :=
  fun _ hid => absurd hid Std.ExtTreeSet.not_mem_empty

theorem Among.ext
    {sites : List InstrId} {s t : SiteSet} (hs : Among sites s)
    (ht : Among sites t) (h : ∀ id ∈ sites, (id ∈ s ↔ id ∈ t)) :
    s = t := by
  apply Std.ExtTreeSet.ext_mem
  intro id
  constructor
  · intro hid
    exact (h id (hs id hid)).mp hid
  · intro hid
    exact (h id (ht id hid)).mpr hid

/-- What the instructions of an analysis do to each site. -/
structure Treats
    (a : Analysis SiteSet) (code : Instruction → Prop) (sites : List InstrId)
    (sets clears : InstrId → Instruction → Bool) : Prop where
  mem_transfer : ∀ {instr x id}, code instr →
    (id ∈ a.transfer instr x ↔
      sets id instr = true ∨ (id ∈ x ∧ clears id instr = false))
  mem_of_sets : ∀ {instr id}, code instr → sets id instr = true → id ∈ sites

variable {a : Analysis SiteSet} {code : Instruction → Prop}
  {sites : List InstrId} {sets clears : InstrId → Instruction → Bool}

theorem Treats.among_transfer
    (h : Treats a code sites sets clears) {instr : Instruction} {x : SiteSet}
    (hinstr : code instr) (hx : Among sites x) :
    Among sites (a.transfer instr x) := by
  intro id hid
  rcases (h.mem_transfer hinstr).mp hid with hsets | ⟨hmem, -⟩
  · exact h.mem_of_sets hinstr hsets
  · exact hx id hmem

theorem Treats.contains_transfer
    (h : Treats a code sites sets clears) {instr : Instruction} {x : SiteSet}
    {id : InstrId} (hinstr : code instr) :
    (a.transfer instr x).contains id =
      (sets id instr || (x.contains id && !clears id instr)) := by
  rw [Bool.eq_iff_iff, Std.ExtTreeSet.contains_iff_mem, h.mem_transfer hinstr]
  simp

/-! ## Union -/

theorem Treats.meetLaws_union
    (h : Treats a code sites sets clears) (hboundary : a.boundary = ∅)
    (hinitial : a.initial = ∅) (hmeet : a.meet = fun s t => s ∪ t) :
    a.MeetLaws (Among sites) code := by
  have hmem : ∀ {s t id}, id ∈ a.meet s t ↔ id ∈ s ∨ id ∈ t := by
    intro s t id
    rw [hmeet]
    exact Std.ExtTreeSet.mem_union_iff
  refine ⟨?_, ?_, ?_, h.among_transfer, ?_, ?_, ?_, ?_⟩
  · rw [hboundary]
    exact among_empty sites
  · rw [hinitial]
    exact among_empty sites
  · intro s t hs ht id hid
    exact (hmem.mp hid).elim (hs id) (ht id)
  · intro s t u _ _ _
    exact Std.ExtTreeSet.ext_mem fun id => by simp only [hmem, or_assoc]
  · intro s t _ _
    exact Std.ExtTreeSet.ext_mem fun id => by rw [hmem, hmem, or_comm]
  · intro s _
    exact Std.ExtTreeSet.ext_mem fun id => by rw [hmem, or_self]
  · intro s _
    rw [hinitial]
    refine Std.ExtTreeSet.ext_mem fun id => ?_
    rw [hmem, or_iff_right Std.ExtTreeSet.not_mem_empty]

theorem Treats.splits_union
    (h : Treats a code sites sets clears) (hboundary : a.boundary = ∅)
    (hinitial : a.initial = ∅) (hmeet : a.meet = fun s t => s ∪ t) :
    a.Splits (Among sites) code (fun _ : { id // id ∈ sites } => false)
      (fun site => sets site) (fun site => clears site)
      fun site s => s.contains site.val where
  laws := h.meetLaws_union hboundary hinitial hmeet
  projects site :=
    { boundary_eq := by
        rw [hboundary]
        exact Std.ExtTreeSet.contains_empty
      initial_eq := by
        rw [hinitial]
        exact Std.ExtTreeSet.contains_empty
      meet_eq := fun _ _ => by
        rw [hmeet]
        exact Std.ExtTreeSet.contains_union
      transfer_eq := fun hinstr _ => h.contains_transfer hinstr }
  ext hs ht hbits := hs.ext ht fun id hid => by
    rw [← Std.ExtTreeSet.contains_iff_mem, ← Std.ExtTreeSet.contains_iff_mem,
      hbits ⟨id, hid⟩]

/-! ## Intersection -/

theorem Treats.meetLaws_inter
    (h : Treats a code sites sets clears) (hboundary : a.boundary = ∅)
    (hinitial : ∀ id, id ∈ a.initial ↔ id ∈ sites)
    (hmeet : a.meet = fun s t => s ∩ t) :
    a.MeetLaws (Among sites) code := by
  have hmem : ∀ {s t id}, id ∈ a.meet s t ↔ id ∈ s ∧ id ∈ t := by
    intro s t id
    rw [hmeet]
    exact Std.ExtTreeSet.mem_inter_iff
  refine ⟨?_, fun id => (hinitial id).mp, ?_, h.among_transfer, ?_, ?_, ?_, ?_⟩
  · rw [hboundary]
    exact among_empty sites
  · intro s t hs _ id hid
    exact hs id (hmem.mp hid).1
  · intro s t u _ _ _
    exact Std.ExtTreeSet.ext_mem fun id => by simp only [hmem, and_assoc]
  · intro s t _ _
    exact Std.ExtTreeSet.ext_mem fun id => by rw [hmem, hmem, and_comm]
  · intro s _
    exact Std.ExtTreeSet.ext_mem fun id => by rw [hmem, and_self]
  · intro s hs
    refine Std.ExtTreeSet.ext_mem fun id => ?_
    rw [hmem, hinitial, and_iff_right_iff_imp]
    exact hs id

/-- A site goes missing where an instruction takes it out and does not bring it
in again. -/
theorem Treats.splits_inter
    (h : Treats a code sites sets clears) (hboundary : a.boundary = ∅)
    (hinitial : ∀ id, id ∈ a.initial ↔ id ∈ sites)
    (hmeet : a.meet = fun s t => s ∩ t) :
    a.Splits (Among sites) code (fun _ : { id // id ∈ sites } => true)
      (fun site instr => clears site instr && !sets site instr)
      (fun site => sets site) fun site s => !s.contains site.val where
  laws := h.meetLaws_inter hboundary hinitial hmeet
  projects site :=
    { boundary_eq := by
        rw [hboundary, Std.ExtTreeSet.contains_empty]
        rfl
      initial_eq := by
        rw [Std.ExtTreeSet.contains_iff_mem.mpr
          ((hinitial site).mpr site.property)]
        rfl
      meet_eq := fun _ _ => by
        rw [hmeet, Std.ExtTreeSet.contains_inter, Bool.not_and]
        rfl
      transfer_eq := fun {instr x} hinstr _ => by
        rw [h.contains_transfer hinstr]
        simp only [Analysis.flag, Analysis.bit]
        cases sets site instr <;> cases clears site instr <;>
          cases x.contains site.val <;> rfl }
  ext hs ht hbits := hs.ext ht fun id hid => by
    rw [← Std.ExtTreeSet.contains_iff_mem, ← Std.ExtTreeSet.contains_iff_mem,
      Bool.not_inj (hbits ⟨id, hid⟩)]

end SiteSet
end ThreeAddress
