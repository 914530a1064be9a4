import Std.Data.ExtTreeSet
import ThreeAddress.Code.Handle
import ThreeAddress.Text.Braced

/-!
# Sets of sites

A site is an instruction, taken as the place where something is defined or
computed.  Sets of sites are ordered by handle and equal when they have the
same members.
-/

namespace ThreeAddress

/-- A finite set of instruction handles. -/
abbrev SiteSet := Std.ExtTreeSet InstrId

namespace SiteSet

/-- The sites of a list. -/
def ofList (sites : List InstrId) : SiteSet :=
  Std.ExtTreeSet.ofList sites

/-- The set without the sites of a list. -/
def eraseAll (s : SiteSet) (sites : List InstrId) : SiteSet :=
  sites.foldl (fun acc site => acc.erase site) s

theorem mem_ofList {sites : List InstrId} {id : InstrId} :
    id ∈ ofList sites ↔ id ∈ sites := by
  simp [ofList]

theorem mem_eraseAll {s : SiteSet} {sites : List InstrId} {id : InstrId} :
    id ∈ eraseAll s sites ↔ id ∈ s ∧ id ∉ sites := by
  induction sites generalizing s with
  | nil => simp [eraseAll]
  | cons site rest ih =>
      have hstep :
          eraseAll s (site :: rest) = eraseAll (s.erase site) rest := rfl
      have hsite : compare site id = .eq ↔ id = site := by
        rw [Std.LawfulEqOrd.compare_eq_iff_eq]
        exact eq_comm
      rw [hstep, ih, Std.ExtTreeSet.mem_erase, ne_eq, hsite, List.mem_cons,
        not_or]
      constructor
      · rintro ⟨⟨hne, hs⟩, hrest⟩
        exact ⟨hs, hne, hrest⟩
      · rintro ⟨hs, hne, hrest⟩
        exact ⟨⟨hne, hs⟩, hrest⟩

/-- The sites between braces, in ascending order. -/
def text (s : SiteSet) : String :=
  braced (s.toList.map InstrId.text)

end SiteSet

end ThreeAddress
