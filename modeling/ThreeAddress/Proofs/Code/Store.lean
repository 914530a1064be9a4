import Mathlib.Data.List.Nodup
import Mathlib.Data.List.Perm.Subperm
import ThreeAddress.Code.Program

/-!
# The store of instructions

However a program has come about, its instructions have distinct handles and
use only interned variables.  Hence a handle names at most one instruction, and
looking an instruction up by handle or by position comes to the same.  Since
handles are 32-bit words, there are not more instructions than such words.
-/

namespace ThreeAddress
namespace Program

/-- The programs that arise from the empty one by interning names, by pushing
and removing instructions, and by building anew over the same names.  The
handle of an instruction is a 32-bit word. -/
inductive Grown : Program → Prop
  | empty : Grown empty
  | intern {p : Program} (name : String) : Grown p → Grown (p.intern name).2
  | push {p q : Program} {instr : Instruction} :
      Grown p → instr.id.val < UInt32.size → p.push instr = .ok q → Grown q
  | without {p : Program} (ids : List InstrId) : Grown p → Grown (p.without ids)
  | withInstructions {p q : Program} {instrs : List Instruction} :
      Grown p → (∀ instr ∈ instrs, instr.id.val < UInt32.size) →
      p.withInstructions instrs = .ok q → Grown q

/-- Handles are distinct, and all variables are interned. -/
structure WellFormed (p : Program) : Prop where
  nodup_ids : p.ids.Nodup
  index_lt : ∀ instr ∈ p.instrs.toList, ∀ v ∈ instr.vars, v.index < p.varCount

theorem toList_ne_nil {p : Program} (h : 0 < p.size) :
    p.instrs.toList ≠ [] := by
  rw [← List.length_pos_iff, Array.length_toList]
  exact h

/-! ## Look-up -/

theorem mem_of_at?
    {p : Program} {k : Nat} {instr : Instruction} (h : p.at? k = some instr) :
    instr ∈ p.instrs.toList :=
  Array.mem_toList_iff.mpr (Array.mem_of_getElem? h)

theorem lt_of_at?
    {p : Program} {k : Nat} {instr : Instruction} (h : p.at? k = some instr) :
    k < p.size :=
  (Array.getElem?_eq_some_iff.mp h).1

theorem get?_eq_some
    {p : Program} {id : InstrId} {instr : Instruction}
    (h : p.get? id = some instr) :
    instr ∈ p.instrs.toList ∧ instr.id = id := by
  refine ⟨Array.mem_toList_iff.mpr (Array.mem_of_find?_eq_some h), ?_⟩
  simpa using Array.find?_some h

theorem eq_of_id_eq
    {p : Program} (hp : p.ids.Nodup) {i j : Instruction}
    (hi : i ∈ p.instrs.toList) (hj : j ∈ p.instrs.toList)
    (hid : i.id = j.id) :
    i = j :=
  List.inj_on_of_nodup_map hp hi hj hid

theorem get?_of_mem
    {p : Program} (hp : p.ids.Nodup) {instr : Instruction}
    (h : instr ∈ p.instrs.toList) :
    p.get? instr.id = some instr := by
  have hsome : (p.get? instr.id).isSome = true := by
    rw [get?, Array.find?_isSome]
    exact ⟨instr, Array.mem_toList_iff.mp h, by simp⟩
  obtain ⟨found, hfound⟩ := Option.isSome_iff_exists.mp hsome
  obtain ⟨hmem, hid⟩ := get?_eq_some hfound
  rw [hfound, eq_of_id_eq hp hmem h hid]

theorem contains_iff {p : Program} {id : InstrId} :
    p.contains id = true ↔ id ∈ p.ids := by
  rw [contains, Array.any_eq_true', ids, List.mem_map]
  simp

theorem exists_get?_iff {p : Program} {id : InstrId} :
    (∃ instr, p.get? id = some instr) ↔ id ∈ p.ids := by
  rw [← Option.isSome_iff_exists, get?, Array.find?_isSome, ids, List.mem_map]
  simp

theorem map_id_filterMap_get?
    {p : Program} {ids : List InstrId} (h : ∀ id ∈ ids, id ∈ p.ids) :
    (ids.filterMap p.get?).map Instruction.id = ids := by
  induction ids with
  | nil => rfl
  | cons id rest ih =>
      rw [List.forall_mem_cons] at h
      obtain ⟨instr, hget⟩ := exists_get?_iff.mpr h.1
      rw [List.filterMap_cons_some hget, List.map_cons, ih h.2,
        (get?_eq_some hget).2]

theorem get?_of_mem_filterMap
    {p : Program} {ids : List InstrId} {instr : Instruction}
    (h : instr ∈ ids.filterMap p.get?) :
    p.get? instr.id = some instr := by
  obtain ⟨id, -, hget⟩ := List.mem_filterMap.mp h
  rwa [(get?_eq_some hget).2]

theorem filterMap_get?_map_id
    {p : Program} {code : List Instruction}
    (h : ∀ instr ∈ code, p.get? instr.id = some instr) :
    (code.map Instruction.id).filterMap p.get? = code := by
  have hsome : ∀ instr ∈ code, (p.get? ∘ Instruction.id) instr = some instr := h
  rw [List.filterMap_map, List.filterMap_congr hsome, List.filterMap_some]

theorem filterMap_get?_map_id_of_subset
    {p : Program} {ids : List InstrId} {code : List Instruction}
    (h : code ⊆ ids.filterMap p.get?) :
    (code.map Instruction.id).filterMap p.get? = code := by
  apply filterMap_get?_map_id
  intro instr hinstr
  exact get?_of_mem_filterMap (h hinstr)

theorem position?_eq_some
    {p : Program} {id : InstrId} {k : Nat} (h : p.position? id = some k) :
    ∃ instr, p.at? k = some instr ∧ instr.id = id := by
  rw [position?, Array.findIdx?_eq_some_iff_getElem] at h
  obtain ⟨hk, hid, -⟩ := h
  exact ⟨p.instrs[k], Array.getElem?_eq_getElem hk, by simpa using hid⟩

theorem position?_of_at?
    {p : Program} (hp : p.ids.Nodup) {k : Nat} {instr : Instruction}
    (h : p.at? k = some instr) :
    p.position? instr.id = some k := by
  have hsome : (p.position? instr.id).isSome = true := by
    rw [position?, Array.findIdx?_isSome, Array.any_eq_true']
    exact ⟨instr, Array.mem_of_getElem? h, by simp⟩
  obtain ⟨l, hl⟩ := Option.isSome_iff_exists.mp hsome
  obtain ⟨other, hother, hid⟩ := position?_eq_some hl
  have hget : ∀ {m : Nat} {i : Instruction}, p.at? m = some i →
      p.ids[m]? = some i.id := by
    intro m i hi
    simp only [at?] at hi
    simp [ids, hi]
  have hlk : l = k := by
    have hlt : l < p.ids.length := by
      rw [ids, List.length_map, Array.length_toList]
      exact lt_of_at? hother
    apply (List.getElem?_inj hlt hp).mp
    rw [hget hother, hget h, hid]
  rw [hl, hlk]

/-! ## Growth -/

theorem push_eq_ok_iff
    {p q : Program} {instr : Instruction} :
    p.push instr = .ok q ↔
      instr.id ∉ p.ids ∧ (∀ v ∈ instr.vars, v.index < p.varCount) ∧
        q = { p with instrs := p.instrs.push instr } := by
  rw [push, ← contains_iff]
  split
  · next h => simp [h]
  · next h =>
      split
      · next v hv =>
          have hstranger : ¬ ∀ w ∈ instr.vars, w.index < p.varCount := by
            intro hall
            have hle := List.find?_some hv
            have hlt := hall v (List.mem_of_find?_eq_some hv)
            simp at hle
            omega
          simp [hstranger]
      · next hnone =>
          have hall : ∀ w ∈ instr.vars, w.index < p.varCount := by
            simpa [stranger?] using hnone
          constructor
          · intro heq
            exact ⟨h, hall, (Except.ok.inj heq).symm⟩
          · rintro ⟨-, -, rfl⟩
            rfl

theorem wellFormed_empty : empty.WellFormed where
  nodup_ids := List.nodup_nil
  index_lt instr h := by simp [empty] at h

theorem intern_instrs (p : Program) (name : String) :
    (p.intern name).2.instrs = p.instrs := by
  rw [Program.intern]
  split
  · rfl
  · rfl

theorem WellFormed.intern
    {p : Program} (hp : p.WellFormed) (name : String) :
    (p.intern name).2.WellFormed := by
  rw [Program.intern]
  split
  · exact hp
  · refine ⟨hp.nodup_ids, ?_⟩
    intro instr hinstr v hv
    have hlt := hp.index_lt instr hinstr v hv
    simp only [varCount, Array.size_push] at hlt ⊢
    omega

theorem WellFormed.push
    {p q : Program} {instr : Instruction} (hp : p.WellFormed)
    (h : p.push instr = .ok q) :
    q.WellFormed := by
  obtain ⟨hid, hvars, rfl⟩ := push_eq_ok_iff.mp h
  refine ⟨?_, ?_⟩
  · have hids : ids { p with instrs := p.instrs.push instr } =
        p.ids ++ [instr.id] := by
      simp [ids]
    rw [hids, List.nodup_append]
    refine ⟨hp.nodup_ids, List.nodup_singleton _, ?_⟩
    rintro x hx y hy rfl
    exact hid (List.mem_singleton.mp hy ▸ hx)
  · intro other hother
    rw [Array.toList_push, List.mem_append, List.mem_singleton] at hother
    rcases hother with hold | rfl
    · exact hp.index_lt other hold
    · exact hvars

theorem WellFormed.without
    {p : Program} (hp : p.WellFormed) (ids : List InstrId) :
    (p.without ids).WellFormed := by
  have hsub : (p.without ids).instrs.toList.Sublist p.instrs.toList := by
    rw [Program.without, Array.toList_filter]
    exact List.filter_sublist
  refine ⟨(hsub.map Instruction.id).nodup hp.nodup_ids, ?_⟩
  intro instr hinstr
  exact hp.index_lt instr (hsub.subset hinstr)

theorem WellFormed.pushAll
    {p q : Program} {instrs : List Instruction} (hp : p.WellFormed)
    (h : p.pushAll instrs = .ok q) :
    q.WellFormed := by
  induction instrs generalizing p with
  | nil =>
      obtain rfl := Except.ok.inj h
      exact hp
  | cons instr rest ih =>
      obtain ⟨next, hpush, hrest⟩ := bind_eq_ok_iff.mp h
      exact ih (hp.push hpush) hrest

theorem WellFormed.withInstructions
    {p q : Program} {instrs : List Instruction}
    (h : p.withInstructions instrs = .ok q) :
    q.WellFormed := by
  have hempty : WellFormed { p with instrs := #[] } := by
    refine ⟨List.nodup_nil, ?_⟩
    simp
  exact hempty.pushAll h

theorem Grown.wellFormed {p : Program} (hp : p.Grown) : p.WellFormed := by
  induction hp with
  | empty => exact wellFormed_empty
  | intern name _ ih => exact ih.intern name
  | push _ _ h ih => exact ih.push h
  | without ids _ ih => exact ih.without ids
  | withInstructions _ _ h _ => exact WellFormed.withInstructions h

theorem Grown.ofNames (names : List String) : (ofNames names).Grown := by
  have hfold : ∀ {p : Program}, p.Grown →
      (names.foldl (fun p name => (p.intern name).2) p).Grown := by
    induction names with
    | nil => exact fun hp => hp
    | cons name rest ih => exact fun hp => ih (hp.intern name)
  exact hfold .empty

theorem Grown.id_lt
    {p : Program} (hp : p.Grown) {instr : Instruction}
    (h : instr ∈ p.instrs.toList) :
    instr.id.val < UInt32.size := by
  induction hp with
  | empty => simp [Program.empty] at h
  | @intern p name _ ih =>
      apply ih
      rwa [intern_instrs] at h
  | push _ hword hpush ih =>
      rw [push_instrs hpush, Array.toList_push, List.mem_append,
        List.mem_singleton] at h
      rcases h with hold | rfl
      · exact ih hold
      · exact hword
  | without ids _ ih =>
      rw [Program.without, Array.toList_filter] at h
      exact ih (List.mem_of_mem_filter h)
  | withInstructions _ hwords hbuild _ =>
      rw [withInstructions_instrs hbuild] at h
      exact hwords instr h

/-- There are not more instructions than handles. -/
theorem Grown.size_le {p : Program} (hp : p.Grown) :
    p.size ≤ UInt32.size := by
  have hnodup : (p.ids.map InstrId.val).Nodup := by
    refine hp.wellFormed.nodup_ids.map ?_
    intro a b hab
    exact congrArg InstrId.mk hab
  have hsub : p.ids.map InstrId.val ⊆ List.range UInt32.size := by
    intro n hn
    obtain ⟨id, hid, rfl⟩ := List.mem_map.mp hn
    obtain ⟨instr, hmem, rfl⟩ := List.mem_map.mp hid
    exact List.mem_range.mpr (hp.id_lt hmem)
  have hle := (hnodup.subperm hsub).length_le
  rwa [List.length_map, ids, List.length_map, Array.length_toList,
    List.length_range] at hle

/-- Instructions with new and distinct handles and interned variables can be
pushed one after another. -/
theorem pushAll_eq_ok
    {p : Program} {instrs : List Instruction}
    (hids : (p.ids ++ instrs.map Instruction.id).Nodup)
    (hvars : ∀ instr ∈ instrs, ∀ v ∈ instr.vars, v.index < p.varCount) :
    p.pushAll instrs =
      .ok { p with instrs := p.instrs ++ instrs.toArray } := by
  induction instrs generalizing p with
  | nil => simp [pushAll, pure, Except.pure]
  | cons instr rest ih =>
      rw [List.forall_mem_cons] at hvars
      have hnew : instr.id ∉ p.ids := by
        intro hmem
        exact (List.nodup_append.mp hids).2.2 _ hmem _ List.mem_cons_self rfl
      have hpush : p.push instr =
          .ok { p with instrs := p.instrs.push instr } :=
        push_eq_ok_iff.mpr ⟨hnew, hvars.1, rfl⟩
      have hrest := ih (p := { p with instrs := p.instrs.push instr })
        (by simpa [ids] using hids) hvars.2
      have hstep : p.pushAll (instr :: rest) =
          p.push instr >>= fun next => next.pushAll rest := rfl
      rw [hstep, hpush]
      simpa [bind, Except.bind] using hrest

theorem withInstructions_eq_ok
    {p : Program} {instrs : List Instruction}
    (hids : (instrs.map Instruction.id).Nodup)
    (hvars : ∀ instr ∈ instrs, ∀ v ∈ instr.vars, v.index < p.varCount) :
    p.withInstructions instrs = .ok { p with instrs := instrs.toArray } := by
  have hall := pushAll_eq_ok (p := { p with instrs := #[] })
    (by simpa [ids] using hids) hvars
  simpa [withInstructions] using hall

theorem pushAll_names
    {p q : Program} {instrs : List Instruction}
    (h : p.pushAll instrs = .ok q) :
    q.names = p.names := by
  induction instrs generalizing p with
  | nil =>
      obtain rfl := Except.ok.inj h
      rfl
  | cons instr rest ih =>
      obtain ⟨next, hpush, hrest⟩ := bind_eq_ok_iff.mp h
      rw [ih hrest, push_names hpush]

theorem withInstructions_names
    {p q : Program} {instrs : List Instruction}
    (h : p.withInstructions instrs = .ok q) :
    q.names = p.names := by
  rw [withInstructions] at h
  rw [pushAll_names h]

end Program
end ThreeAddress
