import Mathlib.Data.List.Nodup
import ThreeAddress.Code.ProgramStore
import ThreeAddress.Proofs.Code.Store

/-!
# The tables of a store

The tables of a sound store say what a search through its instructions and names
finds.  Every operation keeps stores sound, refuses what the operation on the
program without tables refuses, and leaves the program that this one leaves.
-/

namespace ThreeAddress
namespace Program

/-- Handles and names are distinct, and all variables are interned. -/
structure Sound (p : Program) : Prop extends WellFormed p where
  nodup_names : p.names.toList.Nodup

theorem sound_empty : empty.Sound :=
  ⟨wellFormed_empty, List.nodup_nil⟩

theorem Sound.intern
    {p : Program} (hp : p.Sound) (name : String) :
    (p.intern name).2.Sound := by
  refine ⟨hp.toWellFormed.intern name, ?_⟩
  rw [Program.intern]
  split
  · exact hp.nodup_names
  · next hnone =>
      have hnew : name ∉ p.names.toList := by
        rw [lookup?, Option.map_eq_none_iff, Array.idxOf?_eq_none_iff] at hnone
        simpa using hnone
      rw [Array.toList_push, List.nodup_append]
      refine ⟨hp.nodup_names, List.nodup_singleton name, ?_⟩
      intro x hx y hy hxy
      rw [List.mem_singleton.mp hy] at hxy
      exact hnew (hxy ▸ hx)

theorem Sound.push
    {p q : Program} {instr : Instruction} (hp : p.Sound)
    (h : p.push instr = .ok q) :
    q.Sound := by
  refine ⟨hp.toWellFormed.push h, ?_⟩
  rw [push_names h]
  exact hp.nodup_names

theorem Sound.without
    {p : Program} (hp : p.Sound) (ids : List InstrId) :
    (p.without ids).Sound :=
  ⟨hp.toWellFormed.without ids, hp.nodup_names⟩

theorem Sound.clear
    {p : Program} (hp : p.Sound) :
    Sound { p with instrs := #[] } where
  nodup_ids := List.nodup_nil
  index_lt instr h := by simp at h
  nodup_names := hp.nodup_names

/-! ## Search -/

theorem position?_eq_some_iff
    {p : Program} (hp : p.ids.Nodup) {id : InstrId} {k : Nat} :
    p.position? id = some k ↔
      ∃ instr, p.at? k = some instr ∧ instr.id = id := by
  constructor
  · exact position?_eq_some
  · rintro ⟨instr, hat, rfl⟩
    exact position?_of_at? hp hat

theorem position?_isSome (p : Program) (id : InstrId) :
    (p.position? id).isSome = p.contains id := by
  rw [position?, Array.findIdx?_isSome, contains]

theorem position?_push (p : Program) (instr : Instruction) (id : InstrId) :
    position? { p with instrs := p.instrs.push instr } id =
      (p.position? id).or (if instr.id == id then some p.size else none) :=
  Array.findIdx?_push

theorem get?_eq_some_iff
    {p : Program} (hp : p.ids.Nodup) {id : InstrId} {instr : Instruction} :
    p.get? id = some instr ↔
      ∃ k, p.position? id = some k ∧ p.at? k = some instr := by
  constructor
  · intro hget
    obtain ⟨hmem, rfl⟩ := get?_eq_some hget
    obtain ⟨k, hk⟩ := Array.mem_iff_getElem?.mp (Array.mem_toList_iff.mp hmem)
    exact ⟨k, position?_of_at? hp hk, hk⟩
  · rintro ⟨k, hposition, hat⟩
    obtain ⟨other, hother, rfl⟩ := position?_eq_some hposition
    obtain rfl : other = instr := Option.some.inj (hother.symm.trans hat)
    exact get?_of_mem hp (mem_of_at? hat)

theorem lookup?_push (p : Program) (name other : String) :
    lookup? { p with names := p.names.push name } other =
      (p.lookup? other).or
        (if name == other then some (VarId.ofIndex p.varCount) else none) := by
  obtain ⟨instrs, ⟨names⟩⟩ := p
  have hpush : (names ++ [name]).idxOf? other =
      (names.idxOf? other).or
        (if name == other then some names.length else none) := by
    simp [List.idxOf?, List.findIdx?_append]
  rw [lookup?, lookup?, List.push_toArray, List.idxOf?_toArray,
    List.idxOf?_toArray, hpush, Option.map_or]
  split
  · rfl
  · rfl

theorem idxOf?_eq_some_iff_of_nodup
    {names : List String} (hnames : names.Nodup) (name : String) (i : Nat) :
    names.idxOf? name = some i ↔ names[i]? = some name := by
  rw [List.idxOf?_eq_some_iff, List.getElem?_eq_some_iff]
  constructor
  · rintro ⟨hi, hname, -⟩
    exact ⟨hi, hname⟩
  · rintro ⟨hi, hname⟩
    refine ⟨hi, hname, ?_⟩
    intro j hj hother
    have hsame := hnames.getElem_inj_iff.mp (hother.trans hname.symm)
    omega

theorem lookup?_eq_some_iff
    {p : Program} (hnames : p.names.toList.Nodup)
    (hcount : p.varCount < UInt32.size) {name : String} {v : VarId} :
    p.lookup? name = some v ↔ p.name? v = some name := by
  have hindex : ∀ i, p.names.idxOf? name = some i ↔ p.names[i]? = some name := by
    intro i
    have hlist := idxOf?_eq_some_iff_of_nodup hnames name i
    rwa [← List.idxOf?_toArray, Array.toArray_toList,
      Array.getElem?_toList] at hlist
  rw [lookup?, Option.map_eq_some_iff, name?]
  constructor
  · rintro ⟨i, hi, rfl⟩
    -- the number of the name survives the cut to 32 bits
    have hget := (hindex i).mp hi
    have hlt : i < p.varCount := (Array.getElem?_eq_some_iff.mp hget).1
    rwa [VarId.index_ofIndex_of_lt (Nat.lt_trans hlt hcount)]
  · intro hget
    exact ⟨v.index, (hindex v.index).mpr hget, VarId.ofIndex_index v⟩

end Program

namespace ProgramStore

/-- The program is sound, and the tables say what a search through it finds. -/
structure Sound (s : ProgramStore) : Prop where
  sound_program : s.program.Sound
  position?_eq : ∀ id, s.position? id = s.program.position? id
  lookup?_eq : ∀ name, s.lookup? name = s.program.lookup? name

theorem sound_empty : empty.Sound where
  sound_program := Program.sound_empty
  position?_eq id := by
    rw [position?, empty, Std.HashMap.getElem?_empty]
    simp [program, Program.position?]
  lookup?_eq name := by
    rw [lookup?, empty, Std.HashMap.getElem?_empty]
    simp [program, Program.lookup?]

/-- An entry under a new key is found behind the others, as in a search. -/
theorem getElem?_insert_of_eq_none
    {α β : Type} [BEq α] [LawfulBEq α] [Hashable α] {table : Std.HashMap α β}
    {key : α} (hnew : table[key]? = none) (value : β) (other : α) :
    (table.insert key value)[other]? =
      table[other]?.or (if key == other then some value else none) := by
  rw [Std.HashMap.getElem?_insert]
  split
  · next heq =>
      rw [← eq_of_beq heq, hnew]
      rfl
  · rw [Option.or_none]

variable {s : ProgramStore}

/-- No position of the table lies behind the last instruction. -/
theorem Sound.get?_eq (hs : s.Sound) (id : InstrId) :
    s.get? id = s.program.get? id := by
  have hids := hs.sound_program.nodup_ids
  rw [get?, ← position?, hs.position?_eq]
  cases hposition : s.program.position? id with
  | none =>
      symm
      rw [Option.map_none, Option.eq_none_iff_forall_not_mem]
      intro instr hget
      obtain ⟨k, hk, -⟩ := (Program.get?_eq_some_iff hids).mp hget
      rw [hposition] at hk
      simp at hk
  | some k =>
      obtain ⟨instr, hat, -⟩ := Program.position?_eq_some hposition
      symm
      rw [Option.map_some, Program.get?_eq_some_iff hids]
      refine ⟨k, hposition, ?_⟩
      have hk : s.instrs[k]? = some instr := hat
      rw [hat, getElem!_def, hk]

/-! ## Names -/

theorem Sound.intern (hs : s.Sound) (name : String) :
    (s.intern name).2.Sound ∧
      Prod.map id program (s.intern name) = s.program.intern name := by
  have hlookup : s.byName[name]? = s.program.lookup? name := hs.lookup?_eq name
  rw [ProgramStore.intern]
  split
  · next v hv =>
      refine ⟨hs, ?_⟩
      rw [Program.intern, ← hlookup, hv]
      rfl
  · next hnone =>
      have hintern : s.program.intern name =
          (VarId.ofIndex s.varCount, ⟨s.instrs, s.names.push name⟩) := by
        rw [Program.intern, ← hlookup, hnone]
        rfl
      refine ⟨⟨?_, hs.position?_eq, ?_⟩, hintern.symm⟩
      · have hsound := hs.sound_program.intern name
        rwa [hintern] at hsound
      · intro other
        rw [lookup?, getElem?_insert_of_eq_none hnone, ← lookup?, hs.lookup?_eq]
        exact (s.program.lookup?_push name other).symm

/-! ## Instructions -/

theorem Sound.contains_index (hs : s.Sound) (id : InstrId) :
    s.index.contains id = s.program.contains id := by
  rw [Std.HashMap.contains_eq_isSome_getElem?, ← position?, hs.position?_eq,
    Program.position?_isSome]

theorem Sound.append
    (hs : s.Sound) {instr : Instruction}
    (hpush : s.program.push instr = .ok (s.append instr).program) :
    (s.append instr).Sound where
  sound_program := hs.sound_program.push hpush
  lookup?_eq := hs.lookup?_eq
  position?_eq id := by
    have hnew : s.index[instr.id]? = none := by
      rw [← position?, hs.position?_eq, ← Option.not_isSome_iff_eq_none,
        Program.position?_isSome, Program.contains_iff]
      exact (Program.push_eq_ok_iff.mp hpush).1
    rw [position?, ProgramStore.append, getElem?_insert_of_eq_none hnew,
      ← position?, hs.position?_eq]
    exact (s.program.position?_push instr id).symm

/-- Either a push is refused and leaves the store as it is, or it leaves the
instruction at the end. -/
theorem Sound.push_cases (hs : s.Sound) (instr : Instruction) :
    (∃ e, s.push instr = (.error e, s) ∧ s.program.push instr = .error e) ∨
      s.push instr = (.ok instr.id, s.append instr) ∧
        s.program.push instr = .ok (s.append instr).program := by
  rw [push, hs.contains_index, Program.push]
  split
  · exact Or.inl ⟨_, rfl, rfl⟩
  · cases s.program.stranger? instr with
    | some v => exact Or.inl ⟨_, rfl, rfl⟩
    | none => exact Or.inr ⟨rfl, rfl⟩

theorem Sound.pushAll_cases (hs : s.Sound) (instrs : List Instruction) :
    (∃ e, s.pushAll instrs = .error e ∧ s.program.pushAll instrs = .error e) ∨
      ∃ t, s.pushAll instrs = .ok t ∧
        s.program.pushAll instrs = .ok t.program ∧ t.Sound := by
  induction instrs generalizing s with
  | nil => exact Or.inr ⟨s, rfl, rfl, hs⟩
  | cons instr rest ih =>
      have hstep : s.program.pushAll (instr :: rest) =
          s.program.push instr >>= fun next => next.pushAll rest := rfl
      rw [pushAll, hstep]
      obtain ⟨e, hpush, hprogram⟩ | ⟨hpush, hprogram⟩ := hs.push_cases instr
      · rw [hpush, hprogram]
        exact Or.inl ⟨e, rfl, rfl⟩
      · rw [hpush, hprogram]
        exact ih (hs.append hprogram)

theorem Sound.withInstructions_cases (hs : s.Sound) (instrs : List Instruction) :
    (∃ e, s.withInstructions instrs = .error e ∧
        s.program.withInstructions instrs = .error e) ∨
      ∃ t, s.withInstructions instrs = .ok t ∧
        s.program.withInstructions instrs = .ok t.program ∧ t.Sound := by
  have hclear : s.clear.Sound :=
    { sound_program := hs.sound_program.clear
      position?_eq := sound_empty.position?_eq
      lookup?_eq := hs.lookup?_eq }
  exact hclear.pushAll_cases instrs

/-- Among distinct handles the table made anew has the positions that a search
finds. -/
theorem getElem?_positions
    {p : Program} (hids : p.ids.Nodup) (id : InstrId) :
    (positions p.instrs)[id]? = p.position? id := by
  have hkeys : (p.instrs.toList.zipIdx.map fun entry =>
      (entry.1.id, entry.2)).map Prod.fst = p.ids := by
    have hfst : (Prod.fst ∘ fun entry : Instruction × Nat =>
        (entry.1.id, entry.2)) = Instruction.id ∘ Prod.fst := rfl
    rw [List.map_map, hfst, ← List.map_map, List.zipIdx_map_fst, Program.ids]
  cases hposition : p.position? id with
  | none =>
      apply Std.HashMap.getElem?_ofList_of_contains_eq_false
      have hnone := p.position?_isSome id
      rw [hposition] at hnone
      rw [hkeys, ← Bool.not_eq_true, List.contains_iff_mem, ← Program.contains_iff,
        ← hnone]
      simp
  | some k =>
      obtain ⟨instr, hat, hid⟩ := Program.position?_eq_some hposition
      refine Std.HashMap.getElem?_ofList_of_mem (beq_self_eq_true id) ?_ ?_
      · rw [← hkeys, List.Nodup, List.pairwise_map] at hids
        refine hids.imp ?_
        intro a b hab
        exact beq_false_of_ne hab
      · rw [List.mem_map]
        refine ⟨(instr, k), ?_, by rw [hid]⟩
        rw [List.mem_zipIdx_iff_getElem?, Array.getElem?_toList]
        exact hat

theorem Sound.remove (hs : s.Sound) (ids : List InstrId) :
    (s.remove ids).2.Sound ∧
      Prod.map id program (s.remove ids) = s.program.remove ids := by
  have hsound := hs.sound_program.without ids
  refine ⟨⟨hsound, ?_, hs.lookup?_eq⟩, rfl⟩
  intro id
  exact getElem?_positions hsound.nodup_ids id

end ProgramStore
end ThreeAddress
