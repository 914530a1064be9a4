import ThreeAddress.Proofs.FlowGraph.Construction
import ThreeAddress.Proofs.FlowGraph.Leaders

/-!
# Where the partition cuts a program

The blocks of a program follow one another without a gap, so a block is found by
the position at which it begins.  A block begins at a position exactly if the
position is the first, or its instruction is labelled, or the instruction before
it is a jump.  Lists without empty parts that have the same concatenation and
begin their parts at the same positions are equal, so this determines the
blocks.
-/

namespace ThreeAddress

/-- The instruction at a position is the first one, or labelled, or comes right
after a jump. -/
def Program.LeaderAt (p : Program) (k : Nat) : Prop :=
  k = 0 ∨ (∃ j, p.at? k = some j ∧ j.labelled = true) ∨
    ∃ l i, l + 1 = k ∧ p.at? l = some i ∧ i.isJump = true

namespace Block

/-! ## Positions in a concatenation -/

section Offset

variable {α β : Type} {parts parts' : List (List α)} {part part' : List α}

/-- The position in the concatenation at which part `n` begins. -/
def offset (parts : List (List α)) (n : Nat) : Nat :=
  (parts.take n).flatten.length

/-- Some part begins at position `k` of the concatenation. -/
def Begins (parts : List (List α)) (k : Nat) : Prop :=
  ∃ n < parts.length, offset parts n = k

theorem offset_succ {n : Nat} (h : parts[n]? = some part) :
    offset parts (n + 1) = offset parts n + part.length := by
  rw [offset, offset, List.take_add_one, h, List.flatten_append]
  simp

theorem offset_cons_succ (part : List α) (rest : List (List α)) (n : Nat) :
    offset (part :: rest) (n + 1) = part.length + offset rest n := by
  rw [offset, offset, List.take_succ_cons, List.flatten_cons,
    List.length_append]

theorem offset_map (f : α → β) (parts : List (List α)) (n : Nat) :
    offset (parts.map (List.map f)) n = offset parts n := by
  rw [offset, offset, ← List.map_take, ← List.map_flatten, List.length_map]

theorem begins_map_iff {f : α → β} {k : Nat} :
    Begins (parts.map (List.map f)) k ↔ Begins parts k := by
  simp only [Begins, List.length_map, offset_map]

/-- What stands in a part stands in the concatenation, as far from where the part
begins. -/
theorem getElem?_flatten_offset
    {n m : Nat} (h : parts[n]? = some part) (hm : m < part.length) :
    parts.flatten[offset parts n + m]? = part[m]? := by
  rw [flatten_eq_of_getElem? h, offset, List.getElem?_append_right
    (Nat.le_add_right _ _), Nat.add_sub_cancel_left, List.getElem?_append_left hm]

/-- Every position of the concatenation lies in some part. -/
theorem exists_offset_add
    {k : Nat} (hk : k < parts.flatten.length) :
    ∃ n part m, parts[n]? = some part ∧ m < part.length ∧
      offset parts n + m = k := by
  induction parts generalizing k with
  | nil => exact absurd hk (Nat.not_lt_zero k)
  | cons first rest ih =>
      by_cases hfirst : k < first.length
      · exact ⟨0, first, k, rfl, hfirst, Nat.zero_add k⟩
      · rw [List.flatten_cons, List.length_append] at hk
        obtain ⟨n, part, m, hn, hm, hsum⟩ :=
          ih (k := k - first.length) (by omega)
        refine ⟨n + 1, part, m, hn, hm, ?_⟩
        rw [offset_cons_succ]
        omega

theorem begins_cons_iff
    (hne : part ≠ []) {rest : List (List α)} {k : Nat} :
    Begins (part :: rest) (part.length + k) ↔ Begins rest k := by
  have hpos := List.length_pos_iff.mpr hne
  constructor
  · rintro ⟨_ | n, hn, hoffset⟩
    · rw [offset, List.take_zero, List.flatten_nil, List.length_nil] at hoffset
      omega
    · rw [offset_cons_succ] at hoffset
      exact ⟨n, Nat.lt_of_succ_lt_succ hn, Nat.add_left_cancel hoffset⟩
  · rintro ⟨n, hn, rfl⟩
    exact ⟨n + 1, Nat.succ_lt_succ hn, offset_cons_succ part rest n⟩

/-- The first part of one list is no longer than that of the other, if a part of
the one begins wherever a part of the other does. -/
theorem length_le_of_begins
    {rest rest' : List (List α)} (hne' : part' ≠ [])
    (hflatten : (part :: rest).flatten = (part' :: rest').flatten)
    (hbegins : ∀ k < (part :: rest).flatten.length,
      Begins (part' :: rest') k → Begins (part :: rest) k) :
    part.length ≤ part'.length := by
  by_contra hlt
  have htotal := congrArg List.length hflatten
  simp only [List.flatten_cons, List.length_append] at htotal
  have hpos := List.length_pos_iff.mpr hne'
  have hrest' : rest' ≠ [] := by
    rintro rfl
    rw [List.flatten_nil, List.length_nil] at htotal
    omega
  have hnext : Begins (part' :: rest') (part'.length + 0) :=
    (begins_cons_iff hne').mpr ⟨0, List.length_pos_iff.mpr hrest', rfl⟩
  obtain ⟨_ | n, -, hoffset⟩ := hbegins (part'.length + 0)
    (by simp only [List.flatten_cons, List.length_append]; omega) hnext
  · rw [offset, List.take_zero, List.flatten_nil, List.length_nil] at hoffset
    omega
  · rw [offset_cons_succ] at hoffset
    omega

/-- The concatenation and the positions at which parts begin determine the
parts. -/
theorem eq_of_begins_iff
    (hne : [] ∉ parts) (hne' : [] ∉ parts')
    (hflatten : parts.flatten = parts'.flatten)
    (hbegins : ∀ k < parts.flatten.length, Begins parts k ↔ Begins parts' k) :
    parts = parts' := by
  induction parts generalizing parts' with
  | nil =>
      symm
      rw [List.eq_nil_iff_forall_not_mem]
      intro part hpart
      have hnil := List.flatten_eq_nil_iff.mp hflatten.symm part hpart
      exact hne' (hnil ▸ hpart)
  | cons part rest ih =>
      cases parts' with
      | nil =>
          have hnil := List.flatten_eq_nil_iff.mp hflatten part List.mem_cons_self
          exact absurd (hnil ▸ List.mem_cons_self) hne
      | cons part' rest' =>
          simp only [List.mem_cons, not_or, ← ne_eq] at hne hne'
          have hle := length_le_of_begins hne'.1.symm hflatten
            fun k hk => (hbegins k hk).mpr
          have hge := length_le_of_begins hne.1.symm hflatten.symm
            fun k hk => (hbegins k (hflatten ▸ hk)).mp
          rw [List.flatten_cons, List.flatten_cons] at hflatten
          obtain ⟨rfl, hrest⟩ :=
            List.append_inj hflatten (Nat.le_antisymm hle hge)
          rw [ih hne.2 hne'.2 hrest ?_]
          intro k hk
          have hlater : part.length + k < (part :: rest).flatten.length := by
            rw [List.flatten_cons, List.length_append]
            exact Nat.add_lt_add_left hk _
          exact (begins_cons_iff hne.1.symm).symm.trans
            ((hbegins _ hlater).trans (begins_cons_iff hne'.1.symm))

end Offset

/-! ## Positions in a program -/

section Runs

variable {p : Program} {run : List Instruction} {n m k : Nat}
  {i j : Instruction}

theorem at?_offset
    (h : (runs p)[n]? = some run) (hm : m < run.length) :
    p.at? (offset (runs p) n + m) = run[m]? := by
  rw [← getElem?_flatten_offset h hm, flatten_runs, Array.getElem?_toList]
  rfl

theorem exists_run_of_lt (hk : k < p.size) :
    ∃ n run m, (runs p)[n]? = some run ∧ m < run.length ∧
      offset (runs p) n + m = k := by
  apply exists_offset_add
  rw [flatten_runs]
  exact hk

/-- Within a run there is no jump before an instruction, and no label on it. -/
theorem not_isJump_and_not_labelled_of_getElem?
    (hrun : run ∈ runs p) (hi : run[m]? = some i)
    (hj : run[m + 1]? = some j) :
    i.isJump = false ∧ j.labelled = false := by
  obtain ⟨hm, rfl⟩ := List.getElem?_eq_some_iff.mp hi
  obtain ⟨hm', rfl⟩ := List.getElem?_eq_some_iff.mp hj
  have hsplit : run = run.take m ++ run[m] :: run[m + 1] :: run.drop (m + 2) := by
    rw [← List.drop_eq_getElem_cons, ← List.drop_eq_getElem_cons,
      List.take_append_drop]
  exact not_isJump_and_not_labelled hrun hsplit

/-- A run other than the first begins after a jump or with a labelled
instruction. -/
theorem leaderAt_offset (hn : n < (runs p).length) :
    p.LeaderAt (offset (runs p) n) := by
  cases n with
  | zero => exact Or.inl rfl
  | succ n =>
      have hbefore : n < (runs p).length := Nat.lt_of_succ_lt hn
      obtain ⟨front, i, hfront⟩ :=
        (List.eq_nil_or_concat' (runs p)[n]).resolve_left
          (ne_nil_of_mem_runs (List.getElem_mem hbefore))
      obtain ⟨j, back, hback⟩ := List.exists_cons_of_ne_nil
        (ne_nil_of_mem_runs (List.getElem_mem hn))
      have hi : (runs p)[n]? = some (front ++ [i]) := by
        rw [List.getElem?_eq_getElem hbefore, hfront]
      have hj : (runs p)[n + 1]? = some (j :: back) := by
        rw [List.getElem?_eq_getElem hn, hback]
      rcases isJump_or_labelled hi hj with hjump | hlabelled
      · have hlast := at?_offset hi (m := front.length) (by simp)
        have hnext := offset_succ hi
        rw [List.length_append, List.length_singleton, ← Nat.add_assoc] at hnext
        exact Or.inr (Or.inr ⟨_, i, hnext.symm, hlast.trans (by simp), hjump⟩)
      · have hfirst := at?_offset hj (m := 0) (by simp)
        exact Or.inr (Or.inl ⟨j, hfirst, hlabelled⟩)

/-- A leader does not stand within a run. -/
theorem eq_zero_of_leaderAt
    (hrun : (runs p)[n]? = some run) (hm : m < run.length)
    (h : p.LeaderAt (offset (runs p) n + m)) :
    m = 0 := by
  cases m with
  | zero => rfl
  | succ m =>
      have hbefore : m < run.length := Nat.lt_of_succ_lt hm
      have hi := List.getElem?_eq_getElem hbefore
      have hj := List.getElem?_eq_getElem hm
      obtain ⟨hjump, hlabelled⟩ := not_isJump_and_not_labelled_of_getElem?
        (List.mem_of_getElem? hrun) hi hj
      rcases h with hzero | ⟨j, hat, hmark⟩ | ⟨l, i, hl, hat, hmark⟩
      · exact absurd hzero (Nat.succ_ne_zero _)
      · rw [at?_offset hrun hm, hj] at hat
        obtain rfl := Option.some.inj hat
        rw [hlabelled] at hmark
        contradiction
      · obtain rfl : l = offset (runs p) n + m := Nat.succ.inj hl
        rw [at?_offset hrun hbefore, hi] at hat
        obtain rfl := Option.some.inj hat
        rw [hjump] at hmark
        contradiction

theorem begins_runs_iff (hk : k < p.size) :
    Begins (runs p) k ↔ p.LeaderAt k := by
  constructor
  · rintro ⟨n, hn, rfl⟩
    exact leaderAt_offset hn
  · intro hleader
    obtain ⟨n, run, m, hrun, hm, rfl⟩ := exists_run_of_lt hk
    obtain rfl := eq_zero_of_leaderAt hrun hm hleader
    exact ⟨n, (List.getElem?_eq_some_iff.mp hrun).1, rfl⟩

end Runs

/-! ## The partition -/

/-- The blocks are numbered runs of the program without neighbours, and a new one
begins at every leader and nowhere else. -/
structure CutAtLeaders (p : Program) (blocks : List Block) : Prop where
  flatMap_instrs : blocks.flatMap Block.instrs = p.ids
  id_eq : ∀ (n : Nat) (b : Block), blocks[n]? = some b → b.id = n
  instrs_ne_nil : ∀ b ∈ blocks, b.instrs ≠ []
  predecessors_eq : ∀ b ∈ blocks, b.predecessors = ∅
  successors_eq : ∀ b ∈ blocks, b.successors = ∅
  /-- A block begins at the first instruction, at labelled ones and after
  jumps. -/
  begins_iff : ∀ k < p.size,
    (Begins (blocks.map Block.instrs) k ↔ p.LeaderAt k)
  /-- A jump is the last instruction of its block. -/
  last_of_isJump : ∀ (n m : Nat) (b : Block) (i : Instruction),
    blocks[n]? = some b → m < b.instrs.length →
    p.at? (offset (blocks.map Block.instrs) n + m) = some i →
    i.isJump = true → m + 1 = b.instrs.length
  /-- A labelled instruction is the first of its block. -/
  first_of_labelled : ∀ (n m : Nat) (b : Block) (i : Instruction),
    blocks[n]? = some b → m < b.instrs.length →
    p.at? (offset (blocks.map Block.instrs) n + m) = some i →
    i.labelled = true → m = 0

section Partition

variable {p : Program} {b : Block} {n m : Nat} {i : Instruction}

/-- A block of the partition is a run. -/
theorem exists_run_of_partition (h : (partition p)[n]? = some b) :
    ∃ run, (runs p)[n]? = some run ∧
      b = ofInstrs n (run.map Instruction.id) := by
  rw [getElem?_partition, Option.map_eq_some_iff] at h
  obtain ⟨run, hrun, rfl⟩ := h
  exact ⟨run, hrun, rfl⟩

theorem length_instrs_ofInstrs (n : NodeId) (run : List Instruction) :
    (ofInstrs n (run.map Instruction.id)).instrs.length = run.length :=
  List.length_map _

theorem offset_partition (p : Program) (n : Nat) :
    offset ((partition p).map Block.instrs) n = offset (runs p) n := by
  rw [map_instrs_partition, offset_map]

theorem last_of_isJump_partition
    (hb : (partition p)[n]? = some b) (hm : m < b.instrs.length)
    (h : p.at? (offset ((partition p).map Block.instrs) n + m) = some i)
    (hjump : i.isJump = true) :
    m + 1 = b.instrs.length := by
  obtain ⟨run, hrun, rfl⟩ := exists_run_of_partition hb
  rw [length_instrs_ofInstrs] at hm ⊢
  rw [offset_partition, at?_offset hrun hm] at h
  by_contra hne
  have hnext : m + 1 < run.length := by omega
  have hj := List.getElem?_eq_getElem hnext
  rw [(not_isJump_and_not_labelled_of_getElem? (List.mem_of_getElem? hrun) h
    hj).1] at hjump
  contradiction

theorem first_of_labelled_partition
    (hb : (partition p)[n]? = some b) (hm : m < b.instrs.length)
    (h : p.at? (offset ((partition p).map Block.instrs) n + m) = some i)
    (hlabelled : i.labelled = true) :
    m = 0 := by
  obtain ⟨run, hrun, rfl⟩ := exists_run_of_partition hb
  rw [length_instrs_ofInstrs] at hm
  rw [offset_partition] at h
  exact eq_zero_of_leaderAt hrun hm (Or.inr (Or.inl ⟨i, h, hlabelled⟩))

theorem cutAtLeaders_partition (p : Program) :
    CutAtLeaders p (partition p) := by
  have hruns : ∀ b ∈ partition p, ∃ n run, run ∈ runs p ∧
      b = ofInstrs n (run.map Instruction.id) := by
    intro b hb
    obtain ⟨n, hn⟩ := List.mem_iff_getElem?.mp hb
    obtain ⟨run, hrun, rfl⟩ := exists_run_of_partition hn
    exact ⟨n, run, List.mem_of_getElem? hrun, rfl⟩
  refine ⟨FlowGraph.flatMap_instrs_partition p, ?_, ?_, ?_, ?_, ?_, ?_, ?_⟩
  · intro n b hb
    obtain ⟨run, -, rfl⟩ := exists_run_of_partition hb
    rfl
  · intro b hb
    obtain ⟨n, run, hrun, rfl⟩ := hruns b hb
    exact mt List.map_eq_nil_iff.mp (ne_nil_of_mem_runs hrun)
  · intro b hb
    obtain ⟨n, run, -, rfl⟩ := hruns b hb
    rfl
  · intro b hb
    obtain ⟨n, run, -, rfl⟩ := hruns b hb
    rfl
  · intro k hk
    rw [map_instrs_partition, begins_map_iff, begins_runs_iff hk]
  · intro n m b i
    exact last_of_isJump_partition
  · intro n m b i
    exact first_of_labelled_partition

/-- The instructions of the blocks determine the blocks. -/
theorem CutAtLeaders.getElem?_eq
    {blocks : List Block} (h : CutAtLeaders p blocks) (n : Nat) :
    blocks[n]? = (blocks.map Block.instrs)[n]?.map (ofInstrs n) := by
  rw [List.getElem?_map]
  cases hb : blocks[n]? with
  | none => rfl
  | some b =>
      have hmem := List.mem_of_getElem? hb
      have hid := h.id_eq n b hb
      have hpredecessors := h.predecessors_eq b hmem
      have hsuccessors := h.successors_eq b hmem
      cases b
      simp_all [ofInstrs]

theorem CutAtLeaders.nil_notMem
    {blocks : List Block} (h : CutAtLeaders p blocks) :
    [] ∉ blocks.map Block.instrs := by
  intro hnil
  obtain ⟨b, hb, hempty⟩ := List.mem_map.mp hnil
  exact h.instrs_ne_nil b hb hempty

theorem CutAtLeaders.unique
    {blocks blocks' : List Block} (h : CutAtLeaders p blocks)
    (h' : CutAtLeaders p blocks') :
    blocks = blocks' := by
  have hflatten : (blocks.map Block.instrs).flatten = p.ids :=
    h.flatMap_instrs
  have hflatten' : (blocks'.map Block.instrs).flatten = p.ids :=
    h'.flatMap_instrs
  have hinstrs : blocks.map Block.instrs = blocks'.map Block.instrs := by
    apply eq_of_begins_iff h.nil_notMem h'.nil_notMem
      (hflatten.trans hflatten'.symm)
    intro k hk
    rw [hflatten, Program.ids, List.length_map, Array.length_toList] at hk
    exact (h.begins_iff k hk).trans (h'.begins_iff k hk).symm
  apply List.ext_getElem?
  intro n
  rw [h.getElem?_eq, h'.getElem?_eq, hinstrs]

/-- The partition cuts a program at its leaders, and is the only way to do so. -/
theorem eq_partition_iff_cutAtLeaders (p : Program) (blocks : List Block) :
    blocks = partition p ↔ CutAtLeaders p blocks := by
  constructor
  · rintro rfl
    exact cutAtLeaders_partition p
  · intro h
    exact h.unique (cutAtLeaders_partition p)

-- a labelled jump after a jump, and two labels in a row
example :
    (partition ⟨#[⟨⟨0⟩, false, .nop⟩, ⟨⟨1⟩, false, .goto ⟨2⟩⟩,
        ⟨⟨2⟩, true, .goto ⟨4⟩⟩, ⟨⟨3⟩, false, .nop⟩, ⟨⟨4⟩, true, .nop⟩,
        ⟨⟨5⟩, true, .nop⟩, ⟨⟨6⟩, false, .nop⟩], #[]⟩).map Block.instrs =
      [[⟨0⟩, ⟨1⟩], [⟨2⟩], [⟨3⟩], [⟨4⟩], [⟨5⟩, ⟨6⟩]] := by
  decide

end Partition

end Block
end ThreeAddress
