import Mathlib.Data.List.Find
import Mathlib.Data.List.Perm.Basic
import ThreeAddress.Proofs.Block.Summary

/-!
# The definition that a read sees

A read of a variable sees the last write of the variable at an earlier place of the
block.  The chains of a block have an entry for each write, which holds the reads
that see it in their order.  If some read sees no write there are no chains, and
the error names the first such read.  This is so exactly if the summary of the
block has an exposed variable.
-/

namespace ThreeAddress

theorem flatMap_ite_eq_singleton
    {α β : Type} [DecidableEq β] {keys : List β} (hkeys : keys.Nodup) {k : β}
    (hk : k ∈ keys) (y : α) :
    (keys.flatMap fun j => if j = k then [y] else []) = [y] := by
  induction keys with
  | nil => contradiction
  | cons j rest ih =>
      rw [List.nodup_cons] at hkeys
      rw [List.flatMap_cons]
      by_cases hj : j = k
      · have hrest : (rest.flatMap fun i => if i = k then [y] else []) = [] := by
          rw [List.flatMap_eq_nil_iff]
          intro i hi
          exact if_neg (ne_of_mem_of_not_mem hi (hj ▸ hkeys.1))
        rw [if_pos hj, hrest, List.append_nil]
      · rw [if_neg hj, List.nil_append]
        exact ih hkeys.2 (List.mem_of_ne_of_mem (Ne.symm hj) hk)

/-- Sorting items by their keys keeps each of them once. -/
theorem flatMap_filter_perm
    {α β γ : Type} [DecidableEq β] {keys : List β} (hkeys : keys.Nodup)
    {key : α → Option β} (value : α → β → γ) {items : List α}
    (h : ∀ x ∈ items, ∃ k ∈ keys, key x = some k) :
    (keys.flatMap fun k =>
        (items.filter fun x => key x = some k).map fun x => value x k).Perm
      (items.filterMap fun x => (key x).map (value x)) := by
  induction items with
  | nil => simp
  | cons x rest ih =>
      rw [List.forall_mem_cons] at h
      obtain ⟨⟨k, hk, hx⟩, hrest⟩ := h
      have hsplit : (fun j => ((x :: rest).filter fun y =>
          key y = some j).map fun y => value y j) =
          fun j => (if j = k then [value x k] else []) ++
            (rest.filter fun y => key y = some j).map fun y => value y j := by
        funext j
        by_cases hj : j = k
        · simp [hx, hj]
        · simp [hx, hj, Ne.symm hj]
      rw [hsplit, List.filterMap_cons_some (b := value x k) (by rw [hx]; rfl)]
      refine (List.flatMap_append_perm keys _ _).symm.trans ?_
      rw [flatMap_ite_eq_singleton hkeys hk]
      exact (ih hrest).cons _

/-- The instruction at some place of the code reads or writes a variable. -/
structure Access where
  place : Nat
  instr : InstrId
  var : VarId
deriving DecidableEq

namespace Block

/-- The accesses to variables by some code whose first instruction has place
`first`, in the order of the places.  The accesses at one place have the order of
the variables there. -/
def accesses
    (vars : Instruction → List VarId) (first : Nat) (code : List Instruction) :
    List Access :=
  (code.zipIdx first).flatMap fun entry =>
    (vars entry.1).map fun v => ⟨entry.2, entry.1.id, v⟩

/-- The reads of some code, one for each operand. -/
def reads (code : List Instruction) : List Access :=
  accesses Instruction.used 0 code

/-- The writes of some code. -/
def writes (code : List Instruction) : List Access :=
  accesses (fun instr => instr.defined?.toList) 0 code

/-- The last write of a variable. -/
def lastWrite? (code : List Instruction) (v : VarId) : Option Access :=
  ((writes code).filter fun w => w.var = v).getLast?

/-- The write that a read sees: the last one of its variable at an earlier
place. -/
def seen? (code : List Instruction) (r : Access) : Option Access :=
  lastWrite? (code.take r.place) r.var

/-! ## Accesses -/

section Accesses

variable {vars : Instruction → List VarId} {first : Nat}

theorem accesses_cons
    (vars : Instruction → List VarId) (first : Nat) (instr : Instruction)
    (rest : List Instruction) :
    accesses vars first (instr :: rest) =
      (vars instr).map (fun v => ⟨first, instr.id, v⟩) ++
        accesses vars (first + 1) rest := by
  rw [accesses, List.zipIdx_cons, List.flatMap_cons]
  rfl

theorem accesses_append
    (vars : Instruction → List VarId) (first : Nat)
    (pre post : List Instruction) :
    accesses vars first (pre ++ post) =
      accesses vars first pre ++ accesses vars (first + pre.length) post := by
  rw [accesses, List.zipIdx_append, List.flatMap_append]
  rfl

theorem accesses_concat
    (vars : Instruction → List VarId) (code : List Instruction)
    (last : Instruction) :
    accesses vars 0 (code ++ [last]) =
      accesses vars 0 code ++
        (vars last).map fun v => ⟨code.length, last.id, v⟩ := by
  rw [accesses_append, accesses_cons, Nat.zero_add]
  simp [accesses]

theorem place_of_mem_accesses
    {code : List Instruction} {a : Access} (h : a ∈ accesses vars first code) :
    first ≤ a.place ∧ a.place < first + code.length := by
  obtain ⟨⟨instr, place⟩, hentry, hmem⟩ := List.mem_flatMap.mp h
  obtain ⟨v, -, rfl⟩ := List.mem_map.mp hmem
  exact ⟨List.le_snd_of_mem_zipIdx hentry, List.snd_lt_add_of_mem_zipIdx hentry⟩

theorem mem_accesses_iff {code : List Instruction} {a : Access} :
    a ∈ accesses vars first code ↔
      ∃ pre instr post, code = pre ++ instr :: post ∧
        a = ⟨first + pre.length, instr.id, a.var⟩ ∧ a.var ∈ vars instr := by
  induction code generalizing first with
  | nil => simp [accesses]
  | cons instr rest ih =>
      rw [accesses_cons, List.mem_append, ih, exists_split_cons]
      refine or_congr ?_ ?_
      · rw [List.mem_map]
        constructor
        · rintro ⟨v, hv, rfl⟩
          exact ⟨rfl, hv⟩
        · rintro ⟨ha, hv⟩
          exact ⟨a.var, hv, ha.symm⟩
      · simp only [List.length_cons, Nat.add_assoc, Nat.add_comm 1]

end Accesses

variable {code : List Instruction} {v : VarId} {r w : Access}

theorem lt_of_mem_writes (h : w ∈ writes code) : w.place < code.length := by
  have hplace := (place_of_mem_accesses h).2
  rwa [Nat.zero_add] at hplace

/-- The writes stand at ascending places, since an instruction writes at most
once. -/
theorem nodup_writes (code : List Instruction) : (writes code).Nodup := by
  induction code using List.reverseRecOn with
  | nil => exact List.nodup_nil
  | append_singleton code last ih =>
      rw [writes, accesses_concat, List.nodup_append]
      refine ⟨ih, ?_, ?_⟩
      · cases last.defined? <;> simp
      · rintro w hw other hother rfl
        obtain ⟨v, -, rfl⟩ := List.mem_map.mp hother
        exact Nat.lt_irrefl _ (lt_of_mem_writes hw)

theorem mem_of_lastWrite?
    (h : lastWrite? code v = some w) :
    w ∈ writes code ∧ w.var = v := by
  have hmem := List.mem_of_getLast? h
  simpa using hmem

theorem lastWrite?_eq_none_iff :
    lastWrite? code v = none ↔ v ∉ (writes code).map Access.var := by
  rw [lastWrite?, List.getLast?_eq_none_iff, List.filter_eq_nil_iff,
    List.mem_map]
  simp

theorem lastWrite?_concat
    (code : List Instruction) (last : Instruction) (v : VarId) :
    lastWrite? (code ++ [last]) v =
      if last.defined? = some v then
        some ⟨code.length, last.id, v⟩
      else
        lastWrite? code v := by
  rw [lastWrite?, writes, accesses_concat, List.filter_append]
  cases hdefined : last.defined? with
  | none => simp [lastWrite?, writes]
  | some target =>
      by_cases htarget : target = v
      · simp [htarget]
      · simp [htarget, lastWrite?, writes]

theorem mem_of_seen?
    (h : seen? code r = some w) :
    w ∈ writes code ∧ w.var = r.var ∧ w.place < r.place := by
  obtain ⟨hmem, hvar⟩ := mem_of_lastWrite? h
  refine ⟨?_, hvar, ?_⟩
  · rw [← List.take_append_drop r.place code, writes, accesses_append]
    exact List.mem_append_left _ hmem
  · have hlt := lt_of_mem_writes hmem
    rw [List.length_take] at hlt
    omega

theorem lastWrite?_concat_ne
    {last : Instruction} (hplace : w.place < code.length)
    (hdefined : last.defined? = some v) :
    lastWrite? (code ++ [last]) v ≠ some w := by
  rw [lastWrite?_concat, if_pos hdefined]
  intro heq
  rw [← Option.some.inj heq] at hplace
  exact Nat.lt_irrefl _ hplace

theorem mem_map_var_writes_iff :
    v ∈ (writes code).map Access.var ↔ ∃ k ∈ code, k.defined? = some v := by
  rw [List.mem_map]
  constructor
  · rintro ⟨w, hw, rfl⟩
    obtain ⟨pre, k, post, rfl, -, hvar⟩ := mem_accesses_iff.mp hw
    exact ⟨k, by simp, Option.mem_toList.mp hvar⟩
  · rintro ⟨k, hk, hdefined⟩
    obtain ⟨pre, post, rfl⟩ := List.append_of_mem hk
    exact ⟨⟨0 + pre.length, k.id, v⟩, mem_accesses_iff.mpr
      ⟨pre, k, post, rfl, rfl, Option.mem_toList.mpr hdefined⟩, rfl⟩

theorem seen?_of_split
    {pre post : List Instruction} (hplace : r.place = pre.length) :
    seen? (pre ++ post) r = lastWrite? pre r.var := by
  rw [seen?, hplace, List.take_left]

/-- Some code exposes a variable exactly if some read of the variable sees no
write. -/
theorem exposed_iff_exists_unseen :
    Exposed v code ↔ ∃ r ∈ reads code, r.var = v ∧ seen? code r = none := by
  rw [exposed_iff]
  constructor
  · rintro ⟨pre, u, post, rfl, hu, hpre⟩
    refine ⟨⟨0 + pre.length, u.id, v⟩,
      mem_accesses_iff.mpr ⟨pre, u, post, rfl, rfl, hu⟩, rfl, ?_⟩
    rw [seen?_of_split (Nat.zero_add _), lastWrite?_eq_none_iff,
      mem_map_var_writes_iff]
    rintro ⟨k, hk, hdefined⟩
    exact hpre k hk hdefined
  · rintro ⟨r, hr, rfl, hseen⟩
    obtain ⟨pre, u, post, rfl, hplace, hu⟩ := mem_accesses_iff.mp hr
    refine ⟨pre, u, post, rfl, hu, ?_⟩
    rw [seen?_of_split ((congrArg Access.place hplace).trans (Nat.zero_add _)),
      lastWrite?_eq_none_iff, mem_map_var_writes_iff] at hseen
    intro k hk hdefined
    exact hseen ⟨k, hk, hdefined⟩

/-- What a read sees does not depend on what follows. -/
theorem seen?_append_of_mem
    (hr : r ∈ reads code) (rest : List Instruction) :
    seen? (code ++ rest) r = seen? code r := by
  have hlt := (place_of_mem_accesses hr).2
  rw [seen?, seen?, List.take_append_of_le_length (by omega)]

end Block

namespace Chains

open Block

/-- The entry of a write, with the reads that see it. -/
def entryOf (code : List Instruction) (w : Access) : Definition where
  instr := w.instr
  var := w.var
  uses := ((reads code).filter fun r => seen? code r = some w).map fun r =>
    ⟨r.instr, r.var, w.instr⟩

/-- The chains of some code link every read to the write that it sees.  There is an
entry for each write, in their order, with the reads of it in their order; and all
entries together hold one use for each read. -/
structure Resolves (code : List Instruction) (c : Chains) : Prop where
  defs_eq : c.defs = (writes code).map (entryOf code)
  exists_seen : ∀ r ∈ reads code, ∃ w ∈ writes code,
    seen? code r = some w ∧ w.var = r.var ∧ w.place < r.place
  uses_perm : c.uses.Perm ((reads code).filterMap fun r =>
    (seen? code r).map fun w => ⟨r.instr, r.var, w.instr⟩)

/-! ## The closed form, place by place -/

section Entries

variable {v : VarId} {w : Access}

/-- The uses of a write by the reads of the code from some place on. -/
def usesFrom
    (code : List Instruction) (w : Access) (first : Nat)
    (rest : List Instruction) : List Use :=
  ((accesses Instruction.used first rest).filter fun r =>
    seen? code r = some w).map fun r => ⟨r.instr, r.var, w.instr⟩

theorem usesFrom_cons
    (front : List Instruction) (w : Access) (u : Instruction)
    (rest : List Instruction) :
    usesFrom (front ++ u :: rest) w front.length (u :: rest) =
      (if lastWrite? front w.var = some w then
        readsBy u.id u.used w.instr w.var
      else
        []) ++ usesFrom (front ++ [u] ++ rest) w (front ++ [u]).length rest := by
  have hsees : ∀ x, seen? (front ++ u :: rest) ⟨front.length, u.id, x⟩ = some w ↔
      x = w.var ∧ lastWrite? front w.var = some w := by
    intro x
    rw [seen?_of_split rfl]
    constructor
    · intro hx
      obtain rfl := (mem_of_lastWrite? hx).2
      exact ⟨rfl, hx⟩
    · rintro ⟨rfl, hx⟩
      exact hx
  rw [usesFrom, usesFrom, accesses_cons, List.filter_append, List.map_append,
    List.filter_map, List.map_map, ← List.append_cons, List.length_append]
  refine congrArg (· ++ _) ?_
  by_cases hlast : lastWrite? front w.var = some w
  · have htest : ((fun r => decide (seen? (front ++ u :: rest) r = some w)) ∘
        fun x => (⟨front.length, u.id, x⟩ : Access)) =
          fun x => decide (x = w.var) := by
      funext x
      simp [hsees, hlast]
    rw [if_pos hlast, htest, List.filter_eq, List.map_replicate]
    rfl
  · rw [if_neg hlast, List.filter_eq_nil_iff.mpr, List.map_nil]
    intro x _
    simp [hsees, hlast]

/-- No later read sees a write that is no longer the last of its variable. -/
theorem usesFrom_of_hidden
    {front : List Instruction} (hplace : w.place < front.length)
    (hhidden : lastWrite? front w.var ≠ some w) (rest : List Instruction) :
    usesFrom (front ++ rest) w front.length rest = [] := by
  induction rest generalizing front with
  | nil => rfl
  | cons u rest ih =>
      have hnext : lastWrite? (front ++ [u]) w.var ≠ some w := by
        by_cases hdefined : u.defined? = some w.var
        · exact lastWrite?_concat_ne hplace hdefined
        · rwa [lastWrite?_concat, if_neg hdefined]
      rw [usesFrom_cons, if_neg hhidden, List.nil_append]
      apply ih _ hnext
      rw [List.length_append]
      omega

/-- The reads that see the last write of a variable are those up to the next
write. -/
theorem usesFrom_of_lastWrite?
    {front : List Instruction} (hlast : lastWrite? front w.var = some w)
    (rest : List Instruction) :
    usesFrom (front ++ rest) w front.length rest =
      readsOf w.instr w.var rest := by
  induction rest generalizing front with
  | nil => rfl
  | cons u rest ih =>
      have hlt := lt_of_mem_writes (mem_of_lastWrite? hlast).1
      rw [usesFrom_cons, if_pos hlast, readsOf]
      refine congrArg (_ ++ ·) ?_
      by_cases hdefined : u.defined? = some w.var
      · rw [if_pos hdefined]
        apply usesFrom_of_hidden _ (lastWrite?_concat_ne hlt hdefined)
        rw [List.length_append]
        omega
      · rw [if_neg hdefined]
        apply ih
        rwa [lastWrite?_concat, if_neg hdefined]

/-- The reads that see a write stand after it. -/
theorem uses_entryOf
    (pre : List Instruction) (d : Instruction) (post : List Instruction)
    (w : Access) (hplace : w.place = pre.length) :
    (entryOf (pre ++ d :: post) w).uses =
      usesFrom (pre ++ [d] ++ post) w (pre ++ [d]).length post := by
  have hbefore : ∀ r ∈ accesses Instruction.used 0 (pre ++ [d]),
      ¬ seen? (pre ++ [d] ++ post) r = some w := by
    intro r hr hseen
    have hlt := (place_of_mem_accesses hr).2
    have hgt := (mem_of_seen? hseen).2.2
    rw [List.length_append, List.length_singleton] at hlt
    omega
  have hnone : (accesses Instruction.used 0 (pre ++ [d])).filter (fun r =>
      seen? (pre ++ [d] ++ post) r = some w) = [] := by
    simpa using hbefore
  rw [entryOf, reads, List.append_cons, accesses_append, List.filter_append,
    hnone, List.nil_append, Nat.zero_add]
  rfl

theorem entries_eq_map
    (pre post : List Instruction) :
    entries post =
      (accesses (fun instr => instr.defined?.toList) pre.length post).map
        (entryOf (pre ++ post)) := by
  induction post generalizing pre with
  | nil => rfl
  | cons d post ih =>
      rw [entries, accesses_cons, List.map_append, ih (pre ++ [d]),
        List.length_append, ← List.append_cons]
      refine congrArg (· ++ _) ?_
      cases hdefined : d.defined? with
      | none => rfl
      | some v =>
          have hlast : lastWrite? (pre ++ [d]) v = some ⟨pre.length, d.id, v⟩ := by
            rw [lastWrite?_concat, if_pos hdefined]
          have huses := usesFrom_of_lastWrite? (w := ⟨pre.length, d.id, v⟩) hlast
            post
          rw [← uses_entryOf pre d post _ rfl] at huses
          simp [entryOf, ← huses]

end Entries

/-! ## Reads without a write -/

theorem addUses_eq_error
    {instr : InstrId} {latest : List Definition} {vars : List VarId} {v : VarId}
    (h : vars.find? (fun v => v ∉ latest.map Definition.var) = some v) :
    addUses instr latest vars = .error (.undefinedUse v instr) := by
  induction vars generalizing latest with
  | nil => contradiction
  | cons x rest ih =>
      by_cases hx : x ∈ latest.map Definition.var
      · rw [List.find?_cons_of_neg (by simpa using hx)] at h
        rw [addUses, addUse_eq_some_iff.mpr ⟨hx, rfl⟩]
        apply ih
        rwa [map_var_credit]
      · rw [List.find?_cons_of_pos (by simpa using hx)] at h
        obtain rfl := Option.some.inj h
        have hnone : addUse instr x latest = none := by
          rw [Option.eq_none_iff_forall_ne_some]
          intro after hafter
          exact hx (addUse_eq_some_iff.mp hafter).1
        rw [addUses, hnone]

/-- The first read that sees no write. -/
def unseen? (code : List Instruction) : Option Access :=
  (reads code).find? fun r => (seen? code r).isNone

theorem unseen?_eq_none_iff {code : List Instruction} :
    unseen? code = none ↔ ∀ v, ¬ Exposed v code := by
  rw [unseen?, List.find?_eq_none]
  simp only [exposed_iff_exists_unseen, Option.isNone_iff_eq_none, not_exists,
    not_and]
  constructor
  · intro hseen v r hr _
    exact hseen r hr
  · intro hseen r hr
    exact hseen r.var r hr rfl

theorem unseen?_concat (code : List Instruction) (last : Instruction) :
    unseen? (code ++ [last]) =
      (unseen? code).or ((last.used.find? fun v =>
        v ∉ (writes code).map Access.var).map fun v =>
          ⟨code.length, last.id, v⟩) := by
  have hsame : ∀ r ∈ reads code, (seen? (code ++ [last]) r).isNone =
      (seen? code r).isNone := by
    intro r hr
    rw [seen?_append_of_mem hr]
  have hlast : ((fun r => (seen? (code ++ [last]) r).isNone) ∘ fun v =>
      (⟨code.length, last.id, v⟩ : Access)) =
        fun v => decide (v ∉ (writes code).map Access.var) := by
    funext v
    rw [Bool.eq_iff_iff, decide_eq_true_eq, ← lastWrite?_eq_none_iff,
      Function.comp_apply, seen?_of_split rfl, Option.isNone_iff_eq_none]
  rw [unseen?, reads, accesses_concat, List.find?_append, List.find?_map, hlast]
  exact congrArg (Option.or · _) (List.find?_congr hsame)

theorem map_var_entries (code : List Instruction) :
    (entries code).map Definition.var = (writes code).map Access.var := by
  rw [entries_eq_map [] code, List.map_map]
  rfl

theorem foldlM_record_eq_error
    {code : List Instruction} {r : Access} (h : unseen? code = some r) :
    code.foldlM record [] = .error (.undefinedUse r.var r.instr) := by
  induction code using List.reverseRecOn with
  | nil => contradiction
  | append_singleton code last ih =>
      rw [unseen?_concat] at h
      rw [List.foldlM_append]
      cases hbefore : unseen? code with
      | some first =>
          rw [hbefore, Option.some_or] at h
          rw [ih (hbefore.trans h)]
          rfl
      | none =>
          -- the code before records all its writes, so the last instruction fails
          rw [hbefore, Option.none_or, Option.map_eq_some_iff] at h
          obtain ⟨v, hv, rfl⟩ := h
          have hrecords : code.foldlM record [] = .ok (entries code).reverse := by
            rw [foldlM_record_eq_ok_iff]
            refine ⟨?_, by simp [credit]⟩
            intro v hexposed
            exact absurd hexposed (unseen?_eq_none_iff.mp hbefore v)
          have hfails : addUses last.id (entries code).reverse last.used =
              .error (.undefinedUse v last.id) := by
            apply addUses_eq_error
            simpa only [List.map_reverse, map_var_entries, List.mem_reverse]
              using hv
          rw [hrecords]
          change (record _ last >>= pure) = _
          rw [record, hfails]
          rfl

/-! ## The chains of a block -/

theorem resolves_of_ofInstructions
    {code : List Instruction} {c : Chains} (h : ofInstructions code = .ok c) :
    Resolves code c := by
  obtain ⟨hclosed, rfl⟩ := ofInstructions_eq_ok_iff.mp h
  have hseen : ∀ r ∈ reads code, ∃ w ∈ writes code,
      seen? code r = some w ∧ w.var = r.var ∧ w.place < r.place := by
    intro r hr
    have hsome : seen? code r ≠ none := by
      intro hnone
      exact hclosed r.var (exposed_iff_exists_unseen.mpr ⟨r, hr, rfl, hnone⟩)
    obtain ⟨w, hw⟩ := Option.ne_none_iff_exists'.mp hsome
    obtain ⟨hmem, hvar, hplace⟩ := mem_of_seen? hw
    exact ⟨w, hmem, hw, hvar, hplace⟩
  have hdefs : entries code = (writes code).map (entryOf code) :=
    entries_eq_map [] code
  refine ⟨hdefs, hseen, ?_⟩
  rw [uses, hdefs, List.flatMap_map]
  apply flatMap_filter_perm (nodup_writes code)
  intro r hr
  obtain ⟨w, hmem, hw, -⟩ := hseen r hr
  exact ⟨w, hmem, hw⟩

/-- A block of instructions of the program has chains exactly if its summary has no
exposed variable.  Otherwise the error names the first read that sees no write.
The chains link every read to the write that it sees. -/
theorem ofBlock_resolves
    {p : Program} {b : Block} (hp : p.Grown)
    (hmem : ∀ id ∈ b.instrs, id ∈ p.ids) :
    ∃ code s, b.resolve p = .ok code ∧ Summary.ofBlock p b = .ok s ∧
      ((∃ c, ofBlock p b = .ok c) ↔ s.exposed.isEmpty = true) ∧
      (s.exposed.isEmpty = false → ∃ r, unseen? code = some r ∧
        ofBlock p b = .error (.undefinedUse r.var r.instr)) ∧
      ∀ c, ofBlock p b = .ok c → Resolves code c := by
  obtain ⟨s, hs, hdescribes⟩ := Summary.exists_ofBlock hp.wellFormed hmem
  refine ⟨_, s, resolve_eq_ok hmem, hs, ?_, ?_, ?_⟩
  · rw [hdescribes.isEmpty_exposed_iff, ofBlock_eq hmem]
    simp [ofInstructions_eq_ok_iff]
  · intro hexposed
    have hsome : unseen? (b.instrs.filterMap p.get?) ≠ none := by
      rw [ne_eq, unseen?_eq_none_iff, ← hdescribes.isEmpty_exposed_iff]
      exact Bool.eq_false_iff.mp hexposed
    obtain ⟨r, hr⟩ := Option.ne_none_iff_exists'.mp hsome
    refine ⟨r, hr, ?_⟩
    rw [ofBlock_eq hmem, ofInstructions, foldlM_record_eq_error hr]
    rfl
  · intro c hc
    rw [ofBlock_eq hmem] at hc
    exact resolves_of_ofInstructions hc

/-- Squares `x`, and adds a `z` that nothing defines. -/
def squaring : Program where
  instrs := #[
    ⟨⟨0⟩, false, .assign ⟨0⟩ none .copy (.const 2)⟩,
    ⟨⟨1⟩, true, .assign ⟨0⟩ (some (.var ⟨0⟩)) .mul (.var ⟨0⟩)⟩,
    ⟨⟨2⟩, false, .branch (.var ⟨0⟩) ⟨1⟩⟩,
    ⟨⟨3⟩, false, .assign ⟨1⟩ (some (.var ⟨0⟩)) .plus (.var ⟨2⟩)⟩]
  names := #["x", "y", "z"]

theorem grown_squaring : squaring.Grown := by
  have hbuild : (Program.ofNames ["x", "y", "z"]).withInstructions
      squaring.instrs.toList = .ok squaring := by
    decide +kernel
  exact (Program.Grown.ofNames _).withInstructions (by decide) hbuild

/-- In a block that squares twice, each square reads both operands from the
definition before, whether or not that is made by the same instruction. -/
theorem ofBlock_resolves_squaring :
    squaring.Grown ∧
      (∃ c, ofBlock squaring (.ofInstrs 0 [⟨0⟩, ⟨1⟩, ⟨1⟩, ⟨2⟩]) = .ok c ∧
        c.defs = [
          ⟨⟨0⟩, ⟨0⟩, [⟨⟨1⟩, ⟨0⟩, ⟨0⟩⟩, ⟨⟨1⟩, ⟨0⟩, ⟨0⟩⟩]⟩,
          ⟨⟨1⟩, ⟨0⟩, [⟨⟨1⟩, ⟨0⟩, ⟨1⟩⟩, ⟨⟨1⟩, ⟨0⟩, ⟨1⟩⟩]⟩,
          ⟨⟨1⟩, ⟨0⟩, [⟨⟨2⟩, ⟨0⟩, ⟨1⟩⟩]⟩]) ∧
      ofBlock squaring (.ofInstrs 0 [⟨0⟩, ⟨1⟩, ⟨3⟩]) =
        .error (.undefinedUse ⟨2⟩ ⟨3⟩) := by
  refine ⟨grown_squaring, ?_, ?_⟩
  · obtain ⟨code, s, hcode, hs, hiff, -, hresolves⟩ := ofBlock_resolves
      (b := .ofInstrs 0 [⟨0⟩, ⟨1⟩, ⟨1⟩, ⟨2⟩]) grown_squaring (by decide)
    have hsummary : (Summary.ofBlock squaring
        (.ofInstrs 0 [⟨0⟩, ⟨1⟩, ⟨1⟩, ⟨2⟩])).map (·.exposed.isEmpty) =
          .ok true := by
      decide +kernel
    rw [hs] at hsummary
    obtain ⟨c, hc⟩ := hiff.mpr (Except.ok.inj hsummary)
    refine ⟨c, hc, ?_⟩
    obtain rfl := Except.ok.inj (hcode.symm.trans (resolve_eq_ok (by decide)))
    rw [(hresolves c hc).defs_eq]
    decide +kernel
  · obtain ⟨code, s, hcode, hs, -, herror, -⟩ := ofBlock_resolves
      (b := .ofInstrs 0 [⟨0⟩, ⟨1⟩, ⟨3⟩]) grown_squaring (by decide)
    have hsummary : (Summary.ofBlock squaring
        (.ofInstrs 0 [⟨0⟩, ⟨1⟩, ⟨3⟩])).map (·.exposed.isEmpty) =
          .ok false := by
      decide +kernel
    rw [hs] at hsummary
    obtain ⟨r, hr, hfails⟩ := herror (Except.ok.inj hsummary)
    obtain rfl := Except.ok.inj (hcode.symm.trans (resolve_eq_ok (by decide)))
    have hfirst : unseen? ((Block.ofInstrs 0 [⟨0⟩, ⟨1⟩, ⟨3⟩]).instrs.filterMap
        squaring.get?) = some ⟨2, ⟨3⟩, ⟨2⟩⟩ := by
      decide +kernel
    obtain rfl := Option.some.inj (hfirst.symm.trans hr)
    exact hfails

end Chains
end ThreeAddress
