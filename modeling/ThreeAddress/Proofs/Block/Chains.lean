import Mathlib.Data.List.Count
import Mathlib.Data.List.Induction
import ThreeAddress.Block.Chains
import ThreeAddress.Proofs.FlowGraph.Layout

/-!
# What the chains of a block are

A run of instructions has chains exactly if it exposes no variable, that is, if
every variable it reads has been defined before within the run.  The chains are
then given by a closed form: a definition is followed by all reads of its variable
up to the next definition of the variable, whose own reads still count.
-/

namespace ThreeAddress

/-- A split of a list that begins with `x` puts `x` in the middle, or else is a
split of the rest. -/
theorem exists_split_cons
    {α : Type} {x : α} {rest : List α} {P : List α → α → List α → Prop} :
    (∃ pre y post, x :: rest = pre ++ y :: post ∧ P pre y post) ↔
      P [] x rest ∨
        ∃ pre y post, rest = pre ++ y :: post ∧ P (x :: pre) y post := by
  constructor
  · rintro ⟨pre, y, post, hsplit, h⟩
    cases pre with
    | nil =>
        obtain ⟨rfl, rfl⟩ := List.cons.inj hsplit
        exact Or.inl h
    | cons first pre =>
        obtain ⟨rfl, rfl⟩ := List.cons.inj hsplit
        exact Or.inr ⟨pre, y, post, rfl, h⟩
  · rintro (h | ⟨pre, y, post, rfl, h⟩)
    · exact ⟨[], x, rest, rfl, h⟩
    · exact ⟨x :: pre, y, post, rfl, h⟩

namespace Block

/-- A run of instructions reads a variable before anything in it defines the
variable. -/
def Exposed (v : VarId) : List Instruction → Prop
  | [] => False
  | instr :: rest =>
      v ∈ instr.used ∨ (instr.defined? ≠ some v ∧ Exposed v rest)

theorem exposed_iff {v : VarId} {code : List Instruction} :
    Exposed v code ↔
      ∃ pre u post, code = pre ++ u :: post ∧ v ∈ u.used ∧
        ∀ k ∈ pre, k.defined? ≠ some v := by
  induction code with
  | nil => simp [Exposed]
  | cons instr rest ih =>
      rw [Exposed, ih, exists_split_cons]
      refine or_congr (by simp) ?_
      simp only [List.forall_mem_cons]
      constructor
      · rintro ⟨hne, pre, u, post, hsplit, hu, hpre⟩
        exact ⟨pre, u, post, hsplit, hu, hne, hpre⟩
      · rintro ⟨pre, u, post, hsplit, hu, hne, hpre⟩
        exact ⟨hne, pre, u, post, hsplit, hu, hpre⟩

/-- The last of the instructions that define a variable. -/
theorem exists_last_definition
    {v : VarId} {code : List Instruction}
    (h : ∃ k ∈ code, k.defined? = some v) :
    ∃ pre d post, code = pre ++ d :: post ∧ d.defined? = some v ∧
      ∀ k ∈ post, k.defined? ≠ some v := by
  induction code using List.reverseRecOn with
  | nil => simp at h
  | append_singleton front last ih =>
      by_cases hlast : last.defined? = some v
      · exact ⟨front, last, [], rfl, hlast, by simp⟩
      · obtain ⟨k, hk, hdefined⟩ := h
        have hfront : k ∈ front := by
          rcases List.mem_append.mp hk with hk | hk
          · exact hk
          · rw [List.mem_singleton.mp hk] at hdefined
            contradiction
        obtain ⟨pre, d, post, rfl, hd, hpost⟩ := ih ⟨k, hfront, hdefined⟩
        refine ⟨pre, d, post ++ [last], by simp, hd, ?_⟩
        intro k hk
        rcases List.mem_append.mp hk with hk | hk
        · exact hpost k hk
        · rw [List.mem_singleton.mp hk]
          exact hlast

end Block

namespace Chains

open Block

/-! ## The latest definitions -/

/-- Enters reads at the latest definition of each variable.  The latest definition
comes first. -/
def credit
    (reads : InstrId → VarId → List Use) :
    List Definition → List Definition
  | [] => []
  | d :: earlier =>
      { d with uses := d.uses ++ reads d.instr d.var } ::
        credit (fun id v => if v = d.var then [] else reads id v) earlier

theorem credit_nil (latest : List Definition) :
    credit (fun _ _ => []) latest = latest := by
  induction latest with
  | nil => rfl
  | cons d earlier ih => simp only [credit, List.append_nil, ite_self, ih]

theorem map_var_credit
    (reads : InstrId → VarId → List Use) (latest : List Definition) :
    (credit reads latest).map Definition.var = latest.map Definition.var := by
  induction latest generalizing reads with
  | nil => rfl
  | cons d earlier ih => rw [credit, List.map_cons, List.map_cons, ih]

theorem credit_credit
    (first second : InstrId → VarId → List Use) (latest : List Definition) :
    credit second (credit first latest) =
      credit (fun id v => first id v ++ second id v) latest := by
  induction latest generalizing first second with
  | nil => rfl
  | cons d earlier ih =>
      have hmask : (fun (id : InstrId) v =>
          (if v = d.var then [] else first id v) ++
            if v = d.var then [] else second id v) =
          fun id v => if v = d.var then [] else first id v ++ second id v := by
        funext id v
        split <;> rfl
      simp only [credit, ih, hmask, List.append_assoc]

theorem addUse_eq_some_iff
    {instr : InstrId} {v : VarId} {latest after : List Definition} :
    addUse instr v latest = some after ↔
      v ∈ latest.map Definition.var ∧
        after = credit (fun d w => if w = v then [⟨instr, w, d⟩] else [])
          latest := by
  induction latest generalizing after with
  | nil => simp [addUse]
  | cons d earlier ih =>
      rw [addUse, credit, List.map_cons, List.mem_cons]
      by_cases hvar : d.var = v
      · have hrest : (fun (id : InstrId) w => if w = d.var then [] else
            if w = v then [(⟨instr, w, id⟩ : Use)] else []) =
              fun _ _ => [] := by
          funext id w
          rw [hvar]
          split <;> rfl
        rw [if_pos hvar, if_pos hvar, hrest, credit_nil, hvar]
        simp [eq_comm]
      · have hrest : (fun (id : InstrId) w => if w = d.var then [] else
            if w = v then [(⟨instr, w, id⟩ : Use)] else []) =
              fun id w => if w = v then [⟨instr, w, id⟩] else [] := by
          funext id w
          by_cases hw : w = d.var
          · rw [if_pos hw, if_neg (hw ▸ hvar)]
          · rw [if_neg hw]
        rw [if_neg hvar, if_neg hvar, hrest, List.append_nil,
          Option.map_eq_some_iff, or_iff_right (Ne.symm hvar)]
        simp only [ih]
        constructor
        · rintro ⟨rest, ⟨hv, rfl⟩, rfl⟩
          exact ⟨hv, rfl⟩
        · rintro ⟨hv, rfl⟩
          exact ⟨_, ⟨hv, rfl⟩, rfl⟩

/-- The reads of a variable by one instruction, one for each operand. -/
def readsBy (instr : InstrId) (vars : List VarId) (d : InstrId) (v : VarId) :
    List Use :=
  List.replicate (vars.count v) ⟨instr, v, d⟩

theorem addUses_eq_ok_iff
    {instr : InstrId} {vars : List VarId} {latest after : List Definition} :
    addUses instr latest vars = .ok after ↔
      (∀ v ∈ vars, v ∈ latest.map Definition.var) ∧
        after = credit (readsBy instr vars) latest := by
  induction vars generalizing latest with
  | nil =>
      have hnone : readsBy instr [] = fun _ _ => [] := rfl
      rw [hnone, credit_nil]
      simp [addUses, eq_comm]
  | cons v rest ih =>
      have hreads : (fun d w => (if w = v then [⟨instr, w, d⟩] else []) ++
          readsBy instr rest d w) = readsBy instr (v :: rest) := by
        funext d w
        rw [readsBy, readsBy, List.count_cons]
        by_cases hw : w = v
        · simp [hw, List.replicate_succ]
        · simp [hw, Ne.symm hw]
      rw [addUses, List.forall_mem_cons, and_assoc]
      cases hadd : addUse instr v latest with
      | none =>
          have hv : v ∉ latest.map Definition.var := by
            intro hv
            rw [addUse_eq_some_iff.mpr ⟨hv, rfl⟩] at hadd
            contradiction
          simp [hv]
      | some next =>
          obtain ⟨hv, rfl⟩ := addUse_eq_some_iff.mp hadd
          simp only [ih, map_var_credit, credit_credit, hreads, hv, true_and]

theorem record_eq_ok_iff
    {latest after : List Definition} {instr : Instruction} :
    record latest instr = .ok after ↔
      (∀ v ∈ instr.used, v ∈ latest.map Definition.var) ∧
        after = (instr.defined?.toList.map fun v => ⟨instr.id, v, []⟩) ++
          credit (readsBy instr.id instr.used) latest := by
  rw [record, bind_eq_ok_iff]
  simp only [addUses_eq_ok_iff]
  constructor
  · rintro ⟨seen, ⟨hused, rfl⟩, hafter⟩
    refine ⟨hused, ?_⟩
    rw [← Except.ok.inj hafter]
    cases instr.defined? with
    | none => rfl
    | some v => rfl
  · rintro ⟨hused, rfl⟩
    refine ⟨_, ⟨hused, rfl⟩, ?_⟩
    cases instr.defined? with
    | none => rfl
    | some v => rfl

/-! ## The closed form -/

/-- The reads of a variable up to its next definition, as reads of the definition
that `d` makes. -/
def readsOf (d : InstrId) (v : VarId) : List Instruction → List Use
  | [] => []
  | instr :: rest =>
      readsBy instr.id instr.used d v ++
        if instr.defined? = some v then [] else readsOf d v rest

/-- The definitions of a run of instructions, each with the reads that see it. -/
def entries : List Instruction → List Definition
  | [] => []
  | instr :: rest =>
      (instr.defined?.toList.map fun v =>
        ⟨instr.id, v, readsOf instr.id v rest⟩) ++ entries rest

theorem credit_readsOf_cons
    (instr : Instruction) (rest : List Instruction) (latest : List Definition) :
    credit (fun d v => readsOf d v rest)
        ((instr.defined?.toList.map fun v => ⟨instr.id, v, []⟩) ++
          credit (readsBy instr.id instr.used) latest) =
      (instr.defined?.toList.map fun v =>
          ⟨instr.id, v, readsOf instr.id v rest⟩) ++
        credit (fun d v => readsOf d v (instr :: rest)) latest := by
  cases hdefined : instr.defined? with
  | none => simp [credit_credit, readsOf, hdefined]
  | some w =>
      simp [credit, credit_credit, readsOf, hdefined, eq_comm (a := w)]

theorem exposed_cons_imp_iff
    {instr : Instruction} {rest : List Instruction} {P : VarId → Prop} :
    (∀ v, Exposed v (instr :: rest) → P v) ↔
      (∀ v ∈ instr.used, P v) ∧
        ∀ v, Exposed v rest → instr.defined? = some v ∨ P v := by
  simp only [Exposed, or_imp, forall_and, and_imp]
  refine and_congr_right fun _ => forall_congr' fun v => ?_
  by_cases hdefined : instr.defined? = some v <;> simp [hdefined]

/-- What is recorded from a state on: the reads of what is defined already, and
the definitions of the instructions. -/
theorem foldlM_record_eq_ok_iff
    {code : List Instruction} {latest after : List Definition} :
    code.foldlM record latest = .ok after ↔
      (∀ v, Exposed v code → v ∈ latest.map Definition.var) ∧
        after = (entries code).reverse ++
          credit (fun d v => readsOf d v code) latest := by
  induction code generalizing latest with
  | nil =>
      have hnone : (fun (d : InstrId) v => readsOf d v []) = fun _ _ => [] := rfl
      rw [hnone, credit_nil]
      simp [Exposed, entries, pure, Except.pure, eq_comm]
  | cons instr rest ih =>
      have hvars : ((instr.defined?.toList.map fun v =>
          (⟨instr.id, v, []⟩ : Definition)) ++
            credit (readsBy instr.id instr.used) latest).map Definition.var =
              instr.defined?.toList ++ latest.map Definition.var := by
        rw [List.map_append, map_var_credit, List.map_map]
        exact congrArg (· ++ _) (List.map_id _)
      have hentries : (entries (instr :: rest)).reverse =
          (entries rest).reverse ++ instr.defined?.toList.map fun v =>
            ⟨instr.id, v, readsOf instr.id v rest⟩ := by
        rw [entries, List.reverse_append]
        cases instr.defined? <;> rfl
      rw [List.foldlM_cons, bind_eq_ok_iff]
      simp only [record_eq_ok_iff, ih]
      rw [exposed_cons_imp_iff, hentries, List.append_assoc,
        ← credit_readsOf_cons]
      constructor
      · rintro ⟨next, ⟨hused, rfl⟩, hrest, rfl⟩
        rw [hvars] at hrest
        simp only [List.mem_append, Option.mem_toList] at hrest
        exact ⟨⟨hused, hrest⟩, rfl⟩
      · rintro ⟨⟨hused, hrest⟩, rfl⟩
        refine ⟨_, ⟨hused, rfl⟩, ?_, rfl⟩
        rw [hvars]
        simpa only [List.mem_append, Option.mem_toList] using hrest

/-- A run of instructions has chains exactly if it exposes no variable, and only
one form of them. -/
theorem ofInstructions_eq_ok_iff
    {code : List Instruction} {c : Chains} :
    ofInstructions code = .ok c ↔
      (∀ v, ¬ Exposed v code) ∧ c = ⟨entries code⟩ := by
  rw [ofInstructions, bind_eq_ok_iff]
  simp only [foldlM_record_eq_ok_iff, List.map_nil, List.not_mem_nil, credit,
    List.append_nil]
  constructor
  · rintro ⟨latest, ⟨hclosed, rfl⟩, hc⟩
    refine ⟨hclosed, ?_⟩
    rw [← Except.ok.inj hc, List.reverse_reverse]
  · rintro ⟨hclosed, rfl⟩
    refine ⟨_, ⟨hclosed, rfl⟩, ?_⟩
    rw [List.reverse_reverse]
    rfl

theorem ofBlock_eq
    {p : Program} {b : Block} (h : ∀ id ∈ b.instrs, id ∈ p.ids) :
    ofBlock p b = ofInstructions (b.instrs.filterMap p.get?) := by
  rw [ofBlock, resolve_eq_ok h]
  rfl

/-! ## Links -/

theorem mem_readsBy_iff
    {instr d : InstrId} {vars : List VarId} {v : VarId} {use : Use} :
    use ∈ readsBy instr vars d v ↔ v ∈ vars ∧ use = ⟨instr, v, d⟩ := by
  rw [readsBy, List.mem_replicate, ne_eq, List.count_eq_zero, not_not]

theorem mem_readsOf_iff
    {d : InstrId} {v : VarId} {code : List Instruction} {use : Use} :
    use ∈ readsOf d v code ↔
      ∃ pre u post, code = pre ++ u :: post ∧ v ∈ u.used ∧
        (∀ k ∈ pre, k.defined? ≠ some v) ∧ use = ⟨u.id, v, d⟩ := by
  induction code with
  | nil => simp [readsOf]
  | cons instr rest ih =>
      rw [readsOf, List.mem_append, mem_readsBy_iff, exists_split_cons]
      refine or_congr (by simp) ?_
      simp only [List.forall_mem_cons]
      by_cases hdefined : instr.defined? = some v
      · simp [hdefined]
      · simp [hdefined, ih]

theorem readsOf_eq_nil_iff
    {d : InstrId} {v : VarId} {code : List Instruction} :
    readsOf d v code = [] ↔ ¬ Exposed v code := by
  rw [List.eq_nil_iff_forall_not_mem, exposed_iff, ← not_exists, not_iff_not]
  simp only [mem_readsOf_iff]
  constructor
  · rintro ⟨use, pre, u, post, hsplit, hu, hpre, -⟩
    exact ⟨pre, u, post, hsplit, hu, hpre⟩
  · rintro ⟨pre, u, post, hsplit, hu, hpre⟩
    exact ⟨_, pre, u, post, hsplit, hu, hpre, rfl⟩

theorem mem_entries_iff {code : List Instruction} {e : Definition} :
    e ∈ entries code ↔
      ∃ pre d post, code = pre ++ d :: post ∧
        ∃ v, d.defined? = some v ∧ e = ⟨d.id, v, readsOf d.id v post⟩ := by
  induction code with
  | nil => simp [entries]
  | cons instr rest ih =>
      rw [entries, List.mem_append, ih, exists_split_cons]
      refine or_congr_left ?_
      simp [eq_comm]

/-- Within a run, instruction `u` reads variable `v` as instruction `d` has
defined it. -/
def Feeds
    (code : List Instruction) (d : Instruction) (v : VarId) (u : Instruction) :
    Prop :=
  ∃ pre mid post, code = pre ++ d :: (mid ++ u :: post) ∧
    d.defined? = some v ∧ v ∈ u.used ∧ ∀ k ∈ mid, k.defined? ≠ some v

section Links

variable {code : List Instruction} {c : Chains} (h : ofInstructions code = .ok c)
include h

/-- The chains hold a read for each link, and nothing else. -/
theorem mem_uses_iff {use : Use} :
    use ∈ c.uses ↔
      ∃ d u, Feeds code d use.var u ∧ d.id = use.definition ∧
        u.id = use.instr := by
  obtain ⟨-, rfl⟩ := ofInstructions_eq_ok_iff.mp h
  simp only [uses, List.mem_flatMap, mem_entries_iff]
  constructor
  · rintro ⟨_, ⟨pre, d, post, rfl, v, hd, rfl⟩, huse⟩
    obtain ⟨mid, u, post, rfl, hu, hmid, rfl⟩ := mem_readsOf_iff.mp huse
    exact ⟨d, u, ⟨pre, mid, post, rfl, hd, hu, hmid⟩, rfl, rfl⟩
  · obtain ⟨instr, v, definition⟩ := use
    rintro ⟨d, u, ⟨pre, mid, post, hsplit, hd, hu, hmid⟩, rfl, rfl⟩
    exact ⟨_, ⟨pre, d, _, hsplit, v, hd, rfl⟩,
      mem_readsOf_iff.mpr ⟨mid, u, post, rfl, hu, hmid, rfl⟩⟩

theorem mem_dead_iff {id : InstrId} :
    id ∈ c.dead ↔
      ∃ pre d post, code = pre ++ d :: post ∧ d.id = id ∧
        ∃ v, d.defined? = some v ∧ ¬ Exposed v post := by
  obtain ⟨-, rfl⟩ := ofInstructions_eq_ok_iff.mp h
  simp only [dead, List.mem_map, List.mem_filter, mem_entries_iff,
    Definition.isDead, List.isEmpty_iff]
  constructor
  · rintro ⟨_, ⟨⟨pre, d, post, hsplit, v, hd, rfl⟩, hdead⟩, rfl⟩
    exact ⟨pre, d, post, hsplit, rfl, v, hd, readsOf_eq_nil_iff.mp hdead⟩
  · rintro ⟨pre, d, post, hsplit, rfl, v, hd, hdead⟩
    exact ⟨_, ⟨⟨pre, d, post, hsplit, v, hd, rfl⟩,
      readsOf_eq_nil_iff.mpr hdead⟩, rfl⟩

theorem exposed_of_not_mem_dead
    {pre post : List Instruction} {d : Instruction} {v : VarId}
    (hsplit : code = pre ++ d :: post) (hv : d.defined? = some v)
    (hleft : d.id ∉ c.dead) :
    Exposed v post := by
  by_contra hnot
  exact hleft ((mem_dead_iff h).mpr ⟨pre, d, post, hsplit, rfl, v, hv, hnot⟩)

end Links

theorem Feeds.mem
    {code : List Instruction} {d u : Instruction} {v : VarId}
    (h : Feeds code d v u) :
    d ∈ code ∧ u ∈ code := by
  obtain ⟨pre, mid, post, rfl, -⟩ := h
  simp

theorem Feeds.defined?_eq
    {code : List Instruction} {d u : Instruction} {v : VarId}
    (h : Feeds code d v u) :
    d.defined? = some v := by
  obtain ⟨pre, mid, post, -, hd, -⟩ := h
  exact hd

/-- In a run that exposes no variable, every read sees a definition before it. -/
theorem exists_feeds_of_used
    {code pre post : List Instruction} {u : Instruction} {v : VarId}
    (hclosed : ¬ Exposed v code) (hsplit : code = pre ++ u :: post)
    (hv : v ∈ u.used) :
    ∃ d ∈ pre, Feeds code d v u := by
  have hdefined : ∃ k ∈ pre, k.defined? = some v := by
    by_contra hnone
    simp only [not_exists, not_and] at hnone
    exact hclosed (exposed_iff.mpr ⟨pre, u, post, hsplit, hv, hnone⟩)
  obtain ⟨front, d, back, rfl, hd, hback⟩ := exists_last_definition hdefined
  refine ⟨d, by simp, front, back, post, ?_, hd, hv, hback⟩
  rw [hsplit, List.append_assoc, List.cons_append]

/-! ## Distinct handles -/

section Distinct

variable {code : List Instruction} (hids : (code.map Instruction.id).Nodup)
include hids

/-- Where handles are distinct, an instruction has one place only. -/
theorem eq_of_splits
    {pre pre' post post' : List Instruction} {d d' : Instruction}
    (h : code = pre ++ d :: post) (h' : code = pre' ++ d' :: post')
    (hid : d'.id = d.id) :
    d' = d ∧ post' = post := by
  obtain rfl : d' = d := by
    apply List.inj_on_of_nodup_map hids _ _ hid
    · simp [h']
    · simp [h]
  have hnodup : d' ∉ pre' ++ post' := by
    apply (List.nodup_middle.mp ?_).notMem
    rw [← h']
    exact hids.of_map
  rw [List.mem_append, not_or] at hnodup
  have hsame := h'.symm.trans h
  rw [List.append_cons_inj_of_notMem hnodup.1 hnodup.2] at hsame
  exact ⟨rfl, hsame.2.2⟩

variable {c : Chains} (h : ofInstructions code = .ok c)
include h

theorem mem_dead_iff_of_split
    {pre post : List Instruction} {d : Instruction}
    (hsplit : code = pre ++ d :: post) :
    d.id ∈ c.dead ↔ ∃ v, d.defined? = some v ∧ ¬ Exposed v post := by
  rw [mem_dead_iff h]
  constructor
  · rintro ⟨pre', d', post', hsplit', hid, hdead⟩
    obtain ⟨rfl, rfl⟩ := eq_of_splits hids hsplit hsplit' hid
    exact hdead
  · intro hdead
    exact ⟨pre, d, post, hsplit, rfl, hdead⟩

theorem Feeds.not_mem_dead
    {d u : Instruction} {v : VarId} (hfeeds : Feeds code d v u) :
    d.id ∉ c.dead := by
  obtain ⟨pre, mid, post, hsplit, hd, hu, hmid⟩ := hfeeds
  rw [mem_dead_iff_of_split hids h hsplit]
  rintro ⟨w, hw, hdead⟩
  obtain rfl := Option.some.inj (hd.symm.trans hw)
  exact hdead (exposed_iff.mpr ⟨mid, u, post, rfl, hu, hmid⟩)

theorem not_mem_dead_of_defined?_eq_none
    {u : Instruction} (hu : u ∈ code) (hnone : u.defined? = none) :
    u.id ∉ c.dead := by
  obtain ⟨pre, post, hsplit⟩ := List.append_of_mem hu
  rw [mem_dead_iff_of_split hids h hsplit, hnone]
  simp

end Distinct

end Chains
end ThreeAddress
