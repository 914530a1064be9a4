import ThreeAddress.Proofs.FlowGraph.Layout

/-!
# Leaders

Blocks begin at the leaders of a program: at its first instruction, at every
labelled one, and after every jump.  What a jump names plays no part in this.  So
a jump leads to the beginning of a block exactly if it names a leader, and if all
jumps do, control passes from one instruction to another either within a block or
along an edge of the flow graph.
-/

namespace ThreeAddress

namespace Program

/-- An instruction is labelled, or the first of the program, or comes right after
a jump. -/
def Leader (p : Program) (j : Instruction) : Prop :=
  j.labelled = true ∨ p.at? 0 = some j ∨
    ∃ k < p.size, (∃ i ∈ p.at? k, i.isJump = true) ∧ p.at? (k + 1) = some j

instance (p : Program) : DecidablePred p.Leader :=
  fun _ => inferInstanceAs (Decidable (_ ∨ _ ∨ _))

/-- Jumps name leaders. -/
def JumpsToLeaders (p : Program) : Prop :=
  ∀ i ∈ p.instrs.toList, ∀ target ∈ i.jumpTarget?, ∀ j ∈ p.get? target,
    p.Leader j

instance : DecidablePred JumpsToLeaders :=
  fun p => inferInstanceAs (Decidable (∀ i ∈ p.instrs.toList,
    ∀ target ∈ i.jumpTarget?, ∀ j ∈ p.get? target, p.Leader j))

theorem JumpsLabelled.jumpsToLeaders
    {p : Program} (h : p.JumpsLabelled) :
    p.JumpsToLeaders := by
  intro i hi target htarget j hj
  obtain ⟨found, hfound, hlabelled⟩ := h i hi target htarget
  obtain rfl := Option.some.inj (hfound.symm.trans hj)
  exact Or.inl hlabelled

theorem at?_of_toList_eq
    {p : Program} {pre post : List Instruction} {i j : Instruction}
    (h : p.instrs.toList = pre ++ i :: j :: post) :
    p.at? pre.length = some i ∧ p.at? (pre.length + 1) = some j := by
  simp only [at?, ← Array.getElem?_toList, h]
  simp

/-- An instruction has one position only. -/
theorem eq_of_at?
    {p : Program} (hp : p.ids.Nodup) {k l : Nat} {i : Instruction}
    (hk : p.at? k = some i) (hl : p.at? l = some i) :
    k = l :=
  Option.some.inj
    ((position?_of_at? hp hk).symm.trans (position?_of_at? hp hl))

end Program

namespace Block

variable {p : Program}

theorem flatten_eq_of_getElem?
    {α : Type} {parts : List (List α)} {n : Nat} {part : List α}
    (h : parts[n]? = some part) :
    parts.flatten =
      (parts.take n).flatten ++ (part ++ (parts.drop (n + 1)).flatten) := by
  obtain ⟨hn, rfl⟩ := List.getElem?_eq_some_iff.mp h
  rw [← List.flatten_cons, ← List.drop_eq_getElem_cons hn,
    ← List.flatten_append, List.take_append_drop]

/-- Neighbours in a run are neighbours in the program. -/
theorem at?_of_run
    {n : NodeId} {front back : List Instruction} {i j : Instruction}
    (h : (runs p)[n]? = some (front ++ i :: j :: back)) :
    ∃ k, p.at? k = some i ∧ p.at? (k + 1) = some j := by
  have hflatten := flatten_eq_of_getElem? h
  rw [flatten_runs, List.append_assoc, ← List.append_assoc] at hflatten
  exact ⟨_, Program.at?_of_toList_eq hflatten⟩

/-- So are the last instruction of a run and the first of the next. -/
theorem at?_of_runs
    {n : NodeId} {front back : List Instruction} {i j : Instruction}
    (hi : (runs p)[n]? = some (front ++ [i]))
    (hj : (runs p)[n + 1]? = some (j :: back)) :
    ∃ k, p.at? k = some i ∧ p.at? (k + 1) = some j := by
  have hflatten := flatten_eq_of_getElem? hi
  obtain ⟨hn, hrun⟩ := List.getElem?_eq_some_iff.mp hj
  rw [flatten_runs, List.drop_eq_getElem_cons hn, hrun, List.flatten_cons,
    List.append_assoc, ← List.append_assoc] at hflatten
  exact ⟨_, Program.at?_of_toList_eq hflatten⟩

/-- Where a run ends and the next begins, there is a jump or a label. -/
theorem isJump_or_labelled
    {n : NodeId} {front back : List Instruction} {i j : Instruction}
    (hi : (runs p)[n]? = some (front ++ [i]))
    (hj : (runs p)[n + 1]? = some (j :: back)) :
    i.isJump = true ∨ j.labelled = true := by
  have hchain := List.isChain_getLast_head_splitBy continues p.instrs.toList
  rw [List.isChain_iff_getElem] at hchain
  obtain ⟨hn, hrun⟩ := List.getElem?_eq_some_iff.mp hj
  obtain ⟨_, hrun'⟩ := List.getElem?_eq_some_iff.mp hi
  obtain ⟨_, _, hcut⟩ := hchain n hn
  change continues (((runs p)[n]).getLast _) (((runs p)[n + 1]).head _) = false
    at hcut
  simp only [hrun, hrun', List.getLast_append_singleton, List.head_cons,
    continues, Bool.not_eq_eq_eq_not, Bool.not_false, Bool.or_eq_true] at hcut
  exact hcut

theorem leader_of_run
    {n : NodeId} {j : Instruction} {back : List Instruction}
    (h : (runs p)[n]? = some (j :: back)) :
    p.Leader j := by
  cases n with
  | zero =>
      have hflatten := flatten_eq_of_getElem? h
      rw [flatten_runs] at hflatten
      refine Or.inr (Or.inl ?_)
      rw [Program.at?, ← Array.getElem?_toList, hflatten]
      rfl
  | succ n =>
      have hn : n < (runs p).length :=
        Nat.lt_of_succ_lt (List.getElem?_eq_some_iff.mp h).1
      obtain ⟨front, i, hrun⟩ :=
        (List.eq_nil_or_concat' (runs p)[n]).resolve_left
          (ne_nil_of_mem_runs (List.getElem_mem hn))
      have hi : (runs p)[n]? = some (front ++ [i]) := by
        rw [List.getElem?_eq_getElem hn, hrun]
      rcases isJump_or_labelled hi h with hjump | hlabelled
      · obtain ⟨k, hk, hnext⟩ := at?_of_runs hi h
        exact Or.inr (Or.inr
          ⟨k, Program.lt_of_at? hk, ⟨i, hk, hjump⟩, hnext⟩)
      · exact Or.inl hlabelled

/-- A leader begins the run in which it stands. -/
theorem eq_cons_of_leader
    (hp : p.ids.Nodup) {n : NodeId} {run : List Instruction} {j : Instruction}
    (hrun : (runs p)[n]? = some run) (hj : j ∈ run) (h : p.Leader j) :
    ∃ post, run = j :: post := by
  obtain ⟨pre, post, rfl⟩ := List.append_of_mem hj
  rcases List.eq_nil_or_concat' pre with rfl | ⟨front, i, rfl⟩
  · exact ⟨post, rfl⟩
  · rw [List.append_assoc, List.singleton_append] at hrun
    obtain ⟨hjump, hlabelled⟩ :=
      not_isJump_and_not_labelled (List.mem_of_getElem? hrun) rfl
    obtain ⟨k, hi, hk⟩ := at?_of_run hrun
    -- its predecessor in the run is no jump, and it has no other position
    rcases h with hmark | hfirst | ⟨l, -, ⟨i', hi', hjump'⟩, hl⟩
    · exact absurd hmark (Bool.eq_false_iff.mp hlabelled)
    · exact absurd (Program.eq_of_at? hp hk hfirst) (Nat.succ_ne_zero k)
    · obtain rfl := Nat.succ.inj (Program.eq_of_at? hp hk hl)
      obtain rfl := Option.some.inj (hi.symm.trans hi')
      exact absurd hjump' (Bool.eq_false_iff.mp hjump)

end Block

namespace FlowGraph

open Block

variable {p : Program}

/-- A jump ends a run, and control may pass from there to the block in which the
instruction stands that it names. -/
theorem leads_of_jump
    (hp : p.ids.Nodup) {i j : Instruction} (hi : i ∈ p.instrs.toList)
    {target : InstrId} (htarget : i.jumpTarget? = some target)
    (hget : p.get? target = some j) :
    ∃ (u v : NodeId) (front run : List Instruction),
      (runs p)[u]? = some (front ++ [i]) ∧ (runs p)[v]? = some run ∧
        j ∈ run ∧ Leads p (partition p) u v := by
  obtain ⟨hj, rfl⟩ := Program.get?_eq_some hget
  obtain ⟨u, run, hu, hmem⟩ := exists_mem_runs hi
  obtain ⟨front, rfl⟩ := eq_append_singleton_of_isJump
    (List.mem_of_getElem? hu) hmem (Instruction.isJump_of_jumpTarget? htarget)
  obtain ⟨v, hv⟩ := exists_locate?_partition hj
  obtain ⟨run, hrun, hmem'⟩ := run_of_locate?_partition hp hj hv
  obtain ⟨b, hb, hlast⟩ := terminator?_partition hu
  exact ⟨u, v, front, run, hu, hrun, hmem', b, i.id, i, hb, hlast,
    Program.get?_of_mem hp hi, Or.inl ⟨_, htarget, hv⟩⟩

/-- If jumps name leaders, control moves within runs and along edges. -/
theorem flows_cases
    (hp : p.ids.Nodup) (hjumps : p.JumpsToLeaders) {i j : Instruction}
    (h : p.Flows i j) :
    (∃ (n : NodeId) (front back : List Instruction),
        (runs p)[n]? = some (front ++ i :: j :: back)) ∨
      ∃ (u v : NodeId) (front back : List Instruction),
        (runs p)[u]? = some (front ++ [i]) ∧
        (runs p)[v]? = some (j :: back) ∧ Leads p (partition p) u v := by
  rcases h with ⟨k, hi, hj, hfalls⟩ | ⟨hi, target, htarget, hget⟩
  · have hmem := Program.mem_of_at? hi
    rcases neighbours_of_at? hi hj with hwithin | ⟨n, front, back, hn, hnext⟩
    · exact Or.inl hwithin
    · obtain ⟨b, hb, hlast⟩ := terminator?_partition hn
      have hlt : n + 1 < (partition p).length := by
        rw [length_partition]
        exact (List.getElem?_eq_some_iff.mp hnext).1
      exact Or.inr ⟨n, n + 1, front, back, hn, hnext, b, i.id, i, hb, hlast,
        Program.get?_of_mem hp hmem, Or.inr ⟨hfalls, rfl, hlt⟩⟩
  · obtain ⟨u, v, front, run, hu, hv, hj, hleads⟩ :=
      leads_of_jump hp hi htarget hget
    obtain ⟨back, rfl⟩ :=
      eq_cons_of_leader hp hv hj (hjumps i hi target htarget j hget)
    exact Or.inr ⟨u, v, front, back, hu, hv, hleads⟩

theorem flows_of_run
    {n : NodeId} {front back : List Instruction} {i j : Instruction}
    (h : (runs p)[n]? = some (front ++ i :: j :: back)) :
    p.Flows i j := by
  obtain ⟨k, hi, hj⟩ := at?_of_run h
  obtain ⟨hjump, -⟩ :=
    not_isJump_and_not_labelled (List.mem_of_getElem? h) rfl
  exact Program.flows_of_next hi hj (Instruction.fallsThrough_of_not_isJump hjump)

/-- If jumps name leaders, control may pass along every edge. -/
theorem flows_of_leads
    (hp : p.ids.Nodup) (hjumps : p.JumpsToLeaders) {u v : NodeId}
    {front back : List Instruction} {i j : Instruction}
    (hu : (runs p)[u]? = some (front ++ [i]))
    (hv : (runs p)[v]? = some (j :: back)) (h : Leads p (partition p) u v) :
    p.Flows i j := by
  have hi : i ∈ p.instrs.toList :=
    mem_of_mem_runs (List.mem_of_getElem? hu) (by simp)
  obtain ⟨b, last, instr, hb, hlast, hget, hways⟩ := h
  obtain rfl : i = instr := by
    obtain ⟨b', hb', hlast'⟩ := terminator?_partition hu
    obtain rfl := Option.some.inj (hb.symm.trans hb')
    obtain rfl := Option.some.inj (hlast.symm.trans hlast')
    exact Option.some.inj ((Program.get?_of_mem hp hi).symm.trans hget)
  rcases hways with ⟨target, htarget, hlocate⟩ | ⟨hfalls, rfl, -⟩
  · obtain ⟨run, hrun, found, hfound, rfl⟩ :=
      exists_of_locate?_partition hlocate
    obtain rfl := Option.some.inj (hrun.symm.trans hv)
    have htarget' := Program.get?_of_mem hp
      (mem_of_mem_runs (List.mem_of_getElem? hv) hfound)
    -- the block begins with the instruction that the jump names
    obtain ⟨post, hrun⟩ := eq_cons_of_leader hp hv hfound
      (hjumps i hi _ htarget found htarget')
    obtain ⟨rfl, -⟩ := List.cons.inj hrun
    exact Or.inr ⟨hi, _, htarget, htarget'⟩
  · obtain ⟨k, hk, hnext⟩ := at?_of_runs hu hv
    exact Program.flows_of_next hk hnext hfalls

end FlowGraph
end ThreeAddress
