import Mathlib.Algebra.Order.BigOperators.Group.List
import Mathlib.Data.List.SplitBy
import ThreeAddress.Proofs.Code.Store
import ThreeAddress.Proofs.FlowGraph.Wiring

/-!
# Blocks and the flow of control

The scan that cuts a program into blocks closes a block where a run ends, so the
blocks cover the instructions in order.  A jump ends its block and a labelled
instruction begins one.  A program whose jumps name labelled
instructions has a flow graph.
-/

namespace ThreeAddress

namespace Instruction

theorem isJump_of_jumpTarget?
    {i : Instruction} {target : InstrId} (h : i.jumpTarget? = some target) :
    i.isJump = true := by
  rw [Instruction.jumpTarget?] at h
  rw [Instruction.isJump]
  cases hs : i.statement <;> simp_all [Statement.jumpTarget?, Statement.isJump]

theorem exists_jumpTarget?_of_isJump
    {i : Instruction} (h : i.isJump = true) :
    ∃ target, i.jumpTarget? = some target := by
  rw [Instruction.isJump] at h
  rw [Instruction.jumpTarget?]
  cases hs : i.statement <;> simp_all [Statement.jumpTarget?, Statement.isJump]

theorem fallsThrough_of_not_isJump
    {i : Instruction} (h : i.isJump = false) :
    i.statement.fallsThrough = true := by
  rw [Instruction.isJump] at h
  cases hs : i.statement <;> simp_all [Statement.isJump, Statement.fallsThrough]

end Instruction

namespace Program

/-- Jumps name labelled instructions of the program. -/
def JumpsLabelled (p : Program) : Prop :=
  ∀ instr ∈ p.instrs.toList, ∀ target, instr.jumpTarget? = some target →
    ∃ found, p.get? target = some found ∧ found.labelled = true

theorem jumpsLabelled_iff {p : Program} :
    (∀ instr ∈ p.instrs.toList, instr.jumpTarget?.all
        (fun target => (p.get? target).any (·.labelled)) = true) ↔
      p.JumpsLabelled := by
  simp [JumpsLabelled, Option.all_eq_true, Option.any_eq_true]

instance : DecidablePred JumpsLabelled :=
  fun _ => decidable_of_iff _ jumpsLabelled_iff

/-- Control may pass from instruction `i` to instruction `j`. -/
def Flows (p : Program) (i j : Instruction) : Prop :=
  (∃ k, p.at? k = some i ∧ p.at? (k + 1) = some j ∧
      i.statement.fallsThrough = true) ∨
    (i ∈ p.instrs.toList ∧
      ∃ target, i.jumpTarget? = some target ∧ p.get? target = some j)

theorem mem_of_flows
    {p : Program} {i j : Instruction} (h : p.Flows i j) :
    i ∈ p.instrs.toList ∧ j ∈ p.instrs.toList := by
  rcases h with ⟨k, hi, hj, -⟩ | ⟨hi, target, -, hget⟩
  · exact ⟨mem_of_at? hi, mem_of_at? hj⟩
  · exact ⟨hi, (get?_eq_some hget).1⟩

theorem flows_of_next
    {p : Program} {k : Nat} {i j : Instruction} (hi : p.at? k = some i)
    (hj : p.at? (k + 1) = some j) (h : i.statement.fallsThrough = true) :
    p.Flows i j :=
  Or.inl ⟨k, hi, hj, h⟩

theorem flows_of_jump
    {p : Program} (hp : p.ids.Nodup) {i j : Instruction}
    (hi : i ∈ p.instrs.toList) {target : InstrId}
    (htarget : i.jumpTarget? = some target) {l : Nat}
    (hl : p.position? target = some l) (hj : p.at? l = some j) :
    p.Flows i j := by
  obtain ⟨found, hfound, hid⟩ := position?_eq_some hl
  obtain rfl := Option.some.inj (hfound.symm.trans hj)
  refine Or.inr ⟨hi, target, htarget, ?_⟩
  rw [← hid]
  exact get?_of_mem hp (mem_of_at? hj)

end Program

namespace Block

/-- A block whose instructions are all in the program can be resolved. -/
theorem resolve_eq_ok
    {p : Program} {b : Block} (h : ∀ id ∈ b.instrs, id ∈ p.ids) :
    b.resolve p = .ok (b.instrs.filterMap p.get?) := by
  refine mapM_eq_ok ?_
  intro id hid
  obtain ⟨instr, hget⟩ := Program.exists_get?_iff.mpr (h id hid)
  exact ⟨instr, by rw [hget], hget⟩

theorem mem_ids_of_resolve
    {p : Program} {b : Block} {code : List Instruction}
    (h : b.resolve p = .ok code) :
    ∀ id ∈ b.instrs, id ∈ p.ids := by
  intro id hid
  obtain ⟨instr, hinstr⟩ := exists_ok_of_mapM h id hid
  rw [← Program.exists_get?_iff]
  cases hget : p.get? id with
  | some found => exact ⟨found, rfl⟩
  | none =>
      rw [hget] at hinstr
      contradiction

/-! ## The runs of a program -/

/-- Whether control always passes from the first instruction to the second
within a block. -/
def continues (first second : Instruction) : Bool :=
  !(first.isJump || second.labelled)

/-- The runs of a program, cut before labelled instructions and after jumps. -/
def runs (p : Program) : List (List Instruction) :=
  p.instrs.toList.splitBy continues

theorem flatten_runs (p : Program) : (runs p).flatten = p.instrs.toList :=
  List.flatten_splitBy continues p.instrs.toList

theorem ne_nil_of_mem_runs
    {p : Program} {run : List Instruction} (h : run ∈ runs p) :
    run ≠ [] :=
  List.ne_nil_of_mem_splitBy h

theorem length_runs_le (p : Program) : (runs p).length ≤ p.size := by
  have hone : ∀ n ∈ (runs p).map List.length, 1 ≤ n := by
    intro n hn
    obtain ⟨run, hrun, rfl⟩ := List.mem_map.mp hn
    exact List.length_pos_iff.mpr (ne_nil_of_mem_runs hrun)
  have hsum := List.length_le_sum_of_one_le _ hone
  rw [List.length_map, ← List.length_flatten, flatten_runs] at hsum
  exact hsum

/-! ## The partition -/

/-- Blocks of some runs, numbered in order. -/
def ofRuns (runs : List (List Instruction)) : List Block :=
  runs.zipIdx.map fun entry => ofInstrs entry.2 (entry.1.map Instruction.id)

theorem length_ofRuns (runs : List (List Instruction)) :
    (ofRuns runs).length = runs.length := by
  rw [ofRuns, List.length_map, List.length_zipIdx]

theorem ofRuns_concat (runs : List (List Instruction)) (run : List Instruction) :
    ofRuns (runs ++ [run]) =
      ofRuns runs ++ [ofInstrs runs.length (run.map Instruction.id)] := by
  simp [ofRuns, List.zipIdx_append]

namespace Cut

/-- A scan that has closed some runs, and whose open run ends with `last`. -/
def ofOpen
    (closed : List (List Instruction)) (front : List Instruction)
    (last : Instruction) : Cut :=
  ⟨(ofRuns closed).toArray, ((front ++ [last]).map Instruction.id).toArray,
    last.isJump⟩

variable (closed : List (List Instruction)) (front : List Instruction)
  (last next : Instruction)

theorem flush_ofOpen :
    (ofOpen closed front last).flush =
      ⟨(ofRuns (closed ++ [front ++ [last]])).toArray, #[], last.isJump⟩ := by
  simp [flush, ofOpen, ofRuns_concat, length_ofRuns]

theorem step_ofOpen :
    (ofOpen closed front last).step next =
      if continues last next then
        ofOpen closed (front ++ [last]) next
      else
        ofOpen (closed ++ [front ++ [last]]) [] next := by
  have hjump : (ofOpen closed front last).afterJump = last.isJump := rfl
  rw [step, hjump, continues, Bool.or_comm]
  cases last.isJump || next.labelled with
  | true =>
      simp only [if_true, flush_ofOpen]
      simp [ofOpen]
  | false => simp [ofOpen]

/-- The scan closes the runs that the loop of `List.splitBy` closes, whatever runs
are closed and open before. -/
theorem blocks_flush_foldl_step
    (rest : List Instruction) (last : Instruction) (front : List Instruction)
    (closed : List (List Instruction)) :
    (rest.foldl step (ofOpen closed.reverse front.reverse last)).flush.blocks =
      (ofRuns (List.splitBy.loop continues rest last front closed)).toArray := by
  induction rest generalizing last front closed with
  | nil =>
      rw [List.foldl_nil, flush_ofOpen, List.splitBy.loop, List.reverse_cons,
        List.reverse_cons]
  | cons next rest ih =>
      rw [List.foldl_cons, step_ofOpen, List.splitBy.loop]
      cases continues last next with
      | true => simpa using ih next (last :: front) closed
      | false => simpa using ih next [] ((last :: front).reverse :: closed)

theorem step_start (first : Instruction) : start.step first = ofOpen [] [] first := by
  simp [step, start, flush, ofOpen, ofRuns]

end Cut

/-- A block is closed where the runs of a program are cut. -/
theorem partition_eq_ofRuns (p : Program) : partition p = ofRuns (runs p) := by
  rw [partition, runs]
  cases p.instrs.toList with
  | nil => rfl
  | cons first rest =>
      rw [List.foldl_cons, Cut.step_start, List.splitBy]
      exact congrArg Array.toList (Cut.blocks_flush_foldl_step rest first [] [])

theorem getElem?_partition (p : Program) (n : NodeId) :
    (partition p)[n]? =
      (runs p)[n]?.map fun run => ofInstrs n (run.map Instruction.id) := by
  simp [partition_eq_ofRuns, ofRuns, Function.comp_def]

theorem length_partition (p : Program) :
    (partition p).length = (runs p).length := by
  rw [partition_eq_ofRuns, length_ofRuns]

theorem partition_ne_nil {p : Program} (hne : p.instrs.toList ≠ []) :
    partition p ≠ [] := by
  rw [← List.length_pos_iff, length_partition, List.length_pos_iff]
  exact List.splitBy_ne_nil.mpr hne

theorem map_instrs_partition (p : Program) :
    (partition p).map Block.instrs =
      (runs p).map fun run => run.map Instruction.id := by
  apply List.ext_getElem?
  intro n
  rw [List.getElem?_map, List.getElem?_map, getElem?_partition, Option.map_map]
  rfl

theorem mem_of_mem_runs
    {p : Program} {run : List Instruction} {instr : Instruction}
    (hrun : run ∈ runs p) (h : instr ∈ run) :
    instr ∈ p.instrs.toList := by
  rw [← flatten_runs]
  exact List.mem_flatten.mpr ⟨run, hrun, h⟩

theorem exists_mem_runs
    {p : Program} {instr : Instruction} (h : instr ∈ p.instrs.toList) :
    ∃ (n : NodeId) (run : List Instruction), (runs p)[n]? = some run ∧ instr ∈ run := by
  rw [← flatten_runs, List.mem_flatten] at h
  obtain ⟨run, hrun, hmem⟩ := h
  obtain ⟨n, hn⟩ := List.mem_iff_getElem?.mp hrun
  exact ⟨n, run, hn, hmem⟩

/-- A run goes on neither after a jump nor before a labelled instruction. -/
theorem not_isJump_and_not_labelled
    {p : Program} {run pre post : List Instruction} {i j : Instruction}
    (hrun : run ∈ runs p) (h : run = pre ++ i :: j :: post) :
    i.isJump = false ∧ j.labelled = false := by
  have hchain := List.isChain_of_mem_splitBy hrun
  rw [h, List.isChain_append] at hchain
  have hcontinues := (List.isChain_cons_cons.mp hchain.2.1).1
  simpa [continues] using hcontinues

theorem eq_append_singleton_of_isJump
    {p : Program} {run : List Instruction} {i : Instruction}
    (hrun : run ∈ runs p) (hi : i ∈ run) (hjump : i.isJump = true) :
    ∃ pre, run = pre ++ [i] := by
  obtain ⟨pre, post, hsplit⟩ := List.append_of_mem hi
  cases post with
  | nil => exact ⟨pre, hsplit⟩
  | cons j post =>
      rw [(not_isJump_and_not_labelled hrun hsplit).1] at hjump
      contradiction

/-- Two neighbours in a concatenation are neighbours in a part, or the last and
the first of two neighbouring parts. -/
theorem neighbours_of_flatten_eq
    {α : Type} {parts : List (List α)} (hne : [] ∉ parts)
    {pre post : List α} {x y : α}
    (h : parts.flatten = pre ++ x :: y :: post) :
    (∃ (n : Nat) (front back : List α),
        parts[n]? = some (front ++ x :: y :: back)) ∨
      ∃ (n : Nat) (front back : List α), parts[n]? = some (front ++ [x]) ∧
        parts[n + 1]? = some (y :: back) := by
  induction parts generalizing pre with
  | nil => simp at h
  | cons part rest ih =>
      rw [List.mem_cons, not_or] at hne
      have hlater : ∀ {pre : List α}, rest.flatten = pre ++ x :: y :: post →
          (∃ (n : Nat) (front back : List α),
              (part :: rest)[n]? = some (front ++ x :: y :: back)) ∨
            ∃ (n : Nat) (front back : List α),
              (part :: rest)[n]? = some (front ++ [x]) ∧
              (part :: rest)[n + 1]? = some (y :: back) := by
        intro pre hrest
        rcases ih hne.2 hrest with ⟨n, front, back, hn⟩ | ⟨n, front, back, hn⟩
        · exact Or.inl ⟨n + 1, front, back, hn⟩
        · exact Or.inr ⟨n + 1, front, back, hn⟩
      rw [List.flatten_cons, List.append_eq_append_iff] at h
      rcases h with ⟨tail, -, hrest⟩ | ⟨tail, hpart, htail⟩
      · exact hlater hrest
      · match tail, hpart, htail with
        | [], _, htail =>
            have hrest : rest.flatten = [] ++ x :: y :: post := htail.symm
            exact hlater hrest
        | [z], hpart, htail =>
            obtain ⟨rfl, hrest⟩ := List.cons.inj htail
            cases rest with
            | nil => simp at hrest
            | cons part' rest' =>
                cases part' with
                | nil => exact absurd List.mem_cons_self hne.2
                | cons z back =>
                    obtain ⟨rfl, -⟩ := List.cons.inj hrest
                    exact Or.inr ⟨0, pre, back, congrArg some hpart, rfl⟩
        | z :: w :: back, hpart, htail =>
            obtain ⟨rfl, hrest⟩ := List.cons.inj htail
            obtain ⟨rfl, -⟩ := List.cons.inj hrest
            exact Or.inl ⟨0, pre, back, congrArg some hpart⟩

theorem neighbours_of_at?
    {p : Program} {k : Nat} {i j : Instruction} (hi : p.at? k = some i)
    (hj : p.at? (k + 1) = some j) :
    (∃ (n : NodeId) (front back : List Instruction),
        (runs p)[n]? = some (front ++ i :: j :: back)) ∨
      ∃ (n : NodeId) (front back : List Instruction),
        (runs p)[n]? = some (front ++ [i]) ∧
        (runs p)[n + 1]? = some (j :: back) := by
  rw [Program.at?, ← Array.getElem?_toList] at hi hj
  obtain ⟨hk, rfl⟩ := List.getElem?_eq_some_iff.mp hi
  obtain ⟨hk', rfl⟩ := List.getElem?_eq_some_iff.mp hj
  have hflatten : (runs p).flatten = p.instrs.toList.take k ++
      p.instrs.toList[k] :: p.instrs.toList[k + 1] ::
        p.instrs.toList.drop (k + 2) := by
    rw [← List.drop_eq_getElem_cons, ← List.drop_eq_getElem_cons,
      List.take_append_drop, flatten_runs]
  exact neighbours_of_flatten_eq (List.nil_notMem_splitBy _ _) hflatten

theorem exists_first_run
    {p : Program} {instr : Instruction} (h : p.at? 0 = some instr) :
    ∃ post, (runs p)[0]? = some (instr :: post) := by
  have hne := List.nil_notMem_splitBy continues p.instrs.toList
  have hflatten : (runs p).flatten[0]? = some instr := by
    rw [flatten_runs, Array.getElem?_toList]
    exact h
  change [] ∉ runs p at hne
  match hruns : runs p with
  | [] => simp [hruns] at hflatten
  | [] :: rest => simp [hruns] at hne
  | (first :: post) :: rest =>
      rw [hruns] at hflatten
      obtain rfl := Option.some.inj hflatten
      exact ⟨post, rfl⟩

end Block

namespace FlowGraph

open Block

theorem mem_ids_of_mem_partition
    {p : Program} {b : Block} (hb : b ∈ partition p) {id : InstrId}
    (hid : id ∈ b.instrs) :
    id ∈ p.ids := by
  obtain ⟨n, hn⟩ := List.mem_iff_getElem?.mp hb
  rw [getElem?_partition, Option.map_eq_some_iff] at hn
  obtain ⟨run, hrun, rfl⟩ := hn
  obtain ⟨instr, hinstr, rfl⟩ := List.mem_map.mp hid
  exact List.mem_map_of_mem
    (mem_of_mem_runs (List.mem_of_getElem? hrun) hinstr)

theorem exists_locate?_partition
    {p : Program} {instr : Instruction} (h : instr ∈ p.instrs.toList) :
    ∃ n, locate? (partition p) instr.id = some n := by
  obtain ⟨n, run, hrun, hmem⟩ := exists_mem_runs h
  have hb : (partition p)[n]? =
      some (ofInstrs n (run.map Instruction.id)) := by
    rw [getElem?_partition, hrun]
    rfl
  exact exists_locate? (List.mem_of_getElem? hb) (List.mem_map_of_mem hmem)

theorem exists_of_locate?_partition
    {p : Program} {id : InstrId} {n : NodeId}
    (h : locate? (partition p) id = some n) :
    ∃ run, (runs p)[n]? = some run ∧ ∃ j ∈ run, j.id = id := by
  obtain ⟨b, hb, hid⟩ := locate?_eq_some h
  rw [getElem?_partition, Option.map_eq_some_iff] at hb
  obtain ⟨run, hrun, rfl⟩ := hb
  exact ⟨run, hrun, List.mem_map.mp hid⟩

theorem run_of_locate?_partition
    {p : Program} (hp : p.ids.Nodup) {j : Instruction}
    (hj : j ∈ p.instrs.toList) {n : NodeId}
    (h : locate? (partition p) j.id = some n) :
    ∃ run, (runs p)[n]? = some run ∧ j ∈ run := by
  obtain ⟨run, hrun, other, hother, hsame⟩ := exists_of_locate?_partition h
  have hmem := mem_of_mem_runs (List.mem_of_getElem? hrun) hother
  rw [Program.eq_of_id_eq hp hmem hj hsame] at hother
  exact ⟨run, hrun, hother⟩

/-- A block whose run ends with an instruction ends with its handle. -/
theorem terminator?_partition
    {p : Program} {n : NodeId} {front : List Instruction} {i : Instruction}
    (h : (runs p)[n]? = some (front ++ [i])) :
    ∃ b, (partition p)[n]? = some b ∧ b.terminator? = some i.id := by
  refine ⟨ofInstrs n ((front ++ [i]).map Instruction.id), ?_, ?_⟩
  · rw [getElem?_partition, h]
    rfl
  · simp [terminator?, ofInstrs]

/-! ## The flow graph exists -/

theorem exists_ends_of_mem_partition
    {p : Program} (hp : p.ids.Nodup) {b : Block} (hb : b ∈ partition p) :
    ∃ instr ∈ p.instrs.toList, Ends p b instr := by
  obtain ⟨n, hn⟩ := List.mem_iff_getElem?.mp hb
  have hn' := hn
  rw [getElem?_partition, Option.map_eq_some_iff] at hn'
  obtain ⟨run, hrun, -⟩ := hn'
  have hmem := List.mem_of_getElem? hrun
  obtain ⟨front, last, rfl⟩ :=
    (List.eq_nil_or_concat' run).resolve_left (ne_nil_of_mem_runs hmem)
  obtain ⟨b', hb', hlast⟩ := terminator?_partition hrun
  obtain rfl := Option.some.inj (hn.symm.trans hb')
  have hinstr : last ∈ p.instrs.toList :=
    mem_of_mem_runs hmem (by simp)
  exact ⟨last, hinstr, hlast, Program.get?_of_mem hp hinstr⟩

theorem resolved_partition
    {p : Program} (hp : p.ids.Nodup)
    (hjumps : ∀ instr ∈ p.instrs.toList, ∀ target,
      instr.jumpTarget? = some target → target ∈ p.ids)
    {b : Block} (hb : b ∈ partition p) :
    Resolved p (partition p) b := by
  obtain ⟨last, hmem, hlast, hget⟩ := exists_ends_of_mem_partition hp hb
  refine ⟨last.id, last, hlast, hget, ?_⟩
  intro target htarget
  obtain ⟨found, hfound, rfl⟩ :=
    List.mem_map.mp (hjumps last hmem target htarget)
  exact exists_locate?_partition hfound

theorem joinable_partition
    {p : Program} (hp : p.ids.Nodup) (hne : p.instrs.toList ≠ [])
    (hjumps : ∀ instr ∈ p.instrs.toList, ∀ target,
      instr.jumpTarget? = some target → target ∈ p.ids) :
    Joinable p (partition p) := by
  refine ⟨partition_ne_nil hne, ?_,
    fun b hb => resolved_partition hp hjumps hb⟩
  intro b hb
  obtain ⟨instr, -, hends⟩ := exists_ends_of_mem_partition hp hb
  exact hends.instrs_ne_nil

theorem ofProgram_eq_ok_iff {p : Program} {g : FlowGraph} :
    ofProgram p = .ok g ↔ ofBlocks p (partition p) = .ok g := by
  rw [ofProgram]
  split
  · next h => simp [ofBlocks, h]
  · rfl

theorem exists_ofProgram
    {p : Program} (hp : p.ids.Nodup) (hne : p.instrs.toList ≠ [])
    (hjumps : p.JumpsLabelled) :
    ∃ g, ofProgram p = .ok g := by
  have hids : ∀ instr ∈ p.instrs.toList, ∀ target,
      instr.jumpTarget? = some target → target ∈ p.ids := by
    intro instr hinstr target htarget
    obtain ⟨found, hfound, -⟩ := hjumps instr hinstr target htarget
    exact Program.exists_get?_iff.mp ⟨found, hfound⟩
  obtain ⟨g, hg, -⟩ := exists_ofBlocks (joinable_partition hp hne hids)
  exact ⟨g, ofProgram_eq_ok_iff.mpr hg⟩

theorem spans_of_ofProgram
    {p : Program} {g : FlowGraph} (h : ofProgram p = .ok g) :
    Spans p (partition p) g :=
  spans_of_ofBlocks (ofProgram_eq_ok_iff.mp h)

theorem entry_lt_of_ofProgram
    {p : Program} {g : FlowGraph} (h : ofProgram p = .ok g) :
    entry < g.blockCount :=
  entry_lt_of_ofBlocks (ofProgram_eq_ok_iff.mp h)

end FlowGraph
end ThreeAddress
