import ThreeAddress.Proofs.FlowGraph.Layout

/-!
# Which programs have a flow graph

A program has a flow graph exactly if it has instructions and its jumps name
instructions of the program.  What is said against any other program that has
instructions is that one of its jumps names an instruction it does not have.
-/

namespace ThreeAddress

namespace Program

/-- Jumps name instructions of the program. -/
def JumpsResolve (p : Program) : Prop :=
  ∀ i ∈ p.instrs.toList, ∀ target ∈ i.jumpTarget?, target ∈ p.ids

instance : DecidablePred JumpsResolve :=
  fun p => inferInstanceAs (Decidable (∀ i ∈ p.instrs.toList,
    ∀ target ∈ i.jumpTarget?, target ∈ p.ids))

end Program

namespace FlowGraph

open Block

/-! ## Errors -/

theorem destination_eq_error_iff
    {blocks : List Block} {jump target : InstrId} {e : Error} :
    destination blocks jump target = .error e ↔
      locate? blocks target = none ∧ e = .unresolvedJump jump target := by
  rw [destination]
  split
  · next h => simp [h]
  · next h => simp [h, eq_comm]

theorem arcsAfter_eq_error
    {p : Program} {blocks : List Block} {u : NodeId} {last : InstrId}
    {instr : Instruction} (hget : p.get? last = some instr) {e : Error}
    (h : arcsAfter p blocks u last = .error e) :
    ∃ target, instr.jumpTarget? = some target ∧
      locate? blocks target = none ∧ e = .unresolvedJump last target := by
  simp only [arcsAfter, hget] at h
  rw [Instruction.jumpTarget?]
  cases hstatement : instr.statement with
  | goto target =>
      rw [hstatement] at h
      simp only [bind_eq_error_iff, destination_eq_error_iff] at h
      rcases h with h | ⟨_, -, hok⟩
      · exact ⟨target, rfl, h⟩
      · contradiction
  | branch condition target =>
      rw [hstatement] at h
      simp only [bind_eq_error_iff, destination_eq_error_iff] at h
      rcases h with h | ⟨_, -, hok⟩
      · exact ⟨target, rfl, h⟩
      · contradiction
  | _ =>
      rw [hstatement] at h
      contradiction

theorem connectBlock_eq_error
    {p : Program} {blocks : List Block} {g : Digraph Block EdgeKind}
    (hg : g.WellFormed) (hcount : g.nodeCount = blocks.length) {b : Block}
    {source : NodeId} (hb : blocks[source]? = some b) {instr : Instruction}
    (hends : Ends p b instr) {e : Error}
    (h : connectBlock p blocks g (b, source) = .error e) :
    ∃ target, instr.jumpTarget? = some target ∧
      locate? blocks target = none ∧ e = .unresolvedJump instr.id target := by
  have hne := hends.instrs_ne_nil
  rcases bind_eq_error_iff.mp h with harcs | ⟨found, hfound, -⟩
  · rw [arcs, hends.1] at harcs
    exact arcsAfter_eq_error hends.2 harcs
  · -- if the block's ways are known, its edges can be added
    obtain ⟨next, hnext, -⟩ := exists_connectBlock hg hcount hb hne
      ((exists_arcs_iff hne).mp ⟨found, hfound⟩)
    rw [hnext] at h
    contradiction

theorem foldlM_connectBlock_eq_error
    {p : Program} {blocks : List Block} {items : List (Block × NodeId)}
    (hitems : ∀ item ∈ items, blocks[item.2]? = some item.1 ∧
      ∃ instr, Ends p item.1 instr)
    {g : Digraph Block EdgeKind} (hg : g.WellFormed)
    (hcount : g.nodeCount = blocks.length) {e : Error}
    (h : items.foldlM (connectBlock p blocks) g = .error e) :
    ∃ instr target, p.get? instr.id = some instr ∧
      instr.jumpTarget? = some target ∧ locate? blocks target = none ∧
        e = .unresolvedJump instr.id target := by
  induction items generalizing g with
  | nil => contradiction
  | cons item rest ih =>
      rw [List.forall_mem_cons] at hitems
      obtain ⟨⟨hb, instr, hends⟩, hrest⟩ := hitems
      rw [List.foldlM_cons, bind_eq_error_iff] at h
      rcases h with hfirst | ⟨next, hnext, hlater⟩
      · obtain ⟨target, htarget⟩ :=
          connectBlock_eq_error hg hcount hb hends hfirst
        exact ⟨instr, target, hends.2, htarget⟩
      · have hne := hends.instrs_ne_nil
        obtain ⟨found, hfound, -⟩ := bind_eq_ok_iff.mp hnext
        obtain ⟨next', hnext', hjoins⟩ := exists_connectBlock hg hcount hb hne
          ((exists_arcs_iff hne).mp ⟨found, hfound⟩)
        obtain rfl := Except.ok.inj (hnext.symm.trans hnext')
        refine ih hrest hjoins.wellFormed ?_ hlater
        rw [← hcount]
        exact congrArg Array.size hjoins.nodes_eq

theorem ends_renumber
    {p : Program} {blocks : List Block}
    (h : ∀ b ∈ blocks, ∃ instr, Ends p b instr) :
    ∀ item ∈ (renumber blocks).zipIdx,
      (renumber blocks)[item.2]? = some item.1 ∧
        ∃ instr, Ends p item.1 instr := by
  intro item hitem
  have hget := List.mem_zipIdx_iff_getElem?.mp hitem
  refine ⟨hget, ?_⟩
  rw [getElem?_renumber, Option.map_eq_some_iff] at hget
  obtain ⟨b, hb, hitem⟩ := hget
  rw [← hitem]
  exact h b (List.mem_of_getElem? hb)

/-- Blocks that end with instructions of the program are refused only because a
jump among these names an instruction that stands in no block. -/
theorem ofBlocks_eq_error
    {p : Program} {blocks : List Block} (hne : blocks ≠ [])
    (hends : ∀ b ∈ blocks, ∃ instr, Ends p b instr) {e : Error}
    (h : ofBlocks p blocks = .error e) :
    ∃ instr target, p.get? instr.id = some instr ∧
      instr.jumpTarget? = some target ∧ locate? blocks target = none ∧
        e = .unresolvedJump instr.id target := by
  have hcheck : blocks.forM checkBlock = .ok () := by
    rw [forM_checkBlock_iff]
    intro b hb
    obtain ⟨instr, hinstr⟩ := hends b hb
    exact hinstr.instrs_ne_nil
  rw [ofBlocks, if_neg (by simpa using hne), hcheck] at h
  rcases bind_eq_error_iff.mp h with hrefused | ⟨_, -, h⟩
  · contradiction
  rcases bind_eq_error_iff.mp h with hfold | ⟨_, -, hok⟩
  · rw [← funext (locate?_congr (map_instrs_renumber blocks))]
    exact foldlM_connectBlock_eq_error (ends_renumber hends)
      (foldl_addNode (renumber blocks) Digraph.wellFormed_empty).1
      (nodeCount_foldl_addNode _) hfold
  · contradiction

/-! ## Programs -/

variable {p : Program}

theorem exists_locate?_partition_iff {id : InstrId} :
    (∃ n, locate? (partition p) id = some n) ↔ id ∈ p.ids := by
  constructor
  · rintro ⟨n, hn⟩
    obtain ⟨run, hrun, j, hj, rfl⟩ := exists_of_locate?_partition hn
    exact List.mem_map_of_mem (mem_of_mem_runs (List.mem_of_getElem? hrun) hj)
  · intro hid
    obtain ⟨j, hj, rfl⟩ := List.mem_map.mp hid
    exact exists_locate?_partition hj

/-- A program with instructions is refused only because one of its jumps names an
instruction that it does not have. -/
theorem ofProgram_eq_error
    (hp : p.ids.Nodup) (hne : p.instrs.toList ≠ []) {e : Error}
    (h : ofProgram p = .error e) :
    ∃ i ∈ p.instrs.toList, ∃ target, i.jumpTarget? = some target ∧
      target ∉ p.ids ∧ e = .unresolvedJump i.id target := by
  have hends : ∀ b ∈ partition p, ∃ instr, Ends p b instr := by
    intro b hb
    obtain ⟨instr, -, hinstr⟩ := exists_ends_of_mem_partition hp hb
    exact ⟨instr, hinstr⟩
  have hblocks : (partition p).isEmpty = false := by
    simpa using partition_ne_nil hne
  simp only [ofProgram, hblocks] at h
  obtain ⟨i, target, hi, htarget, hnone, he⟩ :=
    ofBlocks_eq_error (partition_ne_nil hne) hends h
  refine ⟨i, (Program.get?_eq_some hi).1, target, htarget, ?_, he⟩
  rw [← exists_locate?_partition_iff, hnone]
  simp

theorem jumpsResolve_of_ofProgram
    (hp : p.ids.Nodup) {g : FlowGraph} (hg : ofProgram p = .ok g) :
    p.JumpsResolve := by
  intro i hi target htarget
  obtain ⟨n, run, hn, hmem⟩ := exists_mem_runs hi
  obtain ⟨front, rfl⟩ := eq_append_singleton_of_isJump
    (List.mem_of_getElem? hn) hmem (Instruction.isJump_of_jumpTarget? htarget)
  obtain ⟨b, hb, hlast⟩ := terminator?_partition hn
  obtain ⟨last, instr, hlast', hget, hlocate⟩ :=
    (joinable_of_ofBlocks (ofProgram_eq_ok_iff.mp hg)).resolved b
      (List.mem_of_getElem? hb)
  obtain rfl := Option.some.inj (hlast.symm.trans hlast')
  obtain rfl := Option.some.inj
    ((Program.get?_of_mem hp hi).symm.trans hget)
  exact exists_locate?_partition_iff.mp (hlocate target htarget)

theorem exists_ofProgram_iff (hp : p.ids.Nodup) :
    (∃ g, ofProgram p = .ok g) ↔ p.instrs.toList ≠ [] ∧ p.JumpsResolve := by
  constructor
  · rintro ⟨g, hg⟩
    refine ⟨?_, jumpsResolve_of_ofProgram hp hg⟩
    intro hnil
    have hblocks := (joinable_of_ofBlocks (ofProgram_eq_ok_iff.mp hg)).ne_nil
    have hempty : partition p = [] := by
      rw [partition, hnil]
      rfl
    exact hblocks hempty
  · rintro ⟨hne, hjumps⟩
    obtain ⟨g, hg, -⟩ := exists_ofBlocks (joinable_partition hp hne hjumps)
    exact ⟨g, ofProgram_eq_ok_iff.mpr hg⟩

end FlowGraph
end ThreeAddress
