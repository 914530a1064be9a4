import Std.Data.TreeMap.Lemmas
import ThreeAddress.Proofs.Dataflow.Solver
import ThreeAddress.Proofs.FlowGraph.Leaders

/-!
# Facts around instructions

The facts that a solution has around the instructions of a program fit together
along the flow of control: what arrives at an instruction lies below what leaves
each instruction before it in the direction of flow.  This is all that a proof
about executions needs to know of the solver.
-/

namespace ThreeAddress

namespace Analysis

variable {α : Type}

theorem map_fst_trail (a : Analysis α) (code : List Instruction) (x : α) :
    (a.trail code x).map Prod.fst = code.map Instruction.id := by
  induction code generalizing x with
  | nil => rfl
  | cons instr rest ih => rw [trail, List.map_cons, List.map_cons, ih]

/-- The facts on the way through instructions stay in the carrier. -/
theorem MeetLaws.mem_of_mem_trail
    {a : Analysis α} {carrier : α → Prop} {code : Instruction → Prop}
    (h : a.MeetLaws carrier code) {instrs : List Instruction}
    (hcode : ∀ instr ∈ instrs, code instr) {x : α} (hx : carrier x)
    {item : InstrId × α × α} (hitem : item ∈ a.trail instrs x) :
    carrier item.2.1 ∧ carrier item.2.2 := by
  induction instrs generalizing x with
  | nil => exact absurd hitem List.not_mem_nil
  | cons instr rest ih =>
      rw [List.forall_mem_cons] at hcode
      have hbeyond := h.transfer_mem hcode.1 hx
      rcases List.mem_cons.mp hitem with rfl | hrest
      · exact ⟨hx, hbeyond⟩
      · exact ih hcode.2 hbeyond hrest

theorem mem_trail
    (a : Analysis α) (pre post : List Instruction) (instr : Instruction)
    (x : α) :
    (instr.id, a.through pre x, a.transfer instr (a.through pre x)) ∈
      a.trail (pre ++ instr :: post) x := by
  induction pre generalizing x with
  | nil => exact List.mem_cons_self
  | cons first rest ih => exact List.mem_cons_of_mem _ (ih _)

end Analysis

namespace Flow

variable {α : Type}

/-- All instructions have different handles. -/
def Distinct (f : Flow) : Prop :=
  ((List.range f.size).flatMap fun b =>
    (f.code b).map Instruction.id).Nodup

theorem getElem?_foldl_insert_of_not_mem
    {β : Type} (view : α × α → β) {items : List (InstrId × α × α)}
    {id : InstrId} (h : id ∉ items.map Prod.fst)
    (m : Std.TreeMap InstrId β) :
    (items.foldl (fun found item => found.insert item.1 (view item.2)) m)[id]? =
      m[id]? := by
  induction items generalizing m with
  | nil => rfl
  | cons item rest ih =>
      rw [List.map_cons, List.mem_cons, not_or] at h
      have hne : item.1 ≠ id := Ne.symm h.1
      rw [List.foldl_cons, ih h.2, Std.TreeMap.getElem?_insert]
      simp [hne]

theorem getElem?_foldl_insert
    {β : Type} (view : α × α → β) {items : List (InstrId × α × α)}
    (hnodup : (items.map Prod.fst).Nodup) {item : InstrId × α × α}
    (hitem : item ∈ items) (m : Std.TreeMap InstrId β) :
    (items.foldl
      (fun found item => found.insert item.1 (view item.2)) m)[item.1]? =
        some (view item.2) := by
  induction items generalizing m with
  | nil => simp at hitem
  | cons other rest ih =>
      rw [List.map_cons, List.nodup_cons] at hnodup
      rw [List.foldl_cons]
      rcases List.mem_cons.mp hitem with rfl | hrest
      · rw [getElem?_foldl_insert_of_not_mem view hnodup.1,
          Std.TreeMap.getElem?_insert_self]
      · exact ih hnodup.2 hrest _

theorem exists_mem_of_getElem?_foldl_insert
    {β : Type} (view : α × α → β) {items : List (InstrId × α × α)}
    {m : Std.TreeMap InstrId β} {id : InstrId} {y : β}
    (h : (items.foldl
      (fun found item => found.insert item.1 (view item.2)) m)[id]? = some y) :
    m[id]? = some y ∨ ∃ item ∈ items, view item.2 = y := by
  induction items generalizing m with
  | nil => exact Or.inl h
  | cons item rest ih =>
      rcases ih h with hm | ⟨other, hother, hview⟩
      · rw [Std.TreeMap.getElem?_insert] at hm
        split at hm
        · exact Or.inr ⟨item, List.mem_cons_self, Option.some.inj hm⟩
        · exact Or.inl hm
      · exact Or.inr ⟨other, List.mem_cons_of_mem _ hother, hview⟩

theorem getElem?_instructionFacts
    {f : Flow} (hf : f.Distinct) {a : Analysis α}
    {facts : Array (BlockFact α)} (hsize : facts.size = f.size) {b : NodeId}
    (hb : b < f.size) {pre post : List Instruction} {instr : Instruction}
    (hcode : f.code b = pre ++ instr :: post) :
    (f.instructionFacts a facts)[instr.id]? =
      some (a.direction.orient
        (a.through pre (view a facts b).entering)
        (a.transfer instr (a.through pre (view a facts b).entering))) := by
  let trails := facts.toList.zipIdx.flatMap fun item =>
    a.trail (f.code item.2) item.1.entering
  have hrange : facts.toList.zipIdx.map Prod.snd = List.range f.size := by
    rw [List.zipIdx_map_snd, Array.length_toList, hsize,
      List.range_eq_range']
  have hkeys : (trails.map Prod.fst).Nodup := by
    rw [List.map_flatMap]
    simp only [Analysis.map_fst_trail]
    rw [Distinct, ← hrange, List.flatMap_map] at hf
    exact hf
  have hmem : (instr.id, a.through pre (view a facts b).entering,
      a.transfer instr (a.through pre (view a facts b).entering)) ∈ trails := by
    refine List.mem_flatMap.mpr ⟨(view a facts b, b), ?_, ?_⟩
    · rw [List.mem_zipIdx_iff_getElem?, Array.getElem?_toList]
      exact view_of_lt (hsize ▸ hb)
    · simp only [hcode]
      exact a.mem_trail pre post instr _
  exact getElem?_foldl_insert
    (fun facts => a.direction.orient facts.1 facts.2) hkeys hmem ∅

/-- Facts pass from instruction `i` to instruction `j`: within a block, or from
the last one of a feeder to the first one of a block. -/
def Follows (f : Flow) (i j : Instruction) : Prop :=
  (∃ b < f.size, ∃ pre post, f.code b = pre ++ i :: j :: post) ∨
    ∃ u v, v < f.size ∧ u ∈ f.feeders v ∧
      (∃ pre, f.code u = pre ++ [i]) ∧ ∃ post, f.code v = j :: post

/-- Facts enter the program at an instruction. -/
def Starts (f : Flow) (i : Instruction) : Prop :=
  ∃ b < f.size, f.atBoundary b = true ∧ ∃ post, f.code b = i :: post

/-- The fact that arrives at an instruction, according to a solution. -/
def Arrives
    (a : Analysis α) (s : Solution α) (instr : Instruction) (x : α) : Prop :=
  s.at? instr.id = some (a.direction.orient x (a.transfer instr x))

theorem Arrives.unique
    {a : Analysis α} {s : Solution α} {instr : Instruction} {x y : α}
    (hx : Arrives a s instr x) (hy : Arrives a s instr y) :
    x = y := by
  have heq := Option.some.inj (hx.symm.trans hy)
  cases hd : a.direction with
  | forward =>
      rw [hd] at heq
      exact congrArg InOut.input heq
  | backward =>
      rw [hd] at heq
      exact congrArg InOut.output heq

section Settled

variable {f : Flow} {a : Analysis α} {carrier : α → Prop}
  {code : Instruction → Prop} {s : Solution α}
  {facts : Array (BlockFact α)} {k : Nat}

theorem arrives_of_settled
    (hdistinct : f.Distinct) (hs : f.Settled a s facts k) {b : NodeId}
    (hb : b < f.size) {pre post : List Instruction} {instr : Instruction}
    (hsplit : f.code b = pre ++ instr :: post) :
    Arrives a s instr (a.through pre (view a facts b).entering) := by
  rw [Arrives, Solution.at?, hs.instructions_eq]
  exact getElem?_instructionFacts hdistinct hs.size_eq hb hsplit

theorem within_of_settled
    (hf : f.Proper) (h : a.MeetLaws carrier code)
    (hcode : ∀ b < f.size, ∀ instr ∈ f.code b, code instr)
    (hs : f.Settled a s facts k) :
    f.Within carrier (view a facts) := by
  rw [hs.view_eq]
  exact within_iterate hf h hcode k

/-- What arrives at a block lies below everything that is sent to it. -/
theorem entering_below
    (hf : f.Proper) (h : a.MeetLaws carrier code)
    (hcode : ∀ b < f.size, ∀ instr ∈ f.code b, code instr)
    (hs : f.Settled a s facts k) {b : NodeId} (hb : b < f.size) {x : α}
    (hx : x ∈ (f.seed a b).toList ++ f.fed (view a facts) b) :
    a.Below (view a facts b).entering x := by
  have hwithin := within_of_settled hf h hcode hs
  obtain ⟨hentering, -⟩ := solves_of_passed_eq hf hs.view_eq hs.fixed b hb
  cases hmeet : a.meetAll (f.seed a b) (f.fed (view a facts) b) with
  | none =>
      obtain ⟨hseed, hfed⟩ := (a.meetAll_eq_none_iff _ _).mp hmeet
      rw [hseed, hfed] at hx
      simp at hx
  | some m =>
      rw [hmeet, Option.getD_some] at hentering
      rw [hentering]
      exact (h.isMeet_meetAll (seed_fed_mem hf h hwithin b) hmeet).below x hx

theorem exists_arrives
    (hf : f.Proper) (hdistinct : f.Distinct) (h : a.MeetLaws carrier code)
    (hcode : ∀ b < f.size, ∀ instr ∈ f.code b, code instr)
    (hs : f.Settled a s facts k) {b : NodeId} (hb : b < f.size)
    {instr : Instruction} (hinstr : instr ∈ f.code b) :
    ∃ x, carrier x ∧ Arrives a s instr x := by
  obtain ⟨pre, post, hsplit⟩ := List.append_of_mem hinstr
  refine ⟨_, ?_, arrives_of_settled hdistinct hs hb hsplit⟩
  apply h.through_mem _ (within_of_settled hf h hcode hs b hb).1
  intro other hother
  apply hcode b hb
  rw [hsplit]
  exact List.mem_append_left _ hother

/-- The facts around every instruction stay in the carrier. -/
theorem mem_of_at?
    (hf : f.Proper) (h : a.MeetLaws carrier code)
    (hcode : ∀ b < f.size, ∀ instr ∈ f.code b, code instr)
    (hs : f.Settled a s facts k) {id : InstrId} {around : InOut α}
    (haround : s.at? id = some around) :
    carrier around.input ∧ carrier around.output := by
  rw [Solution.at?, hs.instructions_eq, instructionFacts] at haround
  rcases exists_mem_of_getElem?_foldl_insert
      (fun facts => a.direction.orient facts.1 facts.2) haround with
    hnone | ⟨item, hitem, rfl⟩
  · simp at hnone
  · obtain ⟨⟨fact, b⟩, hfact, htrail⟩ := List.mem_flatMap.mp hitem
    have hget : facts[b]? = some fact := by
      rw [← Array.getElem?_toList]
      exact List.mem_zipIdx_iff_getElem?.mp hfact
    have hb : b < f.size := by
      rw [← hs.size_eq]
      exact (Array.getElem?_eq_some_iff.mp hget).1
    obtain rfl : view a facts b = fact :=
      Option.some.inj ((view_of_lt (hs.size_eq ▸ hb)).symm.trans hget)
    have hmem := h.mem_of_mem_trail (hcode b hb)
      (within_of_settled hf h hcode hs b hb).1 htrail
    cases hd : a.direction with
    | forward => exact hmem
    | backward => exact hmem.symm

theorem below_of_follows
    (hf : f.Proper) (hdistinct : f.Distinct) (h : a.MeetLaws carrier code)
    (hcode : ∀ b < f.size, ∀ instr ∈ f.code b, code instr)
    (hs : f.Settled a s facts k) {i j : Instruction} (hfollows : f.Follows i j)
    {x y : α} (hx : Arrives a s i x) (hy : Arrives a s j y) (hmem : carrier y) :
    a.Below y (a.transfer i x) := by
  rcases hfollows with ⟨b, hb, pre, post, hsplit⟩ |
    ⟨u, v, hv, hfeeds, ⟨pre, hu⟩, post, hsplit⟩
  · have hi := arrives_of_settled hdistinct hs hb hsplit
    have hj := arrives_of_settled hdistinct hs hb
      (hsplit.trans (List.append_cons pre i (j :: post)))
    have hstep : y = a.transfer i x := by
      rw [hy.unique hj, hx.unique hi, Analysis.through, List.foldl_append]
      rfl
    rw [← hstep]
    exact h.below_refl hmem
  · have hult := hf.feeders_lt hfeeds
    have hi := arrives_of_settled hdistinct hs hult hu
    have hj := arrives_of_settled hdistinct hs hv
      (hsplit.trans (List.nil_append _).symm)
    have hleaving : (view a facts u).leaving = a.transfer i x := by
      rw [(solves_of_passed_eq hf hs.view_eq hs.fixed u hult).2, hu,
        hx.unique hi, Analysis.through, List.foldl_append]
      rfl
    rw [hy.unique hj, ← hleaving]
    apply entering_below hf h hcode hs hv
    exact List.mem_append_right _ (List.mem_map_of_mem hfeeds)

theorem below_boundary
    (hf : f.Proper) (hdistinct : f.Distinct) (h : a.MeetLaws carrier code)
    (hcode : ∀ b < f.size, ∀ instr ∈ f.code b, code instr)
    (hs : f.Settled a s facts k) {b : NodeId} (hb : b < f.size)
    (hboundary : f.atBoundary b = true) {i : Instruction}
    {post : List Instruction} (hsplit : f.code b = i :: post) {x : α}
    (hx : Arrives a s i x) :
    a.Below x a.boundary := by
  have hi := arrives_of_settled hdistinct hs hb
    (hsplit.trans (List.nil_append _).symm)
  rw [hx.unique hi]
  apply entering_below hf h hcode hs hb
  simp [seed, hboundary]

end Settled

end Flow

/-! ## The flow graph of a program -/

namespace FlowGraph

open Block

variable {p : Program} {g : FlowGraph}

theorem code_eq_run
    (hp : p.ids.Nodup) (hg : ofProgram p = .ok g) (b : NodeId) :
    g.code p b = (runs p)[b]?.getD [] := by
  have hinstrs : (g.blocks.map Block.instrs)[b]? =
      (runs p)[b]?.map fun run => run.map Instruction.id := by
    rw [(spans_of_ofProgram hg).map_instrs, map_instrs_partition,
      List.getElem?_map]
  rw [List.getElem?_map, blocks, Array.getElem?_toList] at hinstrs
  rw [code, Digraph.node?]
  cases hrun : (runs p)[b]? with
  | none =>
      rw [hrun, Option.map_none, Option.map_eq_none_iff] at hinstrs
      rw [hinstrs]
      rfl
  | some run =>
      rw [hrun, Option.map_some, Option.map_eq_some_iff] at hinstrs
      obtain ⟨block, hblock, hids⟩ := hinstrs
      have hget : ∀ instr ∈ run, p.get? instr.id = some instr := by
        intro instr hinstr
        exact Program.get?_of_mem hp
          (mem_of_mem_runs (List.mem_of_getElem? hrun) hinstr)
      rw [hblock, Option.elim_some, hids,
        Program.filterMap_get?_map_id hget, Option.getD_some]

theorem blockCount_eq_length_runs (hg : ofProgram p = .ok g) :
    g.blockCount = (runs p).length := by
  rw [(spans_of_ofProgram hg).blockCount_eq, length_partition]

theorem blockCount_le_size (hg : ofProgram p = .ok g) :
    g.blockCount ≤ p.size := by
  rw [blockCount_eq_length_runs hg]
  exact length_runs_le p

/-- A machine word can count the blocks of a program, and two more. -/
theorem blockCount_add_two_le (hp : p.Grown) (hg : ofProgram p = .ok g) :
    g.blockCount + 2 ≤ Settings.maxWord :=
  calc
    g.blockCount + 2 ≤ UInt32.size + 2 :=
      Nat.add_le_add_right ((blockCount_le_size hg).trans hp.size_le) 2
    _ ≤ Settings.maxWord := by decide

theorem flatMap_code
    (hp : p.ids.Nodup) (hg : ofProgram p = .ok g) :
    (List.range g.blockCount).flatMap (g.code p) = p.instrs.toList := by
  have hmap : (List.range g.blockCount).map (g.code p) = runs p := by
    apply List.ext_getElem?
    intro n
    rw [List.getElem?_map, blockCount_eq_length_runs hg]
    by_cases hn : n < (runs p).length
    · simp [hn, code_eq_run hp hg]
    · simp [hn]
  rw [← flatten_runs, ← hmap, List.flatMap_def]

theorem distinct_flow_of_nodup
    (h : ((List.range g.blockCount).flatMap fun b =>
      (g.code p b).map Instruction.id).Nodup) (d : Direction) :
    (g.flow d p).Distinct := by
  rw [Flow.Distinct, size_flow]
  cases d with
  | forward =>
      simp only [code_flow_forward]
      exact h
  | backward =>
      have hperm : ((List.range g.blockCount).flatMap fun b =>
          ((g.flow .backward p).code b).map Instruction.id).Perm
            ((List.range g.blockCount).flatMap fun b =>
              (g.code p b).map Instruction.id) := by
        apply List.Perm.flatMap_left
        intro b _
        rw [code_flow_backward]
        exact (List.reverse_perm _).map _
      exact hperm.nodup_iff.mpr h

theorem distinct_flow
    (hp : p.ids.Nodup) (hg : ofProgram p = .ok g) (d : Direction) :
    (g.flow d p).Distinct := by
  apply distinct_flow_of_nodup
  rw [← List.map_flatMap, flatMap_code hp hg]
  exact hp

/-- Control may pass from instruction `i` to instruction `j`: within a block, or
from the last one of a block to the first one of a successor. -/
def Next (g : FlowGraph) (p : Program) (i j : Instruction) : Prop :=
  (∃ b pre post, g.code p b = pre ++ i :: j :: post) ∨
    ∃ u v pre post, g.graph.Adjacent u v ∧ g.code p u = pre ++ [i] ∧
      g.code p v = j :: post

theorem lt_of_mem_code
    {b : NodeId} {instr : Instruction} (h : instr ∈ g.code p b) :
    b < g.blockCount := by
  by_contra hb
  have hnone : g.graph.node? b = none :=
    Array.getElem?_eq_none (Nat.le_of_not_lt hb)
  rw [code, hnone] at h
  exact List.not_mem_nil h

theorem mem_of_next {i j : Instruction} (h : g.Next p i j) :
    i ∈ p.instrs.toList := by
  obtain ⟨b, hi⟩ : ∃ b, i ∈ g.code p b := by
    rcases h with ⟨b, pre, post, hcode⟩ | ⟨u, v, pre, post, -, hcode, -⟩
    · exact ⟨b, by simp [hcode]⟩
    · exact ⟨u, by simp [hcode]⟩
  exact mem_of_mem_code hi

/-- All instructions of a path but its end are in the program. -/
theorem mem_of_isChain
    (path : List Instruction) {i : Instruction}
    (h : (path ++ [i]).IsChain (g.Next p)) {k : Instruction} (hk : k ∈ path) :
    k ∈ p.instrs.toList := by
  obtain ⟨pre, post, rfl⟩ := List.append_of_mem hk
  obtain ⟨next, rest, hrest⟩ : ∃ next rest, post ++ [i] = next :: rest :=
    List.exists_cons_of_ne_nil (by simp)
  rw [List.append_assoc, List.cons_append, hrest] at h
  exact mem_of_next (List.isChain_append_cons_cons.mp h).2.1

theorem code_ne_nil
    (hp : p.ids.Nodup) (hg : ofProgram p = .ok g) {b : NodeId}
    (hb : b < g.blockCount) :
    g.code p b ≠ [] := by
  rw [blockCount_eq_length_runs hg] at hb
  rw [code_eq_run hp hg, List.getElem?_eq_getElem hb]
  exact ne_nil_of_mem_runs (List.getElem_mem hb)

theorem flow_code_ne_nil
    (hp : p.ids.Nodup) (hg : ofProgram p = .ok g) (d : Direction) {b : NodeId}
    (hb : b < (g.flow d p).size) :
    (g.flow d p).code b ≠ [] := by
  rw [size_flow] at hb
  cases d with
  | forward =>
      rw [code_flow_forward]
      exact code_ne_nil hp hg hb
  | backward =>
      rw [code_flow_backward, ne_eq, List.reverse_eq_nil_iff]
      exact code_ne_nil hp hg hb

/-- In a forward flow, facts follow control. -/
theorem follows_forward_iff
    (hg : g.graph.WellFormed) {i j : Instruction} :
    (g.flow .forward p).Follows i j ↔ g.Next p i j := by
  simp only [Flow.Follows, Next, code_flow_forward]
  refine or_congr ⟨?_, ?_⟩ ⟨?_, ?_⟩
  · rintro ⟨b, -, pre, post, hcode⟩
    exact ⟨b, pre, post, hcode⟩
  · rintro ⟨b, pre, post, hcode⟩
    have hi : i ∈ g.code p b := by simp [hcode]
    exact ⟨b, lt_of_mem_code hi, pre, post, hcode⟩
  · rintro ⟨u, v, -, hu, ⟨pre, hpre⟩, post, hpost⟩
    exact ⟨u, v, pre, post, hg.mem_predecessors.mp hu, hpre, hpost⟩
  · rintro ⟨u, v, pre, post, hadj, hpre, hpost⟩
    exact ⟨u, v, (hg.lt_of_adjacent hadj).2, hg.mem_predecessors.mpr hadj,
      ⟨pre, hpre⟩, post, hpost⟩

/-- In a backward flow, they go against it. -/
theorem follows_backward_iff
    (hg : g.graph.WellFormed) {i j : Instruction} :
    (g.flow .backward p).Follows i j ↔ g.Next p j i := by
  simp only [Flow.Follows, Next, code_flow_backward]
  refine or_congr ⟨?_, ?_⟩ ⟨?_, ?_⟩
  · rintro ⟨b, -, pre, post, hcode⟩
    refine ⟨b, post.reverse, pre.reverse, ?_⟩
    rw [← List.reverse_inj, hcode]
    simp
  · rintro ⟨b, pre, post, hcode⟩
    have hi : i ∈ g.code p b := by simp [hcode]
    exact ⟨b, lt_of_mem_code hi, post.reverse, pre.reverse, by simp [hcode]⟩
  · rintro ⟨u, v, -, hv, ⟨pre, hpre⟩, post, hpost⟩
    refine ⟨v, u, post.reverse, pre.reverse, hg.mem_successors.mp hv, ?_, ?_⟩
    · rw [← List.reverse_inj, hpost]
      simp
    · rw [← List.reverse_inj, hpre]
      simp
  · rintro ⟨u, v, pre, post, hadj, hpre, hpost⟩
    exact ⟨v, u, (hg.lt_of_adjacent hadj).1, hg.mem_successors.mpr hadj,
      ⟨post.reverse, by simp [hpost]⟩, pre.reverse, by simp [hpre]⟩

theorem follows_forward (hg : ofProgram p = .ok g) :
    (g.flow .forward p).Follows = g.Next p := by
  funext i j
  exact propext (follows_forward_iff (spans_of_ofProgram hg).wellFormed)

theorem follows_backward (hg : ofProgram p = .ok g) :
    (g.flow .backward p).Follows = fun i j => g.Next p j i := by
  funext i j
  exact propext (follows_backward_iff (spans_of_ofProgram hg).wellFormed)

theorem next_of_leads
    (hp : p.ids.Nodup) (hg : ofProgram p = .ok g) {u v : NodeId}
    {front back : List Instruction} {i j : Instruction}
    (hu : (runs p)[u]? = some (front ++ [i]))
    (hv : (runs p)[v]? = some (j :: back)) (h : Leads p (partition p) u v) :
    g.Next p i j := by
  refine Or.inr ⟨u, v, front, back,
    ((spans_of_ofProgram hg).adjacent_iff u v).mpr h, ?_, ?_⟩
  · rw [code_eq_run hp hg, hu]
    rfl
  · rw [code_eq_run hp hg, hv]
    rfl

/-- If jumps name leaders, the graph has all ways of control. -/
theorem next_of_flows
    (hp : p.ids.Nodup) (hg : ofProgram p = .ok g) (hjumps : p.JumpsToLeaders)
    {i j : Instruction} (h : p.Flows i j) :
    g.Next p i j := by
  rcases flows_cases hp hjumps h with ⟨n, front, back, hn⟩ |
    ⟨u, v, front, back, hu, hv, hleads⟩
  · refine Or.inl ⟨n, front, back, ?_⟩
    rw [code_eq_run hp hg, hn]
    rfl
  · exact next_of_leads hp hg hu hv hleads

theorem exists_mem_flow_code
    (hp : p.ids.Nodup) (hg : ofProgram p = .ok g) (d : Direction)
    {instr : Instruction} (h : instr ∈ p.instrs.toList) :
    ∃ b < (g.flow d p).size, instr ∈ (g.flow d p).code b := by
  rw [← flatMap_code hp hg, List.mem_flatMap] at h
  obtain ⟨b, hb, hmem⟩ := h
  rw [size_flow]
  refine ⟨b, List.mem_range.mp hb, ?_⟩
  cases d with
  | forward => rwa [code_flow_forward]
  | backward => rwa [code_flow_backward, List.mem_reverse]

theorem code_entry
    (hp : p.ids.Nodup) (hg : ofProgram p = .ok g) {instr : Instruction}
    (h : p.at? 0 = some instr) :
    entry < g.blockCount ∧ ∃ post, g.code p entry = instr :: post := by
  obtain ⟨post, hrun⟩ := exists_first_run h
  refine ⟨?_, post, ?_⟩
  · rw [blockCount_eq_length_runs hg]
    exact (List.getElem?_eq_some_iff.mp hrun).1
  · rw [code_eq_run hp hg, entry, hrun]
    rfl

/-- In a forward flow, facts enter at the first instruction of the program. -/
theorem starts_forward_iff
    (hp : p.ids.Nodup) (hg : ofProgram p = .ok g) {i : Instruction} :
    (g.flow .forward p).Starts i ↔ p.at? 0 = some i := by
  constructor
  · rintro ⟨b, -, hentry, post, hsplit⟩
    obtain rfl : b = entry := beq_iff_eq.mp hentry
    rw [code_flow_forward] at hsplit
    have hi : i ∈ p.instrs.toList := mem_of_mem_code (by rw [hsplit]; simp)
    obtain ⟨first, hfirst⟩ : ∃ first, p.at? 0 = some first :=
      ⟨_, Array.getElem?_eq_getElem
        (Array.size_pos_of_mem (Array.mem_toList_iff.mp hi))⟩
    obtain ⟨-, post', hfirst'⟩ := code_entry hp hg hfirst
    rw [hsplit] at hfirst'
    rw [hfirst, (List.cons.inj hfirst').1]
  · intro hi
    obtain ⟨hlt, post, hsplit⟩ := code_entry hp hg hi
    refine ⟨entry, ?_, rfl, post, ?_⟩
    · rwa [size_flow]
    · rwa [code_flow_forward]

end FlowGraph

namespace Solution

variable {α : Type}

/-- A fact that a solution has before or after some block or instruction. -/
def States (s : Solution α) (x : α) : Prop :=
  ∃ facts, (facts ∈ s.blocks ∨ ∃ id, s.at? id = some facts) ∧
    (x = facts.input ∨ x = facts.output)

theorem mem_of_states
    [DecidableEq α] {a : Analysis α} {carrier : α → Prop} {settings : Settings}
    {p : Program} {g : FlowGraph} {s : Solution α}
    (h : a.MeetLaws carrier (· ∈ p.instrs.toList)) (hg : g.BuiltFrom p)
    (hsolve : solve a settings p g = .ok s) {x : α} (hx : s.States x) :
    carrier x := by
  obtain ⟨facts, hfacts, hside⟩ := hx
  have hmem : carrier facts.input ∧ carrier facts.output := by
    rcases hfacts with hblock | ⟨id, hid⟩
    · obtain ⟨b, hb, rfl⟩ := Array.mem_iff_getElem.mp hblock
      have haround : s.around a b = s.blocks[b] := by
        simp [around, hb]
      rw [← haround]
      rw [size_blocks_of_solve hg hsolve] at hb
      exact around_mem_of_solve h hg hsolve hb
    · obtain ⟨_, _, hs⟩ := settled_of_solve hg hsolve
      exact Flow.mem_of_at? (hg.proper_flow a.direction) h
        (fun _ _ => FlowGraph.mem_of_mem_flow_code) hs hid
  rcases hside with rfl | rfl
  · exact hmem.1
  · exact hmem.2

/-- The facts that arrive at the instructions of a program fit together along
the flow of control. -/
structure Fits
    (s : Solution α) (a : Analysis α) (carrier : α → Prop) (p : Program)
    (x : Instruction → α) : Prop where
  arrives : ∀ i ∈ p.instrs.toList, Flow.Arrives a s i (x i)
  mem : ∀ i ∈ p.instrs.toList, carrier (x i)
  below : ∀ {i j}, p.Flows i j →
    match a.direction with
    | .forward => a.Below (x j) (a.transfer i (x i))
    | .backward => a.Below (x i) (a.transfer j (x j))
  below_boundary : a.direction = .forward → ∀ {i}, p.at? 0 = some i →
    a.Below (x i) a.boundary

variable [DecidableEq α]

theorem exists_fits
    {a : Analysis α} {carrier : α → Prop} {settings : Settings}
    {p : Program} {g : FlowGraph} {s : Solution α} (hp : p.ids.Nodup)
    (hjumps : p.JumpsLabelled) (hg : FlowGraph.ofProgram p = .ok g)
    (h : a.MeetLaws carrier (· ∈ p.instrs.toList))
    (hsolve : solve a settings p g = .ok s) :
    ∃ x, s.Fits a carrier p x := by
  have hf := (FlowGraph.BuiltFrom.program hg).proper_flow a.direction
  have hdistinct := FlowGraph.distinct_flow hp hg a.direction
  have hcode : ∀ b < (g.flow a.direction p).size,
      ∀ instr ∈ (g.flow a.direction p).code b, instr ∈ p.instrs.toList :=
    fun _ _ => FlowGraph.mem_of_mem_flow_code
  obtain ⟨facts, k, hs⟩ := settled_of_solve (.program hg) hsolve
  have hall : ∀ i, ∃ x, i ∈ p.instrs.toList →
      carrier x ∧ Flow.Arrives a s i x := by
    intro i
    by_cases hi : i ∈ p.instrs.toList
    · obtain ⟨b, hb, hmem⟩ := FlowGraph.exists_mem_flow_code hp hg
        a.direction hi
      obtain ⟨x, hx⟩ :=
        Flow.exists_arrives hf hdistinct h hcode hs hb hmem
      exact ⟨x, fun _ => hx⟩
    · exact ⟨a.initial, fun hmem => absurd hmem hi⟩
  choose x hx using hall
  refine ⟨x, fun i hi => (hx i hi).2, fun i hi => (hx i hi).1, ?_, ?_⟩
  · intro i j hflows
    obtain ⟨hi, hj⟩ := Program.mem_of_flows hflows
    have hnext := FlowGraph.next_of_flows hp hg hjumps.jumpsToLeaders hflows
    have hwf := (FlowGraph.spans_of_ofProgram hg).wellFormed
    have hbelow {i j : Instruction} (hi : i ∈ p.instrs.toList)
        (hj : j ∈ p.instrs.toList)
        (hfollows : (g.flow a.direction p).Follows i j) :=
      Flow.below_of_follows hf hdistinct h hcode hs hfollows (hx i hi).2
        (hx j hj).2 (hx j hj).1
    cases hd : a.direction with
    | forward =>
        exact hbelow hi hj (hd ▸ (FlowGraph.follows_forward_iff hwf).mpr hnext)
    | backward =>
        exact hbelow hj hi (hd ▸ (FlowGraph.follows_backward_iff hwf).mpr hnext)
  · intro hd i hi
    obtain ⟨hentry, post, hsplit⟩ := FlowGraph.code_entry hp hg hi
    rw [← FlowGraph.size_flow a.direction p g] at hentry
    rw [← FlowGraph.code_flow_forward, ← hd] at hsplit
    have hboundary : (g.flow a.direction p).atBoundary FlowGraph.entry =
        true := by
      rw [hd]
      rfl
    exact Flow.below_boundary hf hdistinct h hcode hs hentry hboundary hsplit
      (hx i (Program.mem_of_at? hi)).2

end Solution
end ThreeAddress
