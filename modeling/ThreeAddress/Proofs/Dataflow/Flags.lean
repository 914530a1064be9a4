import ThreeAddress.Proofs.Dataflow.Instructions
import ThreeAddress.Proofs.Dataflow.Projection

/-!
# Facts made of bits

Most facts consist of bits that every instruction sets, clears or lets pass.  A
bit changes only once, so an analysis of such facts comes to rest after about as
many passes as there are blocks, however many bits there are.  And a bit arrives
set at an instruction exactly if it is carried there: from the boundary or from
an instruction that sets it, past instructions that do not clear it.
-/

namespace ThreeAddress

namespace Analysis

variable {α ι : Type}

/-- The analysis of a bit that has a given value where facts enter the
program. -/
def flag (boundary : Bool) (sets clears : Instruction → Bool) : Analysis Bool :=
  { bit "flag" .forward sets clears with boundary }

theorem flag_laws
    (boundary : Bool) (sets clears : Instruction → Bool)
    (code : Instruction → Prop) :
    (flag boundary sets clears).Laws (fun _ => True) code :=
  { bit_laws "flag" .forward sets clears code with boundary_mem := trivial }

/-- The facts of an analysis are made of bits, each of which is analysed for
itself. -/
structure Splits
    (a : Analysis α) (carrier : α → Prop) (code : Instruction → Prop)
    (boundary : ι → Bool) (sets clears : ι → Instruction → Bool)
    (bit : ι → α → Bool) : Prop where
  laws : a.MeetLaws carrier code
  projects : ∀ i, a.Projects (flag (boundary i) (sets i) (clears i)) (bit i)
    carrier code
  ext : ∀ {x y}, carrier x → carrier y → (∀ i, bit i x = bit i y) → x = y

/-- The bits are the same for fewer instructions. -/
theorem Splits.restrict
    {a : Analysis α} {carrier : α → Prop} {code code' : Instruction → Prop}
    {boundary : ι → Bool} {sets clears : ι → Instruction → Bool}
    {bit : ι → α → Bool}
    (h : a.Splits carrier code boundary sets clears bit)
    (hcode : ∀ instr, code' instr → code instr) :
    a.Splits carrier code' boundary sets clears bit :=
  { h with
    laws := h.laws.restrict hcode
    projects := fun i =>
      { h.projects i with
        transfer_eq := fun hinstr hx =>
          (h.projects i).transfer_eq (hcode _ hinstr) hx } }

end Analysis

/-! ## The passes end -/

section Splits

variable {α ι : Type} {a : Analysis α} {carrier : α → Prop}
  {code : Instruction → Prop} {boundary : ι → Bool}
  {sets clears : ι → Instruction → Bool} {bit : ι → α → Bool}

/-- Without bits nothing changes at all. -/
theorem Flow.passed_of_splits_of_isEmpty
    {f : Flow} (hf : f.Proper)
    (h : a.Splits carrier code boundary sets clears bit)
    (hcode : ∀ b < f.size, ∀ instr ∈ f.code b, code instr) [IsEmpty ι] :
    f.passed a (view a (f.start a)) = view a (f.start a) :=
  passed_iterate_of_projects (k := 0) hf h.laws hcode h.projects h.ext
    fun i => isEmptyElim i

/-- Two passes more than there are blocks suffice. -/
theorem Flow.passed_iterate_of_splits
    {f : Flow} (hf : f.Proper)
    (h : a.Splits carrier code boundary sets clears bit)
    (hcode : ∀ b < f.size, ∀ instr ∈ f.code b, code instr) :
    f.passed a ((f.passed a)^[f.size + 1] (view a (f.start a))) =
      (f.passed a)^[f.size + 1] (view a (f.start a)) := by
  refine passed_iterate_of_projects hf h.laws hcode h.projects h.ext ?_
  intro i
  have hfix := passed_iterate_start hf
    (Analysis.flag_laws (boundary i) (sets i) (clears i) code) hcode
  have hheight : f.size * (Analysis.flag (boundary i) (sets i)
      (clears i)).height = f.size := Nat.mul_one f.size
  rwa [hheight] at hfix

/-- An analysis of bits is solved under every computed limit, also the strict
one. -/
theorem Solution.exists_solve_of_splits
    [DecidableEq α] {p : Program} {g : FlowGraph}
    (h : a.Splits carrier (· ∈ p.instrs.toList) boundary sets clears bit)
    (hg : g.BuiltFrom p) (hheight : Nonempty ι → 2 ≤ a.height)
    (hword : g.blockCount + 2 ≤ Settings.maxWord) {settings : Settings}
    (hlimit : settings.Computed) :
    ∃ s, solve a settings p g = .ok s := by
  have hf := hg.proper_flow a.direction
  have hcode : ∀ b < (g.flow a.direction p).size,
      ∀ instr ∈ (g.flow a.direction p).code b, instr ∈ p.instrs.toList :=
    fun _ _ => FlowGraph.mem_of_mem_flow_code
  have hblocks : 0 < g.blockCount := hg.entry_lt
  have hslack := hlimit.slack_pos
  rw [solve_eq_flow_solve a settings hg.covered]
  suffices hfix : ∃ k, (g.flow a.direction p).passed a
      (((g.flow a.direction p).passed a)^[k]
        (Flow.view a ((g.flow a.direction p).start a))) =
      ((g.flow a.direction p).passed a)^[k]
        (Flow.view a ((g.flow a.direction p).start a)) ∧
      k < settings.passLimit (g.flow a.direction p).size a.height by
    obtain ⟨k, hfix, hk⟩ := hfix
    obtain ⟨s, hs, -⟩ := Flow.exists_solve hf hfix hk
    exact ⟨s, hs⟩
  rcases isEmpty_or_nonempty ι with hempty | hnonempty
  · exact ⟨0, Flow.passed_of_splits_of_isEmpty hf h hcode,
      Settings.le_passLimit hlimit.maxPasses_eq (by omega) (by omega)⟩
  · refine ⟨_, Flow.passed_iterate_of_splits hf h hcode, ?_⟩
    have hproduct : g.blockCount * 2 ≤ g.blockCount * max a.height 1 :=
      Nat.mul_le_mul_left _
        (Nat.le_trans (hheight hnonempty) (Nat.le_max_left _ _))
    rw [FlowGraph.size_flow]
    exact Settings.le_passLimit hlimit.maxPasses_eq (by omega) (by omega)

end Splits

/-! ## The ways of a bit -/

namespace Flow

/-- A bit arrives set at an instruction: it is set where facts enter the program,
or an instruction before sets it, or it passes an instruction before. -/
inductive Carried
    (f : Flow) (boundary : Bool) (sets clears : Instruction → Bool) :
    Instruction → Prop
  | enter {b : NodeId} {i : Instruction} {post : List Instruction} :
      boundary = true → b < f.size → f.atBoundary b = true →
      f.code b = i :: post → Carried f boundary sets clears i
  | send {i j : Instruction} :
      sets i = true → f.Follows i j → Carried f boundary sets clears j
  | pass {i j : Instruction} :
      Carried f boundary sets clears i → clears i = false → f.Follows i j →
      Carried f boundary sets clears j

/-- A bit leaves an instruction set. -/
def Sent
    (f : Flow) (boundary : Bool) (sets clears : Instruction → Bool)
    (i : Instruction) : Prop :=
  sets i = true ∨ (f.Carried boundary sets clears i ∧ clears i = false)

section Bit

variable {f : Flow} {boundary : Bool} {sets clears : Instruction → Bool}

theorem Sent.carried
    {i j : Instruction} (h : f.Sent boundary sets clears i)
    (hfollows : f.Follows i j) :
    f.Carried boundary sets clears j := by
  rcases h with hsets | ⟨hcarried, hclears⟩
  · exact .send hsets hfollows
  · exact .pass hcarried hclears hfollows

theorem sent_of_transfer
    {i : Instruction} {x : Bool}
    (hx : x = true → f.Carried boundary sets clears i)
    (h : (Analysis.flag boundary sets clears).transfer i x = true) :
    f.Sent boundary sets clears i := by
  rcases Bool.or_eq_true _ _ |>.mp h with hsets | hpasses
  · exact Or.inl hsets
  · obtain ⟨harrives, hclears⟩ := Bool.and_eq_true _ _ |>.mp hpasses
    exact Or.inr ⟨hx harrives, Bool.not_eq_true' _ |>.mp hclears⟩

/-- If the bit is carried to the first instruction of a block, it is carried to
every instruction of the block at which it arrives set. -/
theorem carried_of_through
    {b : NodeId} (hb : b < f.size) {x : Bool}
    (hx : x = true → ∀ i post, f.code b = i :: post →
      f.Carried boundary sets clears i)
    {pre post : List Instruction} {i : Instruction}
    (hsplit : f.code b = pre ++ i :: post)
    (h : (Analysis.flag boundary sets clears).through pre x = true) :
    f.Carried boundary sets clears i := by
  induction pre using List.reverseRecOn generalizing i post with
  | nil => exact hx h i post hsplit
  | append_singleton front k ih =>
      have hbefore : f.code b = front ++ k :: i :: post := by
        rw [hsplit, List.append_assoc, List.singleton_append]
      rw [Analysis.through, List.foldl_append] at h
      exact (sent_of_transfer (ih hbefore) h).carried
        (Or.inl ⟨b, hb, front, post, hbefore⟩)

theorem sent_of_through
    {b : NodeId} (hb : b < f.size) {x : Bool}
    (hx : x = true → ∀ i post, f.code b = i :: post →
      f.Carried boundary sets clears i)
    {pre : List Instruction} {i : Instruction} (hsplit : f.code b = pre ++ [i])
    (h : (Analysis.flag boundary sets clears).through (f.code b) x = true) :
    f.Sent boundary sets clears i := by
  rw [hsplit, Analysis.through, List.foldl_append] at h
  exact sent_of_transfer (carried_of_through hb hx hsplit) h

/-- Wherever a bit is set, it has been carried. -/
def Justified
    (f : Flow) (boundary : Bool) (sets clears : Instruction → Bool)
    (y : NodeId → BlockFact Bool) : Prop :=
  ∀ b < f.size,
    ((y b).entering = true → ∀ i post, f.code b = i :: post →
      f.Carried boundary sets clears i) ∧
    ((y b).leaving = true → ∀ pre i, f.code b = pre ++ [i] →
      f.Sent boundary sets clears i)

theorem meetAll_flag_eq_some_true
    {seed : Option Bool} {facts : List Bool}
    (h : (Analysis.flag boundary sets clears).meetAll seed facts = some true) :
    seed = some true ∨ true ∈ facts := by
  induction facts generalizing seed with
  | nil => exact Or.inl h
  | cons fact rest ih =>
      cases seed with
      | none =>
          rcases @ih (some fact) h with hfact | hrest
          · rw [Option.some.inj hfact]
            exact Or.inr List.mem_cons_self
          · exact Or.inr (List.mem_cons_of_mem _ hrest)
      | some before =>
          rcases @ih (some (before || fact)) h with hfact | hrest
          · rcases Bool.or_eq_true _ _ |>.mp (Option.some.inj hfact) with
              hbefore | hnow
            · exact Or.inl (congrArg some hbefore)
            · rw [hnow]
              exact Or.inr List.mem_cons_self
          · exact Or.inr (List.mem_cons_of_mem _ hrest)

/-- A bit arrives set at the first instruction of a block from the boundary or
from the last instruction of a feeder. -/
theorem carried_of_meetAll
    (hf : f.Proper) (hne : ∀ b < f.size, f.code b ≠ [])
    {y : NodeId → BlockFact Bool}
    (hy : f.Justified boundary sets clears y) {b : NodeId} (hb : b < f.size)
    (hmeet : (Analysis.flag boundary sets clears).meetAll
      (f.seed (Analysis.flag boundary sets clears) b) (f.fed y b) = some true)
    {i : Instruction} {post : List Instruction} (hsplit : f.code b = i :: post) :
    f.Carried boundary sets clears i := by
  rcases meetAll_flag_eq_some_true hmeet with hseed | hfed
  · rw [seed] at hseed
    split at hseed
    · next hboundary => exact .enter (Option.some.inj hseed) hb hboundary hsplit
    · contradiction
  · obtain ⟨n, hn, hleaving⟩ := List.mem_map.mp hfed
    have hnlt := hf.feeders_lt hn
    obtain ⟨pre, last, hlast⟩ : ∃ pre last, f.code n = pre ++ [last] :=
      (List.eq_nil_or_concat' _).resolve_left (hne n hnlt)
    have hsent := (hy n hnlt).2 hleaving pre last hlast
    exact hsent.carried (Or.inr ⟨n, b, hb, hn, ⟨pre, hlast⟩, post, hsplit⟩)

theorem justified_visited
    (hf : f.Proper) (hne : ∀ b < f.size, f.code b ≠ [])
    {y : NodeId → BlockFact Bool}
    (hy : f.Justified boundary sets clears y) {b : NodeId} (hb : b < f.size) :
    f.Justified boundary sets clears
      (f.visited (Analysis.flag boundary sets clears) y b) := by
  intro c hc
  by_cases hcb : c = b
  · subst hcb
    rw [visited, Function.update_self]
    have hentering : (f.renewed (Analysis.flag boundary sets clears) y
        c).entering = true → ∀ i post, f.code c = i :: post →
          f.Carried boundary sets clears i := by
      intro hset i post hsplit
      cases hmeet : (Analysis.flag boundary sets clears).meetAll
          (f.seed (Analysis.flag boundary sets clears) c) (f.fed y c) with
      | none =>
          simp only [renewed, hmeet, Option.getD_none] at hset
          exact (hy c hc).1 hset i post hsplit
      | some m =>
          simp only [renewed, hmeet, Option.getD_some] at hset
          rw [hset] at hmeet
          exact carried_of_meetAll hf hne hy hc hmeet hsplit
    exact ⟨hentering, fun hset pre i hsplit =>
      sent_of_through hc hentering hsplit hset⟩
  · rw [visited, Function.update_of_ne hcb]
    exact hy c hc

theorem justified_iterate
    (hf : f.Proper) (hne : ∀ b < f.size, f.code b ≠ []) (k : Nat) :
    f.Justified boundary sets clears
      ((f.passed (Analysis.flag boundary sets clears))^[k]
        (view (Analysis.flag boundary sets clears)
          (f.start (Analysis.flag boundary sets clears)))) := by
  refine iterate_passed_induction hf ?_ ?_ k
  · intro y b hb hy
    exact justified_visited hf hne hy hb
  · intro b hb
    rw [view_start f _ hb]
    refine ⟨?_, fun hset => Bool.noConfusion hset⟩
    intro hset i post hsplit
    rw [seed] at hset
    split at hset
    · next hboundary => exact .enter hset hb hboundary hsplit
    · contradiction

/-- A bit is carried to an instruction along a path on which nothing clears it.
The path starts where facts enter the program, or right after an instruction that
sets the bit. -/
theorem carried_iff {j : Instruction} :
    f.Carried boundary sets clears j ↔
      ∃ path, (∀ k ∈ path, clears k = false) ∧
        ((boundary = true ∧ (path ++ [j]).IsChain f.Follows ∧
            ∃ i, (path ++ [j]).head? = some i ∧ f.Starts i) ∨
          ∃ i, sets i = true ∧ (i :: (path ++ [j])).IsChain f.Follows) := by
  constructor
  · intro h
    induction h with
    | @enter b i post hboundary hb hstart hsplit =>
        exact ⟨[], by simp, Or.inl ⟨hboundary, .singleton i, i, rfl, b, hb,
          hstart, post, hsplit⟩⟩
    | @send i j hsets hfollows =>
        exact ⟨[], by simp, Or.inr ⟨i, hsets, .cons_cons hfollows
          (.singleton j)⟩⟩
    | @pass k j _ hclears hfollows ih =>
        obtain ⟨path, hpasses, hstart⟩ := ih
        refine ⟨path ++ [k], ?_, ?_⟩
        · intro other hother
          rcases List.mem_append.mp hother with hbefore | hlast
          · exact hpasses other hbefore
          · rw [List.mem_singleton.mp hlast]
            exact hclears
        · rw [List.append_assoc, List.singleton_append]
          rcases hstart with ⟨hboundary, hchain, i, hhead, hi⟩ |
            ⟨i, hsets, hchain⟩
          · refine Or.inl ⟨hboundary, List.isChain_append_cons_cons.mpr
              ⟨hchain, hfollows, .singleton j⟩, i, ?_, hi⟩
            rw [List.append_cons, List.head?_append, hhead]
            rfl
          · refine Or.inr ⟨i, hsets, ?_⟩
            rw [← List.cons_append] at hchain ⊢
            exact List.isChain_append_cons_cons.mpr
              ⟨hchain, hfollows, .singleton j⟩
  · rintro ⟨path, hpasses, hstart⟩
    induction path using List.reverseRecOn generalizing j with
    | nil =>
        rcases hstart with ⟨hboundary, -, i, hhead, b, hb, hentry, post,
          hsplit⟩ | ⟨i, hsets, hchain⟩
        · obtain rfl := Option.some.inj hhead
          exact .enter hboundary hb hentry hsplit
        · exact .send hsets (List.isChain_cons_cons.mp hchain).1
    | append_singleton front k ih =>
        rw [List.append_assoc, List.singleton_append] at hstart
        have hfront : ∀ other ∈ front, clears other = false := by
          intro other hother
          exact hpasses other (List.mem_append_left _ hother)
        have hclears : clears k = false := hpasses k (by simp)
        rcases hstart with ⟨hboundary, hchain, i, hhead, hi⟩ |
          ⟨i, hsets, hchain⟩
        · obtain ⟨hbefore, hfollows, -⟩ :=
            List.isChain_append_cons_cons.mp hchain
          refine .pass (ih hfront (Or.inl ⟨hboundary, hbefore, i, ?_, hi⟩))
            hclears hfollows
          rw [List.append_cons, List.head?_append_of_ne_nil _ (by simp)]
            at hhead
          exact hhead
        · rw [← List.cons_append] at hchain
          obtain ⟨hbefore, hfollows, -⟩ :=
            List.isChain_append_cons_cons.mp hchain
          exact .pass (ih hfront (Or.inr ⟨i, hsets, hbefore⟩)) hclears hfollows

/-- From an instruction that sets the bit some path leads to every instruction
to which the bit is carried, past instructions that do not clear it. -/
theorem carried_false_iff {j : Instruction} :
    f.Carried false sets clears j ↔
      ∃ i, sets i = true ∧ ∃ between,
        (i :: (between ++ [j])).IsChain f.Follows ∧
          ∀ k ∈ between, clears k = false := by
  rw [carried_iff]
  constructor
  · rintro ⟨path, hpasses, ⟨hboundary, -⟩ | ⟨i, hsets, hchain⟩⟩
    · contradiction
    · exact ⟨i, hsets, path, hchain, hpasses⟩
  · rintro ⟨i, hsets, between, hchain, hpasses⟩
    exact ⟨between, hpasses, Or.inr ⟨i, hsets, hchain⟩⟩

end Bit

/-! ## Bits of a solution -/

section Settled

variable {α : Type} {f : Flow} {a : Analysis α} {carrier : α → Prop}
  {code : Instruction → Prop} {boundary : Bool}
  {sets clears : Instruction → Bool} {bit : α → Bool} {s : Solution α}
  {facts : Array (BlockFact α)} {k : Nat}

theorem exists_mem_of_follows
    (hf : f.Proper) {i j : Instruction} (h : f.Follows i j) :
    ∃ b < f.size, i ∈ f.code b := by
  rcases h with ⟨b, hb, pre, post, hsplit⟩ | ⟨u, v, -, hu, ⟨pre, hsplit⟩, -⟩
  · exact ⟨b, hb, by simp [hsplit]⟩
  · exact ⟨u, hf.feeders_lt hu, by simp [hsplit]⟩

variable (hf : f.Proper) (hdistinct : f.Distinct)
  (hlaws : a.MeetLaws carrier code)
  (hcode : ∀ b < f.size, ∀ instr ∈ f.code b, code instr)
  (h : a.Projects (.flag boundary sets clears) bit carrier code)
  (hs : f.Settled a s facts k)

include hf hdistinct hlaws hcode h hs

/-- Every bit that arrives set has been carried. -/
theorem carried_of_bit
    (hne : ∀ b < f.size, f.code b ≠ []) {b : NodeId} (hb : b < f.size)
    {j : Instruction} (hj : j ∈ f.code b) {x : α} (hx : Arrives a s j x)
    (hbit : bit x = true) :
    f.Carried boundary sets clears j := by
  obtain ⟨pre, post, hsplit⟩ := List.append_of_mem hj
  have hpre : ∀ instr ∈ pre, code instr := by
    intro instr hinstr
    apply hcode b hb
    rw [hsplit]
    exact List.mem_append_left _ hinstr
  have hentering : bit (view a facts b).entering = true →
      ∀ i post, f.code b = i :: post → f.Carried boundary sets clears i := by
    have hjustified : f.Justified boundary sets clears _ :=
      justified_iterate hf hne k
    have hfirst := (hjustified b hb).1
    rwa [(iterate_shows hf hlaws hcode h k).2 b, ← hs.view_eq] at hfirst
  rw [hx.unique (arrives_of_settled hdistinct hs hb hsplit),
    h.through_eq hlaws hpre (within_of_settled hf hlaws hcode hs b hb).1] at hbit
  exact carried_of_through hb hentering hsplit hbit

/-- A bit that leaves an instruction set arrives set at the next one. -/
theorem bit_of_follows
    {i j : Instruction} (hfollows : f.Follows i j) {x y : α} (hx : carrier x)
    (hxi : Arrives a s i x) (hy : carrier y) (hyj : Arrives a s j y)
    (hi : code i) (hsent : sets i = true ∨ bit x = true ∧ clears i = false) :
    bit y = true := by
  have hbelow : a.meet y (a.transfer i x) = y :=
    below_of_follows hf hdistinct hlaws hcode hs hfollows hxi hyj hy
  have hor := h.meet_eq hy (hlaws.transfer_mem hi hx)
  rw [hbelow, h.transfer_eq hi hx] at hor
  rw [hor]
  rcases hsent with hsets | ⟨hbit, hclears⟩
  · simp [Analysis.flag, Analysis.bit, hsets]
  · simp [Analysis.flag, Analysis.bit, hbit, hclears]

theorem bit_of_carried
    {j : Instruction} (hcarried : f.Carried boundary sets clears j) {y : α}
    (hmem : carrier y) (hy : Arrives a s j y) :
    bit y = true := by
  have hbefore : ∀ {i j}, f.Follows i j →
      code i ∧ ∃ x, carrier x ∧ Arrives a s i x := by
    intro i j hfollows
    obtain ⟨b, hb, hi⟩ := exists_mem_of_follows hf hfollows
    exact ⟨hcode b hb i hi,
      exists_arrives hf hdistinct hlaws hcode hs hb hi⟩
  induction hcarried generalizing y with
  | enter hboundary hb hentry hsplit =>
      have hbelow : a.meet y a.boundary = y :=
        below_boundary hf hdistinct hlaws hcode hs hb hentry hsplit hy
      have hor := h.meet_eq hmem hlaws.boundary_mem
      rw [hbelow, h.boundary_eq] at hor
      rw [hor]
      simp [Analysis.flag, Analysis.bit, hboundary]
  | send hsets hfollows =>
      obtain ⟨hi, x, hx, hxi⟩ := hbefore hfollows
      exact bit_of_follows hf hdistinct hlaws hcode h hs hfollows hx hxi hmem hy
        hi (Or.inl hsets)
  | pass _ hclears hfollows ih =>
      obtain ⟨hi, x, hx, hxi⟩ := hbefore hfollows
      exact bit_of_follows hf hdistinct hlaws hcode h hs hfollows hx hxi hmem hy
        hi (Or.inr ⟨ih hx hxi, hclears⟩)

end Settled

end Flow

/-- In a solution, the bits of the fact that arrives at an instruction are those
that are carried there. -/
theorem Solution.exists_arrives_of_splits
    {α ι : Type} [DecidableEq α] {a : Analysis α} {carrier : α → Prop}
    {boundary : ι → Bool} {sets clears : ι → Instruction → Bool}
    {bit : ι → α → Bool} {settings : Settings} {p : Program} {g : FlowGraph}
    {s : Solution α} (hp : p.ids.Nodup) (hg : FlowGraph.ofProgram p = .ok g)
    (h : a.Splits carrier (· ∈ p.instrs.toList) boundary sets clears bit)
    (hsolve : solve a settings p g = .ok s) {i : Instruction}
    (hi : i ∈ p.instrs.toList) :
    ∃ x, carrier x ∧ Flow.Arrives a s i x ∧
      ∀ n, bit n x = true ↔
        (g.flow a.direction p).Carried (boundary n) (sets n) (clears n) i := by
  have hf := (FlowGraph.BuiltFrom.program hg).proper_flow a.direction
  have hdistinct := FlowGraph.distinct_flow hp hg a.direction
  have hcode : ∀ b < (g.flow a.direction p).size,
      ∀ instr ∈ (g.flow a.direction p).code b, instr ∈ p.instrs.toList :=
    fun _ _ => FlowGraph.mem_of_mem_flow_code
  have hne : ∀ b < (g.flow a.direction p).size,
      (g.flow a.direction p).code b ≠ [] :=
    fun b hb => FlowGraph.flow_code_ne_nil hp hg a.direction hb
  obtain ⟨facts, k, hs⟩ := settled_of_solve (.program hg) hsolve
  obtain ⟨b, hb, hmem⟩ :=
    FlowGraph.exists_mem_flow_code hp hg a.direction hi
  obtain ⟨x, hx, harrives⟩ :=
    Flow.exists_arrives hf hdistinct h.laws hcode hs hb hmem
  refine ⟨x, hx, harrives, ?_⟩
  intro n
  constructor
  · exact Flow.carried_of_bit hf hdistinct h.laws hcode (h.projects n) hs hne hb
      hmem harrives
  · intro hcarried
    exact Flow.bit_of_carried hf hdistinct h.laws hcode (h.projects n) hs
      hcarried hx harrives

end ThreeAddress
