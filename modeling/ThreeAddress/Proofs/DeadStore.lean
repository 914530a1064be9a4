import ThreeAddress.DeadStore
import ThreeAddress.Proofs.Dataflow.Liveness
import ThreeAddress.Proofs.Semantics.Execution

/-!
# Removal of dead stores preserves behaviour

In one round, the program with its dead stores and the program without them run
in step: their stores agree on the variables that are live, their outputs are
equal, and the position in the shorter program is the number of instructions
that are left before the position in the longer one.  A dead store that is gone
is a move of the longer program on its own.  The rounds end with a program
without dead stores, or without instructions.
-/

namespace ThreeAddress
namespace DeadStore

/-! ## What is left of the instructions -/

/-- What is left of an instruction keeps its handle and its mark; its statement
stays or loses its effect. -/
theorem survivor?_eq_some
    {dead : List InstrId} {i j : Instruction}
    (h : survivor? dead i = some j) :
    j.id = i.id ∧ j.labelled = i.labelled ∧
      ((i.id ∉ dead ∧ j = i) ∨ (i.id ∈ dead ∧ j.statement = .nop)) := by
  rw [survivor?] at h
  split at h
  · next hdead =>
      split at h
      · obtain rfl := Option.some.inj h
        exact ⟨rfl, rfl, Or.inr ⟨by simpa using hdead, rfl⟩⟩
      · contradiction
  · next hdead =>
      obtain rfl := Option.some.inj h
      exact ⟨rfl, rfl, Or.inl ⟨by simpa using hdead, rfl⟩⟩

/-- An instruction goes if it is dead and not labelled. -/
theorem survivor?_eq_none_iff {dead : List InstrId} {i : Instruction} :
    survivor? dead i = none ↔ i.id ∈ dead ∧ i.labelled = false := by
  by_cases hdead : i.id ∈ dead <;> simp [survivor?, hdead]

theorem exists_survivor?_of_labelled
    (dead : List InstrId) {i : Instruction} (h : i.labelled = true) :
    ∃ j, survivor? dead i = some j := by
  apply Option.ne_none_iff_exists'.mp
  rw [ne_eq, survivor?_eq_none_iff, h]
  rintro ⟨-, hbare⟩
  contradiction

theorem survivor?_of_not_mem
    {dead : List InstrId} {i : Instruction} (h : i.id ∉ dead) :
    survivor? dead i = some i := by
  simp [survivor?, h]

theorem survivors_cons
    (dead : List InstrId) (i : Instruction) (rest : List Instruction) :
    survivors dead (i :: rest) =
      (survivor? dead i).toList ++ survivors dead rest := by
  cases hs : survivor? dead i with
  | none => exact List.filterMap_cons_none hs
  | some j => exact List.filterMap_cons_some hs

theorem survivors_append
    (dead : List InstrId) (first second : List Instruction) :
    survivors dead (first ++ second) =
      survivors dead first ++ survivors dead second :=
  List.filterMap_append

theorem map_id_survivors_sublist
    (dead : List InstrId) (instrs : List Instruction) :
    ((survivors dead instrs).map Instruction.id).Sublist
      (instrs.map Instruction.id) := by
  induction instrs with
  | nil => exact List.Sublist.refl _
  | cons i rest ih =>
      rw [survivors_cons]
      cases hs : survivor? dead i with
      | none => exact ih.cons _
      | some j =>
          rw [Option.toList_some, List.singleton_append, List.map_cons,
            List.map_cons, (survivor?_eq_some hs).1]
          exact ih.cons_cons _

theorem vars_subset_of_survivor?
    {dead : List InstrId} {i j : Instruction}
    (h : survivor? dead i = some j) :
    j.vars ⊆ i.vars := by
  obtain ⟨-, -, ⟨-, rfl⟩ | ⟨-, hnop⟩⟩ := survivor?_eq_some h
  · exact fun _ hv => hv
  · simp [Instruction.vars, Instruction.defined?, Instruction.used, hnop,
      Statement.defined?, Statement.used]

/-- What is left of the instructions makes up a program. -/
theorem withInstructions_survivors
    {p : Program} (hp : p.WellFormed) (dead : List InstrId) :
    ∃ q, p.withInstructions (survivors dead p.instrs.toList) = .ok q := by
  refine ⟨_, Program.withInstructions_eq_ok ?_ ?_⟩
  · exact (map_id_survivors_sublist dead _).nodup hp.nodup_ids
  · intro j hj v hv
    obtain ⟨i, hi, hs⟩ := List.mem_filterMap.mp hj
    exact hp.index_lt i hi v (vars_subset_of_survivor? hs hv)

/-! ## Positions -/

/-- The number of instructions left before a position. -/
def shift (dead : List InstrId) (p : Program) (k : Nat) : Nat :=
  (survivors dead (p.instrs.toList.take k)).length

section Round

variable {p q : Program} {dead : List InstrId}

theorem shift_succ {k : Nat} {i : Instruction} (h : p.at? k = some i) :
    shift dead p (k + 1) =
      shift dead p k + (survivor? dead i).toList.length := by
  rw [Program.at?, ← Array.getElem?_toList] at h
  have hone : survivors dead [i] = (survivor? dead i).toList :=
    (survivors_cons dead i []).trans (List.append_nil _)
  rw [shift, shift, List.take_add_one, h, Option.toList_some,
    survivors_append, List.length_append, hone]

variable (hq : q.instrs.toList = survivors dead p.instrs.toList)
include hq

theorem at?_shift
    {k : Nat} {i j : Instruction} (h : p.at? k = some i)
    (hs : survivor? dead i = some j) :
    q.at? (shift dead p k) = some j := by
  rw [Program.at?, ← Array.getElem?_toList] at h
  obtain ⟨hk, rfl⟩ := List.getElem?_eq_some_iff.mp h
  have hsplit : q.instrs.toList =
      survivors dead (p.instrs.toList.take k) ++
        j :: survivors dead (p.instrs.toList.drop (k + 1)) := by
    have hrest := survivors_cons dead p.instrs.toList[k]
      (p.instrs.toList.drop (k + 1))
    rw [hs, Option.toList_some, List.singleton_append,
      ← List.drop_eq_getElem_cons] at hrest
    rw [hq, ← hrest, ← survivors_append, List.take_append_drop]
  rw [Program.at?, ← Array.getElem?_toList, hsplit, shift]
  simp

theorem at?_shift_eq_none {k : Nat} (h : p.at? k = none) :
    q.at? (shift dead p k) = none := by
  rw [Program.at?, ← Array.getElem?_toList, List.getElem?_eq_none_iff] at h ⊢
  rw [hq, shift, List.take_of_length_le h]

/-- A jump to a labelled instruction leads to what is left of it. -/
theorem landing_shift
    (hp : p.ids.Nodup) (hids : q.ids.Nodup) (hjumps : p.JumpsLabelled)
    {i : Instruction} (hi : i ∈ p.instrs.toList) {target : InstrId}
    (htarget : i.jumpTarget? = some target) (k l : Nat) :
    q.landing l (some target) =
      shift dead p (p.landing k (some target)) := by
  obtain ⟨found, hfound, hlabelled⟩ := hjumps i hi target htarget
  obtain ⟨hmem, rfl⟩ := Program.get?_eq_some hfound
  obtain ⟨m, hm⟩ := List.mem_iff_getElem?.mp hmem
  rw [Array.getElem?_toList] at hm
  obtain ⟨left, hleft⟩ := exists_survivor?_of_labelled dead hlabelled
  have hq' := Program.position?_of_at? hids (at?_shift hq hm hleft)
  rw [(survivor?_eq_some hleft).1] at hq'
  rw [Program.landing, Program.landing, Program.position?_of_at? hp hm, hq']
  rfl

theorem jumpsLabelled_survivors
    (hids : q.ids.Nodup) (hjumps : p.JumpsLabelled) :
    q.JumpsLabelled := by
  intro j hj target htarget
  rw [hq] at hj
  obtain ⟨i, hi, hs⟩ := List.mem_filterMap.mp hj
  obtain ⟨-, -, ⟨-, rfl⟩ | ⟨-, hnop⟩⟩ := survivor?_eq_some hs
  · obtain ⟨found, hfound, hlabelled⟩ := hjumps j hi target htarget
    obtain ⟨hmem, rfl⟩ := Program.get?_eq_some hfound
    obtain ⟨left, hleft⟩ := exists_survivor?_of_labelled dead hlabelled
    obtain ⟨hid, hmark, -⟩ := survivor?_eq_some hleft
    have hmem' : left ∈ q.instrs.toList := by
      rw [hq]
      exact List.mem_filterMap.mpr ⟨found, hmem, hleft⟩
    refine ⟨left, ?_, hmark.trans hlabelled⟩
    rw [← hid]
    exact Program.get?_of_mem hids hmem'
  · rw [Instruction.jumpTarget?, hnop] at htarget
    contradiction

end Round

/-! ## One round -/

/-- Every instruction to be removed writes a variable that is not live after
it. -/
def AllDead
    (p : Program) (dead : List InstrId)
    (after : Instruction → VarId → Prop) : Prop :=
  ∀ i ∈ p.instrs.toList, i.id ∈ dead →
    ∃ v, i.defined? = some v ∧ ¬ after i v

/-- The states of the two programs correspond. -/
structure Related
    (p : Program) (dead : List InstrId)
    (before : Instruction → VarId → Prop) (s t : State) : Prop where
  position_eq : t.position = shift dead p s.position
  output_eq : s.output = t.output
  store_eq : ∀ {i v}, p.at? s.position = some i → before i v →
    s.store v = t.store v

section Simulation

variable {e : Evaluator} {p q : Program} {dead : List InstrId}
  {before after : Instruction → VarId → Prop} {s t : State}
  {i : Instruction}

/-- A store neither prints nor jumps. -/
theorem printed_and_jumped?_of_defined?
    {statement : Statement} {v : VarId} (h : statement.defined? = some v)
    (σ : Store) :
    statement.printed σ = [] ∧ statement.jumped? σ = none := by
  cases statement with
  | assign target left op right => exact ⟨rfl, rfl⟩
  | _ => contradiction

/-- The stores agree on what is live after an instruction that both programs
execute. -/
theorem stored_eq_of_live
    (hlive : LiveVariables.Sound p before after)
    (hrel : Related p dead before s t) (hi : p.at? s.position = some i)
    {v : VarId} (hv : after i v) :
    i.statement.stored e s.store v = i.statement.stored e t.store v := by
  have hmem := Program.mem_of_at? hi
  by_cases hdefined : i.statement.defined? = some v
  · refine Statement.stored_congr e ?_ hdefined
    intro w hw
    exact hrel.store_eq hi (hlive.before_of_used hmem hw)
  · rw [Statement.stored_of_ne e _ hdefined, Statement.stored_of_ne e _ hdefined]
    exact hrel.store_eq hi (hlive.before_of_after hmem hv hdefined)

/-- The stores agree on what is live after a dead store that only the first
program executes. -/
theorem stored_eq_of_dead
    (hlive : LiveVariables.Sound p before after)
    (hrel : Related p dead before s t) (hi : p.at? s.position = some i)
    {w : VarId} (hdefined : i.defined? = some w) (hdead : ¬ after i w)
    {v : VarId} (hv : after i v) :
    i.statement.stored e s.store v = t.store v := by
  have hne : i.defined? ≠ some v := by
    intro hsame
    rw [hdefined] at hsame
    exact hdead (Option.some.inj hsame ▸ hv)
  rw [Statement.stored_of_ne e _ hne]
  exact hrel.store_eq hi
    (hlive.before_of_after (Program.mem_of_at? hi) hv hne)

variable (hq : q.instrs.toList = survivors dead p.instrs.toList)
  (hp : p.ids.Nodup) (hids : q.ids.Nodup) (hjumps : p.JumpsLabelled)
  (hlive : LiveVariables.Sound p before after)

include hq hp hids hjumps hlive in
/-- An instruction that is left is executed by both programs. -/
theorem related_execute
    (hrel : Related p dead before s t) (hi : p.at? s.position = some i)
    (hleft : i.id ∉ dead) :
    Related p dead before (s.execute e p i) (t.execute e q i) := by
  have hmem := Program.mem_of_at? hi
  have hused : ∀ v ∈ i.statement.used, s.store v = t.store v := by
    intro v hv
    exact hrel.store_eq hi (hlive.before_of_used hmem hv)
  have hjump := Statement.jumped?_congr hused
  refine ⟨?_, ?_, ?_⟩
  · change q.landing t.position (i.statement.jumped? t.store) =
      shift dead p (p.landing s.position (i.statement.jumped? s.store))
    rw [← hjump]
    cases hjumped : i.statement.jumped? s.store with
    | none =>
        rw [Program.landing, Program.landing, shift_succ hi,
          survivor?_of_not_mem hleft, hrel.position_eq]
        rfl
    | some target =>
        exact landing_shift hq hp hids hjumps hmem
          (Statement.jumpTarget?_of_jumped? hjumped) _ _
  · change s.output ++ i.statement.printed s.store =
      t.output ++ i.statement.printed t.store
    rw [hrel.output_eq, Statement.printed_congr hused]
  · intro j v hj hv
    have hflows := State.flows_of_execute hp hi hj
    exact stored_eq_of_live hlive hrel hi (hlive.after_of_flows hflows hv)

include hp hlive in
/-- A dead store changes nothing that the second program needs. -/
theorem related_of_dead
    (hdead : AllDead p dead after) (hrel : Related p dead before s t)
    (hi : p.at? s.position = some i) (hid : i.id ∈ dead) {t' : State}
    (hposition : t'.position =
      t.position + (survivor? dead i).toList.length)
    (houtput : t'.output = t.output) (hstore : t'.store = t.store) :
    Related p dead before (s.execute e p i) t' ∧
      (s.execute e p i).position = s.position + 1 := by
  obtain ⟨w, hdefined, hafter⟩ := hdead i (Program.mem_of_at? hi) hid
  obtain ⟨hprinted, hjumped⟩ :=
    printed_and_jumped?_of_defined? hdefined s.store
  have hnext : (s.execute e p i).position = s.position + 1 := by
    rw [State.execute, hjumped]
    rfl
  refine ⟨⟨?_, ?_, ?_⟩, hnext⟩
  · rw [hnext, shift_succ hi, hposition, hrel.position_eq]
  · change s.output ++ i.statement.printed s.store = t'.output
    rw [hprinted, List.append_nil, houtput, hrel.output_eq]
  · intro j v hj hv
    rw [hstore]
    exact stored_eq_of_dead hlive hrel hi hdefined hafter
      (hlive.after_of_flows (State.flows_of_execute hp hi hj) hv)

include hq hp hids hjumps hlive in
theorem simulation_survivors
    (e : Evaluator) (hdead : AllDead p dead after) :
    Machine.Simulation (State.next? e p) (State.next? e q)
      (Related p dead before) (fun s => p.size - s.position) := by
  intro s t hrel
  cases hi : p.at? s.position with
  | none =>
      have hnone := at?_shift_eq_none hq hi
      rw [← hrel.position_eq] at hnone
      exact Or.inl ⟨by rw [State.next?, hi]; rfl,
        by rw [State.next?, hnone]; rfl⟩
  | some i =>
      have hnext : s.next? e p = some (s.execute e p i) := by
        rw [State.next?, hi]
        rfl
      cases hs : survivor? dead i with
      | none =>
          have hid := (survivor?_eq_none_iff.mp hs).1
          have hstay : t.position =
              t.position + (survivor? dead i).toList.length := by
            rw [hs]
            rfl
          obtain ⟨hrel', hposition⟩ := related_of_dead (e := e) hp hlive hdead
            hrel hi hid hstay rfl rfl
          refine Or.inr (Or.inr ⟨_, hnext, hrel', ?_⟩)
          have hlt := Program.lt_of_at? hi
          change p.size - (s.execute e p i).position < p.size - s.position
          omega
      | some j =>
          have hj := at?_shift hq hi hs
          rw [← hrel.position_eq] at hj
          have hnext' : t.next? e q = some (t.execute e q j) := by
            rw [State.next?, hj]
            rfl
          refine Or.inr (Or.inl ⟨_, _, hnext, hnext', ?_⟩)
          obtain ⟨-, -, ⟨hleft, rfl⟩ | ⟨hid, hnop⟩⟩ := survivor?_eq_some hs
          · exact related_execute hq hp hids hjumps hlive hrel hi hleft
          · refine (related_of_dead hp hlive hdead hrel hi hid ?_ ?_ ?_).1
            · rw [State.execute, hnop, hs]
              rfl
            · rw [State.execute, hnop]
              exact List.append_nil _
            · rw [State.execute, hnop]
              rfl

include hq hp hids hjumps hlive in
theorem equivalent_survivors (hdead : AllDead p dead after) :
    p.Equivalent q := by
  apply Program.equivalent_of_simulation
  intro e
  refine ⟨_, _, simulation_survivors hq hp hids hjumps hlive e hdead, ?_,
    Related.output_eq⟩
  intro σ
  refine ⟨?_, rfl, fun _ _ => rfl⟩
  rw [State.start, shift, List.take_zero]
  rfl

end Simulation

/-! ## What a round finds dead -/

theorem isDead_of_mem_deadSites
    {live : Solution VarSet} {p : Program} (hp : p.ids.Nodup)
    {i : Instruction} (hi : i ∈ p.instrs.toList)
    (hid : i.id ∈ deadSites live p) :
    isDead live i = true := by
  obtain ⟨j, hj, hsame⟩ := List.mem_map.mp hid
  obtain ⟨hmem, hdead⟩ := List.mem_filter.mp hj
  obtain rfl := Program.eq_of_id_eq hp hmem hi hsame
  exact hdead

theorem allDead_deadSites
    {live : Solution VarSet} {p : Program} (hp : p.ids.Nodup)
    {after : Instruction → VarId → Prop}
    (hafter : ∀ i ∈ p.instrs.toList, ∃ facts, live.at? i.id = some facts ∧
      ∀ v, LiveVariables.isLive facts.output v = true ↔ after i v) :
    AllDead p (deadSites live p) after := by
  intro i hi hid
  have hdead := isDead_of_mem_deadSites hp hi hid
  obtain ⟨facts, hfacts, hlive⟩ := hafter i hi
  cases hdefined : i.defined? with
  | none => simp [isDead, hdefined] at hdead
  | some v =>
      refine ⟨v, rfl, ?_⟩
      rw [← hlive]
      simpa [isDead, hdefined, hfacts] using hdead

/-- The analysis of a round succeeds if the program has a flow graph. -/
theorem exists_liveness
    {p : Program} {g : FlowGraph} (hp : p.WellFormed)
    (hg : FlowGraph.ofProgram p = .ok g)
    (hsize : p.size + 2 ≤ Settings.maxWord) :
    ∃ live, liveness .default p = .ok live ∧
      LiveVariables.solve p .default p g = .ok live := by
  have hcount := FlowGraph.blockCount_le_size hg
  obtain ⟨live, hlive⟩ :=
    LiveVariables.exists_solve hp (.program hg) (by omega)
      Settings.computed_default
  refine ⟨live, ?_, hlive⟩
  rw [liveness, hg]
  exact hlive

/-- What it finds dead is dead. -/
theorem exists_sound_and_allDead
    {p : Program} {g : FlowGraph} {live : Solution VarSet} (hp : p.WellFormed)
    (hjumps : p.JumpsLabelled) (hg : FlowGraph.ofProgram p = .ok g)
    (hlive : LiveVariables.solve p .default p g = .ok live) :
    ∃ before after, LiveVariables.Sound p before after ∧
      AllDead p (deadSites live p) after := by
  obtain ⟨before, after, hsound, hafter⟩ :=
    LiveVariables.exists_sound hp hjumps hg hlive
  exact ⟨before, after, hsound, allDead_deadSites hp.nodup_ids hafter⟩

/-! ## All rounds -/

/-- A round leads from a program with dead stores to what is left of it. -/
def Round (settings : Settings) (p next : Program) : Prop :=
  ∃ live, liveness settings p = .ok live ∧ deadSites live p ≠ [] ∧
    p.withInstructions (survivors (deadSites live p) p.instrs.toList) =
      .ok next

theorem Round.countP_isStore_lt
    {settings : Settings} {p next : Program} (h : Round settings p next) :
    next.instrs.toList.countP isStore < p.instrs.toList.countP isStore := by
  obtain ⟨live, -, hdead, hnext⟩ := h
  obtain ⟨instr, hmem, hstore, hid⟩ := exists_store_of_deadSites_ne_nil hdead
  rw [Program.withInstructions_instrs hnext]
  exact countP_survivors_lt hmem hstore hid

/-- Every round removes a store, so the rounds come to an end. -/
theorem wellFounded_round (settings : Settings) :
    WellFounded fun next p => Round settings p next :=
  Subrelation.wf Round.countP_isStore_lt
    (measure fun p : Program => p.instrs.toList.countP isStore).wf

theorem Round.exists_survivors
    {settings : Settings} {p next : Program} (h : Round settings p next) :
    ∃ live, liveness settings p = .ok live ∧
      next.instrs.toList = survivors (deadSites live p) p.instrs.toList := by
  obtain ⟨live, hlive, -, hnext⟩ := h
  exact ⟨live, hlive, Program.withInstructions_instrs hnext⟩

theorem Round.wellFormed
    {settings : Settings} {p next : Program} (h : Round settings p next) :
    next.WellFormed := by
  obtain ⟨live, -, -, hnext⟩ := h
  exact Program.WellFormed.withInstructions hnext

theorem Round.size_le
    {settings : Settings} {p next : Program} (h : Round settings p next) :
    next.size ≤ p.size := by
  obtain ⟨live, -, hinstrs⟩ := h.exists_survivors
  rw [Program.size, ← Array.length_toList, hinstrs, Program.size,
    ← Array.length_toList]
  exact List.length_filterMap_le _ _

theorem eliminate_of_deadSites_eq_nil
    {settings : Settings} {p : Program} {live : Solution VarSet}
    (hlive : liveness settings p = .ok live) (hdead : deadSites live p = []) :
    eliminate settings p = .ok p := by
  rw [eliminate, hlive]
  exact dif_pos hdead

/-- A round is followed by another, unless nothing is left. -/
theorem Round.eliminate_eq
    {settings : Settings} {p next : Program} (h : Round settings p next) :
    eliminate settings p =
      if next.isEmpty then .ok next else eliminate settings next := by
  obtain ⟨live, hlive, hdead, hnext⟩ := h
  rw [eliminate, hlive]
  simp only [dif_neg hdead]
  split
  · next e he => simp [hnext] at he
  · next found hfound =>
      rw [hnext] at hfound
      obtain rfl := Except.ok.inj hfound
      rfl

/-- There is a round if there are dead stores. -/
theorem exists_round
    {settings : Settings} {p : Program} {live : Solution VarSet}
    (hp : p.WellFormed) (hlive : liveness settings p = .ok live)
    (hdead : deadSites live p ≠ []) :
    ∃ next, Round settings p next ∧
      next.instrs.toList = survivors (deadSites live p) p.instrs.toList := by
  obtain ⟨next, hnext⟩ := withInstructions_survivors hp (deadSites live p)
  exact ⟨next, ⟨live, hlive, hdead, hnext⟩,
    Program.withInstructions_instrs hnext⟩

theorem exists_eliminate
    {p : Program} (hp : p.WellFormed) (hne : p.instrs.toList ≠ [])
    (hjumps : p.JumpsLabelled) (hsize : p.size + 2 ≤ Settings.maxWord) :
    ∃ q, eliminate .default p = .ok q ∧ p.Equivalent q := by
  induction p using (wellFounded_round .default).induction with
  | _ p ih =>
      obtain ⟨g, hg⟩ := FlowGraph.exists_ofProgram hp.nodup_ids hne hjumps
      obtain ⟨live, hlive, hsolve⟩ := exists_liveness hp hg hsize
      obtain ⟨before, after, hsound, hdead⟩ :=
        exists_sound_and_allDead hp hjumps hg hsolve
      by_cases hnone : deadSites live p = []
      · exact ⟨p, eliminate_of_deadSites_eq_nil hlive hnone, .refl p⟩
      · obtain ⟨next, hround, hinstrs⟩ := exists_round hp hlive hnone
        have hids := hround.wellFormed.nodup_ids
        have hequiv := equivalent_survivors hinstrs hp.nodup_ids hids hjumps
          hsound hdead
        rw [hround.eliminate_eq]
        by_cases hempty : next.isEmpty = true
        · exact ⟨next, if_pos hempty, hequiv⟩
        · rw [if_neg hempty]
          have hne' : next.instrs.toList ≠ [] := by
            simpa [Program.isEmpty] using hempty
          have hle := hround.size_le
          obtain ⟨q, hq, hrest⟩ := ih next hround hround.wellFormed hne'
            (jumpsLabelled_survivors hinstrs hids hjumps) (by omega)
          exact ⟨q, hq, hequiv.trans hrest⟩

/-- A program whose jumps name labelled instructions can be rid of its dead
stores, and prints and halts as before under every evaluator and from every
store. -/
theorem eliminate_equivalent
    {p : Program} (hp : p.Grown) (hne : 0 < p.size)
    (hjumps : p.JumpsLabelled) :
    ∃ q, eliminate .default p = .ok q ∧
      ∀ (e : Evaluator) (σ : Store),
        (∀ values, p.Prints e σ values ↔ q.Prints e σ values) ∧
          (p.Halts e σ ↔ q.Halts e σ) := by
  -- the computed limit on the passes does not overflow
  have hsize : p.size + 2 ≤ Settings.maxWord :=
    (Nat.add_le_add_right hp.size_le 2).trans (by decide)
  obtain ⟨q, hq, hequiv⟩ := exists_eliminate hp.wellFormed
    (Program.toList_ne_nil hne) hjumps hsize
  exact ⟨q, hq, fun e σ => ⟨hequiv.prints_iff e σ, hequiv.halts_iff e σ⟩⟩

/-- Prints a falling sequence and computes, in two dead stores, what nobody
reads.  The first of them is the target of the jump. -/
def wasteful : Program where
  instrs := #[
    ⟨⟨0⟩, false, .assign ⟨0⟩ none .copy (.const 3)⟩,
    ⟨⟨1⟩, true, .assign ⟨1⟩ (some (.var ⟨0⟩)) .plus (.const 1)⟩,
    ⟨⟨2⟩, false, .assign ⟨2⟩ (some (.var ⟨1⟩)) .div (.var ⟨0⟩)⟩,
    ⟨⟨3⟩, false, .print (.var ⟨0⟩)⟩,
    ⟨⟨4⟩, false, .assign ⟨0⟩ (some (.var ⟨0⟩)) .minus (.const 1)⟩,
    ⟨⟨5⟩, false, .branch (.var ⟨0⟩) ⟨1⟩⟩]
  names := #["x", "y", "z"]

theorem grown_wasteful : wasteful.Grown := by
  have hbuild : (Program.ofNames ["x", "y", "z"]).withInstructions
      wasteful.instrs.toList = .ok wasteful := by
    decide +kernel
  exact (Program.Grown.ofNames _).withInstructions (by decide) hbuild

theorem eliminate_equivalent_wasteful :
    ∃ q, eliminate .default wasteful = .ok q ∧
      (∀ (e : Evaluator) (σ : Store),
        (∀ values, wasteful.Prints e σ values ↔ q.Prints e σ values) ∧
          (wasteful.Halts e σ ↔ q.Halts e σ)) ∧
      q.Prints .zero (fun _ => 0) [3, 2, 1] := by
  obtain ⟨q, hq, hequiv⟩ := eliminate_equivalent grown_wasteful (by decide)
    (by decide)
  have hprints : wasteful.Prints .zero (fun _ => 0) [3, 2, 1] :=
    ⟨16, by decide +kernel⟩
  exact ⟨q, hq, hequiv, ((hequiv .zero _).1 _).mp hprints⟩

end DeadStore
end ThreeAddress
