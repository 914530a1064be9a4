import Mathlib.Data.List.Induction
import Mathlib.Logic.Function.Basic
import ThreeAddress.Proofs.Code.Tables

/-!
# Histories of program stores

A client keeps stores in slots, starts new ones, and changes or copies those that
it has.  Whatever it asks for, refused requests included, it gets the answers that
it would get from programs without tables, and instructions, handles, names and
variables lead to each other through the tables of every store.  Variables are
numbered by 32-bit words, so names lead to variables and back only as long as there
are fewer names than such words.
-/

namespace ThreeAddress

/-! ## Requests -/

/-- The operations on a kind of programs.  Those that change a program give it back
next to their answer. -/
structure ProgramOperations (σ : Type) where
  empty : σ
  intern : σ → String → VarId × σ
  push : σ → Instruction → Except Error InstrId × σ
  remove : σ → List InstrId → Nat × σ
  without : σ → List InstrId → σ
  withInstructions : σ → List Instruction → Except Error σ

namespace ProgramOperations

/-- What a client asks of programs that it keeps in numbered slots. -/
inductive Request
  | new (k : Nat)
  | intern (k : Nat) (name : String)
  | push (k : Nat) (instr : Instruction)
  | remove (k : Nat) (ids : List InstrId)
  | without (k : Nat) (ids : List InstrId) (result : Nat)
  | withInstructions (k : Nat) (instrs : List Instruction) (result : Nat)

/-- What the client is told. -/
inductive Reply
  | done
  | interned (v : VarId)
  | pushed (id : InstrId)
  | removed (count : Nat)
  | refused (e : Error)
deriving DecidableEq

/-- What the client is told about a push. -/
def Reply.ofPush : Except Error InstrId → Reply
  | .ok id => pushed id
  | .error e => refused e

variable {σ : Type}

/-- Puts a changed program into a slot, and replies. -/
def assign
    {α : Type} (slots : Nat → σ) (k : Nat) (reply : α → Reply)
    (outcome : α × σ) :
    Reply × (Nat → σ) :=
  (reply outcome.1, Function.update slots k outcome.2)

/-- The reply to a request, and the programs in the slots after it. -/
def perform
    (ops : ProgramOperations σ) (slots : Nat → σ) :
    Request → Reply × (Nat → σ)
  | .new k => (.done, Function.update slots k ops.empty)
  | .intern k name => assign slots k .interned (ops.intern (slots k) name)
  | .push k instr => assign slots k .ofPush (ops.push (slots k) instr)
  | .remove k ids => assign slots k .removed (ops.remove (slots k) ids)
  | .without k ids result =>
      (.done, Function.update slots result (ops.without (slots k) ids))
  | .withInstructions k instrs result =>
      match ops.withInstructions (slots k) instrs with
      | .ok built => (.done, Function.update slots result built)
      | .error e => (.refused e, slots)

/-- The replies to some requests, and the programs in the slots after them.  At
first all are empty. -/
def run (ops : ProgramOperations σ) (requests : List Request) :
    List Reply × (Nat → σ) :=
  requests.foldl
    (fun state request =>
      let next := ops.perform state.2 request
      (state.1 ++ [next.1], next.2))
    ([], fun _ => ops.empty)

theorem run_concat
    (ops : ProgramOperations σ) (requests : List Request) (request : Request) :
    ops.run (requests ++ [request]) =
      ((ops.run requests).1 ++ [(ops.perform (ops.run requests).2 request).1],
        (ops.perform (ops.run requests).2 request).2) :=
  List.foldl_concat _ _ request requests

end ProgramOperations

open ProgramOperations (Request Reply)

namespace Program

/-- Appends an instruction and answers with its handle, or keeps the program. -/
def tryPush (p : Program) (instr : Instruction) : Except Error InstrId × Program :=
  match p.push instr with
  | .ok q => (.ok instr.id, q)
  | .error e => (.error e, p)

/-- The operations on programs without tables. -/
def operations : ProgramOperations Program where
  empty := empty
  intern := intern
  push := tryPush
  remove := remove
  without := without
  withInstructions := withInstructions

end Program

namespace ProgramStore

/-- The operations that keep tables. -/
def operations : ProgramOperations ProgramStore where
  empty := empty
  intern := intern
  push := push
  remove := remove
  without := without
  withInstructions := withInstructions

/-! ## What requests keep -/

theorem sound_update
    {slots : Nat → ProgramStore} (hslots : ∀ k, (slots k).Sound) (j : Nat)
    {s : ProgramStore} (hs : s.Sound) :
    ∀ k, (Function.update slots j s k).Sound :=
  (Function.forall_update_iff slots fun _ t => t.Sound).mpr
    ⟨hs, fun k _ => hslots k⟩

theorem program_comp_update
    (slots : Nat → ProgramStore) (j : Nat) (s : ProgramStore) :
    Function.update (program ∘ slots) j s.program =
      program ∘ Function.update slots j s :=
  (Function.comp_update program slots j s).symm

/-- A change of a store in a slot is a change of its program. -/
theorem assign_refines
    {α : Type} {slots : Nat → ProgramStore} (hslots : ∀ k, (slots k).Sound)
    (j : Nat) (reply : α → Reply) {outcome : α × ProgramStore}
    {outcome' : α × Program}
    (h : outcome.2.Sound ∧ Prod.map id program outcome = outcome') :
    (∀ k, ((ProgramOperations.assign slots j reply outcome).2 k).Sound) ∧
      ProgramOperations.assign (program ∘ slots) j reply outcome' =
        Prod.map id (program ∘ ·)
          (ProgramOperations.assign slots j reply outcome) := by
  obtain ⟨hsound, rfl⟩ := h
  refine ⟨sound_update hslots j hsound, ?_⟩
  exact congrArg (Prod.mk _) (program_comp_update slots j outcome.2)

theorem Sound.push {s : ProgramStore} (hs : s.Sound) (instr : Instruction) :
    (s.push instr).2.Sound ∧
      Prod.map id program (s.push instr) = s.program.tryPush instr := by
  rw [Program.tryPush]
  obtain ⟨e, hpush, hprogram⟩ | ⟨hpush, hprogram⟩ := hs.push_cases instr
  · rw [hpush, hprogram]
    exact ⟨hs, rfl⟩
  · rw [hpush, hprogram]
    exact ⟨hs.append hprogram, rfl⟩

/-- A request keeps stores sound.  On the programs in the stores it does the same,
with the same reply. -/
theorem perform_refines
    {slots : Nat → ProgramStore} (hslots : ∀ k, (slots k).Sound)
    (request : Request) :
    (∀ k, ((operations.perform slots request).2 k).Sound) ∧
      Program.operations.perform (program ∘ slots) request =
        Prod.map id (program ∘ ·) (operations.perform slots request) := by
  cases request with
  | new j =>
      refine ⟨sound_update hslots j sound_empty, ?_⟩
      exact congrArg (Prod.mk _) (program_comp_update slots j empty)
  | intern j name => exact assign_refines hslots j _ ((hslots j).intern name)
  | push j instr => exact assign_refines hslots j _ ((hslots j).push instr)
  | remove j ids => exact assign_refines hslots j _ ((hslots j).remove ids)
  | without j ids result =>
      refine ⟨sound_update hslots result ((hslots j).remove ids).1, ?_⟩
      exact congrArg (Prod.mk _)
        (program_comp_update slots result ((slots j).without ids))
  | withInstructions j instrs result =>
      rw [ProgramOperations.perform, ProgramOperations.perform]
      obtain ⟨e, hbuild, hprogram⟩ | ⟨t, hbuild, hprogram, ht⟩ :=
        (hslots j).withInstructions_cases instrs
      · simp only [operations, Program.operations, Function.comp_apply, hbuild,
          hprogram]
        exact ⟨hslots, rfl⟩
      · simp only [operations, Program.operations, Function.comp_apply, hbuild,
          hprogram]
        refine ⟨sound_update hslots result ht, ?_⟩
        exact congrArg (Prod.mk _) (program_comp_update slots result t)

theorem run_refines (requests : List Request) :
    (∀ k, ((operations.run requests).2 k).Sound) ∧
      Program.operations.run requests =
        Prod.map id (program ∘ ·) (operations.run requests) := by
  induction requests using List.reverseRecOn with
  | nil => exact ⟨fun _ => sound_empty, rfl⟩
  | append_singleton requests request ih =>
      obtain ⟨hsound, hrun⟩ := ih
      obtain ⟨hnext, hperform⟩ := perform_refines hsound request
      rw [ProgramOperations.run_concat, ProgramOperations.run_concat, hrun]
      refine ⟨hnext, ?_⟩
      simp only [Prod.map_fst, Prod.map_snd, hperform]
      rfl

/-! ## Coherence -/

/-- The stores in the slots after some requests. -/
def stores (requests : List Request) : Nat → ProgramStore :=
  (operations.run requests).2

/-- Handles, positions, names and variables lead to each other through the
tables. -/
structure Coherent (s : ProgramStore) : Prop where
  nodup_ids : s.ids.Nodup
  position?_eq_some_iff : ∀ id k,
    s.position? id = some k ↔ ∃ instr, s.at? k = some instr ∧ instr.id = id
  get?_eq_some_iff : ∀ id instr,
    s.get? id = some instr ↔
      ∃ k, s.position? id = some k ∧ s.at? k = some instr
  nodup_names : s.names.toList.Nodup
  lookup?_eq_some_iff : ∀ name v,
    s.lookup? name = some v ↔ s.name? v = some name
  index_lt : ∀ instr ∈ s.instrs.toList, ∀ v ∈ instr.vars,
    v.index < s.varCount

theorem Sound.coherent
    {s : ProgramStore} (hs : s.Sound) (hcount : s.varCount < UInt32.size) :
    s.Coherent where
  nodup_ids := hs.sound_program.nodup_ids
  position?_eq_some_iff id k := by
    rw [hs.position?_eq]
    exact Program.position?_eq_some_iff hs.sound_program.nodup_ids
  get?_eq_some_iff id instr := by
    rw [hs.get?_eq, hs.position?_eq]
    exact Program.get?_eq_some_iff hs.sound_program.nodup_ids
  nodup_names := hs.sound_program.nodup_names
  lookup?_eq_some_iff name v := by
    rw [hs.lookup?_eq]
    exact Program.lookup?_eq_some_iff hs.sound_program.nodup_names hcount
  index_lt := hs.sound_program.index_lt

/-- An instruction is refused if its handle is taken or one of its variables is not
interned. -/
theorem Sound.exists_push_eq_error_iff
    {s : ProgramStore} (hs : s.Sound) {instr : Instruction} :
    (∃ e, (s.push instr).1 = .error e) ↔
      instr.id ∈ s.ids ∨ ∃ v ∈ instr.vars, s.varCount ≤ v.index := by
  have hok : (∃ q, s.program.push instr = .ok q) ↔
      instr.id ∉ s.ids ∧ ∀ v ∈ instr.vars, v.index < s.varCount := by
    simp only [Program.push_eq_ok_iff]
    constructor
    · rintro ⟨q, hid, hvars, -⟩
      exact ⟨hid, hvars⟩
    · rintro ⟨hid, hvars⟩
      exact ⟨_, hid, hvars, rfl⟩
  have herror : (∃ e, (s.push instr).1 = .error e) ↔
      ¬ ∃ q, s.program.push instr = .ok q := by
    obtain ⟨e, hpush, hprogram⟩ | ⟨hpush, hprogram⟩ := hs.push_cases instr
    · simp [hpush, hprogram]
    · simp [hpush, hprogram]
  rw [herror, hok]
  simp only [not_and_or, not_not, not_forall, Nat.not_lt, exists_prop]

theorem Sound.push_of_error
    {s : ProgramStore} (hs : s.Sound) {instr : Instruction} {e : Error}
    (h : (s.push instr).1 = .error e) :
    (s.push instr).2 = s := by
  obtain ⟨e', hpush, -⟩ | ⟨hpush, -⟩ := hs.push_cases instr
  · rw [hpush]
  · rw [hpush] at h
    cases h

theorem Sound.push_of_ok
    {s : ProgramStore} (hs : s.Sound) {instr : Instruction} {id : InstrId}
    (h : (s.push instr).1 = .ok id) :
    id = instr.id ∧ (s.push instr).2 = s.append instr := by
  obtain ⟨e, hpush, -⟩ | ⟨hpush, -⟩ := hs.push_cases instr
  · rw [hpush] at h
    cases h
  · rw [hpush] at h ⊢
    exact ⟨(Except.ok.inj h).symm, rfl⟩

/-- What can be read off a store is what can be read off a program. -/
structure Refines (s : ProgramStore) (p : Program) : Prop where
  program_eq : s.program = p
  position?_eq : ∀ id, s.position? id = p.position? id
  get?_eq : ∀ id, s.get? id = p.get? id
  lookup?_eq : ∀ name, s.lookup? name = p.lookup? name

theorem Sound.refines {s : ProgramStore} (hs : s.Sound) : s.Refines s.program where
  program_eq := rfl
  position?_eq := hs.position?_eq
  get?_eq := hs.get?_eq
  lookup?_eq := hs.lookup?_eq

theorem sound_stores (requests : List Request) (k : Nat) :
    (stores requests k).Sound :=
  (run_refines requests).1 k

theorem stores_refine (requests : List Request) (k : Nat) :
    (stores requests k).Refines ((Program.operations.run requests).2 k) := by
  rw [(run_refines requests).2]
  exact (sound_stores requests k).refines

theorem stores_push (requests : List Request) (k : Nat) (instr : Instruction) :
    stores (requests ++ [.push k instr]) =
      Function.update (stores requests) k ((stores requests k).push instr).2 := by
  rw [stores, ProgramOperations.run_concat]
  rfl

/-- After any requests the tables of every store are coherent, as long as its
variables can be numbered, and replies and stores are those of programs without
tables.  A store refuses an instruction exactly if the handle is taken or a variable
is not interned, and then all stores stay as they are; an instruction that it takes
is put at the end. -/
theorem history_keeps_coherent
    (requests : List Request) (k : Nat)
    (hcount : (stores requests k).varCount < UInt32.size) :
    (stores requests k).Coherent ∧
      (operations.run requests).1 = (Program.operations.run requests).1 ∧
      (stores requests k).Refines ((Program.operations.run requests).2 k) ∧
      ∀ instr,
        ((∃ e, ((stores requests k).push instr).1 = .error e) ↔
          instr.id ∈ (stores requests k).ids ∨
            ∃ v ∈ instr.vars, (stores requests k).varCount ≤ v.index) ∧
        ((∃ e, ((stores requests k).push instr).1 = .error e) →
          ((stores requests k).push instr).2 = stores requests k ∧
            stores (requests ++ [.push k instr]) = stores requests) ∧
        ∀ id, ((stores requests k).push instr).1 = .ok id →
          id = instr.id ∧
            (stores (requests ++ [.push k instr]) k).instrs =
              (stores requests k).instrs.push instr ∧
            (stores (requests ++ [.push k instr]) k).names =
              (stores requests k).names := by
  have hs := sound_stores requests k
  refine ⟨hs.coherent hcount, ?_, stores_refine requests k, ?_⟩
  · rw [(run_refines requests).2]
    rfl
  intro instr
  rw [stores_push]
  refine ⟨hs.exists_push_eq_error_iff, ?_, ?_⟩
  · rintro ⟨e, herror⟩
    have hkept := hs.push_of_error herror
    exact ⟨hkept, by rw [hkept, Function.update_eq_self]⟩
  · intro id hid
    obtain ⟨hsame, hpush⟩ := hs.push_of_ok hid
    rw [Function.update_self, hpush]
    exact ⟨hsame, rfl, rfl⟩

/-- A client that is refused a taken handle and a variable without a name, copies
its program in part, and fails to build another one. -/
def rehearsal : List Request :=
  [.intern 0 "a",
    .push 0 ⟨⟨0⟩, false, .assign ⟨0⟩ none .copy (.const 5)⟩,
    .push 0 ⟨⟨0⟩, false, .nop⟩,
    .push 0 ⟨⟨1⟩, false, .print (.var ⟨1⟩)⟩,
    .intern 0 "b", .intern 0 "a",
    .push 0 ⟨⟨2⟩, false, .assign ⟨1⟩ (some (.var ⟨0⟩)) .plus (.const 1)⟩,
    .push 0 ⟨⟨1⟩, false, .print (.var ⟨1⟩)⟩,
    .without 0 [⟨0⟩, ⟨7⟩] 1,
    .withInstructions 1 [⟨⟨3⟩, false, .nop⟩, ⟨⟨3⟩, false, .nop⟩] 1,
    .remove 0 [⟨2⟩, ⟨7⟩]]

theorem history_keeps_coherent_rehearsal :
    (operations.run rehearsal).1 =
        [.interned ⟨0⟩, .pushed ⟨0⟩, .refused (.duplicateInstruction ⟨0⟩),
          .refused (.uninternedVariable ⟨1⟩ ⟨1⟩), .interned ⟨1⟩, .interned ⟨0⟩,
          .pushed ⟨2⟩, .pushed ⟨1⟩, .done, .refused (.duplicateInstruction ⟨3⟩),
          .removed 1] ∧
      (stores rehearsal 1).ids = [⟨2⟩, ⟨1⟩] ∧
      (stores rehearsal 1).varCount < UInt32.size ∧
      (stores rehearsal 1).Coherent ∧
      (stores rehearsal 1).position? ⟨1⟩ = some 1 ∧
      (stores rehearsal 1).lookup? "b" = some ⟨1⟩ ∧
      stores (rehearsal ++ [.push 1 ⟨⟨2⟩, false, .nop⟩]) = stores rehearsal := by
  -- hashes of names do not compute, so what the stores hold is read off the programs
  have hprogram : (stores rehearsal 1).program =
      ⟨#[⟨⟨2⟩, false, .assign ⟨1⟩ (some (.var ⟨0⟩)) .plus (.const 1)⟩,
        ⟨⟨1⟩, false, .print (.var ⟨1⟩)⟩], #["a", "b"]⟩ := by
    rw [(stores_refine rehearsal 1).program_eq]
    decide +kernel
  have hids : (stores rehearsal 1).ids = [⟨2⟩, ⟨1⟩] :=
    congrArg Program.ids hprogram
  have hcount : (stores rehearsal 1).varCount < UInt32.size := by
    have hvars : (stores rehearsal 1).varCount = 2 :=
      congrArg Program.varCount hprogram
    rw [hvars]
    decide
  obtain ⟨hcoherent, hreplies, -, hpush⟩ :=
    history_keeps_coherent rehearsal 1 hcount
  obtain ⟨hrefuses, hleaves, -⟩ := hpush ⟨⟨2⟩, false, .nop⟩
  refine ⟨?_, hids, hcount, hcoherent, ?_, ?_, ?_⟩
  · rw [hreplies]
    decide +kernel
  · apply (hcoherent.position?_eq_some_iff ⟨1⟩ 1).mpr
    exact ⟨_, congrArg (Program.at? · 1) hprogram, rfl⟩
  · apply (hcoherent.lookup?_eq_some_iff "b" ⟨1⟩).mpr
    exact congrArg (Program.name? · ⟨1⟩) hprogram
  · refine (hleaves ?_).2
    apply hrefuses.mpr
    rw [hids]
    exact Or.inl List.mem_cons_self

end ProgramStore
end ThreeAddress
