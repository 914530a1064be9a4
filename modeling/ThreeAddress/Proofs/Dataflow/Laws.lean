import Mathlib.Data.List.Chain
import Mathlib.Data.Nat.Find
import ThreeAddress.Dataflow.Analysis

/-!
# Laws of an analysis

An analysis is well behaved if its meet is that of a semilattice with the
initial fact on top, its transfer keeps the order, and facts can fall only so
often.  Most analyses obey these laws only for the facts that can arise, such as
sets of the right capacity, and for the instructions of one program.  So the
laws are stated relative to a carrier of facts and to a class of instructions,
and the carrier is closed under the operations.
-/

namespace ThreeAddress
namespace Analysis

variable {α : Type}

/-- The order of facts: the first is the meet of both. -/
def Below (a : Analysis α) (x y : α) : Prop :=
  a.meet x y = x

/-- The meet is that of a semilattice with the initial fact on top, and no
operation leaves the carrier. -/
structure MeetLaws
    (a : Analysis α) (carrier : α → Prop) (code : Instruction → Prop) :
    Prop where
  boundary_mem : carrier a.boundary
  initial_mem : carrier a.initial
  meet_mem : ∀ {x y}, carrier x → carrier y → carrier (a.meet x y)
  transfer_mem : ∀ {instr x}, code instr → carrier x →
    carrier (a.transfer instr x)
  meet_assoc : ∀ {x y z}, carrier x → carrier y → carrier z →
    a.meet (a.meet x y) z = a.meet x (a.meet y z)
  meet_comm : ∀ {x y}, carrier x → carrier y → a.meet x y = a.meet y x
  meet_self : ∀ {x}, carrier x → a.meet x x = x
  initial_meet : ∀ {x}, carrier x → a.meet a.initial x = x

/-- Besides, transfer keeps the order, and no fact falls more often than the
height says. -/
structure Laws
    (a : Analysis α) (carrier : α → Prop) (code : Instruction → Prop) : Prop
    extends MeetLaws a carrier code where
  transfer_mono : ∀ {instr x y}, code instr → carrier x → carrier y →
    a.Below x y → a.Below (a.transfer instr x) (a.transfer instr y)
  length_le_of_chain : ∀ {chain : List α}, (∀ x ∈ chain, carrier x) →
    chain.IsChain (fun x y => a.Below y x ∧ y ≠ x) →
    chain.length ≤ a.height + 1

/-- The facts that an analysis can come upon: the boundary fact, the initial one,
and whatever meets and transfers make of these. -/
inductive Arises (a : Analysis α) (code : Instruction → Prop) : α → Prop
  | boundary : Arises a code a.boundary
  | initial : Arises a code a.initial
  | meet {x y : α} :
      Arises a code x → Arises a code y → Arises a code (a.meet x y)
  | transfer {instr : Instruction} {x : α} :
      code instr → Arises a code x → Arises a code (a.transfer instr x)

namespace MeetLaws

variable {a : Analysis α} {carrier : α → Prop} {code : Instruction → Prop}

theorem mem_of_arises
    (h : a.MeetLaws carrier code) {x : α} (hx : a.Arises code x) :
    carrier x := by
  induction hx with
  | boundary => exact h.boundary_mem
  | initial => exact h.initial_mem
  | meet _ _ ihx ihy => exact h.meet_mem ihx ihy
  | transfer hinstr _ ih => exact h.transfer_mem hinstr ih

theorem below_refl
    (h : a.MeetLaws carrier code) {x : α} (hx : carrier x) :
    a.Below x x :=
  h.meet_self hx

theorem below_trans
    (h : a.MeetLaws carrier code) {x y z : α} (hx : carrier x)
    (hy : carrier y) (hz : carrier z) (hxy : a.Below x y)
    (hyz : a.Below y z) :
    a.Below x z := by
  calc
    a.meet x z = a.meet (a.meet x y) z := by rw [hxy]
    _ = a.meet x (a.meet y z) := h.meet_assoc hx hy hz
    _ = x := by rw [hyz, hxy]

theorem meet_below_left
    (h : a.MeetLaws carrier code) {x y : α} (hx : carrier x)
    (hy : carrier y) :
    a.Below (a.meet x y) x := by
  calc
    a.meet (a.meet x y) x = a.meet x (a.meet x y) :=
      h.meet_comm (h.meet_mem hx hy) hx
    _ = a.meet (a.meet x x) y := (h.meet_assoc hx hx hy).symm
    _ = a.meet x y := by rw [h.meet_self hx]

theorem meet_below_right
    (h : a.MeetLaws carrier code) {x y : α} (hx : carrier x)
    (hy : carrier y) :
    a.Below (a.meet x y) y := by
  rw [h.meet_comm hx hy]
  exact h.meet_below_left hy hx

theorem below_meet
    (h : a.MeetLaws carrier code) {x y z : α} (hx : carrier x)
    (hy : carrier y) (hz : carrier z) (hzx : a.Below z x)
    (hzy : a.Below z y) :
    a.Below z (a.meet x y) := by
  calc
    a.meet z (a.meet x y) = a.meet (a.meet z x) y :=
      (h.meet_assoc hz hx hy).symm
    _ = z := by rw [hzx, hzy]

theorem below_initial
    (h : a.MeetLaws carrier code) {x : α} (hx : carrier x) :
    a.Below x a.initial := by
  rw [Below, h.meet_comm hx h.initial_mem]
  exact h.initial_meet hx

theorem through_mem
    (h : a.MeetLaws carrier code) {instrs : List Instruction}
    (hcode : ∀ instr ∈ instrs, code instr) {x : α} (hx : carrier x) :
    carrier (a.through instrs x) := by
  induction instrs generalizing x with
  | nil => exact hx
  | cons instr rest ih =>
      rw [List.forall_mem_cons] at hcode
      exact ih hcode.2 (h.transfer_mem hcode.1 hx)

end MeetLaws

/-! ## The meet of several facts -/

theorem meetAll_eq_none_iff
    (a : Analysis α) (seed : Option α) (facts : List α) :
    a.meetAll seed facts = none ↔ seed = none ∧ facts = [] := by
  induction facts generalizing seed with
  | nil => simp [meetAll]
  | cons fact rest ih =>
      cases seed with
      | none =>
          have hstep :
              a.meetAll none (fact :: rest) = a.meetAll (some fact) rest := rfl
          simp [hstep, ih]
      | some before =>
          have hstep : a.meetAll (some before) (fact :: rest) =
              a.meetAll (some (a.meet before fact)) rest := rfl
          simp [hstep, ih]

/-- The greatest lower bound of a list of facts, among the facts of the
carrier. -/
structure IsMeet
    (a : Analysis α) (carrier : α → Prop) (facts : List α) (m : α) :
    Prop where
  mem : carrier m
  below : ∀ x ∈ facts, a.Below m x
  greatest : ∀ z, carrier z → (∀ x ∈ facts, a.Below z x) → a.Below z m

theorem MeetLaws.isMeet_singleton
    {a : Analysis α} {carrier : α → Prop} {code : Instruction → Prop}
    (h : a.MeetLaws carrier code) {x : α} (hx : carrier x) :
    a.IsMeet carrier [x] x where
  mem := hx
  below y hy := by
    rw [List.mem_singleton.mp hy]
    exact h.below_refl hx
  greatest z _ hz := hz x List.mem_cons_self

theorem MeetLaws.isMeet_meet_cons
    {a : Analysis α} {carrier : α → Prop} {code : Instruction → Prop}
    (h : a.MeetLaws carrier code) {x y m : α} {rest : List α}
    (hx : carrier x) (hy : carrier y)
    (hm : a.IsMeet carrier (a.meet x y :: rest) m) :
    a.IsMeet carrier (x :: y :: rest) m := by
  have hxy : carrier (a.meet x y) := h.meet_mem hx hy
  have hfirst : a.Below m (a.meet x y) := hm.below _ List.mem_cons_self
  refine ⟨hm.mem, ?_, ?_⟩
  · rw [List.forall_mem_cons, List.forall_mem_cons]
    refine ⟨?_, ?_, ?_⟩
    · exact h.below_trans hm.mem hxy hx hfirst (h.meet_below_left hx hy)
    · exact h.below_trans hm.mem hxy hy hfirst (h.meet_below_right hx hy)
    · intro z hz
      exact hm.below z (List.mem_cons_of_mem _ hz)
  · intro z hz hall
    rw [List.forall_mem_cons, List.forall_mem_cons] at hall
    obtain ⟨hzx, hzy, hrest⟩ := hall
    apply hm.greatest z hz
    rw [List.forall_mem_cons]
    exact ⟨h.below_meet hx hy hz hzx hzy, hrest⟩

theorem MeetLaws.isMeet_meetAll
    {a : Analysis α} {carrier : α → Prop} {code : Instruction → Prop}
    (h : a.MeetLaws carrier code) {seed : Option α} {facts : List α} {m : α}
    (hcarrier : ∀ x ∈ seed.toList ++ facts, carrier x)
    (hm : a.meetAll seed facts = some m) :
    a.IsMeet carrier (seed.toList ++ facts) m := by
  induction facts generalizing seed with
  | nil =>
      obtain rfl : seed = some m := hm
      exact h.isMeet_singleton (hcarrier m List.mem_cons_self)
  | cons fact rest ih =>
      cases seed with
      | none => exact ih hcarrier hm
      | some before =>
          simp only [Option.toList_some, List.cons_append, List.nil_append,
            List.forall_mem_cons] at hcarrier
          obtain ⟨hbefore, hfact, hrest⟩ := hcarrier
          refine h.isMeet_meet_cons hbefore hfact (ih ?_ hm)
          simp only [Option.toList_some, List.cons_append, List.nil_append,
            List.forall_mem_cons]
          exact ⟨h.meet_mem hbefore hfact, hrest⟩

/-! ## Monotonicity and height -/

/-- The laws hold for fewer instructions too. -/
theorem MeetLaws.restrict
    {a : Analysis α} {carrier : α → Prop} {code code' : Instruction → Prop}
    (h : a.MeetLaws carrier code) (hcode : ∀ instr, code' instr → code instr) :
    a.MeetLaws carrier code' :=
  { h with
    transfer_mem := fun hinstr hx => h.transfer_mem (hcode _ hinstr) hx }

theorem Laws.restrict
    {a : Analysis α} {carrier : α → Prop} {code code' : Instruction → Prop}
    (h : a.Laws carrier code) (hcode : ∀ instr, code' instr → code instr) :
    a.Laws carrier code' :=
  { h with
    toMeetLaws := h.toMeetLaws.restrict hcode
    transfer_mono := fun hinstr hx hy hxy =>
      h.transfer_mono (hcode _ hinstr) hx hy hxy }

/-- The laws hold for fewer facts too, if no operation leaves them. -/
theorem Laws.narrow
    {a : Analysis α} {carrier carrier' : α → Prop} {code : Instruction → Prop}
    (h : a.Laws carrier code) (hcarrier : ∀ {x}, carrier' x → carrier x)
    (hboundary : carrier' a.boundary) (hinitial : carrier' a.initial)
    (hmeet : ∀ {x y}, carrier' x → carrier' y → carrier' (a.meet x y))
    (htransfer : ∀ {instr x}, code instr → carrier' x →
      carrier' (a.transfer instr x)) :
    a.Laws carrier' code where
  boundary_mem := hboundary
  initial_mem := hinitial
  meet_mem := hmeet
  transfer_mem := htransfer
  meet_assoc hx hy hz := h.meet_assoc (hcarrier hx) (hcarrier hy) (hcarrier hz)
  meet_comm hx hy := h.meet_comm (hcarrier hx) (hcarrier hy)
  meet_self hx := h.meet_self (hcarrier hx)
  initial_meet hx := h.initial_meet (hcarrier hx)
  transfer_mono hinstr hx hy :=
    h.transfer_mono hinstr (hcarrier hx) (hcarrier hy)
  length_le_of_chain hmem :=
    h.length_le_of_chain fun x hx => hcarrier (hmem x hx)

theorem Laws.through_mono
    {a : Analysis α} {carrier : α → Prop} {code : Instruction → Prop}
    (h : a.Laws carrier code) {instrs : List Instruction}
    (hcode : ∀ instr ∈ instrs, code instr) {x y : α} (hx : carrier x)
    (hy : carrier y) (hxy : a.Below x y) :
    a.Below (a.through instrs x) (a.through instrs y) := by
  induction instrs generalizing x y with
  | nil => exact hxy
  | cons instr rest ih =>
      rw [List.forall_mem_cons] at hcode
      exact ih hcode.2 (h.transfer_mem hcode.1 hx) (h.transfer_mem hcode.1 hy)
        (h.transfer_mono hcode.1 hx hy hxy)

/-- Some descending chain leads from `x` down `n` steps. -/
def Falls (a : Analysis α) (carrier : α → Prop) (x : α) (n : Nat) : Prop :=
  ∃ chain : List α, (∀ y ∈ x :: chain, carrier y) ∧
    (x :: chain).IsChain (fun y z => a.Below z y ∧ z ≠ y) ∧ chain.length = n

open Classical in
/-- The number of steps that a fact can still fall, if it is at most `n`. -/
noncomputable def rank
    (a : Analysis α) (carrier : α → Prop) (n : Nat) (x : α) : Nat :=
  Nat.findGreatest (a.Falls carrier x) n

/-- A number for every fact that falls with the facts and is at most `bound`. -/
structure Ranks
    (a : Analysis α) (carrier : α → Prop) (rank : α → Nat) (bound : Nat) :
    Prop where
  le : ∀ {x}, carrier x → rank x ≤ bound
  lt : ∀ {x y}, carrier x → carrier y → a.Below y x → y ≠ x → rank y < rank x

/-- If chains are no longer than `n` steps, the steps left rank the facts. -/
theorem ranks_of_chains
    {a : Analysis α} {carrier : α → Prop} {n : Nat}
    (h : ∀ {chain : List α}, (∀ x ∈ chain, carrier x) →
      chain.IsChain (fun x y => a.Below y x ∧ y ≠ x) → chain.length ≤ n + 1) :
    a.Ranks carrier (a.rank carrier n) n := by
  classical
  refine ⟨fun _ => Nat.findGreatest_le n, ?_⟩
  intro x y hx hy hyx hne
  have hzero : a.Falls carrier y 0 := by
    refine ⟨[], ?_, .singleton y, rfl⟩
    intro z hz
    rwa [List.mem_singleton.mp hz]
  obtain ⟨chain, hcarrier, hchain, hlen⟩ :
      a.Falls carrier y (a.rank carrier n y) :=
    Nat.findGreatest_spec (Nat.zero_le _) hzero
  have hmem : ∀ z ∈ x :: y :: chain, carrier z := by
    rw [List.forall_mem_cons]
    exact ⟨hx, hcarrier⟩
  have hlonger : (x :: y :: chain).IsChain
      (fun y z => a.Below z y ∧ z ≠ y) := .cons_cons ⟨hyx, hne⟩ hchain
  have hbound := h hmem hlonger
  rw [List.length_cons, List.length_cons, hlen] at hbound
  have hfalls : a.Falls carrier x (a.rank carrier n y + 1) :=
    ⟨y :: chain, hmem, hlonger, by rw [List.length_cons, hlen]⟩
  exact Nat.le_findGreatest (by omega) hfalls

theorem Laws.ranks
    {a : Analysis α} {carrier : α → Prop} {code : Instruction → Prop}
    (h : a.Laws carrier code) :
    a.Ranks carrier (a.rank carrier a.height) a.height :=
  ranks_of_chains h.length_le_of_chain

/-- Ranks bound the length of chains. -/
theorem Ranks.length_le
    {a : Analysis α} {carrier : α → Prop} {rank : α → Nat} {height : Nat}
    (h : a.Ranks carrier rank height) {chain : List α}
    (hcarrier : ∀ x ∈ chain, carrier x)
    (hchain : chain.IsChain (fun x y => a.Below y x ∧ y ≠ x)) :
    chain.length ≤ height + 1 := by
  have hhead : ∀ (rest : List α) (x : α), (∀ y ∈ x :: rest, carrier y) →
      (x :: rest).IsChain (fun x y => a.Below y x ∧ y ≠ x) →
      rest.length ≤ rank x := by
    intro rest
    induction rest with
    | nil => exact fun x _ _ => Nat.zero_le _
    | cons y rest ih =>
        intro x hmem hfalls
        rw [List.forall_mem_cons] at hmem
        obtain ⟨⟨hbelow, hne⟩, hlater⟩ := List.isChain_cons_cons.mp hfalls
        have hstep := h.lt hmem.1 (hmem.2 y List.mem_cons_self) hbelow hne
        have hrest := ih y hmem.2 hlater
        rw [List.length_cons]
        omega
  cases chain with
  | nil => exact Nat.zero_le _
  | cons x rest =>
      have hrest := hhead rest x hcarrier hchain
      have hbound := h.le (hcarrier x List.mem_cons_self)
      rw [List.length_cons]
      omega

/-! ## Facts of one bit -/

/-- The analysis of a single bit that is set where control comes together if it
is set on some side.  An instruction sets the bit, or else clears it, or else
lets it pass. -/
def bit
    (name : String) (direction : Direction)
    (sets clears : Instruction → Bool) : Analysis Bool where
  name := name
  direction := direction
  boundary := false
  initial := false
  meet := or
  transfer instr x := sets instr || (x && !clears instr)
  height := 1

theorem bit_ranks
    (name : String) (direction : Direction)
    (sets clears : Instruction → Bool) :
    (bit name direction sets clears).Ranks (fun _ => True)
      (fun x => (!x).toNat) 1 where
  le _ := Bool.toNat_le _
  lt {x y} _ _ hyx hne := by
    simp only [Below, bit] at hyx
    cases x <;> cases y <;> simp_all

theorem bit_laws
    (name : String) (direction : Direction)
    (sets clears : Instruction → Bool) (code : Instruction → Prop) :
    (bit name direction sets clears).Laws (fun _ => True) code where
  boundary_mem := trivial
  initial_mem := trivial
  meet_mem _ _ := trivial
  transfer_mem _ _ := trivial
  meet_assoc {x y z} _ _ _ := Bool.or_assoc x y z
  meet_comm {x y} _ _ := Bool.or_comm x y
  meet_self {x} _ := Bool.or_self x
  initial_meet {x} _ := Bool.false_or x
  transfer_mono {instr x y} _ _ _ hxy := by
    simp only [Below, bit] at hxy ⊢
    cases x <;> cases y <;> simp_all
  length_le_of_chain :=
    (bit_ranks name direction sets clears).length_le

end Analysis
end ThreeAddress
