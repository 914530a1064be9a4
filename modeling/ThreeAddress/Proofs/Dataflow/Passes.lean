import Mathlib.Logic.Function.Iterate
import ThreeAddress.Dataflow.Solution
import ThreeAddress.Proofs.Dataflow.Laws

/-!
# Passes of the solver

The solver keeps the facts of the blocks in an array and changes it block by
block.  Here the array is read as a function from blocks to facts, on which a
visit is an update at one point.  The main statement about a single pass says
that if no leaving fact changes in it, then every block has received what its
feeders send, and the next pass changes nothing.  Only the blocks of a cut
matter for this: those that feed a block whose turn does not come later.
-/

namespace ThreeAddress
namespace Flow

variable {α : Type}

/-- A pass visits every block once, and facts arrive only from blocks. -/
structure Proper (f : Flow) : Prop where
  nodup_order : f.order.Nodup
  mem_order : ∀ b, b ∈ f.order ↔ b < f.size
  feeders_lt : ∀ {b n}, n ∈ f.feeders b → n < f.size

/-- The fact that enters the program at a block. -/
def seed (f : Flow) (a : Analysis α) (b : NodeId) : Option α :=
  if f.atBoundary b then some a.boundary else none

/-- The facts that the feeders of a block send. -/
def fed (f : Flow) (x : NodeId → BlockFact α) (b : NodeId) : List α :=
  (f.feeders b).map fun n => (x n).leaving

/-- The fact of a block after a visit. -/
def renewed
    (f : Flow) (a : Analysis α) (x : NodeId → BlockFact α) (b : NodeId) :
    BlockFact α :=
  let entering := (a.meetAll (f.seed a b) (f.fed x b)).getD (x b).entering
  ⟨entering, a.through (f.code b) entering⟩

/-- The facts of all blocks after a visit to one. -/
def visited
    (f : Flow) (a : Analysis α) (x : NodeId → BlockFact α) (b : NodeId) :
    NodeId → BlockFact α :=
  Function.update x b (f.renewed a x b)

/-- The facts of all blocks after a pass. -/
def passed
    (f : Flow) (a : Analysis α) (x : NodeId → BlockFact α) :
    NodeId → BlockFact α :=
  f.order.foldl (f.visited a) x

/-- Nothing arrives at a block that nothing feeds. -/
theorem meetAll_fed_eq_none_iff
    {f : Flow} {a : Analysis α} {x : NodeId → BlockFact α} {b : NodeId} :
    a.meetAll (f.seed a b) (f.fed x b) = none ↔
      f.seed a b = none ∧ f.feeders b = [] := by
  rw [Analysis.meetAll_eq_none_iff, fed, List.map_eq_nil_iff]

/-! ## Arrays as functions -/

/-- The facts of an array, by block. -/
def view
    (a : Analysis α) (facts : Array (BlockFact α)) (b : NodeId) :
    BlockFact α :=
  facts.getD b ⟨a.initial, a.initial⟩

theorem view_of_lt
    {a : Analysis α} {facts : Array (BlockFact α)} {b : NodeId}
    (hb : b < facts.size) :
    facts[b]? = some (view a facts b) := by
  simp [view, hb]

theorem eq_of_view_eq
    {a : Analysis α} {facts facts' : Array (BlockFact α)}
    (hsize : facts.size = facts'.size) (hview : view a facts = view a facts') :
    facts = facts' := by
  apply Array.ext hsize
  intro b hb hb'
  apply Option.some.inj
  rw [← Array.getElem?_eq_getElem hb, ← Array.getElem?_eq_getElem hb',
    view_of_lt (a := a) hb, view_of_lt (a := a) hb', hview]

theorem size_visit
    (f : Flow) (a : Analysis α) (facts : Array (BlockFact α)) (b : NodeId) :
    (f.visit a facts b).size = facts.size := by
  simp [visit]

theorem arriving_eq
    {f : Flow} (hf : f.Proper) {a : Analysis α}
    {facts : Array (BlockFact α)} (hsize : facts.size = f.size) (b : NodeId) :
    f.arriving a facts b = a.meetAll (f.seed a b) (f.fed (view a facts) b) := by
  have hfed : (f.feeders b).filterMap
      (fun n => facts[n]?.map BlockFact.leaving) = f.fed (view a facts) b := by
    rw [fed, ← List.filterMap_eq_map]
    apply List.filterMap_congr
    intro n hn
    have hlt : n < facts.size := hsize ▸ hf.feeders_lt hn
    rw [view_of_lt (a := a) hlt]
    rfl
  rw [arriving, hfed]
  rfl

theorem view_visit
    {f : Flow} (hf : f.Proper) {a : Analysis α}
    {facts : Array (BlockFact α)} (hsize : facts.size = f.size) {b : NodeId}
    (hb : b < f.size) :
    view a (f.visit a facts b) = f.visited a (view a facts) b := by
  funext c
  have hlt : b < facts.size := hsize ▸ hb
  by_cases hc : c = b
  · subst hc
    simp only [visited, Function.update_self, renewed, ← arriving_eq hf hsize]
    simp [view, visit, hlt, Array.getElem_modify]
  · simp only [visited, Function.update_of_ne hc]
    by_cases hclt : c < facts.size
    · simp [view, visit, hclt, Array.getElem_modify, Ne.symm hc]
    · simp [view, visit, hclt]

theorem foldl_visit
    {f : Flow} (hf : f.Proper) {a : Analysis α} {order : List NodeId}
    (horder : ∀ b ∈ order, b < f.size) {facts : Array (BlockFact α)}
    (hsize : facts.size = f.size) :
    (order.foldl (f.visit a) facts).size = f.size ∧
      view a (order.foldl (f.visit a) facts) =
        order.foldl (f.visited a) (view a facts) := by
  induction order generalizing facts with
  | nil => exact ⟨hsize, rfl⟩
  | cons b rest ih =>
      rw [List.forall_mem_cons] at horder
      have hstep : (f.visit a facts b).size = f.size := by
        rw [size_visit, hsize]
      rw [List.foldl_cons, List.foldl_cons, ← view_visit hf hsize horder.1]
      exact ih horder.2 hstep

theorem size_pass
    {f : Flow} (hf : f.Proper) {a : Analysis α}
    {facts : Array (BlockFact α)} (hsize : facts.size = f.size) :
    (f.pass a facts).size = f.size :=
  (foldl_visit hf (fun b hb => (hf.mem_order b).mp hb) hsize).1

theorem view_pass
    {f : Flow} (hf : f.Proper) {a : Analysis α}
    {facts : Array (BlockFact α)} (hsize : facts.size = f.size) :
    view a (f.pass a facts) = f.passed a (view a facts) :=
  (foldl_visit hf (fun b hb => (hf.mem_order b).mp hb) hsize).2

theorem view_iterate_pass
    {f : Flow} (hf : f.Proper) {a : Analysis α}
    {facts : Array (BlockFact α)} (hsize : facts.size = f.size) (k : Nat) :
    ((f.pass a)^[k] facts).size = f.size ∧
      view a ((f.pass a)^[k] facts) = (f.passed a)^[k] (view a facts) := by
  induction k with
  | zero => exact ⟨hsize, rfl⟩
  | succ k ih =>
      rw [Function.iterate_succ_apply', Function.iterate_succ_apply', ← ih.2]
      exact ⟨size_pass hf ih.1, view_pass hf ih.1⟩

theorem pass_eq_self_iff
    {f : Flow} (hf : f.Proper) {a : Analysis α}
    {facts : Array (BlockFact α)} (hsize : facts.size = f.size) :
    f.pass a facts = facts ↔ f.passed a (view a facts) = view a facts := by
  rw [← view_pass hf hsize]
  constructor
  · intro h
    rw [h]
  · exact eq_of_view_eq ((size_pass hf hsize).trans hsize.symm)

theorem size_start (f : Flow) (a : Analysis α) : (f.start a).size = f.size := by
  simp [start]

theorem view_start
    (f : Flow) (a : Analysis α) {b : NodeId} (hb : b < f.size) :
    view a (f.start a) b = ⟨(f.seed a b).getD a.initial, a.initial⟩ := by
  by_cases h : f.atBoundary b = true
  · simp [view, start, seed, hb, h]
  · simp [view, start, seed, hb, h]

/-! ## One pass -/

/-- What one visit keeps, a pass keeps. -/
theorem passed_induction
    {f : Flow} (hf : f.Proper) {a : Analysis α}
    {P : (NodeId → BlockFact α) → Prop}
    (hvisit : ∀ x b, b < f.size → P x → P (f.visited a x b))
    {x : NodeId → BlockFact α} (hx : P x) :
    P (f.passed a x) := by
  have hfold : ∀ order : List NodeId, (∀ b ∈ order, b < f.size) →
      ∀ x, P x → P (order.foldl (f.visited a) x) := by
    intro order
    induction order with
    | nil => exact fun _ x hx => hx
    | cons b rest ih =>
        intro horder x hx
        rw [List.forall_mem_cons] at horder
        exact ih horder.2 _ (hvisit x b horder.1 hx)
  exact hfold f.order (fun b hb => (hf.mem_order b).mp hb) x hx

theorem iterate_passed_induction
    {f : Flow} (hf : f.Proper) {a : Analysis α}
    {P : (NodeId → BlockFact α) → Prop}
    (hvisit : ∀ x b, b < f.size → P x → P (f.visited a x b))
    {x : NodeId → BlockFact α} (hx : P x) (k : Nat) :
    P ((f.passed a)^[k] x) := by
  induction k with
  | zero => exact hx
  | succ k ih =>
      rw [Function.iterate_succ_apply']
      exact passed_induction hf hvisit ih

theorem foldl_visited_of_not_mem
    (f : Flow) (a : Analysis α) {order : List NodeId} {b : NodeId}
    (hb : b ∉ order) (x : NodeId → BlockFact α) :
    order.foldl (f.visited a) x b = x b := by
  induction order generalizing x with
  | nil => rfl
  | cons c rest ih =>
      rw [List.mem_cons, not_or] at hb
      rw [List.foldl_cons, ih hb.2, visited, Function.update_of_ne hb.1]

theorem passed_of_le
    {f : Flow} (hf : f.Proper) (a : Analysis α) (x : NodeId → BlockFact α)
    {b : NodeId} (hb : ¬ b < f.size) :
    f.passed a x b = x b := by
  apply foldl_visited_of_not_mem
  rwa [hf.mem_order]

/-- A pass gives a block what it receives when its turn comes. -/
theorem passed_eq_renewed
    {f : Flow} (hf : f.Proper) (a : Analysis α) (x : NodeId → BlockFact α)
    {front back : List NodeId} {b : NodeId}
    (horder : f.order = front ++ b :: back) :
    f.passed a x b = f.renewed a (front.foldl (f.visited a) x) b := by
  have hnodup := hf.nodup_order
  rw [horder] at hnodup
  have hback : b ∉ back :=
    (List.nodup_cons.mp (List.nodup_append.mp hnodup).2.1).1
  rw [passed, horder, List.foldl_append, List.foldl_cons,
    foldl_visited_of_not_mem f a hback, visited, Function.update_self]

/-- A block that has had its turn has its fact for the rest of the pass. -/
theorem foldl_visited_eq_passed
    {f : Flow} (hf : f.Proper) (a : Analysis α) (x : NodeId → BlockFact α)
    {front back : List NodeId} (horder : f.order = front ++ back) {n : NodeId}
    (hn : n ∈ front) :
    front.foldl (f.visited a) x n = f.passed a x n := by
  have hnodup := hf.nodup_order
  rw [horder] at hnodup
  have hback : n ∉ back := fun hmem =>
    (List.nodup_append.mp hnodup).2.2 n hn n hmem rfl
  rw [passed, horder, List.foldl_append, foldl_visited_of_not_mem f a hback]

/-- Facts arrive at a block only from the blocks of a cut and from blocks that
have their turn earlier. -/
def IsCut (f : Flow) (cut : NodeId → Prop) : Prop :=
  ∀ {front back : List NodeId} {b : NodeId}, f.order = front ++ b :: back →
    ∀ n ∈ f.feeders b, n ∈ front ∨ cut n

theorem isCut_lt {f : Flow} (hf : f.Proper) : f.IsCut (· < f.size) :=
  fun _ _ hn => Or.inr (hf.feeders_lt hn)

/-- If a pass changes no fact that leaves a block of a cut, then every block has
received what its feeders send. -/
theorem renewed_passed_of_cut
    {f : Flow} (hf : f.Proper) {a : Analysis α} {cut : NodeId → Prop}
    (hcut : f.IsCut cut) {x : NodeId → BlockFact α}
    (hleaving : ∀ n, cut n → (f.passed a x n).leaving = (x n).leaving)
    {b : NodeId} (hb : b < f.size) :
    f.renewed a (f.passed a x) b = f.passed a x b := by
  obtain ⟨front, back, horder⟩ :=
    List.append_of_mem ((hf.mem_order b).mpr hb)
  have hfed : f.fed (f.passed a x) b =
      f.fed (front.foldl (f.visited a) x) b := by
    rw [fed, fed]
    apply List.map_congr_left
    intro n hn
    by_cases hfront : n ∈ front
    · rw [foldl_visited_eq_passed hf a x horder hfront]
    · rw [foldl_visited_of_not_mem f a hfront]
      exact hleaving n ((hcut horder n hn).resolve_left hfront)
  have hself := passed_eq_renewed hf a x horder
  rw [hself]
  simp only [renewed, hfed, hself]
  cases a.meetAll (f.seed a b) (f.fed (front.foldl (f.visited a) x) b) <;> rfl

/-- Facts that a pass does not change are those that arrive at every block, and
conversely. -/
theorem passed_eq_self_iff
    {f : Flow} (hf : f.Proper) {a : Analysis α} {x : NodeId → BlockFact α} :
    f.passed a x = x ↔ ∀ b < f.size, f.renewed a x b = x b := by
  constructor
  · intro hfix b hb
    have hrenewed := renewed_passed_of_cut hf (isCut_lt hf)
      (fun n _ => congrArg BlockFact.leaving (congrFun hfix n)) hb
    rwa [hfix] at hrenewed
  · intro hstable
    refine passed_induction hf (P := fun y => y = x) ?_ rfl
    rintro y b hb rfl
    rw [visited, hstable b hb, Function.update_eq_self]

/-- If a pass changes no fact that leaves a block of a cut, the next one changes
nothing. -/
theorem passed_passed_of_cut
    {f : Flow} (hf : f.Proper) {a : Analysis α} {cut : NodeId → Prop}
    (hcut : f.IsCut cut) {x : NodeId → BlockFact α}
    (hleaving : ∀ n, cut n → (f.passed a x n).leaving = (x n).leaving) :
    f.passed a (f.passed a x) = f.passed a x :=
  (passed_eq_self_iff hf).mpr fun _ => renewed_passed_of_cut hf hcut hleaving

/-! ## Repeated passes -/

/-- A pass number after which nothing changes bounds the passes made. -/
theorem iterate_of_fixed
    [DecidableEq α] {f : Flow} {a : Analysis α} {k limit passes : Nat}
    {facts : Array (BlockFact α)}
    (hfix : f.pass a ((f.pass a)^[k] facts) = (f.pass a)^[k] facts)
    (hk : k < limit) :
    ∃ j ≤ k, f.iterate a limit passes facts =
      .ok ((f.pass a)^[j] facts, passes + j + 1) := by
  induction k generalizing limit passes facts with
  | zero =>
      obtain ⟨limit, rfl⟩ := Nat.exists_eq_succ_of_ne_zero (Nat.ne_of_gt hk)
      refine ⟨0, Nat.le_refl 0, ?_⟩
      rw [iterate]
      exact if_pos hfix
  | succ k ih =>
      obtain ⟨limit, rfl⟩ :=
        Nat.exists_eq_succ_of_ne_zero (Nat.ne_of_gt (Nat.zero_lt_of_lt hk))
      by_cases hnow : f.pass a facts = facts
      · refine ⟨0, Nat.zero_le _, ?_⟩
        rw [iterate]
        exact if_pos hnow
      · obtain ⟨j, hj, hiter⟩ :
            ∃ j ≤ k, f.iterate a limit (passes + 1) (f.pass a facts) =
              .ok ((f.pass a)^[j] (f.pass a facts), passes + 1 + j + 1) :=
          ih hfix (by omega)
        refine ⟨j + 1, by omega, ?_⟩
        rw [iterate, if_neg hnow, hiter, Function.iterate_succ_apply]
        congr 2
        omega

/-- The facts returned are those after some passes, and one more pass does not
change them. -/
theorem iterate_eq_ok
    [DecidableEq α] {f : Flow} {a : Analysis α} {limit passes n : Nat}
    {facts result : Array (BlockFact α)}
    (h : f.iterate a limit passes facts = .ok (result, n)) :
    ∃ j < limit, result = (f.pass a)^[j] facts ∧ n = passes + j + 1 ∧
      f.pass a result = result := by
  induction limit generalizing passes facts with
  | zero => simp [iterate] at h
  | succ limit ih =>
      by_cases hnow : f.pass a facts = facts
      · rw [iterate, if_pos hnow] at h
        obtain ⟨rfl, rfl⟩ := Prod.mk.inj (Except.ok.inj h)
        exact ⟨0, Nat.succ_pos limit, rfl, rfl, hnow⟩
      · rw [iterate, if_neg hnow] at h
        obtain ⟨j, hj, hresult, hn, hfix⟩ := ih h
        refine ⟨j + 1, Nat.succ_lt_succ hj, ?_, by omega, hfix⟩
        rw [hresult, Function.iterate_succ_apply]

end Flow
end ThreeAddress
