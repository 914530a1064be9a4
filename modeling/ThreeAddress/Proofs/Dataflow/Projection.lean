import ThreeAddress.Proofs.Dataflow.FixedPoint

/-!
# Analyses seen through projections

A fact such as a set of variables consists of parts that the analysis treats
independently of each other.  A projection that respects the operations of an
analysis turns its passes into the passes of a simpler one.  If projections
together determine a fact, then the analysis comes to rest as soon as all its
projections do, however many there are.
-/

namespace ThreeAddress

/-- The projection `π` takes the operations of `a` to those of `b`. -/
structure Analysis.Projects
    {α β : Type} (a : Analysis α) (b : Analysis β) (π : α → β)
    (carrier : α → Prop) (code : Instruction → Prop) : Prop where
  boundary_eq : π a.boundary = b.boundary
  initial_eq : π a.initial = b.initial
  meet_eq : ∀ {x y}, carrier x → carrier y →
    π (a.meet x y) = b.meet (π x) (π y)
  transfer_eq : ∀ {instr x}, code instr → carrier x →
    π (a.transfer instr x) = b.transfer instr (π x)

namespace Analysis.Projects

variable {α β : Type} {a : Analysis α} {b : Analysis β} {π : α → β}
  {carrier : α → Prop} {code : Instruction → Prop}

theorem through_eq
    (h : a.Projects b π carrier code) (hlaws : a.MeetLaws carrier code)
    {instrs : List Instruction} (hcode : ∀ instr ∈ instrs, code instr)
    {x : α} (hx : carrier x) :
    π (a.through instrs x) = b.through instrs (π x) := by
  induction instrs generalizing x with
  | nil => rfl
  | cons instr rest ih =>
      rw [List.forall_mem_cons] at hcode
      have hrest := ih hcode.2 (hlaws.transfer_mem hcode.1 hx)
      rw [h.transfer_eq hcode.1 hx] at hrest
      exact hrest

theorem meetAll_eq
    (h : a.Projects b π carrier code) (hlaws : a.MeetLaws carrier code)
    {seed : Option α} {facts : List α}
    (hcarrier : ∀ x ∈ seed.toList ++ facts, carrier x) :
    (a.meetAll seed facts).map π =
      b.meetAll (seed.map π) (facts.map π) := by
  induction facts generalizing seed with
  | nil => rfl
  | cons fact rest ih =>
      cases seed with
      | none => exact @ih (some fact) hcarrier
      | some before =>
          simp only [Option.toList_some, List.cons_append, List.nil_append,
            List.forall_mem_cons] at hcarrier
          obtain ⟨hbefore, hfact, hrest⟩ := hcarrier
          have hmem : ∀ x ∈ (some (a.meet before fact)).toList ++ rest,
              carrier x := by
            simp only [Option.toList_some, List.cons_append, List.nil_append,
              List.forall_mem_cons]
            exact ⟨hlaws.meet_mem hbefore hfact, hrest⟩
          have hnext := ih hmem
          rw [Option.map_some, h.meet_eq hbefore hfact] at hnext
          exact hnext

end Analysis.Projects

namespace Flow

variable {α β : Type} {f : Flow} {a : Analysis α} {b : Analysis β} {π : α → β}
  {carrier : α → Prop} {code : Instruction → Prop}

/-- The facts `y` are the projections of the facts `x`, which lie in the
carrier. -/
def Shows
    (f : Flow) (carrier : α → Prop) (π : α → β) (x : NodeId → BlockFact α)
    (y : NodeId → BlockFact β) : Prop :=
  f.Within carrier x ∧ ∀ n, y n = ⟨π (x n).entering, π (x n).leaving⟩

theorem renewed_shows
    (hf : f.Proper) (hlaws : a.MeetLaws carrier code)
    (hcode : ∀ b < f.size, ∀ instr ∈ f.code b, code instr)
    (h : a.Projects b π carrier code) {x : NodeId → BlockFact α}
    {y : NodeId → BlockFact β} (hxy : f.Shows carrier π x y) {n : NodeId}
    (hn : n < f.size) :
    f.renewed b y n =
      ⟨π (f.renewed a x n).entering, π (f.renewed a x n).leaving⟩ := by
  have hmem := seed_fed_mem hf hlaws hxy.1 n
  have hseed : f.seed b n = (f.seed a n).map π := by
    rw [seed, seed, ← h.boundary_eq]
    split
    · rfl
    · rfl
  have hfed : f.fed y n = (f.fed x n).map π := by
    rw [fed, fed, List.map_map]
    apply List.map_congr_left
    intro m _
    rw [hxy.2 m]
    rfl
  have hentering : (f.renewed b y n).entering =
      π (f.renewed a x n).entering := by
    simp only [renewed, hseed, hfed, ← h.meetAll_eq hlaws hmem, hxy.2 n]
    cases a.meetAll (f.seed a n) (f.fed x n) with
    | none => rfl
    | some m => rfl
  have hleaving := h.through_eq hlaws (hcode n hn)
    (renewed_mem hf hlaws hcode hxy.1 hn).1
  rw [← hentering] at hleaving ⊢
  exact congrArg (BlockFact.mk _) hleaving.symm

theorem visited_shows
    (hf : f.Proper) (hlaws : a.MeetLaws carrier code)
    (hcode : ∀ b < f.size, ∀ instr ∈ f.code b, code instr)
    (h : a.Projects b π carrier code) {x : NodeId → BlockFact α}
    {y : NodeId → BlockFact β} (hxy : f.Shows carrier π x y) {n : NodeId}
    (hn : n < f.size) :
    f.Shows carrier π (f.visited a x n) (f.visited b y n) := by
  refine ⟨within_visited hf hlaws hcode hxy.1 hn, ?_⟩
  intro m
  by_cases hm : m = n
  · subst hm
    rw [visited, visited, Function.update_self, Function.update_self]
    exact renewed_shows hf hlaws hcode h hxy hn
  · rw [visited, visited, Function.update_of_ne hm, Function.update_of_ne hm]
    exact hxy.2 m

theorem passed_shows
    (hf : f.Proper) (hlaws : a.MeetLaws carrier code)
    (hcode : ∀ b < f.size, ∀ instr ∈ f.code b, code instr)
    (h : a.Projects b π carrier code) {x : NodeId → BlockFact α}
    {y : NodeId → BlockFact β} (hxy : f.Shows carrier π x y) :
    f.Shows carrier π (f.passed a x) (f.passed b y) := by
  refine List.foldl_rel hxy ?_
  intro n hn x y hxy
  exact visited_shows hf hlaws hcode h hxy ((hf.mem_order n).mp hn)

theorem start_shows
    (hlaws : a.MeetLaws carrier code) (h : a.Projects b π carrier code) :
    f.Shows carrier π (view a (f.start a)) (view b (f.start b)) := by
  refine ⟨within_start hlaws, ?_⟩
  intro n
  by_cases hn : n < f.size
  · rw [view_start f a hn, view_start f b hn, seed, seed, ← h.boundary_eq,
      ← h.initial_eq]
    split
    · rfl
    · rfl
  · simp [view, start, hn, ← h.initial_eq]

theorem iterate_shows
    (hf : f.Proper) (hlaws : a.MeetLaws carrier code)
    (hcode : ∀ b < f.size, ∀ instr ∈ f.code b, code instr)
    (h : a.Projects b π carrier code) (k : Nat) :
    f.Shows carrier π ((f.passed a)^[k] (view a (f.start a)))
      ((f.passed b)^[k] (view b (f.start b))) := by
  induction k with
  | zero => exact start_shows hlaws h
  | succ k ih =>
      rw [Function.iterate_succ_apply', Function.iterate_succ_apply']
      exact passed_shows hf hlaws hcode h ih

/-- If no projection changes any more, and the projections determine a fact,
then the fact does not change either. -/
theorem passed_iterate_of_projects
    {ι : Type} {b : ι → Analysis β} {π : ι → α → β} (hf : f.Proper)
    (hlaws : a.MeetLaws carrier code)
    (hcode : ∀ b < f.size, ∀ instr ∈ f.code b, code instr)
    (h : ∀ i, a.Projects (b i) (π i) carrier code)
    (hext : ∀ {x y}, carrier x → carrier y → (∀ i, π i x = π i y) → x = y)
    {k : Nat}
    (hfix : ∀ i, f.passed (b i) ((f.passed (b i))^[k] (view (b i)
      (f.start (b i)))) = (f.passed (b i))^[k] (view (b i) (f.start (b i)))) :
    f.passed a ((f.passed a)^[k] (view a (f.start a))) =
      (f.passed a)^[k] (view a (f.start a)) := by
  funext n
  by_cases hn : n < f.size
  · have hbefore := within_iterate hf hlaws hcode k
    have hafter := within_iterate hf hlaws hcode (k + 1)
    rw [Function.iterate_succ_apply'] at hafter
    have hparts : ∀ i,
        π i (f.passed a ((f.passed a)^[k] (view a (f.start a))) n).entering =
            π i ((f.passed a)^[k] (view a (f.start a)) n).entering ∧
          π i (f.passed a ((f.passed a)^[k] (view a (f.start a))) n).leaving =
            π i ((f.passed a)^[k] (view a (f.start a)) n).leaving := by
      intro i
      have hshow := iterate_shows hf hlaws hcode (h i) k
      have hnext := (passed_shows hf hlaws hcode (h i) hshow).2 n
      rw [hfix i, hshow.2 n] at hnext
      obtain ⟨hentering, hleaving⟩ := BlockFact.mk.inj hnext
      exact ⟨hentering.symm, hleaving.symm⟩
    have hentering := hext (hafter n hn).1 (hbefore n hn).1
      (fun i => (hparts i).1)
    have hleaving := hext (hafter n hn).2 (hbefore n hn).2
      (fun i => (hparts i).2)
    exact congrArg₂ BlockFact.mk hentering hleaving
  · exact passed_of_le hf a _ hn

end Flow
end ThreeAddress
