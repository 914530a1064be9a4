import ThreeAddress.Dataflow.ReachingDefinitions
import ThreeAddress.Proofs.Dataflow.Sites

/-!
# Reaching definitions

The solution holds before an instruction exactly those definitions from which
some path leads to it on which nothing else defines the same variable.
-/

namespace ThreeAddress
namespace ReachingDefinitions

/-- The definitions of a program, in order. -/
def definitions (p : Program) : List InstrId :=
  (p.instrs.toList.filter fun instr => instr.defined?.isSome).map
    Instruction.id

/-- Whether an instruction is the definition at a site. -/
def defines (site : InstrId) (instr : Instruction) : Bool :=
  instr.defined?.isSome && instr.id == site

/-- Whether an instruction defines the same variable as the definition at a
site. -/
def displaces (p : Program) (site : InstrId) (instr : Instruction) : Bool :=
  instr.defined?.any fun v => (sitesOf p v).contains site

theorem mem_definitions {p : Program} {id : InstrId} :
    id ∈ definitions p ↔
      ∃ d ∈ p.instrs.toList, d.defined?.isSome = true ∧ d.id = id := by
  simp only [definitions, List.mem_map, List.mem_filter, and_assoc]

theorem length_definitions (p : Program) :
    (definitions p).length = count p := by
  rw [definitions, List.length_map, ← List.countP_eq_length_filter, count,
    Array.countP_toList]

theorem mem_sitesOf {p : Program} {v : VarId} {id : InstrId} :
    id ∈ sitesOf p v ↔
      ∃ d ∈ p.instrs.toList, d.defined? = some v ∧ d.id = id := by
  simp only [sitesOf, List.mem_map, List.mem_filter, beq_iff_eq, and_assoc]

theorem treats (p : Program) :
    SiteSet.Treats (analysis p) (· ∈ p.instrs.toList) (definitions p) defines
      (displaces p) where
  mem_transfer {instr x id} _ := by
    change id ∈ transfer p instr x ↔ _
    cases hdefined : instr.defined? with
    | none => simp [transfer, defines, displaces, hdefined]
    | some v =>
        simp only [transfer, hdefined, SiteSet.mem_insert_iff,
          SiteSet.mem_eraseAll, defines, displaces, Option.isSome_some,
          Bool.true_and, beq_iff_eq, Option.any_some, ← Bool.not_eq_true,
          List.contains_iff_mem]
        rw [eq_comm]
  mem_of_sets {instr id} hinstr hsets := by
    obtain ⟨hdefined, hid⟩ := Bool.and_eq_true _ _ |>.mp hsets
    exact mem_definitions.mpr ⟨instr, hinstr, hdefined, beq_iff_eq.mp hid⟩

theorem splits (p : Program) :
    (analysis p).Splits (SiteSet.Among (definitions p)) (· ∈ p.instrs.toList)
      (fun _ : { id // id ∈ definitions p } => false)
      (fun site => defines site) (fun site => displaces p site)
      fun site s => s.contains site.val :=
  (treats p).splits_union rfl rfl rfl

theorem exists_solve
    {p : Program} {g : FlowGraph} (hp : p.Grown)
    (hg : FlowGraph.ofProgram p = .ok g) {settings : Settings}
    (hlimit : settings.Computed) :
    ∃ s, solve p settings p g = .ok s := by
  refine Solution.exists_solve_of_splits (splits p) (.program hg) ?_
    (FlowGraph.blockCount_add_two_le hp hg) hlimit
  rintro ⟨site⟩
  have hpos := List.length_pos_of_mem site.property
  rw [length_definitions] at hpos
  exact Nat.succ_le_succ hpos

/-! ## Paths -/

section Paths

variable {p : Program} (hp : p.ids.Nodup) {d : Instruction}
  (hd : d ∈ p.instrs.toList) {v : VarId} (hv : d.defined? = some v)

include hp hd hv

theorem defines_iff {i : Instruction} (hi : i ∈ p.instrs.toList) :
    defines d.id i = true ↔ i = d := by
  rw [defines, Bool.and_eq_true, beq_iff_eq]
  constructor
  · rintro ⟨-, hid⟩
    exact Program.eq_of_id_eq hp hi hd hid
  · rintro rfl
    exact ⟨by rw [hv]; rfl, rfl⟩

theorem displaces_iff {i : Instruction} :
    displaces p d.id i = true ↔ i.defined? = some v := by
  rw [displaces, Option.any_eq_true]
  simp only [List.contains_iff_mem, mem_sitesOf]
  constructor
  · rintro ⟨w, hw, e, he, hdefined, hid⟩
    obtain rfl := Program.eq_of_id_eq hp he hd hid
    rw [hw, ← hdefined, hv]
  · intro hi
    exact ⟨v, hi, d, hd, hv, rfl⟩

theorem carried_iff
    {g : FlowGraph} (hg : FlowGraph.ofProgram p = .ok g) {i : Instruction} :
    (g.flow .forward p).Carried false (defines d.id) (displaces p d.id) i ↔
      ∃ between, (d :: (between ++ [i])).IsChain (g.Next p) ∧
        ∀ k ∈ between, k.defined? ≠ some v := by
  rw [Flow.carried_false_iff, FlowGraph.follows_forward hg]
  simp only [← Bool.not_eq_true, displaces_iff hp hd hv]
  constructor
  · rintro ⟨j, hj, between, hchain, hpasses⟩
    have hmem : j ∈ p.instrs.toList :=
      FlowGraph.mem_of_isChain (j :: between) hchain List.mem_cons_self
    rw [defines_iff hp hd hv hmem] at hj
    exact ⟨between, hj ▸ hchain, hpasses⟩
  · rintro ⟨between, hchain, hpasses⟩
    exact ⟨d, (defines_iff hp hd hv hd).mpr rfl, between, hchain, hpasses⟩

end Paths

/-- For a program that has a flow graph, the solver returns a solution that has
facts before every instruction: the definitions from which some path of the graph
leads to the instruction without meeting another definition of the same variable,
and nothing else. -/
theorem solve_exact
    {p : Program} {g : FlowGraph} (hp : p.Grown)
    (hg : FlowGraph.ofProgram p = .ok g) :
    ∃ s, solve p .default p g = .ok s ∧
      ∀ i ∈ p.instrs.toList, ∃ facts, s.at? i.id = some facts ∧
        (∀ d ∈ p.instrs.toList, ∀ v, d.defined? = some v →
          (d.id ∈ facts.input ↔
            ∃ between, (d :: (between ++ [i])).IsChain (g.Next p) ∧
              ∀ k ∈ between, k.defined? ≠ some v)) ∧
        ∀ id ∈ facts.input, ∃ d ∈ p.instrs.toList,
          d.defined?.isSome = true ∧ d.id = id := by
  have hids := hp.wellFormed.nodup_ids
  obtain ⟨s, hs⟩ := exists_solve hp hg Settings.computed_default
  refine ⟨s, hs, ?_⟩
  intro i hi
  obtain ⟨x, hx, harrives, hbits⟩ :=
    Solution.exists_arrives_of_splits hids hg (splits p) hs hi
  refine ⟨_, harrives, ?_, fun id hid => mem_definitions.mp (hx id hid)⟩
  intro d hd v hv
  have hsite : d.id ∈ definitions p :=
    mem_definitions.mpr ⟨d, hd, by rw [hv]; rfl, rfl⟩
  rw [← carried_iff hids hd hv hg]
  exact Std.ExtTreeSet.contains_iff_mem.symm.trans (hbits ⟨d.id, hsite⟩)

/-- Starts a sum. -/
def resetSum : Instruction :=
  ⟨⟨0⟩, true, .assign ⟨0⟩ none .copy (.const 0)⟩

/-- Adds to the sum. -/
def increaseSum : Instruction :=
  ⟨⟨1⟩, true, .assign ⟨0⟩ (some (.var ⟨0⟩)) .plus (.const 7)⟩

/-- Compares the sum with a bound. -/
def compareSum : Instruction :=
  ⟨⟨2⟩, false, .assign ⟨1⟩ (some (.var ⟨0⟩)) .less (.const 99)⟩

/-- Sums up numbers until their sum is large, and then starts anew. -/
def restarting : Program where
  instrs := #[resetSum, increaseSum, compareSum,
    ⟨⟨3⟩, false, .branch (.var ⟨1⟩) ⟨1⟩⟩,
    ⟨⟨4⟩, false, .print (.var ⟨0⟩)⟩,
    ⟨⟨5⟩, false, .goto ⟨0⟩⟩]
  names := #["sum", "small"]

theorem grown_restarting : restarting.Grown := by
  have hbuild : (Program.ofNames ["sum", "small"]).withInstructions
      restarting.instrs.toList = .ok restarting := by
    decide +kernel
  exact (Program.Grown.ofNames _).withInstructions (by decide) hbuild

theorem contains_restarting
    {g : FlowGraph} {s : Solution SiteSet}
    (hg : FlowGraph.ofProgram restarting = .ok g)
    (hs : solve restarting .default restarting g = .ok s) :
    ((s.at? increaseSum.id).map fun facts =>
        facts.input.contains increaseSum.id) = some true ∧
      ((s.at? compareSum.id).map fun facts =>
        facts.input.contains resetSum.id) = some false := by
  have hsites : ((FlowGraph.ofProgram restarting >>=
      solve restarting .default restarting).toOption.map fun s =>
        ((s.at? increaseSum.id).map fun facts =>
          facts.input.contains increaseSum.id,
        (s.at? compareSum.id).map fun facts =>
          facts.input.contains resetSum.id)) =
      some (some true, some false) := by
    decide +kernel
  rw [hg] at hsites
  change (solve restarting .default restarting g).toOption.map _ = _ at hsites
  rw [hs] at hsites
  exact Prod.mk.inj (Option.some.inj hsites)

/-- The sum as it was increased is increased again in the next round.  The sum
as it was reset does not reach the comparison. -/
theorem solve_exact_restarting :
    ∃ g, FlowGraph.ofProgram restarting = .ok g ∧ restarting.Grown ∧
      (∃ between,
        (increaseSum :: (between ++ [increaseSum])).IsChain (g.Next restarting) ∧
          ∀ k ∈ between, k.defined? ≠ some ⟨0⟩) ∧
      ¬ ∃ between,
        (resetSum :: (between ++ [compareSum])).IsChain (g.Next restarting) ∧
          ∀ k ∈ between, k.defined? ≠ some ⟨0⟩ := by
  obtain ⟨g, hg⟩ := FlowGraph.exists_ofProgram (p := restarting) (by decide)
    (by decide) (by decide)
  obtain ⟨s, hs, hexact⟩ := solve_exact grown_restarting hg
  obtain ⟨hagain, hlost⟩ := contains_restarting hg hs
  obtain ⟨facts, hfacts, hreaches, -⟩ := hexact increaseSum (by decide)
  obtain ⟨facts', hfacts', hreaches', -⟩ := hexact compareSum (by decide)
  rw [hfacts] at hagain
  rw [hfacts'] at hlost
  refine ⟨g, hg, grown_restarting, ?_, ?_⟩
  · rw [← hreaches increaseSum (by decide) ⟨0⟩ rfl]
    exact Std.ExtTreeSet.contains_iff_mem.mp (Option.some.inj hagain)
  · rw [← hreaches' resetSum (by decide) ⟨0⟩ rfl,
      ← Std.ExtTreeSet.contains_iff_mem]
    exact Bool.eq_false_iff.mp (Option.some.inj hlost)

end ReachingDefinitions
end ThreeAddress
