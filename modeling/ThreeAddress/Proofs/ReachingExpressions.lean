import ThreeAddress.Dataflow.ReachingExpressions
import ThreeAddress.Proofs.Dataflow.Sites

/-!
# Reaching expressions

The sets of expression sites are made of bits, whether they are united or
intersected, so the analysis is solved within every computed limit.  United, the
solution holds before an instruction those expressions from which some path leads
to it that keeps their operands.  Intersected, it lacks those that some path to
the instruction misses.
-/

namespace ThreeAddress
namespace ReachingExpressions

/-- Whether an instruction computes the expression at a site and keeps its
operands. -/
def computes (site : InstrId) (instr : Instruction) : Bool :=
  (instr.defined?.any fun v => instr.isExpression && !instr.reads v) &&
    instr.id == site

/-- Whether an instruction assigns an operand of the expression at a site. -/
def spoils (p : Program) (site : InstrId) (instr : Instruction) : Bool :=
  instr.defined?.any fun v => (readersOf p v).contains site

theorem treats (p : Program) (kind : SiteMeet) :
    SiteSet.Treats (analysis p kind) (· ∈ p.instrs.toList)
      ((sites p).map Instruction.id) computes (spoils p) where
  mem_transfer {instr x id} _ := by
    change id ∈ transfer p instr x ↔ _
    cases hdefined : instr.defined? with
    | none => simp [transfer, computes, spoils, hdefined]
    | some v =>
        simp only [transfer, hdefined, computes, spoils, Option.any_some]
        split
        · next hcomputes =>
            simp only [SiteSet.mem_insert_iff, SiteSet.mem_eraseAll, hcomputes,
              Bool.true_and, beq_iff_eq, ← Bool.not_eq_true,
              List.contains_iff_mem]
            rw [eq_comm]
        · next hcomputes =>
            simp [SiteSet.mem_eraseAll, Bool.eq_false_iff.mpr hcomputes,
              ← Bool.not_eq_true]
  mem_of_sets {instr id} hinstr hsets := by
    obtain ⟨hany, hid⟩ := Bool.and_eq_true _ _ |>.mp hsets
    obtain ⟨v, -, hcomputes⟩ := (Option.any_eq_true _ _).mp hany
    refine List.mem_map.mpr ⟨instr, ?_, beq_iff_eq.mp hid⟩
    exact List.mem_filter.mpr ⟨hinstr, (Bool.and_eq_true _ _ |>.mp hcomputes).1⟩

theorem splits_union (p : Program) :
    (analysis p .union).Splits (SiteSet.Among ((sites p).map Instruction.id))
      (· ∈ p.instrs.toList)
      (fun _ : { id // id ∈ (sites p).map Instruction.id } => false)
      (fun site => computes site) (fun site => spoils p site)
      fun site s => s.contains site.val :=
  (treats p .union).splits_union rfl rfl rfl

theorem splits_intersection (p : Program) :
    (analysis p .intersection).Splits
      (SiteSet.Among ((sites p).map Instruction.id)) (· ∈ p.instrs.toList)
      (fun _ : { id // id ∈ (sites p).map Instruction.id } => true)
      (fun site instr => spoils p site instr && !computes site instr)
      (fun site => computes site) fun site s => !s.contains site.val :=
  (treats p .intersection).splits_inter rfl (fun _ => SiteSet.mem_ofList) rfl

theorem meetLaws (p : Program) (kind : SiteMeet) :
    (analysis p kind).MeetLaws
      (SiteSet.Among ((sites p).map Instruction.id)) (· ∈ p.instrs.toList) := by
  cases kind with
  | intersection => exact (splits_intersection p).laws
  | union => exact (splits_union p).laws

theorem two_le_height
    {p : Program} (kind : SiteMeet)
    (site : { id // id ∈ (sites p).map Instruction.id }) :
    2 ≤ (analysis p kind).height := by
  have hmem : site.val ∈ allSites p := SiteSet.mem_ofList.mpr site.property
  have hsize : (allSites p).size ≠ 0 := by
    intro hzero
    rw [Std.ExtTreeSet.eq_empty_iff_size_eq_zero.mpr hzero] at hmem
    exact Std.ExtTreeSet.not_mem_empty hmem
  exact Nat.succ_le_succ (Nat.pos_of_ne_zero hsize)

theorem exists_solve
    {p : Program} {g : FlowGraph} (hp : p.Grown)
    (hg : FlowGraph.ofProgram p = .ok g) {settings : Settings}
    (hlimit : settings.Computed) :
    ∃ s, solve p settings p g = .ok s := by
  have hword := FlowGraph.blockCount_add_two_le hp hg
  rw [solve]
  cases settings.meet with
  | union =>
      exact Solution.exists_solve_of_splits (splits_union p) (.program hg)
        (fun ⟨site⟩ => two_le_height .union site) hword hlimit
  | intersection =>
      exact Solution.exists_solve_of_splits (splits_intersection p)
        (.program hg) (fun ⟨site⟩ => two_le_height .intersection site) hword
        hlimit

/-! ## Paths -/

/-- An instruction assigns a variable that another one reads. -/
def AssignsOperand (k d : Instruction) : Prop :=
  ∃ v, k.defined? = some v ∧ d.reads v = true

/-- An expression that keeps its own operands is computed, and from there some
path leads to an instruction on which nothing assigns an operand. -/
def ComputedAlong (p : Program) (g : FlowGraph) (d i : Instruction) : Prop :=
  ¬ AssignsOperand d d ∧ ∃ between,
    (d :: (between ++ [i])).IsChain (g.Next p) ∧
      ∀ k ∈ between, ¬ AssignsOperand k d

/-- Some path to an instruction does not compute an expression, or only while the
expression overwrites its own operand.  It starts with the program, or right
after an operand is assigned. -/
def MissedAlong (p : Program) (g : FlowGraph) (d i : Instruction) : Prop :=
  ∃ path, (d ∈ path → AssignsOperand d d) ∧
    (((path ++ [i]).IsChain (g.Next p) ∧ (path ++ [i]).head? = p.at? 0) ∨
      ∃ k, AssignsOperand k d ∧ (k :: (path ++ [i])).IsChain (g.Next p))

theorem mem_sites {p : Program} {d : Instruction} :
    d ∈ sites p ↔ d ∈ p.instrs.toList ∧ d.isExpression = true :=
  List.mem_filter

theorem exists_defined?_of_isExpression
    {d : Instruction} (h : d.isExpression = true) :
    ∃ v, d.defined? = some v := by
  rw [Instruction.isExpression] at h
  rw [Instruction.defined?]
  cases hs : d.statement with
  | assign target left op right => exact ⟨target, rfl⟩
  | _ => simp [hs, Statement.isExpression] at h

theorem mem_readersOf {p : Program} {v : VarId} {id : InstrId} :
    id ∈ readersOf p v ↔ ∃ d ∈ sites p, d.reads v = true ∧ d.id = id := by
  simp only [readersOf, List.mem_map, List.mem_filter, and_assoc]

section Paths

variable {p : Program} (hp : p.ids.Nodup) {d : Instruction} (hd : d ∈ sites p)

include hp hd

theorem computes_iff {i : Instruction} (hi : i ∈ p.instrs.toList) :
    computes d.id i = true ↔ i = d ∧ ¬ AssignsOperand d d := by
  obtain ⟨hmem, hexpression⟩ := mem_sites.mp hd
  obtain ⟨v, hv⟩ := exists_defined?_of_isExpression hexpression
  have hown : AssignsOperand d d ↔ d.reads v = true := by
    simp [AssignsOperand, hv]
  rw [computes, Bool.and_eq_true, beq_iff_eq, hown]
  constructor
  · rintro ⟨hcomputes, hid⟩
    obtain rfl := Program.eq_of_id_eq hp hi hmem hid
    simpa [hv, hexpression] using hcomputes
  · rintro ⟨rfl, hkeeps⟩
    simpa [hv, hexpression] using hkeeps

theorem spoils_iff {i : Instruction} :
    spoils p d.id i = true ↔ AssignsOperand i d := by
  rw [spoils, Option.any_eq_true, AssignsOperand]
  simp only [List.contains_iff_mem, mem_readersOf]
  refine exists_congr fun v => and_congr_right fun _ => ?_
  constructor
  · rintro ⟨e, he, hreads, hid⟩
    rwa [← Program.eq_of_id_eq hp (mem_sites.mp he).1 (mem_sites.mp hd).1 hid]
  · intro hreads
    exact ⟨d, hd, hreads, rfl⟩

/-- An instruction that assigns an operand does not compute the expression in a
lasting way, whatever else it does. -/
theorem spoils_and_not_computes_iff {k : Instruction} (hk : k ∈ p.instrs.toList) :
    (spoils p d.id k && !computes d.id k) = true ↔ AssignsOperand k d := by
  rw [Bool.and_eq_true, Bool.not_eq_true', ← Bool.not_eq_true,
    spoils_iff hp hd, computes_iff hp hd hk, and_iff_left_iff_imp]
  rintro hspoils ⟨rfl, hkeeps⟩
  exact hkeeps hspoils

variable {g : FlowGraph} (hg : FlowGraph.ofProgram p = .ok g) {i : Instruction}

include hg

theorem carried_union_iff :
    (g.flow .forward p).Carried false (computes d.id) (spoils p d.id) i ↔
      ComputedAlong p g d i := by
  rw [Flow.carried_false_iff, FlowGraph.follows_forward hg, ComputedAlong]
  simp only [← Bool.not_eq_true, spoils_iff hp hd]
  constructor
  · rintro ⟨j, hj, between, hchain, hpasses⟩
    have hmem : j ∈ p.instrs.toList :=
      FlowGraph.mem_of_isChain (j :: between) hchain List.mem_cons_self
    obtain ⟨rfl, hkeeps⟩ := (computes_iff hp hd hmem).mp hj
    exact ⟨hkeeps, between, hchain, hpasses⟩
  · rintro ⟨hkeeps, between, hchain, hpasses⟩
    exact ⟨d, (computes_iff hp hd (mem_sites.mp hd).1).mpr ⟨rfl, hkeeps⟩,
      between, hchain, hpasses⟩

theorem carried_intersection_iff :
    (g.flow .forward p).Carried true
        (fun instr => spoils p d.id instr && !computes d.id instr)
        (computes d.id) i ↔
      MissedAlong p g d i := by
  have hmisses : ∀ {path : List Instruction},
      (path ++ [i]).IsChain (g.Next p) →
        ((∀ k ∈ path, computes d.id k = false) ↔
          (d ∈ path → AssignsOperand d d)) := by
    intro path hchain
    have hmem := fun k hk => FlowGraph.mem_of_isChain path hchain (k := k) hk
    constructor
    · intro hclears hpath
      by_contra hkeeps
      have hcomputes := (computes_iff hp hd (hmem d hpath)).mpr ⟨rfl, hkeeps⟩
      exact Bool.false_ne_true ((hclears d hpath).symm.trans hcomputes)
    · intro hown k hk
      rw [← Bool.not_eq_true, computes_iff hp hd (hmem k hk)]
      rintro ⟨rfl, hkeeps⟩
      exact hkeeps (hown hk)
  rw [Flow.carried_iff, FlowGraph.follows_forward hg, MissedAlong]
  simp only [FlowGraph.starts_forward_iff hp hg, true_and]
  refine exists_congr fun path => ?_
  constructor
  · rintro ⟨hclears, ⟨hchain, first, hhead, hfirst⟩ | ⟨k, hk, hchain⟩⟩
    · exact ⟨(hmisses hchain).mp hclears,
        Or.inl ⟨hchain, hhead.trans hfirst.symm⟩⟩
    · have hmem : k ∈ p.instrs.toList :=
        FlowGraph.mem_of_isChain (k :: path) hchain List.mem_cons_self
      exact ⟨(hmisses hchain.tail).mp hclears,
        Or.inr ⟨k, (spoils_and_not_computes_iff hp hd hmem).mp hk, hchain⟩⟩
  · rintro ⟨hown, ⟨hchain, hhead⟩ | ⟨k, hk, hchain⟩⟩
    · obtain ⟨first, rest, hpath⟩ : ∃ first rest, path ++ [i] = first :: rest :=
        List.exists_cons_of_ne_nil (by simp)
      have hfirst : (path ++ [i]).head? = some first := by
        rw [hpath]
        rfl
      exact ⟨(hmisses hchain).mpr hown,
        Or.inl ⟨hchain, first, hfirst, hhead.symm.trans hfirst⟩⟩
    · have hmem : k ∈ p.instrs.toList :=
        FlowGraph.mem_of_isChain (k :: path) hchain List.mem_cons_self
      exact ⟨(hmisses hchain.tail).mpr hown,
        Or.inr ⟨k, (spoils_and_not_computes_iff hp hd hmem).mpr hk, hchain⟩⟩

end Paths

/-! ## The solutions -/

section Solutions

variable {p : Program} {g : FlowGraph} {settings : Settings}
  {s : Solution SiteSet}

theorem exists_mem_sites_of_states
    (hg : FlowGraph.ofProgram p = .ok g) (hs : solve p settings p g = .ok s)
    {x : SiteSet} (hx : s.States x) {id : InstrId} (hid : id ∈ x) :
    ∃ d ∈ sites p, d.id = id := by
  exact List.mem_map.mp (Solution.mem_of_states (meetLaws p settings.meet)
    (.program hg) hs hx id hid)

theorem exists_facts_of_union
    (hp : p.ids.Nodup) (hg : FlowGraph.ofProgram p = .ok g)
    (hmeet : settings.meet = .union) (hs : solve p settings p g = .ok s)
    {i : Instruction} (hi : i ∈ p.instrs.toList) :
    ∃ facts, s.at? i.id = some facts ∧
      ∀ d ∈ sites p, (d.id ∈ facts.input ↔ ComputedAlong p g d i) := by
  rw [solve, hmeet] at hs
  obtain ⟨x, -, harrives, hbits⟩ :=
    Solution.exists_arrives_of_splits hp hg (splits_union p) hs hi
  refine ⟨_, harrives, ?_⟩
  intro d hd
  rw [← carried_union_iff hp hd hg, ← Std.ExtTreeSet.contains_iff_mem]
  exact hbits ⟨d.id, List.mem_map_of_mem hd⟩

theorem exists_facts_of_intersection
    (hp : p.ids.Nodup) (hg : FlowGraph.ofProgram p = .ok g)
    (hmeet : settings.meet = .intersection) (hs : solve p settings p g = .ok s)
    {i : Instruction} (hi : i ∈ p.instrs.toList) :
    ∃ facts, s.at? i.id = some facts ∧
      ∀ d ∈ sites p, (d.id ∉ facts.input ↔ MissedAlong p g d i) := by
  rw [solve, hmeet] at hs
  obtain ⟨x, -, harrives, hbits⟩ :=
    Solution.exists_arrives_of_splits hp hg (splits_intersection p) hs hi
  refine ⟨_, harrives, ?_⟩
  intro d hd
  rw [← carried_intersection_iff hp hd hg, ← Std.ExtTreeSet.contains_iff_mem,
    Bool.not_eq_true, ← Bool.not_eq_true']
  exact hbits ⟨d.id, List.mem_map_of_mem hd⟩

end Solutions

/-- For a program that has a flow graph, the solver returns solutions under both
meets.  They have facts before every instruction and hold nothing but expression
sites.  Under union, an expression is there if it has been computed along some
path.  Under intersection, it is missing if some path misses it. -/
theorem mem_solve_iff_along
    {p : Program} {g : FlowGraph} (hp : p.Grown)
    (hg : FlowGraph.ofProgram p = .ok g) :
    (∃ s, solve p { Settings.default with meet := .union } p g = .ok s ∧
        (∀ x, s.States x → ∀ id ∈ x, ∃ d ∈ sites p, d.id = id) ∧
        ∀ i ∈ p.instrs.toList, ∃ facts, s.at? i.id = some facts ∧
          ∀ d ∈ sites p, (d.id ∈ facts.input ↔ ComputedAlong p g d i)) ∧
      ∃ s, solve p { Settings.default with meet := .intersection } p g =
          .ok s ∧
        (∀ x, s.States x → ∀ id ∈ x, ∃ d ∈ sites p, d.id = id) ∧
        ∀ i ∈ p.instrs.toList, ∃ facts, s.at? i.id = some facts ∧
          ∀ d ∈ sites p, (d.id ∉ facts.input ↔ MissedAlong p g d i) := by
  have hids := hp.wellFormed.nodup_ids
  have hlimit : ∀ kind, Settings.Computed { Settings.default with meet := kind } :=
    fun _ => ⟨rfl, Settings.computed_default.slack_pos⟩
  obtain ⟨s, hs⟩ := exists_solve hp hg (hlimit .union)
  obtain ⟨t, ht⟩ := exists_solve hp hg (hlimit .intersection)
  refine ⟨⟨s, hs, ?_, ?_⟩, t, ht, ?_, ?_⟩
  · exact fun x hx id hid => exists_mem_sites_of_states hg hs hx hid
  · exact fun i hi => exists_facts_of_union hids hg rfl hs hi
  · exact fun x hx id hid => exists_mem_sites_of_states hg ht hx hid
  · exact fun i hi => exists_facts_of_intersection hids hg rfl ht hi

/-- Adds two numbers. -/
def addFirst : Instruction :=
  ⟨⟨0⟩, false, .assign ⟨2⟩ (some (.var ⟨0⟩)) .plus (.var ⟨1⟩)⟩

/-- Skips the change of the first number, unless a counter is zero. -/
def skip : Instruction :=
  ⟨⟨1⟩, false, .branch (.var ⟨3⟩) ⟨4⟩⟩

/-- Counts up. -/
def countUp : Instruction :=
  ⟨⟨3⟩, false, .assign ⟨3⟩ (some (.var ⟨3⟩)) .plus (.const 1)⟩

/-- Adds the numbers again. -/
def addAgain : Instruction :=
  ⟨⟨4⟩, true, .assign ⟨2⟩ (some (.var ⟨0⟩)) .plus (.var ⟨1⟩)⟩

/-- Adds two numbers twice, where the first may change in between. -/
def adding : Program where
  instrs := #[addFirst, skip,
    ⟨⟨2⟩, false, .assign ⟨0⟩ none .copy (.const 1)⟩,
    countUp, addAgain,
    ⟨⟨5⟩, false, .print (.var ⟨2⟩)⟩]
  names := #["a", "b", "sum", "n"]

theorem grown_adding : adding.Grown := by
  have hbuild : (Program.ofNames ["a", "b", "sum", "n"]).withInstructions
      adding.instrs.toList = .ok adding := by
    decide +kernel
  exact (Program.Grown.ofNames _).withInstructions (by decide) hbuild

/-- Whether a site is held before an instruction under a meet. -/
def holdsBefore (kind : SiteMeet) (p : Program) (site id : InstrId) :
    Except Error (Option Bool) := do
  let g ← FlowGraph.ofProgram p
  let s ← solve p { Settings.default with meet := kind } p g
  return (s.at? id).map fun facts => facts.input.contains site

theorem mem_iff_of_holdsBefore
    {kind : SiteMeet} {p : Program} {g : FlowGraph} {s : Solution SiteSet}
    {facts : InOut SiteSet} {site id : InstrId} (held : Bool)
    (hg : FlowGraph.ofProgram p = .ok g)
    (hs : solve p { Settings.default with meet := kind } p g = .ok s)
    (hfacts : s.at? id = some facts)
    (h : holdsBefore kind p site id = .ok (some held)) :
    site ∈ facts.input ↔ held = true := by
  have hheld : (some (facts.input.contains site)) = some held := by
    simpa [holdsBefore, hg, hs, hfacts, bind, Except.bind, pure,
      Except.pure] using h
  rw [← Option.some.inj hheld, Std.ExtTreeSet.contains_iff_mem]

/-- The first sum reaches the second along the branch and is missed along the
other way, where an operand changes; right after it has been computed, no path
misses it.  The counter never reaches anything, since it changes its operand. -/
theorem mem_solve_iff_along_adding :
    ∃ g, FlowGraph.ofProgram adding = .ok g ∧ adding.Grown ∧
      ComputedAlong adding g addFirst addAgain ∧
      ¬ ComputedAlong adding g countUp addAgain ∧
      MissedAlong adding g addFirst addAgain ∧
      ¬ MissedAlong adding g addFirst skip := by
  obtain ⟨g, hg⟩ := FlowGraph.exists_ofProgram (p := adding) (by decide)
    (by decide) (by decide)
  obtain ⟨⟨s, hs, -, hunion⟩, t, ht, -, hinter⟩ :=
    mem_solve_iff_along grown_adding hg
  obtain ⟨facts, hfacts, hcomputed⟩ := hunion addAgain (by decide)
  obtain ⟨facts', hfacts', hmissed⟩ := hinter addAgain (by decide)
  obtain ⟨facts'', hfacts'', hkept⟩ := hinter skip (by decide)
  refine ⟨g, hg, grown_adding, ?_, ?_, ?_, ?_⟩
  · rw [← hcomputed addFirst (by decide)]
    exact (mem_iff_of_holdsBefore true hg hs hfacts (by decide +kernel)).mpr rfl
  · rw [← hcomputed countUp (by decide),
      mem_iff_of_holdsBefore false hg hs hfacts (by decide +kernel)]
    exact Bool.false_ne_true
  · rw [← hmissed addFirst (by decide),
      mem_iff_of_holdsBefore false hg ht hfacts' (by decide +kernel)]
    exact Bool.false_ne_true
  · rw [← hkept addFirst (by decide), not_not]
    exact (mem_iff_of_holdsBefore true hg ht hfacts'' (by decide +kernel)).mpr rfl

end ReachingExpressions
end ThreeAddress
