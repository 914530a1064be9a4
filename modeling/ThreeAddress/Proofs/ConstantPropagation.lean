import ThreeAddress.Proofs.Dataflow.ConstantPasses
import ThreeAddress.Proofs.Dataflow.Instructions
import ThreeAddress.Proofs.Semantics.Undefined

/-!
# Constant propagation is sound

Whatever run of a program is about to execute an instruction, the environment
found there describes its variables: a variable that is a constant holds that
constant or nothing, and an undetermined one holds nothing.  One move keeps
this, since folding gives the exact result wherever there is one.
-/

namespace ThreeAddress

/-- What a variable may hold if this is known of it. -/
def ConstValue.Admits : ConstValue → Option Int64 → Prop
  | undetermined, held => held = none
  | constant value, held => held = none ∨ held = some value
  | varying, _ => True

/-- Every variable holds what the environment admits. -/
def ConstEnv.Describes (env : ConstEnv) (σ : PartialStore) : Prop :=
  ∀ v, (env.get v).Admits (σ v)

namespace ConstValue

theorem admits_none (x : ConstValue) : x.Admits none := by
  cases x with
  | undetermined => exact rfl
  | constant value => exact Or.inl rfl
  | varying => exact trivial

/-- A lower value admits more. -/
theorem Admits.of_lower
    {x y : ConstValue} {held : Option Int64} (h : y.Admits held)
    (hxy : x.Lower y) :
    x.Admits held := by
  rcases lower_iff.mp hxy with rfl | rfl | rfl
  · exact h
  · obtain rfl : held = none := h
    exact admits_none x
  · exact trivial

theorem Admits.ne_undetermined
    {x : ConstValue} {w : Int64} (h : x.Admits (some w)) :
    x ≠ .undetermined := by
  rintro rfl
  exact Option.some_ne_none w h

theorem Admits.eq_of_constant
    {c w : Int64} (h : (constant c).Admits (some w)) :
    c = w := by
  rcases h with hnone | hsome
  · contradiction
  · exact (Option.some.inj hsome).symm

end ConstValue

namespace ConstantPropagation

theorem operandValue_admits
    {env : ConstEnv} {σ : PartialStore} (h : env.Describes σ)
    (operand : Operand) :
    (operandValue env operand).Admits (operand.value? σ) := by
  cases operand with
  | var v => exact h v
  | const value => exact Or.inr rfl

/-- If the operands hold what is known of them, so does the result. -/
theorem combine_admits
    {left : Option ConstValue} {op : Operation} {right : ConstValue}
    {l : Option Int64} {r w : Int64}
    (hleft : Option.Rel (fun x value => x.Admits (some value)) left l)
    (hright : right.Admits (some r)) (hyields : op.Yields l r w) :
    (combine left op right).Admits (some w) := by
  by_cases hvarying : .varying ∈ left.toList ++ [right]
  · rw [combine_of_varying op hvarying]
    exact trivial
  · -- all operands are defined, so none is undetermined
    have hundetermined : .undetermined ∉ left.toList ++ [right] := by
      cases hleft with
      | none => simpa using hright.ne_undetermined.symm
      | some hx =>
          simpa using ⟨hx.ne_undetermined.symm, hright.ne_undetermined.symm⟩
    obtain ⟨l', r', rfl, rfl⟩ := exists_constants hvarying hundetermined
    obtain rfl := hright.eq_of_constant
    have hsame : l' = l := by
      cases l' with
      | none =>
          cases hleft with
          | none => rfl
      | some c =>
          cases hleft with
          | some hx => exact congrArg some hx.eq_of_constant
    subst hsame
    rw [combine_constant]
    cases hevaluate : op.evaluate l' r' with
    | none => exact trivial
    | some value =>
        have hexact := Operation.evaluate_eq_some_iff.mp hevaluate
        exact Or.inr (congrArg some (hyields value hexact))

/-- Folding admits what an assignment may store. -/
theorem fold_admits
    {env : ConstEnv} {σ : PartialStore} (h : env.Describes σ)
    {left : Option Operand} {op : Operation} {right : Operand}
    {result : Option Int64} (hresult : Assigned σ left op right result) :
    (fold env left op right).Admits result := by
  cases hresult with
  | undefined => exact ConstValue.admits_none _
  | @defined l r w hleft hright hyields =>
      have hr := operandValue_admits h right
      rw [hright] at hr
      have hl : Option.Rel (fun x value => x.Admits (some value))
          (left.map (operandValue env)) l := by
        cases left with
        | none =>
            obtain rfl := Option.map_eq_none_iff.mp hleft.symm
            exact .none
        | some operand =>
            obtain ⟨value, rfl, hvalue⟩ := Option.map_eq_some_iff.mp hleft.symm
            have hoperand := operandValue_admits h operand
            rw [← hvalue] at hoperand
            exact .some hoperand
      exact combine_admits hl hr hyields

/-- One move keeps the description. -/
theorem transfer_describes
    {p : Program} {env : ConstEnv} {n : Nat} (hsize : Sized n env)
    {c d : Config} (h : env.Describes c.store) (hmoves : c.Moves p d)
    {i : Instruction} (hi : p.at? c.position = some i)
    (hwrites : Writes n i) :
    (transfer i env).Describes d.store := by
  have hkept : ∀ {i' : Instruction}, p.at? c.position = some i' →
      i'.defined? = none → (transfer i env).Describes c.store := by
    intro i' hi' hdefined
    obtain rfl := Option.some.inj (hi'.symm.trans hi)
    rw [transfer_of_defined?_eq_none hdefined]
    exact h
  cases hmoves with
  | @assign k σ i' target left op right result hi' hstatement hresult =>
      obtain rfl := Option.some.inj (hi'.symm.trans hi)
      have htarget : target.index < env.values.size := by
        rw [hsize]
        apply hwrites
        rw [Instruction.defined?, hstatement]
        rfl
      intro v
      rw [transfer, hstatement, ConstEnv.get_eq_value]
      simp only
      rw [ConstEnv.value_set htarget]
      by_cases hv : v = target
      · subst hv
        rw [if_pos rfl, Function.update_self]
        exact fold_admits h hresult
      · have hindex : v.index ≠ target.index :=
          fun heq => hv (VarId.index_injective heq)
        rw [if_neg hindex, Function.update_of_ne hv]
        exact h v
  | goto hi' hstatement =>
      exact hkept hi' (by rw [Instruction.defined?, hstatement]; rfl)
  | taken hi' hstatement =>
      exact hkept hi' (by rw [Instruction.defined?, hstatement]; rfl)
  | untaken hi' hstatement =>
      exact hkept hi' (by rw [Instruction.defined?, hstatement]; rfl)
  | print hi' hstatement =>
      exact hkept hi' (by rw [Instruction.defined?, hstatement]; rfl)
  | nop hi' hstatement =>
      exact hkept hi' (by rw [Instruction.defined?, hstatement]; rfl)

theorem describes_of_below
    {p : Program} {x y : ConstEnv} (hx : Sized p.varCount x)
    (hy : Sized p.varCount y) (hxy : (analysis p).Below x y)
    {σ : PartialStore} (h : y.Describes σ) :
    x.Describes σ := by
  intro v
  exact (h v).of_lower ((below_iff hx hy).mp hxy v.index)

/-- Every run is described by the facts that arrive at its instructions. -/
theorem describes_of_reachable
    {p : Program} {s : Solution ConstEnv} {x : Instruction → ConstEnv}
    (hp : p.WellFormed)
    (hx : s.Fits (analysis p) (Sized p.varCount) p x) {c : Config}
    (hreachable : c.Reachable p) {i : Instruction}
    (hi : p.at? c.position = some i) :
    (x i).Describes c.store := by
  induction hreachable generalizing i with
  | refl =>
      have hmem := Program.mem_of_at? hi
      refine describes_of_below (hx.mem i hmem)
        (sized_undetermined p.varCount) (hx.below_boundary rfl hi) ?_
      intro v
      rw [ConstEnv.get_eq_value, ConstEnv.value_undetermined]
      rfl
  | @tail c d _ hmoves ih =>
      obtain ⟨j, hj⟩ := Config.exists_at?_of_moves hmoves
      have hflows := Config.flows_of_moves hp.nodup_ids hmoves hj hi
      obtain ⟨hmemj, hmemi⟩ := Program.mem_of_flows hflows
      refine describes_of_below (hx.mem i hmemi) ((hx.mem j hmemj).transfer j)
        (hx.below hflows) ?_
      exact transfer_describes (hx.mem j hmemj) (ih hj) hmoves hj
        (writes_of_mem hp hmemj)

/-- If jumps name labelled instructions, constants can be propagated, and then
every run that is about to execute an instruction holds in each variable the
constant found for it there or nothing, and nothing in an undetermined one. -/
theorem solve_describes
    {p : Program} (hp : p.Grown) (hjumps : p.JumpsLabelled) :
    (0 < p.size →
      ∃ g s, FlowGraph.ofProgram p = .ok g ∧
        solve p .default p g = .ok s) ∧
    ∀ g s, FlowGraph.ofProgram p = .ok g → solve p .default p g = .ok s →
      ∀ (c : Config) (i : Instruction), c.Reachable p →
        p.at? c.position = some i →
        ∃ facts, s.at? i.id = some facts ∧
          ∀ v, (∀ value, facts.input.get v = .constant value →
              c.store v = none ∨ c.store v = some value) ∧
            (facts.input.get v = .undetermined → c.store v = none) := by
  have hwf := hp.wellFormed
  refine ⟨?_, ?_⟩
  · intro hpos
    obtain ⟨g, hg⟩ := FlowGraph.exists_ofProgram hwf.nodup_ids
      (Program.toList_ne_nil hpos) hjumps
    obtain ⟨s, hs⟩ := exists_solve_of_computed hp hg Settings.computed_default
    exact ⟨g, s, hg, hs⟩
  · intro g s hg hsolve c i hreachable hi
    obtain ⟨x, hx⟩ := Solution.exists_fits hwf.nodup_ids hjumps hg
      (meetLaws p _) (Solution.solve_of_solveWithin hsolve)
    have hdescribes := describes_of_reachable hwf hx hreachable hi
    refine ⟨_, hx.arrives i (Program.mem_of_at? hi), ?_⟩
    intro v
    have hadmits := hdescribes v
    refine ⟨?_, ?_⟩
    · intro value hvalue
      change (x i).get v = _ at hvalue
      rw [hvalue] at hadmits
      exact hadmits
    · intro hundetermined
      change (x i).get v = _ at hundetermined
      rw [hundetermined] at hadmits
      exact hadmits

/-- Triples a constant in every round of a loop whose end is not known. -/
def tripling : Program where
  instrs := #[
    ⟨⟨0⟩, false, .assign ⟨0⟩ none .copy (.const 2)⟩,
    ⟨⟨1⟩, true, .assign ⟨1⟩ (some (.var ⟨0⟩)) .mul (.const 3)⟩,
    ⟨⟨2⟩, false, .branch (.var ⟨2⟩) ⟨1⟩⟩,
    ⟨⟨3⟩, false, .print (.var ⟨1⟩)⟩]
  names := #["x", "y", "z"]

theorem grown_tripling : tripling.Grown := by
  have hbuild : (Program.ofNames ["x", "y", "z"]).withInstructions
      tripling.instrs.toList = .ok tripling := by
    decide +kernel
  exact (Program.Grown.ofNames _).withInstructions (by decide) hbuild

theorem constant_tripling
    {g : FlowGraph} {s : Solution ConstEnv}
    (hg : FlowGraph.ofProgram tripling = .ok g)
    (hs : solve tripling .default tripling g = .ok s) :
    (s.at? ⟨3⟩).map (fun facts => facts.input.get ⟨1⟩) =
      some (.constant 6) := by
  have hvalue : ((FlowGraph.ofProgram tripling >>=
      solve tripling .default tripling).toOption.bind fun s =>
        (s.at? ⟨3⟩).map fun facts => facts.input.get ⟨1⟩) =
      some (.constant 6) := by
    decide +kernel
  rw [hg] at hvalue
  change (solve tripling .default tripling g).toOption.bind _ = _ at hvalue
  rw [hs] at hvalue
  exact hvalue

/-- Some run leaves the loop with the product. -/
theorem exists_reachable_tripling :
    ∃ c : Config, c.Reachable tripling ∧ c.position = 3 ∧
      c.store ⟨1⟩ = some 6 := by
  let first : PartialStore := Function.update (fun _ => none) ⟨0⟩ (some 2)
  let second : PartialStore := Function.update first ⟨1⟩ (some 6)
  have hcopy : Config.start.Moves tripling ⟨1, first⟩ := by
    refine .assign rfl rfl (.defined (l := none) rfl rfl ?_)
    intro z hz
    exact Int64.toInt_inj.mp (Option.some.inj hz)
  have hproduct : Config.Moves tripling ⟨1, first⟩ ⟨2, second⟩ := by
    refine .assign rfl rfl (.defined (l := some 2) rfl rfl ?_)
    intro z hz
    exact Int64.toInt_inj.mp (Option.some.inj hz)
  have hleave : Config.Moves tripling ⟨2, second⟩ ⟨3, second⟩ := by
    refine .untaken rfl rfl ?_
    intro w hw
    have hundefined : (Operand.var ⟨2⟩).value? second = none := rfl
    rw [hundefined] at hw
    contradiction
  exact ⟨⟨3, second⟩, ((Relation.ReflTransGen.single hcopy).tail
    hproduct).tail hleave, rfl, rfl⟩

theorem solve_describes_tripling :
    (∃ g s, FlowGraph.ofProgram tripling = .ok g ∧
      solve tripling .default tripling g = .ok s) ∧
    (∃ c : Config, c.Reachable tripling ∧ c.position = 3 ∧
      c.store ⟨1⟩ = some 6) ∧
    ∀ c : Config, c.Reachable tripling → c.position = 3 →
      c.store ⟨1⟩ = none ∨ c.store ⟨1⟩ = some 6 := by
  obtain ⟨hexists, hsound⟩ := solve_describes grown_tripling (by decide)
  obtain ⟨g, s, hg, hs⟩ := hexists (by decide)
  refine ⟨⟨g, s, hg, hs⟩, exists_reachable_tripling, ?_⟩
  intro c hreachable hposition
  have hi : tripling.at? c.position =
      some ⟨⟨3⟩, false, .print (.var ⟨1⟩)⟩ := by
    rw [hposition]
    rfl
  obtain ⟨facts, hfacts, hheld⟩ := hsound g s hg hs c _ hreachable hi
  have hconstant := constant_tripling hg hs
  rw [hfacts] at hconstant
  exact (hheld ⟨1⟩).1 6 (Option.some.inj hconstant)

end ConstantPropagation
end ThreeAddress
