import ThreeAddress.Proofs.Dataflow.Liveness

/-!
# Live variables

The solution holds after an instruction exactly those variables that are read at
the end of some path from it on which nothing defines them before.  Infinite
loops are no exception: what is live there is live because of a path, although
no fact ever enters the program.
-/

namespace ThreeAddress
namespace LiveVariables

variable {p : Program} {g : FlowGraph} {i : Instruction} {v : VarId}

/-- Facts go against control, so a variable is carried to an instruction from a
read that a path of the graph leads to. -/
theorem carried_iff (hg : FlowGraph.ofProgram p = .ok g) :
    (g.flow .backward p).Carried false
        (fun instr => (instr.used.map VarId.index).contains v.index)
        (fun instr => instr.defined?.map VarId.index == some v.index) i ↔
      ∃ u between, (i :: (between ++ [u])).IsChain (g.Next p) ∧
        u.reads v = true ∧ ∀ k ∈ between, k.defined? ≠ some v := by
  have hreverse : ∀ (u : Instruction) (between : List Instruction),
      (u :: (between ++ [i])).IsChain (fun j k => g.Next p k j) ↔
        (i :: (between.reverse ++ [u])).IsChain (g.Next p) := by
    intro u between
    rw [← List.isChain_reverse]
    simp
  rw [Flow.carried_false_iff, FlowGraph.follows_backward hg]
  simp only [contains_index_iff, beq_eq_false_iff_ne, ne_eq,
    map_index_eq_some_iff, hreverse]
  constructor
  · rintro ⟨u, hreads, between, hchain, hpasses⟩
    refine ⟨u, between.reverse, hchain, hreads, ?_⟩
    intro k hk
    exact hpasses k (List.mem_reverse.mp hk)
  · rintro ⟨u, between, hchain, hreads, hpasses⟩
    refine ⟨u, hreads, between.reverse, ?_, ?_⟩
    · rwa [List.reverse_reverse]
    · intro k hk
      exact hpasses k (List.mem_reverse.mp hk)

/-- What is live before an instruction, by what is live after it. -/
theorem isLive_transfer
    {n : Nat} {live : VarSet} (hlive : Sized n live) (huses : Uses n i) :
    isLive (transfer i live) v = true ↔
      i.reads v = true ∨ i.defined? ≠ some v ∧ isLive live v = true := by
  rw [isLive, contains_transfer hlive huses, ← List.contains_iff_mem,
    contains_index_iff, ne_eq, map_index_eq_some_iff, or_comm]
  exact or_congr_right and_comm

/-- For a program that has a flow graph, the solver returns a solution that has
facts around every instruction.  A variable is live after the instruction if some
path of the graph leads from there to a read of the variable without meeting a
definition of it.  It is live before the instruction if the instruction reads it,
or does not define it and it is live after. -/
theorem solve_isLive_iff (hp : p.Grown) (hg : FlowGraph.ofProgram p = .ok g) :
    ∃ s, solve p .default p g = .ok s ∧
      ∀ i ∈ p.instrs.toList, ∃ facts, s.at? i.id = some facts ∧
        ∀ v, v.index < p.varCount →
          (isLive facts.output v = true ↔
            ∃ u between, (i :: (between ++ [u])).IsChain (g.Next p) ∧
              u.reads v = true ∧ ∀ k ∈ between, k.defined? ≠ some v) ∧
          (isLive facts.input v = true ↔
            i.reads v = true ∨
              i.defined? ≠ some v ∧ isLive facts.output v = true) := by
  have hwf := hp.wellFormed
  obtain ⟨s, hs⟩ := exists_solve hwf (.program hg)
    (FlowGraph.blockCount_add_two_le hp hg) Settings.computed_default
  refine ⟨s, hs, ?_⟩
  intro i hi
  obtain ⟨x, hx, harrives, hbits⟩ := Solution.exists_arrives_of_splits
    hwf.nodup_ids hg ((splits p).restrict hwf.index_lt)
    (Solution.solve_of_solveWithin hs) hi
  refine ⟨_, harrives, ?_⟩
  intro v hv
  refine ⟨?_, isLive_transfer hx (hwf.index_lt i hi)⟩
  rw [← carried_iff hg]
  exact hbits ⟨v.index, hv⟩

/-- Adds one to the number. -/
def increase : Instruction :=
  ⟨⟨1⟩, true, .assign ⟨0⟩ (some (.var ⟨0⟩)) .plus (.const 1)⟩

/-- Prints the square. -/
def printSquare : Instruction :=
  ⟨⟨3⟩, false, .print (.var ⟨1⟩)⟩

/-- Goes on with the next number. -/
def goOn : Instruction :=
  ⟨⟨4⟩, false, .goto ⟨1⟩⟩

/-- Prints squares without end. -/
def squares : Program where
  instrs := #[
    ⟨⟨0⟩, false, .assign ⟨0⟩ none .copy (.const 0)⟩,
    increase,
    ⟨⟨2⟩, false, .assign ⟨1⟩ (some (.var ⟨0⟩)) .mul (.var ⟨0⟩)⟩,
    printSquare,
    goOn]
  names := #["n", "square"]

theorem grown_squares : squares.Grown := by
  have hbuild : (Program.ofNames ["n", "square"]).withInstructions
      squares.instrs.toList = .ok squares := by
    decide +kernel
  exact (Program.Grown.ofNames _).withInstructions (by decide) hbuild

theorem isLive_squares
    {s : Solution VarSet} (hg : FlowGraph.ofProgram squares = .ok g)
    (hs : solve squares .default squares g = .ok s) :
    ((s.at? goOn.id).map fun facts => isLive facts.output ⟨0⟩) = some true ∧
      ((s.at? printSquare.id).map fun facts => isLive facts.output ⟨1⟩) =
        some false := by
  have hlive : ((FlowGraph.ofProgram squares >>=
      solve squares .default squares).toOption.map fun s =>
        ((s.at? goOn.id).map fun facts => isLive facts.output ⟨0⟩,
        (s.at? printSquare.id).map fun facts => isLive facts.output ⟨1⟩)) =
      some (some true, some false) := by
    decide +kernel
  rw [hg] at hlive
  change (solve squares .default squares g).toOption.map _ = _ at hlive
  rw [hs] at hlive
  exact Prod.mk.inj (Option.some.inj hlive)

/-- The number is live when control goes back, since it is increased then.  The
square is not live once it has been printed, since it is computed anew before it
is printed again. -/
theorem solve_isLive_iff_squares :
    ∃ g, FlowGraph.ofProgram squares = .ok g ∧ squares.Grown ∧
      (∃ u between, (goOn :: (between ++ [u])).IsChain (g.Next squares) ∧
        u.reads ⟨0⟩ = true ∧ ∀ k ∈ between, k.defined? ≠ some ⟨0⟩) ∧
      ¬ ∃ u between,
        (printSquare :: (between ++ [u])).IsChain (g.Next squares) ∧
          u.reads ⟨1⟩ = true ∧ ∀ k ∈ between, k.defined? ≠ some ⟨1⟩ := by
  obtain ⟨g, hg⟩ := FlowGraph.exists_ofProgram (p := squares) (by decide)
    (by decide) (by decide)
  obtain ⟨s, hs, hexact⟩ := solve_isLive_iff grown_squares hg
  obtain ⟨hnumber, hsquare⟩ := isLive_squares hg hs
  obtain ⟨facts, hfacts, hlive⟩ := hexact goOn (by decide)
  obtain ⟨facts', hfacts', hlive'⟩ := hexact printSquare (by decide)
  rw [hfacts] at hnumber
  rw [hfacts'] at hsquare
  refine ⟨g, hg, grown_squares, ?_, ?_⟩
  · rw [← (hlive ⟨0⟩ (by decide)).1]
    exact Option.some.inj hnumber
  · rw [← (hlive' ⟨1⟩ (by decide)).1]
    exact Bool.eq_false_iff.mp (Option.some.inj hsquare)

end LiveVariables
end ThreeAddress
