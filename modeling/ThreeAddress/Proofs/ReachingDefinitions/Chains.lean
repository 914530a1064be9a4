import ThreeAddress.Proofs.Block.Chains
import ThreeAddress.Proofs.Dataflow.Consistency
import ThreeAddress.Proofs.ReachingDefinitions

/-!
# Chains and reaching definitions

The chains of a block link a read to the latest definition before it in the block.
Whatever has reached the block, this definition has displaced all others of its
variable, and nothing between it and the read has displaced it.  So of all
definitions of the variable it is the only one that reaches the read.
-/

namespace ThreeAddress
namespace ReachingDefinitions

open Chains

section Sites

variable {p : Program} (hp : p.ids.Nodup) {v : VarId}
include hp

/-- After a definition of a variable, no other definition of it is left. -/
theorem mem_transfer_of_defined?
    {d : Instruction} (hd : d ∈ p.instrs.toList) (hv : d.defined? = some v)
    {x : SiteSet} {id : InstrId} (hid : id ∈ sitesOf p v) :
    id ∈ transfer p d x ↔ id = d.id := by
  obtain ⟨e, he, hev, rfl⟩ := mem_sitesOf.mp hid
  have hdisplaces : displaces p e.id d = true :=
    (displaces_iff hp he hev).mpr hv
  refine ((treats p).mem_transfer hd).trans ?_
  rw [defines_iff hp he hev hd, hdisplaces]
  constructor
  · rintro (rfl | ⟨-, hfalse⟩)
    · rfl
    · contradiction
  · intro hsame
    exact Or.inl (Program.eq_of_id_eq hp hd he hsame.symm)

/-- Instructions that do not define a variable leave its definitions alone. -/
theorem mem_through_of_defined?_ne
    {code : List Instruction} (hcode : ∀ k ∈ code, k ∈ p.instrs.toList)
    (hne : ∀ k ∈ code, k.defined? ≠ some v) {x : SiteSet} {id : InstrId}
    (hid : id ∈ sitesOf p v) :
    id ∈ (analysis p).through code x ↔ id ∈ x := by
  obtain ⟨e, he, hev, rfl⟩ := mem_sitesOf.mp hid
  induction code generalizing x with
  | nil => exact Iff.rfl
  | cons k rest ih =>
      rw [List.forall_mem_cons] at hcode hne
      have hdefines : ¬ defines e.id k = true := by
        rw [defines_iff hp he hev hcode.1]
        rintro rfl
        exact hne.1 hev
      have hdisplaces : displaces p e.id k = false := by
        rw [← Bool.not_eq_true, displaces_iff hp he hev]
        exact hne.1
      refine (ih hcode.2 hne.2).trans (((treats p).mem_transfer hcode.1).trans ?_)
      rw [or_iff_right hdefines, hdisplaces]
      simp

/-- Of the definitions of a variable, only the latest arrives at a read. -/
theorem mem_through_of_feeds
    {pre mid : List Instruction} {d : Instruction}
    (hcode : ∀ k ∈ pre ++ d :: mid, k ∈ p.instrs.toList)
    (hv : d.defined? = some v) (hmid : ∀ k ∈ mid, k.defined? ≠ some v)
    {x : SiteSet} {id : InstrId} (hid : id ∈ sitesOf p v) :
    id ∈ (analysis p).through (pre ++ d :: mid) x ↔ id = d.id := by
  have hsplit : (analysis p).through (pre ++ d :: mid) x =
      (analysis p).through mid
        (transfer p d ((analysis p).through pre x)) := by
    simp only [Analysis.through, List.foldl_append, List.foldl_cons]
    rfl
  have hd : d ∈ p.instrs.toList := hcode d (by simp)
  rw [hsplit, mem_through_of_defined?_ne hp (fun k hk => hcode k (by simp [hk]))
    hmid hid, mem_transfer_of_defined? hp hd hv hid]

end Sites

/-- For a program that has a flow graph, the solver returns a solution that has
facts at every read of the chains of every block.  Of all definitions of the
variable, the one that reaches the read is the one to which it is linked. -/
theorem solve_reaches_iff_linked
    {p : Program} {g : FlowGraph} (hp : p.Grown)
    (hg : FlowGraph.ofProgram p = .ok g) :
    ∃ s, solve p .default p g = .ok s ∧
      ∀ b ∈ g.blocks, ∀ c, Chains.ofBlock p b = .ok c → ∀ use ∈ c.uses,
        ∃ facts, s.at? use.instr = some facts ∧
          ∀ id, id ∈ sitesOf p use.var ∧ id ∈ facts.input ↔
            id = use.definition := by
  have hids := hp.wellFormed.nodup_ids
  have hbuilt := FlowGraph.BuiltFrom.program hg
  obtain ⟨s, hs⟩ := exists_solve hp hg Settings.computed_default
  refine ⟨s, hs, ?_⟩
  intro b hb c hc use huse
  obtain ⟨n, hn⟩ := List.mem_iff_getElem?.mp hb
  rw [ofBlock_eq (hbuilt.covered b hb)] at hc
  rw [← FlowGraph.code_eq_filterMap hn] at hc
  obtain ⟨d, u, ⟨pre, mid, post, hsplit, hv, hu, hmid⟩, hid, huid⟩ :=
    (mem_uses_iff hc).mp huse
  have hcode : g.code p n = (pre ++ d :: mid) ++ u :: post := by
    rw [hsplit, List.append_assoc, List.cons_append]
  have hat := Solution.at?_eq_amid hbuilt
    (FlowGraph.distinct_flow hids hg _) hs hcode
  rw [huid] at hat
  have hmem : ∀ k ∈ pre ++ d :: mid, k ∈ p.instrs.toList := by
    intro k hk
    apply FlowGraph.mem_of_mem_code
    rw [hcode]
    exact List.mem_append_left _ hk
  have hsite : use.definition ∈ sitesOf p use.var :=
    mem_sitesOf.mpr ⟨d, hmem d (by simp), hv, hid⟩
  refine ⟨_, hat, ?_⟩
  intro id
  constructor
  · rintro ⟨hsites, hreaches⟩
    rw [← hid]
    exact (mem_through_of_feeds hids hmem hv hmid hsites).mp hreaches
  · rintro rfl
    refine ⟨hsite, ?_⟩
    exact (mem_through_of_feeds hids hmem hv hmid hsite).mpr hid.symm

/-- In every round sets `x` anew, prints its double, and doubles it. -/
def refreshing : Program where
  instrs := #[
    ⟨⟨0⟩, false, .assign ⟨0⟩ none .copy (.const 1)⟩,
    ⟨⟨1⟩, true, .assign ⟨0⟩ none .copy (.const 8)⟩,
    ⟨⟨2⟩, false, .assign ⟨1⟩ (some (.var ⟨0⟩)) .plus (.var ⟨0⟩)⟩,
    ⟨⟨3⟩, false, .print (.var ⟨1⟩)⟩,
    ⟨⟨4⟩, false, .assign ⟨0⟩ none .copy (.var ⟨1⟩)⟩,
    ⟨⟨5⟩, false, .goto ⟨1⟩⟩]
  names := #["x", "double"]

theorem grown_refreshing : refreshing.Grown := by
  have hbuild : (Program.ofNames ["x", "double"]).withInstructions
      refreshing.instrs.toList = .ok refreshing := by
    decide +kernel
  exact (Program.Grown.ofNames _).withInstructions (by decide) hbuild

theorem exists_use_refreshing
    {g : FlowGraph} (hg : FlowGraph.ofProgram refreshing = .ok g) :
    ∃ b ∈ g.blocks, ∃ c, Chains.ofBlock refreshing b = .ok c ∧
      ⟨⟨2⟩, ⟨0⟩, ⟨1⟩⟩ ∈ c.uses := by
  have hlinked : ((FlowGraph.ofProgram refreshing).toOption.map fun g =>
      g.blocks.any fun b => (Chains.ofBlock refreshing b).toOption.any fun c =>
        c.uses.contains ⟨⟨2⟩, ⟨0⟩, ⟨1⟩⟩) = some true := by
    decide +kernel
  rw [hg] at hlinked
  obtain ⟨b, hb, hlinked⟩ := List.any_eq_true.mp (Option.some.inj hlinked)
  cases hc : Chains.ofBlock refreshing b with
  | error e => simp [hc, Except.toOption] at hlinked
  | ok c =>
      rw [hc] at hlinked
      exact ⟨b, hb, c, hc, List.contains_iff_mem.mp hlinked⟩

/-- The read of `x` is linked to the definition at the start of its block.  All
three definitions of `x` reach the block or stand in it, and the read is reached by
that one alone. -/
theorem solve_reaches_iff_linked_refreshing :
    ∃ g s b c facts, FlowGraph.ofProgram refreshing = .ok g ∧
      refreshing.Grown ∧ solve refreshing .default refreshing g = .ok s ∧
      b ∈ g.blocks ∧ Chains.ofBlock refreshing b = .ok c ∧
      ⟨⟨2⟩, ⟨0⟩, ⟨1⟩⟩ ∈ c.uses ∧ s.at? ⟨2⟩ = some facts ∧
      sitesOf refreshing ⟨0⟩ = [⟨0⟩, ⟨1⟩, ⟨4⟩] ∧
      ⟨0⟩ ∉ facts.input ∧ ⟨1⟩ ∈ facts.input ∧ ⟨4⟩ ∉ facts.input := by
  obtain ⟨g, hg⟩ := FlowGraph.exists_ofProgram (p := refreshing) (by decide)
    (by decide) (by decide)
  obtain ⟨s, hs, hlinked⟩ := solve_reaches_iff_linked grown_refreshing hg
  obtain ⟨b, hb, c, hc, huse⟩ := exists_use_refreshing hg
  obtain ⟨facts, hfacts, hiff⟩ := hlinked b hb c hc _ huse
  refine ⟨g, s, b, c, facts, hg, grown_refreshing, hs, hb, hc, huse, hfacts,
    by decide, ?_, ?_, ?_⟩
  · intro hmem
    exact absurd ((hiff ⟨0⟩).mp ⟨by decide, hmem⟩) (by decide)
  · exact ((hiff ⟨1⟩).mpr rfl).2
  · intro hmem
    exact absurd ((hiff ⟨4⟩).mp ⟨by decide, hmem⟩) (by decide)

end ReachingDefinitions
end ThreeAddress
