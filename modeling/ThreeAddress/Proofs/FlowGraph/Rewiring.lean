import ThreeAddress.Proofs.FlowGraph.Construction

/-!
# Neighbours of given blocks

A flow graph can be built over blocks that come from elsewhere, for instance from
the graph of an earlier form of the program.  They are numbered anew, but keep
the neighbours that they name, and those that they have in the new graph are
entered beside them.  So the blocks name exactly their neighbours if and only if
every neighbour that they came with is one in the new graph, which is the case
for blocks that come without any.
-/

namespace ThreeAddress
namespace FlowGraph

variable {p : Program} {blocks : List Block} {g : FlowGraph}

/-- Every block names exactly the blocks to which edges lead from it, and exactly
those from which edges lead to it. -/
def NamesNeighbours (g : FlowGraph) : Prop :=
  ∀ (n : NodeId) (b : Block), g.blocks[n]? = some b →
    (∀ v, v ∈ b.successors ↔ g.graph.Adjacent n v) ∧
      ∀ v, v ∈ b.predecessors ↔ g.graph.Adjacent v n

/-- Every neighbour that a given block names is joined to it in the graph. -/
def Confirms (g : FlowGraph) (blocks : List Block) : Prop :=
  ∀ (n : NodeId) (b : Block), blocks[n]? = some b →
    (∀ v ∈ b.successors, g.graph.Adjacent n v) ∧
      ∀ v ∈ b.predecessors, g.graph.Adjacent v n

theorem length_blocks_of_ofBlocks (h : ofBlocks p blocks = .ok g) :
    g.blocks.length = blocks.length := by
  have hsame : g.blocks.map Block.instrs = blocks.map Block.instrs :=
    (spans_of_ofBlocks h).map_instrs
  simpa using congrArg List.length hsame

section Given

variable {n v : NodeId} {b c : Block} (h : ofBlocks p blocks = .ok g)
  (hb : blocks[n]? = some b) (hc : g.blocks[n]? = some c)

include h hb hc

theorem mem_successors_of_ofBlocks :
    v ∈ c.successors ↔ v ∈ b.successors ∨ g.graph.Adjacent n v := by
  rw [getElem?_blocks_of_ofBlocks h, hb] at hc
  obtain rfl := Option.some.inj hc
  rw [← (spans_of_ofBlocks h).wellFormed.mem_successors]
  simp

theorem mem_predecessors_of_ofBlocks :
    v ∈ c.predecessors ↔ v ∈ b.predecessors ∨ g.graph.Adjacent v n := by
  rw [getElem?_blocks_of_ofBlocks h, hb] at hc
  obtain rfl := Option.some.inj hc
  rw [← (spans_of_ofBlocks h).wellFormed.mem_predecessors]
  simp

end Given

theorem namesNeighbours_iff_confirms (h : ofBlocks p blocks = .ok g) :
    g.NamesNeighbours ↔ g.Confirms blocks := by
  have hlength := length_blocks_of_ofBlocks h
  constructor
  · intro hnames n b hb
    have hn : n < g.blocks.length := by
      rw [hlength]
      exact (List.getElem?_eq_some_iff.mp hb).1
    have hc := List.getElem?_eq_getElem hn
    obtain ⟨hsuccessors, hpredecessors⟩ := hnames n _ hc
    constructor
    · intro v hv
      exact (hsuccessors v).mp
        ((mem_successors_of_ofBlocks h hb hc).mpr (Or.inl hv))
    · intro v hv
      exact (hpredecessors v).mp
        ((mem_predecessors_of_ofBlocks h hb hc).mpr (Or.inl hv))
  · intro hconfirms n c hc
    have hn : n < blocks.length := by
      rw [← hlength]
      exact (List.getElem?_eq_some_iff.mp hc).1
    have hb := List.getElem?_eq_getElem hn
    obtain ⟨hsuccessors, hpredecessors⟩ := hconfirms n _ hb
    constructor
    · intro v
      rw [mem_successors_of_ofBlocks h hb hc, or_iff_right_of_imp]
      exact hsuccessors v
    · intro v
      rw [mem_predecessors_of_ofBlocks h hb hc, or_iff_right_of_imp]
      exact hpredecessors v

/-- The ways of control between the blocks of a graph are its edges, so the graph
that the same program gives over them has no others and no fewer. -/
theorem NamesNeighbours.confirms
    {g' : FlowGraph} (hnames : g.NamesNeighbours)
    (h : ofBlocks p blocks = .ok g) (h' : ofBlocks p g.blocks = .ok g') :
    g'.Confirms g.blocks := by
  have hspans := spans_of_ofBlocks h
  have hadjacent : ∀ u v, g'.graph.Adjacent u v ↔ g.graph.Adjacent u v := by
    intro u v
    rw [(spans_of_ofBlocks h').adjacent_iff, hspans.adjacent_iff,
      leads_congr hspans.map_instrs]
  intro n b hb
  obtain ⟨hsuccessors, hpredecessors⟩ := hnames n b hb
  constructor
  · intro v hv
    exact (hadjacent n v).mpr ((hsuccessors v).mp hv)
  · intro v hv
    exact (hadjacent v n).mpr ((hpredecessors v).mp hv)

/-- Over given blocks, a block of the graph takes its position as its number and
names, as its neighbours, those that it came with and those that it has.  So the
blocks name exactly their neighbours if and only if the graph has an edge for
every neighbour that they came with. -/
theorem ofBlocks_names_given_and_joined (h : ofBlocks p blocks = .ok g) :
    g.blocks.length = blocks.length ∧
      (∀ (n : NodeId) (b c : Block), blocks[n]? = some b →
        g.blocks[n]? = some c →
        c.id = n ∧ c.instrs = b.instrs ∧
          (∀ v, v ∈ c.successors ↔
            v ∈ b.successors ∨ g.graph.Adjacent n v) ∧
          ∀ v, v ∈ c.predecessors ↔
            v ∈ b.predecessors ∨ g.graph.Adjacent v n) ∧
      (g.NamesNeighbours ↔ g.Confirms blocks) := by
  refine ⟨length_blocks_of_ofBlocks h, ?_, namesNeighbours_iff_confirms h⟩
  intro n b c hb hc
  have hblock := hc
  rw [getElem?_blocks_of_ofBlocks h, hb] at hblock
  obtain rfl := Option.some.inj hblock
  exact ⟨rfl, rfl, fun v => mem_successors_of_ofBlocks h hb hc,
    fun v => mem_predecessors_of_ofBlocks h hb hc⟩

/-- A single block that control never leaves. -/
def turning : Program where
  instrs := #[⟨⟨0⟩, true, .nop⟩, ⟨⟨1⟩, false, .goto ⟨0⟩⟩]
  names := #[]

/-- The same block without its jump. -/
def standing : Program where
  instrs := #[⟨⟨0⟩, true, .nop⟩, ⟨⟨1⟩, false, .nop⟩]
  names := #[]

theorem grown_turning : turning.Grown := by
  have hbuild : Program.empty.withInstructions turning.instrs.toList =
      .ok turning := by
    decide +kernel
  exact Program.Grown.empty.withInstructions (by decide) hbuild

theorem grown_standing : standing.Grown := by
  have hbuild : Program.empty.withInstructions standing.instrs.toList =
      .ok standing := by
    decide +kernel
  exact Program.Grown.empty.withInstructions (by decide) hbuild

/-- Wired again, the block of `turning` names itself as its neighbour, and rightly
so. -/
theorem ofBlocks_names_given_and_joined_turning :
    turning.Grown ∧ ∃ g g', ofProgram turning = .ok g ∧
      ofBlocks turning g.blocks = .ok g' ∧ g'.NamesNeighbours := by
  have hrun : (do
      let g ← ofProgram turning
      let g' ← ofBlocks turning g.blocks
      return g'.blockCount) = Except.ok 1 := by
    decide +kernel
  obtain ⟨g, hg, hrest⟩ := bind_eq_ok_iff.mp hrun
  obtain ⟨g', hg', -⟩ := bind_eq_ok_iff.mp hrest
  have hnames : g.NamesNeighbours := fun n b hb =>
    ⟨fun v => mem_successors_of_ofProgram hg hb,
      fun v => mem_predecessors_of_ofProgram hg hb⟩
  obtain ⟨-, -, hiff⟩ := ofBlocks_names_given_and_joined hg'
  exact ⟨grown_turning, g, g', hg, hg',
    hiff.mpr (hnames.confirms (ofProgram_eq_ok_iff.mp hg) hg')⟩

/-- Without its jump the block leads nowhere, yet it still names itself as its
neighbour. -/
theorem not_namesNeighbours_standing :
    turning.Grown ∧ standing.Grown ∧ ∃ g g', ofProgram turning = .ok g ∧
      ofBlocks standing g.blocks = .ok g' ∧ g'.graph.edges = #[] ∧
      (∃ b, g'.blocks = [b] ∧ 0 ∈ b.successors ∧ 0 ∈ b.predecessors) ∧
      ¬ g'.NamesNeighbours := by
  have hrun : (do
      let g ← ofProgram turning
      let g' ← ofBlocks standing g.blocks
      return (g'.graph.edges, g'.blocks.map fun b =>
        (b.successors.toList, b.predecessors.toList))) =
      Except.ok (#[], [([0], [0])]) := by
    decide +kernel
  obtain ⟨g, hg, hrest⟩ := bind_eq_ok_iff.mp hrun
  obtain ⟨g', hg', hresult⟩ := bind_eq_ok_iff.mp hrest
  obtain ⟨hedges, hblocks⟩ := Prod.mk.inj (Except.ok.inj hresult)
  obtain ⟨b, hb, hnamed⟩ := List.map_eq_singleton_iff.mp hblocks
  obtain ⟨hsuccessors, hpredecessors⟩ := Prod.mk.inj hnamed
  have hsuccessor : 0 ∈ b.successors := by
    rw [← Std.ExtTreeSet.mem_toList, hsuccessors]
    exact List.mem_singleton_self 0
  have hpredecessor : 0 ∈ b.predecessors := by
    rw [← Std.ExtTreeSet.mem_toList, hpredecessors]
    exact List.mem_singleton_self 0
  refine ⟨grown_turning, grown_standing, g, g', hg, hg', hedges,
    ⟨b, hb, hsuccessor, hpredecessor⟩, ?_⟩
  intro hnames
  obtain ⟨e, he, -⟩ := ((hnames 0 b (by rw [hb]; rfl)).1 0).mp hsuccessor
  rw [hedges] at he
  exact Array.not_mem_empty e he

end FlowGraph
end ThreeAddress
