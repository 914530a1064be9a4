import ThreeAddress.Proofs.FlowGraph.Existence

/-!
# What the flow graph of a program holds

The flow graph of a program holds the blocks of its partition, and an edge
exactly where control may pass from the last instruction of a block.  Edges are
added for one block after the other.  An edge is added only if its ends are not
yet joined, and the ways by a jump come first, so each edge has the kind of the
first way along it.
-/

namespace ThreeAddress

namespace Digraph

variable {ν ε : Type} {g h : Digraph ν ε}

/-- No two edges have the same ends. -/
def Simple (g : Digraph ν ε) : Prop :=
  ∀ i j e e', g.edge? i = some e → g.edge? j = some e' →
    e.source = e'.source → e.target = e'.target → i = j

/-- An edge between nodes that are not yet joined keeps the graph simple. -/
theorem Simple.addEdge
    {source target : NodeId} {data : ε} (hg : g.Simple)
    (hnew : ¬ g.Adjacent source target)
    (hadd : g.addEdge source target data = .ok h) :
    h.Simple := by
  obtain ⟨-, -, rfl⟩ := addEdge_eq_ok_iff.mp hadd
  have hcases : ∀ {i : EdgeId} {e : Edge ε},
      (g.edges.push ⟨source, target, data⟩)[i]? = some e →
      (i = g.edges.size ∧ e = ⟨source, target, data⟩) ∨
        (g.edge? i = some e ∧ g.Adjacent e.source e.target) := by
    intro i e he
    rw [Array.getElem?_push] at he
    split at he
    · next hi => exact Or.inl ⟨hi, (Option.some.inj he).symm⟩
    · exact Or.inr ⟨he, e, Array.mem_of_getElem? he, rfl, rfl⟩
  intro i j e e' hi hj hsource htarget
  rcases hcases hi with ⟨rfl, rfl⟩ | ⟨hi, hadj⟩
  · rcases hcases hj with ⟨rfl, -⟩ | ⟨-, hadj⟩
    · rfl
    · rw [← hsource, ← htarget] at hadj
      exact absurd hadj hnew
  · rcases hcases hj with ⟨-, rfl⟩ | ⟨hj, -⟩
    · rw [hsource, htarget] at hadj
      exact absurd hadj hnew
    · exact hg i j e e' hi hj hsource htarget

theorem WellFormed.outDegree_eq_zero_iff
    (hg : g.WellFormed) {u : NodeId} :
    g.outDegree u = 0 ↔ ∀ v, ¬ g.Adjacent u v := by
  rw [outDegree, List.length_eq_zero_iff, hg.outEdges_eq,
    List.eq_nil_iff_forall_not_mem]
  simp only [mem_edgesWhere, beq_iff_eq]
  constructor
  · rintro hnone v ⟨e, he, hsource, -⟩
    obtain ⟨i, hi⟩ := Array.mem_iff_getElem?.mp he
    exact hnone i ⟨e, hi, hsource⟩
  · rintro hnone i ⟨e, hi, hsource⟩
    exact hnone e.target ⟨e, Array.mem_of_getElem? hi, hsource, rfl⟩

end Digraph

namespace FlowGraph

open Block

/-! ## Adding edges -/

theorem not_adjacent_of_findEdge?
    {g : Digraph Block EdgeKind} (hg : g.WellFormed) {u v : NodeId}
    (h : g.findEdge? u v = none) :
    ¬ g.Adjacent u v := by
  rintro ⟨e, he, hsource, htarget⟩
  obtain ⟨i, hi⟩ := Array.mem_iff_getElem?.mp he
  have hout : i ∈ g.outEdges u := by
    rw [hg.outEdges_eq, Digraph.mem_edgesWhere]
    exact ⟨e, hi, beq_iff_eq.mpr hsource⟩
  refine List.find?_eq_none.mp h i hout ?_
  rw [Digraph.edge?, hi, Option.any_some, beq_iff_eq]
  exact htarget

/-- An edge is added exactly if its ends are not yet joined. -/
theorem connect_cases
    {g h : Digraph Block EdgeKind} (hg : g.WellFormed) {source : NodeId}
    {arc : NodeId × EdgeKind} (hconnect : connect source g arc = .ok h) :
    (g.Adjacent source arc.1 ∧ h = g) ∨
      (¬ g.Adjacent source arc.1 ∧ g.addEdge source arc.1 arc.2 = .ok h) := by
  rw [connect] at hconnect
  split at hconnect
  · next hfind =>
      exact Or.inl
        ⟨adjacent_of_findEdge? hg hfind, (Except.ok.inj hconnect).symm⟩
  · next hfind => exact Or.inr ⟨not_adjacent_of_findEdge? hg hfind, hconnect⟩

/-- The graph over the given blocks has at most one edge from a block to another,
of the kind of the first way that leads there. -/
structure Drawn
    (p : Program) (blocks : List Block) (g : Digraph Block EdgeKind) :
    Prop where
  wellFormed : g.WellFormed
  nodes_eq : g.nodes.toList = blocks
  simple : g.Simple
  lookup_eq : ∀ e ∈ g.edges, ∃ b found, blocks[e.source]? = some b ∧
    arcs p blocks e.source b = .ok found ∧
    found.lookup e.target = some e.data

section Drawing

variable {p : Program} {blocks : List Block} {g h : Digraph Block EdgeKind}

theorem drawn_isolated (p : Program) (blocks : List Block) :
    Drawn p blocks (blocks.foldl Digraph.addNode .empty) := by
  obtain ⟨hwf, hnodes, hedges⟩ :=
    foldl_addNode blocks (Digraph.wellFormed_empty (ε := EdgeKind))
  have hnone : ∀ i,
      (blocks.foldl Digraph.addNode (.empty : Digraph Block EdgeKind)).edge? i =
        none := by
    intro i
    rw [Digraph.edge?, hedges]
    rfl
  refine ⟨hwf, hnodes, ?_, ?_⟩
  · intro i j e e' hi
    rw [hnone] at hi
    contradiction
  · intro e he
    rw [hedges] at he
    exact absurd he (Array.not_mem_empty e)

/-- A way is added if its ends are joined already or no way before it leads to
the same block. -/
theorem Drawn.connect
    {source : NodeId} {b : Block} {found : List (NodeId × EdgeKind)}
    {arc : NodeId × EdgeKind} (hdrawn : Drawn p blocks g)
    (hb : blocks[source]? = some b) (harcs : arcs p blocks source b = .ok found)
    (harc : ¬ g.Adjacent source arc.1 → found.lookup arc.1 = some arc.2)
    (hconnect : connect source g arc = .ok h) :
    Drawn p blocks h := by
  rcases connect_cases hdrawn.wellFormed hconnect with ⟨-, rfl⟩ | ⟨hnew, hadd⟩
  · exact hdrawn
  · refine ⟨hdrawn.wellFormed.addEdge hadd, ?_, hdrawn.simple.addEdge hnew hadd,
      ?_⟩
    · obtain ⟨-, -, rfl⟩ := Digraph.addEdge_eq_ok_iff.mp hadd
      exact hdrawn.nodes_eq
    · obtain ⟨-, -, rfl⟩ := Digraph.addEdge_eq_ok_iff.mp hadd
      intro e he
      rcases Array.mem_push.mp he with hold | rfl
      · exact hdrawn.lookup_eq e hold
      · exact ⟨b, found, hb, harcs, harc hnew⟩

/-- The ways that leave a block are added one after the other; each target among
the first ones has been joined. -/
theorem Drawn.foldlM_connect
    {source : NodeId} {b : Block} (hb : blocks[source]? = some b)
    {first rest : List (NodeId × EdgeKind)}
    (harcs : arcs p blocks source b = .ok (first ++ rest))
    (hdrawn : Drawn p blocks g)
    (hfirst : ∀ arc ∈ first, g.Adjacent source arc.1)
    (hfold : rest.foldlM (FlowGraph.connect source) g = .ok h) :
    Drawn p blocks h := by
  induction rest generalizing first g with
  | nil =>
      obtain rfl := Except.ok.inj hfold
      exact hdrawn
  | cons arc rest ih =>
      rw [List.foldlM_cons, bind_eq_ok_iff] at hfold
      obtain ⟨next, hconnect, hrest⟩ := hfold
      have hlookup : ¬ g.Adjacent source arc.1 →
          (first ++ arc :: rest).lookup arc.1 = some arc.2 := by
        intro hnew
        refine List.lookup_eq_some_iff.mpr ⟨first, rest, rfl, ?_⟩
        intro other hother
        rw [bne_iff_ne]
        intro hsame
        exact hnew (hsame ▸ hfirst other hother)
      have hjoined : ∀ other ∈ first ++ [arc], next.Adjacent source other.1 := by
        intro other hother
        rcases connect_cases hdrawn.wellFormed hconnect with
          ⟨hadj, rfl⟩ | ⟨-, hadd⟩
        · rcases List.mem_append.mp hother with hold | hlast
          · exact hfirst other hold
          · rw [List.mem_singleton.mp hlast]
            exact hadj
        · rw [Digraph.adjacent_addEdge_iff hadd]
          rcases List.mem_append.mp hother with hold | hlast
          · exact Or.inl (hfirst other hold)
          · rw [List.mem_singleton.mp hlast]
            exact Or.inr ⟨rfl, rfl⟩
      have hnext := hdrawn.connect hb harcs hlookup hconnect
      rw [List.append_cons] at harcs
      exact ih harcs hnext hjoined hrest

theorem Drawn.foldlM_connectBlock
    {items : List (Block × NodeId)}
    (hitems : ∀ item ∈ items, blocks[item.2]? = some item.1)
    (hdrawn : Drawn p blocks g)
    (hfold : items.foldlM (connectBlock p blocks) g = .ok h) :
    Drawn p blocks h := by
  induction items generalizing g with
  | nil =>
      obtain rfl := Except.ok.inj hfold
      exact hdrawn
  | cons item rest ih =>
      rw [List.forall_mem_cons] at hitems
      rw [List.foldlM_cons, bind_eq_ok_iff] at hfold
      obtain ⟨next, hconnect, hrest⟩ := hfold
      obtain ⟨found, hfound, hways⟩ := bind_eq_ok_iff.mp hconnect
      have harcs : arcs p blocks item.2 item.1 = .ok ([] ++ found) := hfound
      have hnone : ∀ arc ∈ ([] : List (NodeId × EdgeKind)),
          g.Adjacent item.2 arc.1 := by
        simp
      exact ih hitems.2
        (hdrawn.foldlM_connect hitems.1 harcs hnone hways) hrest

end Drawing

/-! ## Blocks -/

section Blocks

variable {p : Program} {blocks : List Block} {g : FlowGraph}

/-- A flow graph is the drawn graph with the neighbours entered into the
blocks. -/
theorem exists_drawn_of_ofBlocks (h : ofBlocks p blocks = .ok g) :
    ∃ joined, Drawn p (renumber blocks) joined ∧ g = ⟨relate joined⟩ := by
  rw [ofBlocks] at h
  split at h
  · contradiction
  · obtain ⟨_, -, h⟩ := bind_eq_ok_iff.mp h
    obtain ⟨joined, hfold, hg⟩ := bind_eq_ok_iff.mp h
    refine ⟨joined, ?_, (Except.ok.inj hg).symm⟩
    refine (drawn_isolated p _).foldlM_connectBlock ?_ hfold
    intro item hitem
    exact List.mem_zipIdx_iff_getElem?.mp hitem

/-- Every block keeps its instructions, takes its position as its number, and has
its neighbours in the graph entered beside those that it came with. -/
theorem getElem?_blocks_of_ofBlocks
    (h : ofBlocks p blocks = .ok g) (n : NodeId) :
    g.blocks[n]? = blocks[n]?.map fun b =>
      { b with
        id := n
        predecessors := b.predecessors.insertMany (g.graph.predecessors n)
        successors := b.successors.insertMany (g.graph.successors n) } := by
  obtain ⟨joined, hdrawn, rfl⟩ := exists_drawn_of_ofBlocks h
  have hnode : joined.nodes[n]? = blocks[n]?.map fun b => { b with id := n } := by
    rw [← getElem?_renumber, ← hdrawn.nodes_eq, Array.getElem?_toList]
  rw [FlowGraph.blocks, Array.getElem?_toList, relate, Array.getElem?_mapIdx,
    hnode, Option.map_map]
  rfl

theorem not_lt_of_mem_instrs
    (hnodup : (blocks.flatMap Block.instrs).Nodup) {id : InstrId}
    {m n : NodeId} {b c : Block} (hm : blocks[m]? = some b)
    (hn : blocks[n]? = some c) (hb : id ∈ b.instrs) (hc : id ∈ c.instrs) :
    ¬ m < n := by
  intro hlt
  obtain ⟨hltm, rfl⟩ := List.getElem?_eq_some_iff.mp hm
  obtain ⟨hltn, rfl⟩ := List.getElem?_eq_some_iff.mp hn
  have hapart := List.pairwise_iff_getElem.mp (List.nodup_flatMap.mp hnodup).2
  exact hapart m n hltm hltn hlt hb hc

/-- If no instruction stands in two places, it is found in the block in which it
stands. -/
theorem locate?_eq_some_iff
    (hnodup : (blocks.flatMap Block.instrs).Nodup) {id : InstrId} {n : NodeId} :
    locate? blocks id = some n ↔ ∃ b, blocks[n]? = some b ∧ id ∈ b.instrs := by
  refine ⟨locate?_eq_some, ?_⟩
  rintro ⟨b, hb, hid⟩
  obtain ⟨m, hm⟩ := exists_locate? (List.mem_of_getElem? hb) hid
  obtain ⟨c, hc, hid'⟩ := locate?_eq_some hm
  have hle := not_lt_of_mem_instrs hnodup hb hc hid hid'
  have hge := not_lt_of_mem_instrs hnodup hc hb hid' hid
  rw [hm, Nat.le_antisymm (Nat.not_lt.mp hle) (Nat.not_lt.mp hge)]

theorem flatMap_instrs_partition (p : Program) :
    (partition p).flatMap Block.instrs = p.ids := by
  rw [List.flatMap_def, map_instrs_partition, ← List.map_flatten, flatten_runs]
  rfl

end Blocks

/-! ## Kinds -/

/-- Why control passes from a block that ends with instruction `last` into
block `c`. -/
def kindInto (last : Instruction) (c : Block) : EdgeKind :=
  match last.statement with
  | .goto _ => .jump
  | .branch _ target => if target ∈ c.instrs then .taken else .fallthrough
  | _ => .fallthrough

section Kinds

variable {p : Program} {blocks : List Block}

theorem lookup_next
    {u v : NodeId} {kind : EdgeKind}
    (h : (next blocks u).lookup v = some kind) :
    kind = .fallthrough := by
  rw [next] at h
  split at h
  · rw [List.lookup_cons] at h
    split at h
    · exact (Option.some.inj h).symm
    · contradiction
  · contradiction

/-- The first way that leads from a block to another has the kind that the last
instruction gives it. -/
theorem kind_of_lookup_arcsAfter
    {u v : NodeId} {last : Instruction} (hget : p.get? last.id = some last)
    {c : Block} (hc : ∀ id, locate? blocks id = some v ↔ id ∈ c.instrs)
    {found : List (NodeId × EdgeKind)}
    (hfound : arcsAfter p blocks u last.id = .ok found) {kind : EdgeKind}
    (hkind : found.lookup v = some kind) :
    kind = kindInto last c := by
  simp only [arcsAfter, hget] at hfound
  rw [kindInto]
  cases hstatement : last.statement with
  | goto target =>
      rw [hstatement] at hfound
      obtain ⟨n, -, hfound⟩ := bind_eq_ok_iff.mp hfound
      obtain rfl := Except.ok.inj hfound
      rw [List.lookup_cons] at hkind
      split at hkind
      · exact (Option.some.inj hkind).symm
      · contradiction
  | branch condition target =>
      rw [hstatement] at hfound
      obtain ⟨n, hn, hfound⟩ := bind_eq_ok_iff.mp hfound
      obtain rfl := Except.ok.inj hfound
      rw [destination_eq_ok_iff] at hn
      rw [List.lookup_cons] at hkind
      split at hkind
      · next hsame =>
          obtain rfl := beq_iff_eq.mp hsame
          simp only [if_pos ((hc target).mp hn)]
          exact (Option.some.inj hkind).symm
      · next hother =>
          have hout : ¬ target ∈ c.instrs := by
            rw [← hc, hn]
            intro hsame
            obtain rfl := Option.some.inj hsame
            simp at hother
          simp only [if_neg hout]
          exact lookup_next hkind
  | _ =>
      rw [hstatement] at hfound
      obtain rfl := Except.ok.inj hfound
      exact lookup_next hkind

theorem kind_of_lookup_arcs
    {u v : NodeId} {b c : Block}
    (hc : ∀ id, locate? blocks id = some v ↔ id ∈ c.instrs)
    {found : List (NodeId × EdgeKind)} (hfound : arcs p blocks u b = .ok found)
    {kind : EdgeKind} (hkind : found.lookup v = some kind) :
    ∃ last, Ends p b last ∧ kind = kindInto last c := by
  rw [arcs] at hfound
  split at hfound
  · next last hlast =>
      cases hget : p.get? last with
      | none => simp [arcsAfter, hget] at hfound
      | some instr =>
          obtain ⟨-, rfl⟩ := Program.get?_eq_some hget
          exact ⟨instr, ⟨hlast, hget⟩,
            kind_of_lookup_arcsAfter hget hc hfound hkind⟩
  · obtain rfl := Except.ok.inj hfound
    contradiction

end Kinds

/-! ## The whole graph -/

theorem Ends.of_instrs
    {p : Program} {b c : Block} {last : Instruction} (h : Ends p b last)
    (hsame : c.instrs = b.instrs) :
    Ends p c last := by
  refine ⟨?_, h.2⟩
  rw [terminator?, hsame]
  exact h.1

theorem Ends.unique
    {p : Program} {b : Block} {i j : Instruction} (hi : Ends p b i)
    (hj : Ends p b j) :
    i = j := by
  have hid : i.id = j.id := Option.some.inj (hi.1.symm.trans hj.1)
  have hget := hi.2
  rw [hid, hj.2] at hget
  exact (Option.some.inj hget).symm

theorem leads_iff_of_ends
    {p : Program} {blocks : List Block} {u v : NodeId} {b : Block}
    {last : Instruction} (hb : blocks[u]? = some b) (hlast : Ends p b last) :
    Leads p blocks u v ↔
      (∃ target, last.jumpTarget? = some target ∧
          locate? blocks target = some v) ∨
        (last.statement.fallsThrough = true ∧ v = u + 1 ∧
          u + 1 < blocks.length) := by
  constructor
  · rintro ⟨b', id, instr, hb', hid, hget, hways⟩
    obtain rfl := Option.some.inj (hb.symm.trans hb')
    obtain ⟨-, rfl⟩ := Program.get?_eq_some hget
    obtain rfl := hlast.unique ⟨hid, hget⟩
    exact hways
  · exact fun hways => ⟨b, last.id, last, hb, hlast.1, hlast.2, hways⟩

/-- Control can go on from every block but the last, and from the last one if it
ends with a jump. -/
theorem exists_leads_iff
    {p : Program} {blocks : List Block} {u : NodeId} {b : Block}
    {last : Instruction} (hb : blocks[u]? = some b) (hlast : Ends p b last)
    (hresolved : Resolved p blocks b) :
    (∃ v, Leads p blocks u v) ↔
      last.isJump = true ∨ u + 1 < blocks.length := by
  simp only [leads_iff_of_ends hb hlast]
  constructor
  · rintro ⟨v, ⟨target, htarget, -⟩ | ⟨-, -, hlt⟩⟩
    · exact Or.inl (Instruction.isJump_of_jumpTarget? htarget)
    · exact Or.inr hlt
  · intro hon
    cases hjump : last.isJump with
    | true =>
        obtain ⟨target, htarget⟩ := Instruction.exists_jumpTarget?_of_isJump hjump
        obtain ⟨id, instr, hid, hget, hlocate⟩ := hresolved
        obtain ⟨-, rfl⟩ := Program.get?_eq_some hget
        obtain rfl := hlast.unique ⟨hid, hget⟩
        obtain ⟨v, hv⟩ := hlocate target htarget
        exact ⟨v, Or.inl ⟨target, htarget, hv⟩⟩
    | false =>
        have hlt : u + 1 < blocks.length := by simpa [hjump] using hon
        exact ⟨u + 1,
          Or.inr ⟨Instruction.fallsThrough_of_not_isJump hjump, rfl, hlt⟩⟩

/-- The graph has the blocks of the program and the ways of control between
them, and its tables agree with its edges. -/
structure Depicts (g : FlowGraph) (p : Program) : Prop where
  map_blocks : g.blocks.map (fun b => (b.id, b.instrs)) =
    (partition p).map fun b => (b.id, b.instrs)
  blockCount_pos : 0 < g.blockCount
  ends : ∀ b ∈ g.blocks, ∃ last, Ends p b last
  ends_lt : ∀ e ∈ g.graph.edges,
    e.source < g.blockCount ∧ e.target < g.blockCount
  /-- An edge leads into a block to which the last instruction jumps, and into the
  next block unless control always goes elsewhere. -/
  adjacent_iff : ∀ {u v b c last}, g.blocks[u]? = some b →
    g.blocks[v]? = some c → Ends p b last →
    (g.graph.Adjacent u v ↔
      (∃ target, last.jumpTarget? = some target ∧ target ∈ c.instrs) ∨
        (last.statement.fallsThrough = true ∧ v = u + 1))
  simple : g.graph.Simple
  kind_eq : ∀ {e b c last}, e ∈ g.graph.edges →
    g.blocks[e.source]? = some b → g.blocks[e.target]? = some c →
    Ends p b last → e.data = kindInto last c
  mem_successors : ∀ {u v b}, g.blocks[u]? = some b →
    (v ∈ b.successors ↔ g.graph.Adjacent u v)
  mem_predecessors : ∀ {u v b}, g.blocks[u]? = some b →
    (v ∈ b.predecessors ↔ g.graph.Adjacent v u)
  blockOf?_eq_some_iff : ∀ {id u}, g.blockOf? id = some u ↔
    ∃ b, g.blocks[u]? = some b ∧ id ∈ b.instrs
  blockOf?_eq_none_iff : ∀ {id}, g.blockOf? id = none ↔ id ∉ p.ids
  /-- Control leaves the program at most at the end of the last block. -/
  exits_eq : ∀ {u b last}, u + 1 = g.blockCount → g.blocks[u]? = some b →
    Ends p b last → g.exits = if last.isJump then [] else [u]

section Program

variable {p : Program} {g : FlowGraph}

theorem flatMap_instrs_of_ofProgram (hg : ofProgram p = .ok g) :
    g.blocks.flatMap Block.instrs = p.ids := by
  rw [List.flatMap_def, (spans_of_ofProgram hg).map_instrs, ← List.flatMap_def,
    flatMap_instrs_partition]

/-- An instruction is found in the block of the graph in which it stands. -/
theorem blockOf?_eq_some_iff_mem_instrs
    (hp : p.ids.Nodup) (hg : ofProgram p = .ok g) {id : InstrId} {u : NodeId} :
    g.blockOf? id = some u ↔ ∃ b, g.blocks[u]? = some b ∧ id ∈ b.instrs := by
  refine locate?_eq_some_iff ?_
  rw [flatMap_instrs_of_ofProgram hg]
  exact hp

theorem blockOf?_eq_none_iff_not_mem_ids
    (hg : ofProgram p = .ok g) {id : InstrId} :
    g.blockOf? id = none ↔ id ∉ p.ids := by
  rw [blockOf?, locate?_congr (spans_of_ofProgram hg).map_instrs,
    ← exists_locate?_partition_iff, ← Option.ne_none_iff_exists', not_not]

theorem locate?_blocks_iff
    (hp : p.ids.Nodup) (hg : ofProgram p = .ok g) {v : NodeId} {c : Block}
    (hc : g.blocks[v]? = some c) (id : InstrId) :
    locate? g.blocks id = some v ↔ id ∈ c.instrs := by
  change g.blockOf? id = some v ↔ id ∈ c.instrs
  rw [blockOf?_eq_some_iff_mem_instrs hp hg, hc]
  simp

/-- Every block is one of the partition, with its neighbours in the graph entered
into it. -/
theorem getElem?_blocks_of_ofProgram
    (hg : ofProgram p = .ok g) (u : NodeId) :
    g.blocks[u]? = (partition p)[u]?.map fun b =>
      { b with
        predecessors := (∅ : NodeSet).insertMany (g.graph.predecessors u)
        successors := (∅ : NodeSet).insertMany (g.graph.successors u) } := by
  rw [getElem?_blocks_of_ofBlocks (ofProgram_eq_ok_iff.mp hg),
    getElem?_partition, Option.map_map, Option.map_map]
  rfl

theorem exists_partition_of_blocks
    (hg : ofProgram p = .ok g) {u : NodeId} {b : Block}
    (hb : g.blocks[u]? = some b) :
    ∃ cut, (partition p)[u]? = some cut ∧ cut.instrs = b.instrs := by
  rw [getElem?_blocks_of_ofProgram hg, Option.map_eq_some_iff] at hb
  obtain ⟨cut, hcut, rfl⟩ := hb
  exact ⟨cut, hcut, rfl⟩

theorem map_blocks_of_ofProgram (hg : ofProgram p = .ok g) :
    g.blocks.map (fun b => (b.id, b.instrs)) =
      (partition p).map fun b => (b.id, b.instrs) := by
  apply List.ext_getElem?
  intro u
  rw [List.getElem?_map, List.getElem?_map, getElem?_blocks_of_ofProgram hg,
    Option.map_map]
  rfl

theorem exists_ends_of_ofProgram
    (hp : p.ids.Nodup) (hg : ofProgram p = .ok g) {b : Block}
    (hb : b ∈ g.blocks) :
    ∃ last, Ends p b last := by
  obtain ⟨u, hu⟩ := List.mem_iff_getElem?.mp hb
  obtain ⟨cut, hcut, hsame⟩ := exists_partition_of_blocks hg hu
  obtain ⟨last, -, hlast⟩ :=
    exists_ends_of_mem_partition hp (List.mem_of_getElem? hcut)
  exact ⟨last, hlast.of_instrs hsame.symm⟩

/-- Two blocks are joined exactly if the last instruction of the first jumps into
the second, or lets control go on and the second is next. -/
theorem adjacent_iff_of_ofProgram
    (hp : p.ids.Nodup) (hg : ofProgram p = .ok g) {u v : NodeId} {b c : Block}
    {last : Instruction} (hb : g.blocks[u]? = some b)
    (hc : g.blocks[v]? = some c) (hlast : Ends p b last) :
    g.graph.Adjacent u v ↔
      (∃ target, last.jumpTarget? = some target ∧ target ∈ c.instrs) ∨
        (last.statement.fallsThrough = true ∧ v = u + 1) := by
  have hspans := spans_of_ofProgram hg
  rw [hspans.adjacent_iff, ← leads_congr hspans.map_instrs,
    leads_iff_of_ends hb hlast]
  simp only [locate?_blocks_iff hp hg hc]
  refine or_congr_right (and_congr_right fun _ => and_iff_left_of_imp ?_)
  rintro rfl
  exact (List.getElem?_eq_some_iff.mp hc).1

theorem simple_of_ofProgram (hg : ofProgram p = .ok g) : g.graph.Simple := by
  obtain ⟨joined, hdrawn, rfl⟩ :=
    exists_drawn_of_ofBlocks (ofProgram_eq_ok_iff.mp hg)
  exact hdrawn.simple

theorem kind_eq_of_ofProgram
    (hp : p.ids.Nodup) (hg : ofProgram p = .ok g) {e : Edge EdgeKind}
    {b c : Block} {last : Instruction} (he : e ∈ g.graph.edges)
    (hb : g.blocks[e.source]? = some b) (hc : g.blocks[e.target]? = some c)
    (hlast : Ends p b last) :
    e.data = kindInto last c := by
  have hinstrs := (spans_of_ofProgram hg).map_instrs.trans
    (map_instrs_renumber (partition p)).symm
  have hin : ∀ id, locate? (renumber (partition p)) id = some e.target ↔
      id ∈ c.instrs := by
    intro id
    rw [← locate?_congr hinstrs, locate?_blocks_iff hp hg hc]
  obtain ⟨cut, hcut, hsame⟩ := exists_partition_of_blocks hg hb
  obtain ⟨joined, hdrawn, rfl⟩ :=
    exists_drawn_of_ofBlocks (ofProgram_eq_ok_iff.mp hg)
  obtain ⟨b', found, hb', hfound, hlookup⟩ := hdrawn.lookup_eq e he
  rw [getElem?_renumber, hcut] at hb'
  obtain rfl := Option.some.inj hb'
  obtain ⟨last', hlast', hkind⟩ := kind_of_lookup_arcs hin hfound hlookup
  rw [hkind, hlast.unique (hlast'.of_instrs hsame.symm)]

theorem mem_successors_of_ofProgram
    (hg : ofProgram p = .ok g) {u v : NodeId} {b : Block}
    (hb : g.blocks[u]? = some b) :
    v ∈ b.successors ↔ g.graph.Adjacent u v := by
  rw [getElem?_blocks_of_ofProgram hg, Option.map_eq_some_iff] at hb
  obtain ⟨cut, -, rfl⟩ := hb
  rw [← (spans_of_ofProgram hg).wellFormed.mem_successors]
  simp

theorem mem_predecessors_of_ofProgram
    (hg : ofProgram p = .ok g) {u v : NodeId} {b : Block}
    (hb : g.blocks[u]? = some b) :
    v ∈ b.predecessors ↔ g.graph.Adjacent v u := by
  rw [getElem?_blocks_of_ofProgram hg, Option.map_eq_some_iff] at hb
  obtain ⟨cut, -, rfl⟩ := hb
  rw [← (spans_of_ofProgram hg).wellFormed.mem_predecessors]
  simp

/-- Control leaves a block nowhere exactly if the block is the last one and does
not end with a jump. -/
theorem outDegree_eq_zero_iff_of_ofProgram
    (hg : ofProgram p = .ok g) {u : NodeId} {b : Block}
    {last : Instruction} (hb : g.blocks[u]? = some b) (hlast : Ends p b last) :
    g.graph.outDegree u = 0 ↔
      last.isJump = false ∧ g.blockCount ≤ u + 1 := by
  have hspans := spans_of_ofProgram hg
  obtain ⟨cut, hcut, hsame⟩ := exists_partition_of_blocks hg hb
  have hresolved := (joinable_of_ofBlocks (ofProgram_eq_ok_iff.mp hg)).resolved
    cut (List.mem_of_getElem? hcut)
  rw [hspans.wellFormed.outDegree_eq_zero_iff]
  simp only [hspans.adjacent_iff]
  rw [← not_exists, exists_leads_iff hcut (hlast.of_instrs hsame) hresolved,
    ← hspans.blockCount_eq, not_or, Bool.not_eq_true, Nat.not_lt]

theorem exits_eq_of_ofProgram
    (hp : p.ids.Nodup) (hg : ofProgram p = .ok g) {u : NodeId} {b : Block}
    {last : Instruction} (hcount : u + 1 = g.blockCount)
    (hb : g.blocks[u]? = some b) (hlast : Ends p b last) :
    g.exits = if last.isJump then [] else [u] := by
  have hbefore : ∀ n ∈ List.range u, ¬ (g.graph.outDegree n == 0) = true := by
    intro n hn hzero
    have hlt : n + 1 < g.blockCount := by
      rw [← hcount]
      exact Nat.succ_lt_succ (List.mem_range.mp hn)
    have hsize : n < g.blocks.length := Nat.lt_of_succ_lt hlt
    obtain ⟨last', hlast'⟩ := exists_ends_of_ofProgram hp hg
      (List.getElem_mem hsize)
    have hend := (outDegree_eq_zero_iff_of_ofProgram hg
      (List.getElem?_eq_getElem hsize) hlast').mp (beq_iff_eq.mp hzero)
    exact Nat.not_lt.mpr hend.2 hlt
  have hzero := outDegree_eq_zero_iff_of_ofProgram hg hb hlast
  rw [exits, ← hcount, List.range_succ, List.filter_append,
    List.filter_eq_nil_iff.mpr hbefore, List.nil_append]
  cases hjump : last.isJump with
  | true => simp [hzero, hjump]
  | false => simp [hzero, hjump, hcount]

/-- A program has a flow graph exactly if it has instructions and its jumps name
instructions of the program, and the flow graph depicts it. -/
theorem ofProgram_depicts (hp : p.Grown) :
    ((∃ g, ofProgram p = .ok g) ↔
        p.instrs.toList ≠ [] ∧ p.JumpsResolve) ∧
      ∀ g, ofProgram p = .ok g → g.Depicts p := by
  have hids := hp.wellFormed.nodup_ids
  refine ⟨exists_ofProgram_iff hids, ?_⟩
  intro g hg
  exact {
    map_blocks := map_blocks_of_ofProgram hg
    blockCount_pos := entry_lt_of_ofProgram hg
    ends := fun b hb => exists_ends_of_ofProgram hids hg hb
    ends_lt := (spans_of_ofProgram hg).wellFormed.ends_lt
    adjacent_iff := adjacent_iff_of_ofProgram hids hg
    simple := simple_of_ofProgram hg
    kind_eq := kind_eq_of_ofProgram hids hg
    mem_successors := mem_successors_of_ofProgram hg
    mem_predecessors := mem_predecessors_of_ofProgram hg
    blockOf?_eq_some_iff := blockOf?_eq_some_iff_mem_instrs hids hg
    blockOf?_eq_none_iff := blockOf?_eq_none_iff_not_mem_ids hg
    exits_eq := exits_eq_of_ofProgram hids hg }

/-- Branches to the instruction that comes next in any case, counts down to zero
and shows the number. -/
def idleBranch : Program where
  instrs := #[
    ⟨⟨0⟩, false, .branch (.var ⟨0⟩) ⟨1⟩⟩,
    ⟨⟨1⟩, true, .assign ⟨0⟩ (some (.var ⟨0⟩)) .minus (.const 1)⟩,
    ⟨⟨2⟩, false, .branch (.var ⟨0⟩) ⟨1⟩⟩,
    ⟨⟨3⟩, false, .print (.var ⟨0⟩)⟩]
  names := #["n"]

theorem grown_idleBranch : idleBranch.Grown := by
  have hbuild : (Program.ofNames ["n"]).withInstructions
      idleBranch.instrs.toList = .ok idleBranch := by
    decide +kernel
  exact (Program.Grown.ofNames _).withInstructions (by decide) hbuild

/-- The idle branch and the fall-through share an edge, which is that of the
branch.  The second block leads to itself, and the third is the exit. -/
theorem ofProgram_depicts_idleBranch :
    idleBranch.Grown ∧ ∃ g, ofProgram idleBranch = .ok g ∧
      g.Depicts idleBranch ∧ g.graph.Adjacent 0 1 ∧
      (∀ e ∈ g.graph.edges, e.source = 0 → e.target = 1 → e.data = .taken) ∧
      g.graph.Adjacent 1 1 ∧ g.exits = [2] := by
  obtain ⟨hexists, hdepicts⟩ := ofProgram_depicts grown_idleBranch
  obtain ⟨g, hg⟩ := hexists.mpr ⟨by decide, by decide⟩
  have hg' := hdepicts g hg
  have hinstrs : g.blocks.map Block.instrs = [[⟨0⟩], [⟨1⟩, ⟨2⟩], [⟨3⟩]] :=
    (spans_of_ofProgram hg).map_instrs.trans (by decide)
  simp only [List.map_eq_cons_iff, List.map_eq_nil_iff] at hinstrs
  obtain ⟨b, _, hblocks, hb, c, _, rfl, hc, d, _, rfl, hd, rfl⟩ := hinstrs
  have hfirst : Ends idleBranch b ⟨⟨0⟩, false, .branch (.var ⟨0⟩) ⟨1⟩⟩ :=
    ⟨by rw [terminator?, hb]; rfl, by decide⟩
  have hsecond : Ends idleBranch c ⟨⟨2⟩, false, .branch (.var ⟨0⟩) ⟨1⟩⟩ :=
    ⟨by rw [terminator?, hc]; rfl, by decide⟩
  have hthird : Ends idleBranch d ⟨⟨3⟩, false, .print (.var ⟨0⟩)⟩ :=
    ⟨by rw [terminator?, hd]; rfl, by decide⟩
  have hget : g.blocks[0]? = some b ∧ g.blocks[1]? = some c ∧
      g.blocks[2]? = some d := by
    simp [hblocks]
  have hcount : 2 + 1 = g.blockCount := (congrArg List.length hblocks).symm
  refine ⟨grown_idleBranch, g, hg, hg', ?_, ?_, ?_, ?_⟩
  · exact (hg'.adjacent_iff hget.1 hget.2.1 hfirst).mpr (Or.inr ⟨rfl, rfl⟩)
  · intro e he hsource htarget
    have hkind := hg'.kind_eq he (hsource ▸ hget.1) (htarget ▸ hget.2.1) hfirst
    simpa [kindInto, hc] using hkind
  · refine (hg'.adjacent_iff hget.2.1 hget.2.1 hsecond).mpr (Or.inl ⟨⟨1⟩, rfl, ?_⟩)
    simp [hc]
  · exact hg'.exits_eq hcount hget.2.2 hthird

end Program

end FlowGraph
end ThreeAddress
