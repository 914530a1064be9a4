import ThreeAddress.FlowGraph.Basic
import ThreeAddress.Proofs.Digraph.Paths

/-!
# The edges of a flow graph

A flow graph over given blocks exists exactly if there are blocks, none is
empty, the last instruction of each is in the program, and every jump that ends
a block names an instruction of some block.  Then it has an edge from one block
to another exactly if the last instruction of the first jumps into the second,
or the second comes next and the last instruction of the first is no
unconditional jump.
-/

namespace ThreeAddress

/-- Whether control may go on to the next instruction. -/
def Statement.fallsThrough : Statement → Bool
  | goto _ => false
  | _ => true

namespace FlowGraph

/-! ## The block of an instruction -/

theorem locate?_eq_some
    {blocks : List Block} {id : InstrId} {n : NodeId}
    (h : locate? blocks id = some n) :
    ∃ b, blocks[n]? = some b ∧ id ∈ b.instrs := by
  rw [locate?, Option.map_eq_some_iff] at h
  obtain ⟨⟨b, m⟩, hfind, rfl⟩ := h
  have hmem := List.mem_reverse.mp (List.mem_of_find?_eq_some hfind)
  have hcontains := List.find?_some hfind
  refine ⟨b, List.mem_zipIdx_iff_getElem?.mp hmem, ?_⟩
  simpa [Block.contains] using hcontains

theorem exists_locate?
    {blocks : List Block} {id : InstrId} {b : Block} (hb : b ∈ blocks)
    (hid : id ∈ b.instrs) :
    ∃ n, locate? blocks id = some n := by
  obtain ⟨n, hn⟩ := List.mem_iff_getElem?.mp hb
  have hmem : (b, n) ∈ blocks.zipIdx.reverse :=
    List.mem_reverse.mpr (List.mem_zipIdx_iff_getElem?.mpr hn)
  apply Option.isSome_iff_exists.mp
  rw [locate?, Option.isSome_map, List.find?_isSome]
  exact ⟨(b, n), hmem, by simpa [Block.contains] using hid⟩

theorem locate?_eq_find?
    (blocks : List Block) (id : InstrId) :
    locate? blocks id =
      ((blocks.map Block.instrs).zipIdx.reverse.find?
        fun (instrs, _) => instrs.contains id).map Prod.snd := by
  rw [List.zipIdx_map, ← List.map_reverse, List.find?_map, Option.map_map]
  rfl

/-- Only the instructions of the blocks count. -/
theorem locate?_congr
    {blocks blocks' : List Block}
    (h : blocks.map Block.instrs = blocks'.map Block.instrs) (id : InstrId) :
    locate? blocks id = locate? blocks' id := by
  rw [locate?_eq_find?, locate?_eq_find?, h]

theorem map_instrs_renumber (blocks : List Block) :
    (renumber blocks).map Block.instrs = blocks.map Block.instrs := by
  apply List.ext_getElem?
  intro n
  simp [renumber, Function.comp_def]

/-! ## Where control may pass -/

/-- Control may pass from the last instruction of block `u` to block `v`. -/
def Leads (p : Program) (blocks : List Block) (u v : NodeId) : Prop :=
  ∃ b last instr, blocks[u]? = some b ∧ b.terminator? = some last ∧
    p.get? last = some instr ∧
    ((∃ target, instr.jumpTarget? = some target ∧
        locate? blocks target = some v) ∨
      (instr.statement.fallsThrough = true ∧ v = u + 1 ∧
        u + 1 < blocks.length))

/-- A block ends with an instruction of the program. -/
def Ends (p : Program) (b : Block) (instr : Instruction) : Prop :=
  b.terminator? = some instr.id ∧ p.get? instr.id = some instr

theorem Ends.instrs_ne_nil
    {p : Program} {b : Block} {instr : Instruction} (h : Ends p b instr) :
    b.instrs ≠ [] := by
  intro hnil
  simp [Ends, Block.terminator?, hnil] at h

/-- The last instruction of a block is in the program, and a jump there leads
to a block. -/
def Resolved (p : Program) (blocks : List Block) (b : Block) : Prop :=
  ∃ last instr, b.terminator? = some last ∧ p.get? last = some instr ∧
    ∀ target, instr.jumpTarget? = some target →
      ∃ n, locate? blocks target = some n

theorem mem_next
    {blocks : List Block} {u v : NodeId} :
    v ∈ (next blocks u).map Prod.fst ↔ v = u + 1 ∧ u + 1 < blocks.length := by
  rw [next]
  split
  · next h => simp [h]
  · next h => simp [h]

theorem destination_eq_ok_iff
    {blocks : List Block} {jump target : InstrId} {n : NodeId} :
    destination blocks jump target = .ok n ↔
      locate? blocks target = some n := by
  rw [destination]
  split
  · next h => simp [h]
  · next h => simp [h]

theorem exists_arcsAfter_iff
    {p : Program} {blocks : List Block} {u : NodeId} {last : InstrId}
    {instr : Instruction} (hget : p.get? last = some instr) :
    (∃ found, arcsAfter p blocks u last = .ok found) ↔
      ∀ target, instr.jumpTarget? = some target →
        ∃ n, locate? blocks target = some n := by
  simp only [arcsAfter, hget, Instruction.jumpTarget?]
  cases instr.statement with
  | goto target =>
      simp [bind_eq_ok_iff, destination_eq_ok_iff, Statement.jumpTarget?,
        pure, Except.pure]
  | branch condition target =>
      simp [bind_eq_ok_iff, destination_eq_ok_iff, Statement.jumpTarget?,
        pure, Except.pure]
  | _ => simp [Statement.jumpTarget?]

theorem mem_arcsAfter
    {p : Program} {blocks : List Block} {u v : NodeId} {last : InstrId}
    {instr : Instruction} {found : List (NodeId × EdgeKind)}
    (hget : p.get? last = some instr)
    (h : arcsAfter p blocks u last = .ok found) :
    v ∈ found.map Prod.fst ↔
      (∃ target, instr.jumpTarget? = some target ∧
          locate? blocks target = some v) ∨
        (instr.statement.fallsThrough = true ∧ v = u + 1 ∧
          u + 1 < blocks.length) := by
  simp only [arcsAfter, hget] at h
  rw [Instruction.jumpTarget?]
  cases hstatement : instr.statement with
  | goto target =>
      rw [hstatement] at h
      simp only [bind_eq_ok_iff, destination_eq_ok_iff] at h
      obtain ⟨n, hn, hfound⟩ := h
      obtain rfl := Except.ok.inj hfound
      simp [Statement.jumpTarget?, Statement.fallsThrough, hn, eq_comm]
  | branch condition target =>
      rw [hstatement] at h
      simp only [bind_eq_ok_iff, destination_eq_ok_iff] at h
      obtain ⟨n, hn, hfound⟩ := h
      obtain rfl := Except.ok.inj hfound
      rw [List.map_cons, List.mem_cons, mem_next]
      simp [Statement.jumpTarget?, Statement.fallsThrough, hn, eq_comm]
  | _ =>
      rw [hstatement] at h
      obtain rfl := Except.ok.inj h
      rw [mem_next]
      simp [Statement.jumpTarget?, Statement.fallsThrough]

theorem exists_arcs_iff
    {p : Program} {blocks : List Block} {u : NodeId} {b : Block}
    (hne : b.instrs ≠ []) :
    (∃ found, arcs p blocks u b = .ok found) ↔ Resolved p blocks b := by
  obtain ⟨last, hlast⟩ : ∃ last, b.terminator? = some last :=
    ⟨_, List.getLast?_eq_some_getLast hne⟩
  simp only [arcs, hlast]
  cases hget : p.get? last with
  | none => simp [arcsAfter, Resolved, hlast, hget]
  | some instr =>
      rw [exists_arcsAfter_iff hget]
      simp [Resolved, hlast, hget]

theorem mem_arcs
    {p : Program} {blocks : List Block} {u v : NodeId} {b : Block}
    {found : List (NodeId × EdgeKind)} (hne : b.instrs ≠ [])
    (hb : blocks[u]? = some b) (h : arcs p blocks u b = .ok found) :
    v ∈ found.map Prod.fst ↔ Leads p blocks u v := by
  obtain ⟨last, instr, hlast, hget, -⟩ := (exists_arcs_iff hne).mp ⟨found, h⟩
  simp only [arcs, hlast] at h
  rw [mem_arcsAfter hget h]
  simp [Leads, hb, hlast, hget]

theorem lt_length_of_leads
    {p : Program} {blocks : List Block} {u v : NodeId}
    (h : Leads p blocks u v) :
    v < blocks.length := by
  obtain ⟨-, -, -, -, -, -, ⟨target, -, hlocate⟩ | ⟨-, rfl, hlt⟩⟩ := h
  · obtain ⟨b, hb, -⟩ := locate?_eq_some hlocate
    exact (List.getElem?_eq_some_iff.mp hb).1
  · exact hlt

/-! ## Adding edges -/

/-- Exactly the given pairs of nodes have been joined. -/
structure Joins
    (g h : Digraph Block EdgeKind) (pairs : NodeId → NodeId → Prop) :
    Prop where
  wellFormed : h.WellFormed
  nodes_eq : h.nodes = g.nodes
  adjacent_iff : ∀ u v, h.Adjacent u v ↔ g.Adjacent u v ∨ pairs u v

theorem adjacent_of_findEdge?
    {g : Digraph Block EdgeKind} (hg : g.WellFormed) {u v : NodeId}
    {e : EdgeId} (h : g.findEdge? u v = some e) :
    g.Adjacent u v := by
  have hout := List.mem_of_find?_eq_some h
  have hany := List.find?_some h
  rw [hg.outEdges_eq, Digraph.mem_edgesWhere] at hout
  obtain ⟨edge, hedge, hsource⟩ := hout
  rw [hedge, Option.any_some, beq_iff_eq] at hany
  exact ⟨edge, Array.mem_of_getElem? hedge, beq_iff_eq.mp hsource, hany⟩

theorem exists_connect
    {g : Digraph Block EdgeKind} (hg : g.WellFormed) {source : NodeId}
    {arc : NodeId × EdgeKind} (hsource : source < g.nodeCount)
    (htarget : arc.1 < g.nodeCount) :
    ∃ h, connect source g arc = .ok h ∧
      Joins g h (fun u v => u = source ∧ v = arc.1) := by
  cases hfind : g.findEdge? source arc.1 with
  | some e =>
      refine ⟨g, by simp [connect, hfind], hg, rfl, ?_⟩
      intro u v
      constructor
      · exact Or.inl
      · rintro (hadj | ⟨rfl, rfl⟩)
        · exact hadj
        · exact adjacent_of_findEdge? hg hfind
  | none =>
      have hadd : g.addEdge source arc.1 arc.2 = .ok _ :=
        Digraph.addEdge_eq_ok_iff.mpr ⟨hsource, htarget, rfl⟩
      refine ⟨_, by simpa [connect, hfind] using hadd, hg.addEdge hadd, rfl, ?_⟩
      intro u v
      exact Digraph.adjacent_addEdge_iff hadd

theorem exists_foldlM_connect
    {g : Digraph Block EdgeKind} (hg : g.WellFormed) {source : NodeId}
    {found : List (NodeId × EdgeKind)} (hsource : source < g.nodeCount)
    (htargets : ∀ v ∈ found.map Prod.fst, v < g.nodeCount) :
    ∃ h, found.foldlM (connect source) g = .ok h ∧
      Joins g h (fun u v => u = source ∧ v ∈ found.map Prod.fst) := by
  induction found generalizing g with
  | nil =>
      refine ⟨g, rfl, hg, rfl, ?_⟩
      simp
  | cons arc rest ih =>
      rw [List.map_cons, List.forall_mem_cons] at htargets
      obtain ⟨h, hconnect, hjoin⟩ := exists_connect hg hsource htargets.1
      have hcount : h.nodeCount = g.nodeCount :=
        congrArg Array.size hjoin.nodes_eq
      obtain ⟨i, hrest, hjoins⟩ := ih hjoin.wellFormed (hcount ▸ hsource)
        (hcount ▸ htargets.2)
      refine ⟨i, ?_, hjoins.wellFormed, hjoins.nodes_eq.trans hjoin.nodes_eq,
        ?_⟩
      · rw [List.foldlM_cons, hconnect]
        exact hrest
      · intro u v
        rw [hjoins.adjacent_iff, hjoin.adjacent_iff, List.map_cons,
          List.mem_cons, or_assoc, ← and_or_left]

theorem exists_connectBlock
    {p : Program} {blocks : List Block} {g : Digraph Block EdgeKind}
    (hg : g.WellFormed) (hcount : g.nodeCount = blocks.length) {b : Block}
    {source : NodeId} (hb : blocks[source]? = some b) (hne : b.instrs ≠ [])
    (hresolved : Resolved p blocks b) :
    ∃ h, connectBlock p blocks g (b, source) = .ok h ∧
      Joins g h (fun u v => u = source ∧ Leads p blocks u v) := by
  obtain ⟨found, hfound⟩ := (exists_arcs_iff hne).mpr hresolved
  have hmem : ∀ v, v ∈ found.map Prod.fst ↔ Leads p blocks source v :=
    fun v => mem_arcs hne hb hfound
  have hsource : source < g.nodeCount := by
    rw [hcount]
    exact (List.getElem?_eq_some_iff.mp hb).1
  have htargets : ∀ v ∈ found.map Prod.fst, v < g.nodeCount := by
    intro v hv
    rw [hcount]
    exact lt_length_of_leads ((hmem v).mp hv)
  obtain ⟨h, hfold, hjoins⟩ := exists_foldlM_connect hg hsource htargets
  refine ⟨h, bind_eq_ok_iff.mpr ⟨found, hfound, hfold⟩, hjoins.wellFormed,
    hjoins.nodes_eq, ?_⟩
  intro u v
  rw [hjoins.adjacent_iff]
  constructor
  · rintro (hadj | ⟨rfl, hv⟩)
    · exact Or.inl hadj
    · exact Or.inr ⟨rfl, (hmem v).mp hv⟩
  · rintro (hadj | ⟨rfl, hleads⟩)
    · exact Or.inl hadj
    · exact Or.inr ⟨rfl, (hmem v).mpr hleads⟩

/-- Joining the blocks of a list in turn adds the edges that leave them. -/
theorem exists_foldlM_connectBlock
    {p : Program} {blocks : List Block} {items : List (Block × NodeId)}
    (hitems : ∀ item ∈ items, blocks[item.2]? = some item.1 ∧
      item.1.instrs ≠ [] ∧ Resolved p blocks item.1)
    {g : Digraph Block EdgeKind} (hg : g.WellFormed)
    (hcount : g.nodeCount = blocks.length) :
    ∃ h, items.foldlM (connectBlock p blocks) g = .ok h ∧
      Joins g h (fun u v => u ∈ items.map Prod.snd ∧ Leads p blocks u v) := by
  induction items generalizing g with
  | nil =>
      refine ⟨g, rfl, hg, rfl, ?_⟩
      simp
  | cons item rest ih =>
      rw [List.forall_mem_cons] at hitems
      obtain ⟨⟨hb, hne, hresolved⟩, hrest⟩ := hitems
      obtain ⟨h, hconnect, hjoin⟩ :=
        exists_connectBlock hg hcount hb hne hresolved
      have hcount' : h.nodeCount = blocks.length := by
        rw [← hcount]
        exact congrArg Array.size hjoin.nodes_eq
      obtain ⟨i, hfold, hjoins⟩ := ih hrest hjoin.wellFormed hcount'
      refine ⟨i, ?_, hjoins.wellFormed, hjoins.nodes_eq.trans hjoin.nodes_eq,
        ?_⟩
      · rw [List.foldlM_cons, hconnect]
        exact hfold
      · intro u v
        rw [hjoins.adjacent_iff, hjoin.adjacent_iff, List.map_cons,
          List.mem_cons, or_assoc, ← or_and_right]

theorem resolved_of_foldlM
    {p : Program} {blocks : List Block} {items : List (Block × NodeId)}
    (hitems : ∀ item ∈ items, item.1.instrs ≠ [])
    {g h : Digraph Block EdgeKind}
    (hfold : items.foldlM (connectBlock p blocks) g = .ok h) :
    ∀ item ∈ items, Resolved p blocks item.1 := by
  induction items generalizing g with
  | nil => simp
  | cons item rest ih =>
      rw [List.forall_mem_cons] at hitems
      rw [List.foldlM_cons, bind_eq_ok_iff] at hfold
      obtain ⟨next, hconnect, hrest⟩ := hfold
      obtain ⟨found, hfound, -⟩ := bind_eq_ok_iff.mp hconnect
      rw [List.forall_mem_cons]
      exact ⟨(exists_arcs_iff hitems.1).mp ⟨found, hfound⟩, ih hitems.2 hrest⟩

/-! ## The whole graph -/

theorem foldl_addNode
    (blocks : List Block) {g : Digraph Block EdgeKind} (hg : g.WellFormed) :
    (blocks.foldl Digraph.addNode g).WellFormed ∧
      (blocks.foldl Digraph.addNode g).nodes.toList =
        g.nodes.toList ++ blocks ∧
      (blocks.foldl Digraph.addNode g).edges = g.edges := by
  induction blocks generalizing g with
  | nil => simp [hg]
  | cons b rest ih =>
      obtain ⟨hwf, hnodes, hedges⟩ := ih (hg.addNode b)
      refine ⟨hwf, ?_, hedges⟩
      rw [List.foldl_cons, hnodes]
      simp [Digraph.addNode]

theorem nodeCount_foldl_addNode (blocks : List Block) :
    (blocks.foldl Digraph.addNode
      (Digraph.empty : Digraph Block EdgeKind)).nodeCount = blocks.length := by
  rw [Digraph.nodeCount, ← Array.length_toList,
    (foldl_addNode blocks Digraph.wellFormed_empty).2.1]
  simp [Digraph.empty]

theorem forM_checkBlock_iff {blocks : List Block} :
    blocks.forM checkBlock = .ok () ↔ ∀ b ∈ blocks, b.instrs ≠ [] := by
  simp only [forM_eq_ok_iff, checkBlock]
  simp

/-- There are blocks, none is empty, and each ends with an instruction of the
program from which control can go on. -/
structure Joinable (p : Program) (blocks : List Block) : Prop where
  ne_nil : blocks ≠ []
  instrs_ne_nil : ∀ b ∈ blocks, b.instrs ≠ []
  resolved : ∀ b ∈ blocks, Resolved p blocks b

/-- The graph has the given blocks and the edges along which control may
pass. -/
structure Spans
    (p : Program) (blocks : List Block) (g : FlowGraph) : Prop where
  wellFormed : g.graph.WellFormed
  map_instrs : g.blocks.map Block.instrs = blocks.map Block.instrs
  adjacent_iff : ∀ u v, g.graph.Adjacent u v ↔ Leads p blocks u v

theorem Spans.blockCount_eq
    {p : Program} {blocks : List Block} {g : FlowGraph}
    (h : Spans p blocks g) :
    g.blockCount = blocks.length := by
  have hlen := congrArg List.length h.map_instrs
  simpa [FlowGraph.blocks, blockCount, Digraph.nodeCount] using hlen

theorem getElem?_renumber (blocks : List Block) (n : NodeId) :
    (renumber blocks)[n]? = blocks[n]?.map fun b => { b with id := n } := by
  simp [renumber, Function.comp_def]

/-- Only the instructions of the blocks count. -/
theorem Leads.of_map_instrs
    {p : Program} {blocks blocks' : List Block} {u v : NodeId}
    (hleads : Leads p blocks u v)
    (h : blocks.map Block.instrs = blocks'.map Block.instrs) :
    Leads p blocks' u v := by
  obtain ⟨b, last, instr, hb, hlast, hget, hways⟩ := hleads
  have hlen : blocks.length = blocks'.length := by
    simpa using congrArg List.length h
  have hinstrs : blocks'[u]?.map Block.instrs = some b.instrs := by
    rw [← List.getElem?_map, ← h, List.getElem?_map, hb, Option.map_some]
  obtain ⟨b', hb', hsame⟩ := Option.map_eq_some_iff.mp hinstrs
  refine ⟨b', last, instr, hb', ?_, hget, ?_⟩
  · rw [Block.terminator?, hsame]
    exact hlast
  · simpa only [locate?_congr h, hlen] using hways

theorem leads_congr
    {p : Program} {blocks blocks' : List Block}
    (h : blocks.map Block.instrs = blocks'.map Block.instrs) {u v : NodeId} :
    Leads p blocks u v ↔ Leads p blocks' u v :=
  ⟨fun hleads => hleads.of_map_instrs h,
    fun hleads => hleads.of_map_instrs h.symm⟩

theorem leads_renumber
    {p : Program} {blocks : List Block} {u v : NodeId} :
    Leads p (renumber blocks) u v ↔ Leads p blocks u v :=
  leads_congr (map_instrs_renumber blocks)

theorem resolved_renumber
    {p : Program} {blocks : List Block} {b : Block} {n : NodeId} :
    Resolved p (renumber blocks) { b with id := n } ↔ Resolved p blocks b := by
  simp only [Resolved, locate?_congr (map_instrs_renumber blocks)]
  rfl

theorem map_instrs_relate (g : Digraph Block EdgeKind) :
    (relate g).nodes.toList.map Block.instrs =
      g.nodes.toList.map Block.instrs := by
  apply List.ext_getElem?
  intro n
  simp [relate, Function.comp_def]

theorem joinable_items
    {p : Program} {blocks : List Block} (h : Joinable p blocks) :
    ∀ item ∈ (renumber blocks).zipIdx,
      (renumber blocks)[item.2]? = some item.1 ∧ item.1.instrs ≠ [] ∧
        Resolved p (renumber blocks) item.1 := by
  intro item hitem
  have hget := List.mem_zipIdx_iff_getElem?.mp hitem
  refine ⟨hget, ?_⟩
  rw [getElem?_renumber, Option.map_eq_some_iff] at hget
  obtain ⟨b, hb, hitem⟩ := hget
  have hmem : b ∈ blocks := List.mem_of_getElem? hb
  rw [← hitem]
  exact ⟨h.instrs_ne_nil b hmem, resolved_renumber.mpr (h.resolved b hmem)⟩

theorem exists_ofBlocks
    {p : Program} {blocks : List Block} (h : Joinable p blocks) :
    ∃ g, ofBlocks p blocks = .ok g ∧ Spans p blocks g := by
  obtain ⟨hwf, hnodes, hedges⟩ :=
    foldl_addNode (renumber blocks) Digraph.wellFormed_empty
  obtain ⟨joined, hfold, hjoins⟩ := exists_foldlM_connectBlock
    (joinable_items h) hwf (nodeCount_foldl_addNode _)
  refine ⟨⟨relate joined⟩, ?_, ?_, ?_, ?_⟩
  · have hcheck := forM_checkBlock_iff.mpr h.instrs_ne_nil
    rw [ofBlocks, if_neg (by simpa using h.ne_nil), bind_eq_ok_iff]
    exact ⟨(), hcheck, bind_eq_ok_iff.mpr ⟨joined, hfold, rfl⟩⟩
  · exact hjoins.wellFormed.of_nodes (by simp [Digraph.nodeCount])
  · rw [FlowGraph.blocks, map_instrs_relate, hjoins.nodes_eq, hnodes,
      ← map_instrs_renumber blocks]
    rfl
  · intro u v
    have hnone : ¬ ((renumber blocks).foldl Digraph.addNode
        (Digraph.empty : Digraph Block EdgeKind)).Adjacent u v := by
      rintro ⟨e, he, -⟩
      rw [hedges] at he
      exact Array.not_mem_empty e he
    have hadj : (relate joined).Adjacent u v ↔ joined.Adjacent u v := Iff.rfl
    have hleads : Leads p blocks u v ↔ Leads p (renumber blocks) u v :=
      leads_renumber.symm
    rw [hadj, hjoins.adjacent_iff, hleads]
    constructor
    · rintro (hold | ⟨-, hleads⟩)
      · exact absurd hold hnone
      · exact hleads
    · intro hleads
      refine Or.inr ⟨?_, hleads⟩
      obtain ⟨b, -, -, hb, -⟩ := hleads
      exact List.mem_map.mpr
        ⟨(b, u), List.mem_zipIdx_iff_getElem?.mpr hb, rfl⟩

theorem joinable_of_ofBlocks
    {p : Program} {blocks : List Block} {g : FlowGraph}
    (h : ofBlocks p blocks = .ok g) :
    Joinable p blocks := by
  rw [ofBlocks] at h
  split at h
  · simp at h
  · next hne =>
      obtain ⟨_, hcheck, h⟩ := bind_eq_ok_iff.mp h
      obtain ⟨joined, hfold, -⟩ := bind_eq_ok_iff.mp h
      have hinstrs := forM_checkBlock_iff.mp hcheck
      have hitems : ∀ item ∈ (renumber blocks).zipIdx,
          item.1.instrs ≠ [] := by
        intro item hitem
        have hget := List.mem_zipIdx_iff_getElem?.mp hitem
        rw [getElem?_renumber, Option.map_eq_some_iff] at hget
        obtain ⟨b, hb, hitem⟩ := hget
        rw [← hitem]
        exact hinstrs b (List.mem_of_getElem? hb)
      refine ⟨by simpa using hne, hinstrs, ?_⟩
      intro b hb
      obtain ⟨n, hn⟩ := List.mem_iff_getElem?.mp hb
      have hitem : ({ b with id := n }, n) ∈ (renumber blocks).zipIdx := by
        rw [List.mem_zipIdx_iff_getElem?, getElem?_renumber, hn]
        rfl
      exact resolved_renumber.mp (resolved_of_foldlM hitems hfold _ hitem)

theorem spans_of_ofBlocks
    {p : Program} {blocks : List Block} {g : FlowGraph}
    (h : ofBlocks p blocks = .ok g) :
    Spans p blocks g := by
  obtain ⟨g', hg', hspans⟩ := exists_ofBlocks (joinable_of_ofBlocks h)
  obtain rfl := Except.ok.inj (h.symm.trans hg')
  exact hspans

theorem entry_lt_of_ofBlocks
    {p : Program} {blocks : List Block} {g : FlowGraph}
    (h : ofBlocks p blocks = .ok g) :
    entry < g.blockCount := by
  rw [(spans_of_ofBlocks h).blockCount_eq]
  exact List.length_pos_iff.mpr (joinable_of_ofBlocks h).ne_nil

end FlowGraph
end ThreeAddress
