import Mathlib.Data.List.Forall2
import ThreeAddress.FlowGraph.Dot
import ThreeAddress.Proofs.Text.Label

/-!
# Drawings that no name can break

Names of variables and titles are arbitrary texts, with quotes, backslashes and
line feeds.  Still the description of a flow graph has a fixed number of lines,
one for each block and one for each edge besides those that are always there, and
every label can be read back: that of a block shows its heading and the
instructions that the program has for it, a line each.
-/

namespace ThreeAddress

theorem NodeId.toList_text (n : NodeId) :
    (NodeId.text n).toList = 'B' :: Nat.toDigits 10 n := by
  simp [NodeId.text, toString]

theorem NodeId.escapeChar_of_mem_text
    {n : NodeId} {c : Char} (h : c ∈ (NodeId.text n).toList) :
    Label.escapeChar c = [c] := by
  rw [NodeId.toList_text, List.mem_cons] at h
  rcases h with rfl | hdigit
  · rfl
  · exact Label.escapeChar_of_isDigit
      (Nat.isDigit_of_mem_toDigits (by decide) (by decide) hdigit)

theorem NodeId.bare_text (n : NodeId) : Label.Bare (NodeId.text n) where
  quoteless h := absurd (NodeId.escapeChar_of_mem_text h) (by decide)
  feedless h := absurd (NodeId.escapeChar_of_mem_text h) (by decide)

namespace FlowGraph

/-! ## Labels -/

/-- The heading of a block. -/
def heading (b : Block) : String :=
  NodeId.text b.id ++ if b.id = entry then " (entry)" else ""

/-- What the label of a block shows, line by line. -/
def blockText (p : Program) (b : Block) : List String :=
  heading b :: (b.instrs.filterMap p.get?).map fun instr =>
    instr.id.text ++ ": " ++ p.instrText instr

theorem escape_heading (b : Block) : Label.escape (heading b) = heading b := by
  have hentry : (" (entry)".toList.all fun c =>
      Label.escapeChar c == [c]) = true := by
    decide
  apply Label.escape_eq_self
  intro c hc
  rw [heading, String.toList_append, List.mem_append] at hc
  rcases hc with hname | hmark
  · exact NodeId.escapeChar_of_mem_text hname
  · split at hmark
    · exact beq_iff_eq.mp (List.all_eq_true.mp hentry c hmark)
    · simp at hmark

theorem blockLabel_eq_join (p : Program) (b : Block) :
    blockLabel p b = String.join ((blockText p b).map fun line =>
      Label.escape line ++ labelBreak) := by
  rw [blockLabel, blockText, List.map_cons, List.map_cons, escape_heading,
    List.map_map, List.map_map]
  rfl

theorem spells_labelBreak : Label.Spells labelBreak.toList [.lineEnd] :=
  Label.spells_escaped rfl (by decide)

theorem spells_blockLabel (p : Program) (b : Block) :
    Label.Spells (blockLabel p b).toList
      (Label.glyphLines (blockText p b)) := by
  rw [blockLabel_eq_join, String.toList_join, List.flatMap_map]
  apply Label.spells_flatMap
  intro line _
  rw [String.toList_append]
  exact (Label.spells_escape line).append spells_labelBreak

theorem spells_kindText (k : EdgeKind) :
    Label.Spells (kindText k).toList (Label.glyphs (kindText k)) := by
  have hplain : Label.escape (kindText k) = kindText k := by
    cases k <;> rfl
  have hspells := Label.spells_escape (kindText k)
  rwa [hplain] at hspells

/-! ## Lines -/

/-- Lines, each ended by a line feed. -/
def joined (lines : List String) : String :=
  String.join (lines.map (· ++ "\n"))

theorem joined_append (lines lines' : List String) :
    joined (lines ++ lines') = joined lines ++ joined lines' := by
  rw [joined, List.map_append, String.join_append]
  rfl

/-- Cut at its line feeds, a text of lines without line feeds gives these lines
and an empty rest. -/
theorem splitOn_joined
    {lines : List String} (h : ∀ line ∈ lines, '\n' ∉ line.toList) :
    (joined lines).toList.splitOn '\n' = (lines ++ [""]).map String.toList := by
  have hintercalate : (joined lines).toList =
      ['\n'].intercalate ((lines ++ [""]).map String.toList) := by
    induction lines with
    | nil => rfl
    | cons line rest ih =>
        rw [List.forall_mem_cons] at h
        have hrest : (rest ++ [""]).map String.toList ≠ [] := by simp
        rw [List.cons_append, List.map_cons,
          List.intercalate_cons_of_ne_nil hrest, ← ih h.2, joined, List.map_cons,
          String.join_cons]
        simp [joined]
  rw [hintercalate]
  apply List.splitOn_intercalate
  · intro l hl
    obtain ⟨line, hline, rfl⟩ := List.mem_map.mp hl
    rcases List.mem_append.mp hline with hmem | hlast
    · exact h line hmem
    · rw [List.mem_singleton.mp hlast]
      decide
  · simp

/-- What stands before the label of a block. -/
def boxFront (b : Block) : String :=
  "    " ++ NodeId.text b.id ++ " [label="

/-- The line of a block. -/
def boxLine (p : Program) (b : Block) : String :=
  Label.quoted (boxFront b) (blockLabel p b) "];"

/-- What stands before the label of an edge. -/
def arrowFront (e : Edge EdgeKind) : String :=
  "    " ++ NodeId.text e.source ++ " -> " ++ NodeId.text e.target ++ " [label="

/-- The line of an edge. -/
def arrowLine (c : EdgeClass) (e : Edge EdgeKind) : String :=
  Label.quoted (arrowFront e) (kindText e.data) (classStyle c ++ "];")

/-- The lines of a title. -/
def captionLines : Option String → List String
  | none => []
  | some name =>
      [Label.quoted "    label=" (Label.escape name) ";", "    labelloc=t;"]

/-- All lines of a drawing. -/
def drawing
    (g : FlowGraph) (p : Program) (title : Option String) : List String :=
  ["digraph CFG \x7b"] ++ captionLines title ++
    ["    node [shape=box, fontname=\"Courier\", fontsize=10];", ""] ++
    g.blocks.map (boxLine p) ++ [""] ++
    (g.graph.edges.toList.zipIdx.map fun entry =>
      arrowLine (g.spanningTree.classOf entry.2 entry.1) entry.1) ++
    ["\x7d"]

theorem labelKey_eq : " [label=\"" = " [label=" ++ "\"" := by
  simp

theorem blockLine_eq (p : Program) (b : Block) :
    blockLine p b = boxLine p b ++ "\n" := by
  have hend : "\"];\n" = "\"" ++ "];" ++ "\n" := by simp
  simp only [blockLine, boxLine, boxFront, Label.quoted, labelKey_eq, hend,
    toString, String.append_assoc]

theorem edgeLine_eq (c : EdgeClass) (e : Edge EdgeKind) :
    edgeLine c e = arrowLine c e ++ "\n" := by
  have hend : "];\n" = "];" ++ "\n" := by simp
  -- an equation lemma for `edgeLine` would take seconds to make
  delta edgeLine arrowLine arrowFront Label.quoted
  simp only [labelKey_eq, hend, toString, String.append_assoc]

theorem titleLines_eq (title : Option String) :
    titleLines title = joined (captionLines title) := by
  cases title with
  | none => rfl
  | some name =>
      apply String.toList_inj.mp
      simp [titleLines, captionLines, joined, Label.quoted]

theorem join_eq_joined
    {β : Type} {ended line : β → String} (h : ∀ x, ended x = line x ++ "\n")
    (items : List β) :
    String.join (items.map ended) = joined (items.map line) := by
  rw [joined, List.map_map]
  exact congrArg String.join (List.map_congr_left fun x _ => h x)

theorem toDot_eq_joined
    (g : FlowGraph) (p : Program) (title : Option String) :
    g.toDot p title = joined (drawing g p title) := by
  have hopening : joined ["digraph CFG \x7b"] = "digraph CFG \x7b\n" := by
    simp [joined]
  have hnode : joined
      ["    node [shape=box, fontname=\"Courier\", fontsize=10];", ""] =
      "    node [shape=box, fontname=\"Courier\", fontsize=10];\n\n" := by
    simp [joined]
  have hblank : joined [""] = "\n" := by simp [joined]
  have hclosing : joined ["\x7d"] = "\x7d\n" := by simp [joined]
  have hboxes : String.join (g.blocks.map (blockLine p)) =
      joined (g.blocks.map (boxLine p)) :=
    join_eq_joined (blockLine_eq p) g.blocks
  have harrows : String.join (g.graph.edges.toList.zipIdx.map fun entry =>
        edgeLine (g.spanningTree.classOf entry.2 entry.1) entry.1) =
      joined (g.graph.edges.toList.zipIdx.map fun entry =>
        arrowLine (g.spanningTree.classOf entry.2 entry.1) entry.1) :=
    join_eq_joined (by intro entry; rw [edgeLine_eq]) _
  simp only [drawing, joined_append, ← titleLines_eq, hopening, hnode, hblank,
    hclosing, ← hboxes, ← harrows]
  rfl

/-! ## What a reader finds -/

/-- A line is the box of a block: its label shows the heading of the block and its
instructions. -/
def IsBox (p : Program) (b : Block) (line : String) : Prop :=
  Label.Quotes line (boxFront b) (Label.glyphLines (blockText p b)) "];"

/-- A line is the arrow of an edge: it names the ends of the edge, and its label
shows the kind of the edge. -/
def IsArrow
    (g : FlowGraph) (entry : Edge EdgeKind × EdgeId) (line : String) : Prop :=
  Label.Quotes line (arrowFront entry.1) (Label.glyphs (kindText entry.1.data))
    (classStyle (g.spanningTree.classOf entry.2 entry.1) ++ "];")

/-- Lines are the caption of a drawing: there are none without a title, and else
the label of the first shows the title. -/
def IsCaption : Option String → List String → Prop
  | none, lines => lines = []
  | some name, lines => ∃ line, lines = [line, "    labelloc=t;"] ∧
      Label.Quotes line "    label=" (Label.glyphs name) ";"

theorem bare_boxFront (b : Block) : Label.Bare (boxFront b) := by
  have hindent : Label.Bare "    " := by decide
  have hkey : Label.Bare " [label=" := by decide
  exact (hindent.append (NodeId.bare_text b.id)).append hkey

theorem bare_arrowFront (e : Edge EdgeKind) : Label.Bare (arrowFront e) := by
  have hindent : Label.Bare "    " := by decide
  have hdash : Label.Bare " -> " := by decide
  have hkey : Label.Bare " [label=" := by decide
  have hsource := (hindent.append (NodeId.bare_text e.source)).append hdash
  exact (hsource.append (NodeId.bare_text e.target)).append hkey

theorem bare_classStyle (c : EdgeClass) : Label.Bare (classStyle c ++ "];") := by
  cases c <;> decide

theorem isCaption_captionLines (title : Option String) :
    IsCaption title (captionLines title) := by
  cases title with
  | none => rfl
  | some name =>
      exact ⟨_, rfl, (Label.spells_escape name).quotes (by decide) ";"⟩

theorem feedless_captionLines (title : Option String) :
    ∀ line ∈ captionLines title, '\n' ∉ line.toList := by
  cases title with
  | none => exact fun line hline => absurd hline List.not_mem_nil
  | some name =>
      rw [captionLines, List.forall_mem_cons]
      exact ⟨(Label.spells_escape name).feedless_quoted (by decide) (by decide),
        by decide⟩

/-- No line of a drawing holds a line feed. -/
theorem feedless_drawing
    (g : FlowGraph) (p : Program) (title : Option String) :
    ∀ line ∈ drawing g p title, '\n' ∉ line.toList := by
  simp only [drawing, List.forall_mem_append, List.forall_mem_map]
  refine ⟨⟨⟨⟨⟨⟨?_, feedless_captionLines title⟩, ?_⟩, ?_⟩, ?_⟩, ?_⟩, ?_⟩
  · decide
  · decide
  · intro b _
    exact (spells_blockLabel p b).feedless_quoted (bare_boxFront b) (by decide)
  · decide
  · intro entry _
    exact (spells_kindText entry.1.data).feedless_quoted
      (bare_arrowFront entry.1) (bare_classStyle _)
  · decide

/-- For every flow graph, program and title, the description cut at its line feeds
is the opening, the caption, the look of nodes, one box for each block in order, a
blank line, one arrow for each edge in the order of the edges, and the closing
brace.  A reader of a caption, a box or an arrow ends the label at the quote that
was put behind it.  The label of a block shows its heading and the instructions
that the program has for it, in order, each on a line of its own and without
carriage returns. -/
theorem toDot_read_back
    (g : FlowGraph) (p : Program) (title : Option String) :
    ∃ caption boxes arrows : List String,
      (g.toDot p title).toList.splitOn '\n' =
        (["digraph CFG \x7b"] ++ caption ++
          ["    node [shape=box, fontname=\"Courier\", fontsize=10];", ""] ++
          boxes ++ [""] ++ arrows ++ ["\x7d", ""]).map String.toList ∧
      IsCaption title caption ∧
      List.Forall₂ (IsBox p) g.blocks boxes ∧
      List.Forall₂ (IsArrow g) g.graph.edges.toList.zipIdx arrows := by
  refine ⟨captionLines title, g.blocks.map (boxLine p),
    g.graph.edges.toList.zipIdx.map fun entry =>
      arrowLine (g.spanningTree.classOf entry.2 entry.1) entry.1,
    ?_, isCaption_captionLines title, ?_, ?_⟩
  · rw [toDot_eq_joined, splitOn_joined (feedless_drawing g p title), drawing,
      List.append_assoc _ ["\x7d"]]
    rfl
  · rw [List.forall₂_map_right_iff, List.forall₂_same]
    intro b _
    exact (spells_blockLabel p b).quotes (bare_boxFront b) "];"
  · rw [List.forall₂_map_right_iff, List.forall₂_same]
    intro entry _
    exact (spells_kindText entry.1.data).quotes (bare_arrowFront entry.1) _

end FlowGraph
end ThreeAddress
