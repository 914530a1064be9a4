import Mathlib.Data.List.Basic
import ThreeAddress.Text.Label

/-!
# Reading labels

A quoted label ends at the first quote that no backslash takes with it, and a
backslash and the character after it stand for one character or for the end of a
line.  A text spells what a label shows if a reader passes over it as a whole and
goes on with whatever follows.  Texts that spell can be put one after the other,
so it is enough to look at what stands for a single character: no escaped text
ends a label early, adds a line to the file, or is read as something else.
-/

namespace ThreeAddress
namespace Label

/-- What a label shows: characters and ends of lines. -/
inductive Glyph
  | char (c : Char)
  | lineEnd
deriving DecidableEq, Repr

/-- What a backslash and the character after it stand for. -/
def unescape? (c : Char) : Option Glyph :=
  if c = '\\' ∨ c = '"' ∨ c = '<' ∨ c = '>' then
    some (.char c)
  else if c = 'n' then
    some (.char '\n')
  else if c = 'l' then
    some .lineEnd
  else
    none

/-- What a label shows, if every backslash has a meaning and no quote stands
alone. -/
def decode? : List Char → Option (List Glyph)
  | [] => some []
  | c :: rest =>
      if c = '\\' then
        match rest with
        | [] => none
        | d :: rest => do return (← unescape? d) :: (← decode? rest)
      else if c = '"' then
        none
      else
        (decode? rest).map (.char c :: ·)

/-- The text after an opening quote, up to the quote that closes it, and what
follows that.  A backslash takes the next character with it. -/
def close? : List Char → Option (List Char × List Char)
  | [] => none
  | c :: rest =>
      if c = '"' then
        some ([], rest)
      else if c = '\\' then
        match rest with
        | [] => none
        | d :: rest =>
            (close? rest).map fun found => (c :: d :: found.1, found.2)
      else
        (close? rest).map fun found => (c :: found.1, found.2)

/-- A line with a quoted label. -/
structure Quotation where
  front : List Char
  label : List Char
  back : List Char
deriving DecidableEq, Repr

/-- The first quoted label of a line, and what stands around it. -/
def quotation? (line : List Char) : Option Quotation :=
  match line.dropWhile (· != '"') with
  | [] => none
  | _ :: inside =>
      (close? inside).map fun found =>
        ⟨line.takeWhile (· != '"'), found.1, found.2⟩

/-- A text as a label shows it.  Carriage returns are dropped. -/
def glyphs (s : String) : List Glyph :=
  (s.toList.filter (· ≠ '\r')).map .char

/-- Texts as a label shows them, each on a line of its own. -/
def glyphLines (lines : List String) : List Glyph :=
  lines.flatMap fun line => glyphs line ++ [.lineEnd]

/-- A label between quotes, with what stands around it. -/
def quoted (front label back : String) : String :=
  front ++ "\"" ++ label ++ "\"" ++ back

/-- A line has a label between two texts that shows some glyphs.  A reader of the
line ends the label where it ends. -/
def Quotes
    (line front : String) (shown : List Glyph) (back : String) : Prop :=
  ∃ label : String, line = quoted front label back ∧
    quotation? line.toList =
      some ⟨front.toList, label.toList, back.toList⟩ ∧
    decode? label.toList = some shown

theorem close?_quote (rest : List Char) :
    close? ('"' :: rest) = some ([], rest) := by
  rw [close?.eq_def]
  rfl

theorem close?_plain
    {c : Char} (hbackslash : c ≠ '\\') (hquote : c ≠ '"') (rest : List Char) :
    close? (c :: rest) =
      (close? rest).map fun found => (c :: found.1, found.2) := by
  rw [close?.eq_def]
  simp [hbackslash, hquote]

theorem decode?_plain
    {c : Char} (hbackslash : c ≠ '\\') (hquote : c ≠ '"') (rest : List Char) :
    decode? (c :: rest) = (decode? rest).map (.char c :: ·) := by
  rw [decode?.eq_def]
  simp [hbackslash, hquote]

/-! ## Spelling -/

/-- A text is passed over as a whole by a reader that looks for the closing
quote, and by one that looks for what the label shows; and it has no line
feeds. -/
structure Spells (text : List Char) (shown : List Glyph) : Prop where
  close?_append : ∀ rest, close? (text ++ rest) =
    (close? rest).map fun found => (text ++ found.1, found.2)
  decode?_append : ∀ rest,
    decode? (text ++ rest) = (decode? rest).map (shown ++ ·)
  feedless : '\n' ∉ text

theorem spells_nil : Spells [] [] where
  close?_append rest := by simp
  decode?_append rest := by simp
  feedless := List.not_mem_nil

theorem Spells.append
    {text text' : List Char} {shown shown' : List Glyph}
    (h : Spells text shown) (h' : Spells text' shown') :
    Spells (text ++ text') (shown ++ shown') where
  close?_append rest := by
    rw [List.append_assoc, h.close?_append, h'.close?_append, Option.map_map]
    simp [Function.comp_def]
  decode?_append rest := by
    rw [List.append_assoc, h.decode?_append, h'.decode?_append, Option.map_map]
    simp [Function.comp_def]
  feedless := by
    rw [List.mem_append, not_or]
    exact ⟨h.feedless, h'.feedless⟩

theorem spells_flatMap
    {β : Type} {text : β → List Char} {shown : β → List Glyph} {items : List β}
    (h : ∀ item ∈ items, Spells (text item) (shown item)) :
    Spells (items.flatMap text) (items.flatMap shown) := by
  induction items with
  | nil => exact spells_nil
  | cons item rest ih =>
      rw [List.forall_mem_cons] at h
      rw [List.flatMap_cons, List.flatMap_cons]
      exact h.1.append (ih h.2)

/-- A character without a meaning of its own stands for itself. -/
theorem spells_plain
    {c : Char} (hbackslash : c ≠ '\\') (hquote : c ≠ '"') (hfeed : c ≠ '\n') :
    Spells [c] [.char c] where
  close?_append rest := close?_plain hbackslash hquote rest
  decode?_append rest := decode?_plain hbackslash hquote rest
  feedless := by simpa using hfeed.symm

theorem spells_escaped
    {d : Char} {glyph : Glyph} (h : unescape? d = some glyph) (hfeed : d ≠ '\n') :
    Spells ['\\', d] [glyph] where
  close?_append rest := by simp [close?]
  decode?_append rest := by
    cases hrest : decode? rest <;> simp [decode?, h, hrest]
  feedless := by simpa using hfeed.symm

theorem spells_escapeChar (c : Char) :
    Spells (escapeChar c) (if c = '\r' then [] else [.char c]) := by
  rw [escapeChar]
  by_cases hbackslash : c = '\\'
  · subst hbackslash
    exact spells_escaped rfl (by decide)
  by_cases hquote : c = '"'
  · subst hquote
    exact spells_escaped rfl (by decide)
  by_cases hfeed : c = '\n'
  · subst hfeed
    exact spells_escaped rfl (by decide)
  by_cases hreturn : c = '\r'
  · subst hreturn
    exact spells_nil
  by_cases hless : c = '<'
  · subst hless
    exact spells_escaped rfl (by decide)
  by_cases hgreater : c = '>'
  · subst hgreater
    exact spells_escaped rfl (by decide)
  simp only [hbackslash, hquote, hfeed, hreturn, hless, hgreater, if_false]
  exact spells_plain hbackslash hquote hfeed

theorem escapeChar_of_isDigit {c : Char} (h : c.isDigit = true) :
    escapeChar c = [c] := by
  have hne : ∀ d : Char, d.isDigit = false → c ≠ d := by
    rintro d hd rfl
    rw [h] at hd
    contradiction
  simp [escapeChar, hne '\\' rfl, hne '"' rfl, hne '\n' rfl, hne '\r' rfl,
    hne '<' rfl, hne '>' rfl]

/-- A text of characters that stand for themselves is its own escaped form. -/
theorem escape_eq_self
    {s : String} (h : ∀ c ∈ s.toList, escapeChar c = [c]) :
    escape s = s := by
  rw [escape, List.flatMap_congr h, List.flatMap_singleton', String.ofList_toList]

/-- An escaped text spells the text. -/
theorem spells_escape (s : String) : Spells (escape s).toList (glyphs s) := by
  have hglyphs : glyphs s =
      s.toList.flatMap fun c => if c = '\r' then [] else [.char c] := by
    rw [glyphs]
    induction s.toList with
    | nil => rfl
    | cons c rest ih =>
        by_cases hc : c = '\r'
        · simpa [hc] using ih
        · simpa [hc] using ih
  rw [hglyphs, escape, String.toList_ofList]
  exact spells_flatMap fun c _ => spells_escapeChar c

example :
    decode? (['\\', 'l', '"', '\r', '\n'].flatMap escapeChar) =
      some [.char '\\', .char 'l', .char '"', .char '\n'] := by
  decide

/-! ## Quoting -/

/-- A text without quotes and line feeds. -/
structure Bare (s : String) : Prop where
  quoteless : '"' ∉ s.toList
  feedless : '\n' ∉ s.toList

instance (s : String) : Decidable (Bare s) :=
  decidable_of_iff ('"' ∉ s.toList ∧ '\n' ∉ s.toList)
    ⟨fun h => ⟨h.1, h.2⟩, fun h => ⟨h.quoteless, h.feedless⟩⟩

theorem Bare.append {s t : String} (hs : Bare s) (ht : Bare t) :
    Bare (s ++ t) where
  quoteless := by
    rw [String.toList_append, List.mem_append, not_or]
    exact ⟨hs.quoteless, ht.quoteless⟩
  feedless := by
    rw [String.toList_append, List.mem_append, not_or]
    exact ⟨hs.feedless, ht.feedless⟩

theorem toList_quoted (front label back : String) :
    (quoted front label back).toList =
      front.toList ++ ('"' :: (label.toList ++ ('"' :: back.toList))) := by
  simp [quoted]

section Quoting

variable {front label back : String} {shown : List Glyph}

/-- A text that spells is found between its quotes and read. -/
theorem Spells.quotes
    (h : Spells label.toList shown) (hfront : Bare front) (back : String) :
    Quotes (quoted front label back) front shown back := by
  refine ⟨label, rfl, ?_, ?_⟩
  · have hplain : ∀ c ∈ front.toList, (c != '"') = true := by
      intro c hc
      rw [bne_iff_ne]
      rintro rfl
      exact hfront.quoteless hc
    have hclose : close? (label.toList ++ ('"' :: back.toList)) =
        some (label.toList, back.toList) := by
      rw [h.close?_append, close?_quote]
      simp
    rw [toList_quoted, quotation?, List.dropWhile_append_of_pos hplain,
      List.takeWhile_append_of_pos hplain]
    simp [hclose]
  · have hend := h.decode?_append []
    simpa [decode?] using hend

theorem Spells.feedless_quoted
    (h : Spells label.toList shown) (hfront : Bare front) (hback : Bare back) :
    '\n' ∉ (quoted front label back).toList := by
  rw [toList_quoted]
  simp [hfront.feedless, h.feedless, hback.feedless]

end Quoting

end Label
end ThreeAddress
