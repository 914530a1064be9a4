import ThreeAddress.Block.Basic

/-!
# Def-use chains of a block

Within a block every read of a variable is linked to the latest definition
before it.  The reads of an instruction come before its own definition, so
`x = x + 1` reads the previous `x`, and a variable read twice by one
instruction is linked twice.
-/

namespace ThreeAddress

/-- A read of a variable and the definition that it sees. -/
structure Use where
  instr : InstrId
  var : VarId
  definition : InstrId
deriving DecidableEq, Repr

/-- A definition and its reads within the block, in order. -/
structure Definition where
  instr : InstrId
  var : VarId
  uses : List Use
deriving DecidableEq, Repr

namespace Definition

/-- Whether nothing in the block reads the definition. -/
def isDead (d : Definition) : Bool :=
  d.uses.isEmpty

end Definition

/-- The definitions of a block, in order. -/
structure Chains where
  defs : List Definition
deriving DecidableEq, Repr

namespace Chains

/-- Records a read by `instr` at the latest definition of `v`.  The latest
definition comes first in the list. -/
def addUse
    (instr : InstrId) (v : VarId) :
    List Definition → Option (List Definition)
  | [] => none
  | d :: earlier =>
      if d.var = v then
        some ({ d with uses := d.uses ++ [⟨instr, v, d.instr⟩] } :: earlier)
      else
        (addUse instr v earlier).map (d :: ·)

/-- Records the reads of an instruction in order. -/
def addUses
    (instr : InstrId) (latest : List Definition) :
    List VarId → Except Error (List Definition)
  | [] => .ok latest
  | v :: rest =>
      match addUse instr v latest with
      | some latest => addUses instr latest rest
      | none => .error (.undefinedUse v instr)

/-- Records an instruction: first its reads, then its definition.  The list of
definitions is kept latest first. -/
def record
    (latest : List Definition) (instr : Instruction) :
    Except Error (List Definition) := do
  let latest ← addUses instr.id latest instr.used
  return match instr.defined? with
    | some v => ⟨instr.id, v, []⟩ :: latest
    | none => latest

/-- The chains of a run of instructions. -/
def ofInstructions (instrs : List Instruction) : Except Error Chains := do
  let latest ← instrs.foldlM record []
  return ⟨latest.reverse⟩

theorem addUse_map_instr
    {instr : InstrId} {v : VarId} {latest after : List Definition}
    (h : addUse instr v latest = some after) :
    after.map Definition.instr = latest.map Definition.instr := by
  induction latest generalizing after with
  | nil => simp [addUse] at h
  | cons d earlier ih =>
      rw [addUse] at h
      split at h
      · obtain rfl := Option.some.inj h
        rfl
      · obtain ⟨rest, hrest, rfl⟩ := Option.map_eq_some_iff.mp h
        simp [ih hrest]

theorem addUses_map_instr
    {instr : InstrId} {vars : List VarId} {latest after : List Definition}
    (h : addUses instr latest vars = .ok after) :
    after.map Definition.instr = latest.map Definition.instr := by
  induction vars generalizing latest with
  | nil =>
      obtain rfl := Except.ok.inj h
      rfl
  | cons v rest ih =>
      rw [addUses] at h
      split at h
      · next hadd => rw [ih h, addUse_map_instr hadd]
      · simp at h

theorem record_map_instr
    {latest after : List Definition} {instr : Instruction}
    (h : record latest instr = .ok after) :
    after.map Definition.instr =
      (if instr.defined?.isSome then [instr.id] else []) ++
        latest.map Definition.instr := by
  cases huses : addUses instr.id latest instr.used with
  | error e => simp [record, huses, bind, Except.bind] at h
  | ok seen =>
      simp only [record, huses, bind, Except.bind] at h
      obtain rfl := Except.ok.inj h
      rw [← addUses_map_instr huses]
      cases instr.defined? <;> rfl

/-- The instructions that make a definition, in order. -/
def definers (instrs : List Instruction) : List InstrId :=
  (instrs.filter fun instr => instr.defined?.isSome).map Instruction.id

theorem foldlM_record_map_instr
    {instrs : List Instruction} {latest after : List Definition}
    (h : instrs.foldlM record latest = .ok after) :
    after.reverse.map Definition.instr =
      latest.reverse.map Definition.instr ++ definers instrs := by
  induction instrs generalizing latest with
  | nil =>
      obtain rfl := Except.ok.inj h
      simp [definers]
  | cons instr rest ih =>
      cases hrec : record latest instr with
      | error e => simp [hrec, bind, Except.bind] at h
      | ok next =>
          simp only [List.foldlM_cons, hrec, bind, Except.bind] at h
          rw [ih h, List.map_reverse, record_map_instr hrec]
          by_cases hdef : instr.defined?.isSome <;> simp [definers, hdef]

/-- The definitions of the chains are those of the instructions, in order. -/
theorem ofInstructions_map_instr
    {instrs : List Instruction} {c : Chains}
    (h : ofInstructions instrs = .ok c) :
    c.defs.map Definition.instr = definers instrs := by
  cases hfold : instrs.foldlM record [] with
  | error e => simp [ofInstructions, hfold, bind, Except.bind] at h
  | ok latest =>
      simp only [ofInstructions, hfold, bind, Except.bind] at h
      obtain rfl := Except.ok.inj h
      simpa using foldlM_record_map_instr hfold

/-- The chains of a block. -/
def ofBlock (p : Program) (b : Block) : Except Error Chains := do
  ofInstructions (← b.resolve p)

/-- The first definition made by an instruction. -/
def find? (c : Chains) (id : InstrId) : Option Definition :=
  c.defs.find? fun d => d.instr == id

/-- The reads of the first definition made by an instruction. -/
def usesOf (c : Chains) (id : InstrId) : List Use :=
  match c.find? id with
  | some d => d.uses
  | none => []

/-- The instructions whose definition nothing in the block reads. -/
def dead (c : Chains) : List InstrId :=
  (c.defs.filter Definition.isDead).map Definition.instr

/-- A dead definition is made by one of the instructions. -/
theorem exists_mem_of_mem_dead
    {instrs : List Instruction} {c : Chains} {id : InstrId}
    (h : ofInstructions instrs = .ok c) (hid : id ∈ c.dead) :
    ∃ instr ∈ instrs, instr.id = id := by
  have hmem : id ∈ c.defs.map Definition.instr := by
    obtain ⟨d, hd, rfl⟩ := List.mem_map.mp hid
    exact List.mem_map.mpr ⟨d, (List.mem_filter.mp hd).1, rfl⟩
  rw [ofInstructions_map_instr h] at hmem
  obtain ⟨instr, hinstr, rfl⟩ := List.mem_map.mp hmem
  exact ⟨instr, (List.mem_filter.mp hinstr).1, rfl⟩

/-- All reads, definition by definition. -/
def uses (c : Chains) : List Use :=
  c.defs.flatMap Definition.uses

end Chains

end ThreeAddress
