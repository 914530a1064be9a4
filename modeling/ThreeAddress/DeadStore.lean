import ThreeAddress.Dataflow.LiveVariables

/-!
# Dead stores of a program

An assignment is a dead store if its target is not live after it.  Removing dead
stores can end the life of the variables that they read, so removal goes on
until no dead store is left.  A labelled dead store stays as an instruction
without effect, so that jumps to it keep their target.
-/

namespace ThreeAddress
namespace DeadStore

/-- The live variables of a program. -/
def liveness
    (settings : Settings) (p : Program) :
    Except Error (Solution VarSet) := do
  LiveVariables.solve p settings p (← FlowGraph.ofProgram p)

/-- Whether an instruction writes a variable that is not live after it. -/
def isDead (live : Solution VarSet) (instr : Instruction) : Bool :=
  match instr.defined?, live.at? instr.id with
  | some v, some facts => !LiveVariables.isLive facts.output v
  | _, _ => false

/-- The dead stores of a program, in order. -/
def deadSites (live : Solution VarSet) (p : Program) : List InstrId :=
  (p.instrs.toList.filter (isDead live)).map Instruction.id

/-- What is left of an instruction when dead stores are removed. -/
def survivor?
    (dead : List InstrId) (instr : Instruction) :
    Option Instruction :=
  if dead.contains instr.id then
    if instr.labelled then some instr.toNop else none
  else
    some instr

/-- What is left of instructions when dead stores are removed. -/
def survivors
    (dead : List InstrId) (instrs : List Instruction) :
    List Instruction :=
  instrs.filterMap (survivor? dead)

/-- Whether an instruction writes a variable. -/
def isStore (instr : Instruction) : Bool :=
  instr.defined?.isSome

theorem isStore_survivor?
    (dead : List InstrId) (instr : Instruction) :
    ((survivor? dead instr).map isStore).getD false =
      (!dead.contains instr.id && isStore instr) := by
  rw [survivor?]
  split
  · split <;> simp_all [isStore, Instruction.toNop, Instruction.defined?,
      Statement.defined?]
  · simp_all

/-- Removing a store lowers the number of stores. -/
theorem countP_survivors_lt
    {dead : List InstrId} {instrs : List Instruction} {instr : Instruction}
    (hmem : instr ∈ instrs) (hstore : isStore instr = true)
    (hdead : instr.id ∈ dead) :
    (survivors dead instrs).countP isStore < instrs.countP isStore := by
  simp only [survivors, List.countP_filterMap, isStore_survivor?]
  rw [← List.countP_filter, List.countP_eq_length_filter,
    List.countP_eq_length_filter]
  apply List.length_filter_lt_length_iff_exists.mpr
  exact ⟨instr, List.mem_filter.mpr ⟨hmem, hstore⟩, by simpa using hdead⟩

theorem isStore_of_isDead
    {live : Solution VarSet} {instr : Instruction}
    (h : isDead live instr = true) :
    isStore instr = true := by
  cases hdef : instr.defined? with
  | none => simp [isDead, hdef] at h
  | some v => simp [isStore, hdef]

theorem exists_store_of_deadSites_ne_nil
    {live : Solution VarSet} {p : Program} (h : deadSites live p ≠ []) :
    ∃ instr ∈ p.instrs.toList,
      isStore instr = true ∧ instr.id ∈ deadSites live p := by
  obtain ⟨id, hid⟩ := List.exists_mem_of_ne_nil _ h
  obtain ⟨instr, hinstr, rfl⟩ := List.mem_map.mp hid
  obtain ⟨hmem, hdead⟩ := List.mem_filter.mp hinstr
  exact ⟨instr, hmem, isStore_of_isDead hdead, hid⟩

/-- The program without its dead stores. -/
def eliminate (settings : Settings) (p : Program) : Except Error Program :=
  match liveness settings p with
  | .error e => .error e
  | .ok live =>
      if _hdead : deadSites live p = [] then
        .ok p
      else
        match _hnext : p.withInstructions
            (survivors (deadSites live p) p.instrs.toList) with
        | .error e => .error e
        | .ok next =>
            if next.isEmpty then .ok next else eliminate settings next
termination_by p.instrs.toList.countP isStore
decreasing_by
  obtain ⟨instr, hmem, hstore, hdead⟩ :=
    exists_store_of_deadSites_ne_nil _hdead
  rw [Program.withInstructions_instrs _hnext]
  exact countP_survivors_lt hmem hstore hdead

end DeadStore
end ThreeAddress
