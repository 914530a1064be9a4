import ThreeAddress.Block.Chains

/-!
# Dead code within a block

A definition that nothing in its block reads is dead.  Removing dead
definitions can leave others unread, so removal goes on until nothing is dead.
-/

namespace ThreeAddress
namespace DeadCode

/-- The instructions without those of the given handles. -/
def drop
    (dead : List InstrId) (instrs : List Instruction) :
    List Instruction :=
  instrs.filter fun instr => !dead.contains instr.id

theorem length_drop_lt
    {dead : List InstrId} {instrs : List Instruction} {instr : Instruction}
    (hinstr : instr ∈ instrs) (hdead : instr.id ∈ dead) :
    (drop dead instrs).length < instrs.length := by
  apply List.length_filter_lt_length_iff_exists.mpr
  exact ⟨instr, hinstr, by simpa using hdead⟩

/-- Removes dead definitions until none is left. -/
def settle (instrs : List Instruction) : Except Error (List Instruction) :=
  match _hchains : Chains.ofInstructions instrs with
  | .error e => .error e
  | .ok chains =>
      if _hdead : chains.dead = [] then
        .ok instrs
      else
        settle (drop chains.dead instrs)
termination_by instrs.length
decreasing_by
  obtain ⟨id, hid⟩ := List.exists_mem_of_ne_nil _ _hdead
  obtain ⟨instr, hinstr, rfl⟩ := Chains.exists_mem_of_mem_dead _hchains hid
  exact length_drop_lt hinstr hid

/-- The block without its dead definitions.  Its place among the blocks stays
the same. -/
def eliminate (p : Program) (b : Block) : Except Error Block := do
  let live ← settle (← b.resolve p)
  return { b with instrs := live.map Instruction.id }

end DeadCode
end ThreeAddress
