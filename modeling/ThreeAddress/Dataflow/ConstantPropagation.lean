import ThreeAddress.Dataflow.Solution
import ThreeAddress.Fact.ConstEnv

/-!
# Constant propagation

Which variables hold the same constant on every path.  The right side of an
assignment varies if an operand varies; otherwise it is undetermined if an
operand is undetermined; otherwise it is computed, and varies if the operation
has no value.  A left operand counts even where the operator ignores it.
-/

namespace ThreeAddress
namespace ConstantPropagation

/-- What is known of an operand. -/
def operandValue (env : ConstEnv) : Operand → ConstValue
  | .const value => .constant value
  | .var v => env.get v

/-- What is known of the right side of an assignment. -/
def fold
    (env : ConstEnv) (left : Option Operand) (op : Operation)
    (right : Operand) : ConstValue :=
  let left := left.map (operandValue env)
  let right := operandValue env right
  let operands := left.toList ++ [right]
  if operands.contains .varying then
    .varying
  else if operands.contains .undetermined then
    .undetermined
  else
    match right.constant? with
    | none => .varying
    | some value =>
        match op.evaluate (left.bind ConstValue.constant?) value with
        | some result => .constant result
        | none => .varying

/-- What is known beyond an instruction. -/
def transfer (instr : Instruction) (env : ConstEnv) : ConstEnv :=
  match instr.statement with
  | .assign target left op right => env.set target (fold env left op right)
  | _ => env

/-- Refuses an instruction that assigns a variable outside an environment of
`size` variables. -/
def accept (size : Nat) (instr : Instruction) : Except Error Unit :=
  match instr.defined? with
  | none => .ok ()
  | some v =>
      if v.index < size then .ok () else .error (.outOfEnvironment v size)

/-- What is known beyond an instruction, if it assigns within the
environment. -/
def transfer?
    (instr : Instruction) (env : ConstEnv) : Except Error ConstEnv := do
  accept env.values.size instr
  return transfer instr env

/-- The analysis of the variables of a program. -/
def analysis (p : Program) : Analysis ConstEnv where
  name := "constant-propagation"
  direction := .forward
  boundary := .undetermined p.varCount
  initial := .undetermined p.varCount
  meet := ConstEnv.meet
  transfer := transfer
  height := 2 * p.varCount + 1

/-- The constants of a program on a flow graph, where the variables are those of
`source`. -/
def solve
    (source : Program) (settings : Settings) (p : Program) (g : FlowGraph) :
    Except Error (Solution ConstEnv) :=
  Solution.solveWithin (accept source.varCount) (analysis source)
    settings p g

end ConstantPropagation
end ThreeAddress
