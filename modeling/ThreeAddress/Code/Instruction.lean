import ThreeAddress.Code.Handle
import ThreeAddress.Code.Operation

/-!
# Instructions

An instruction is a statement with a handle and a label mark.  This module says
which variables a statement writes and reads, where it jumps, and how it is
written.
-/

namespace ThreeAddress

/-- A variable or a constant. -/
inductive Operand
  | var (v : VarId)
  | const (value : Int64)
deriving DecidableEq, Repr, Inhabited

namespace Operand

/-- The variable of an operand, if it is one. -/
def var? : Operand → Option VarId
  | var v => some v
  | const _ => none

/-- The text of an operand under a naming of variables. -/
def text (name : VarId → String) : Operand → String
  | var v => name v
  | const value => toString value.toInt

end Operand

/-- What an instruction does.  An assignment may carry a left operand that its
operator ignores, or lack one that its operator needs. -/
inductive Statement
  | assign (target : VarId) (left : Option Operand) (op : Operation)
      (right : Operand)
  | goto (target : InstrId)
  | branch (condition : Operand) (target : InstrId)
  | print (value : Operand)
  | nop
deriving DecidableEq, Repr, Inhabited

namespace Statement

/-- Whether control may go elsewhere than to the next instruction. -/
def isJump : Statement → Bool
  | goto _ | branch _ _ => true
  | _ => false

/-- The instruction that a jump names. -/
def jumpTarget? : Statement → Option InstrId
  | goto target | branch _ target => some target
  | _ => none

/-- The variable that a statement writes. -/
def defined? : Statement → Option VarId
  | assign target _ _ _ => some target
  | _ => none

/-- The variables that a statement reads, once per operand, left before
right. -/
def used : Statement → List VarId
  | assign _ left _ right => (left.toList ++ [right]).filterMap Operand.var?
  | branch condition _ => condition.var?.toList
  | print value => value.var?.toList
  | goto _ | nop => []

/-- Whether a statement computes something beyond a copy. -/
def isExpression : Statement → Bool
  | assign _ _ op _ => op != Operation.copy
  | _ => false

/-- The text of a statement under a naming of variables. -/
def text (name : VarId → String) : Statement → String
  | assign target (some left) op right =>
      name target ++ " = " ++ left.text name ++ " " ++ op.symbol ++ " " ++
        right.text name
  | assign target none op right =>
      name target ++ " = " ++ op.symbol ++ right.text name
  | goto target => "goto " ++ target.text
  | branch condition target =>
      "if " ++ condition.text name ++ " goto " ++ target.text
  | print value => "print " ++ value.text name
  | nop => "nop"

end Statement

/-- A statement with an identity, marked if some jump may name it. -/
structure Instruction where
  id : InstrId
  labelled : Bool
  statement : Statement
deriving DecidableEq, Repr, Inhabited

namespace Instruction

/-- Hashing sees only the identity. -/
instance : Hashable Instruction where
  hash instr := hash instr.id.val

/-- Two instructions are the same one if they share their handle, whatever
they do. -/
def same (a b : Instruction) : Bool :=
  a.id == b.id

/-- The instruction, marked as the target of jumps. -/
def label (instr : Instruction) : Instruction :=
  { instr with labelled := true }

/-- The instruction with its effect removed; handle and mark stay. -/
def toNop (instr : Instruction) : Instruction :=
  { instr with statement := .nop }

/-- Whether control may go elsewhere than to the next instruction. -/
def isJump (instr : Instruction) : Bool :=
  instr.statement.isJump

/-- The instruction that a jump names. -/
def jumpTarget? (instr : Instruction) : Option InstrId :=
  instr.statement.jumpTarget?

/-- The variable that the instruction writes. -/
def defined? (instr : Instruction) : Option VarId :=
  instr.statement.defined?

/-- The variables that the instruction reads, once per operand. -/
def used (instr : Instruction) : List VarId :=
  instr.statement.used

/-- The variables of the instruction, the written one first. -/
def vars (instr : Instruction) : List VarId :=
  instr.defined?.toList ++ instr.used

/-- Whether the instruction is an expression site. -/
def isExpression (instr : Instruction) : Bool :=
  instr.statement.isExpression

/-- Whether the instruction reads a variable. -/
def reads (instr : Instruction) (v : VarId) : Bool :=
  instr.used.contains v

/-- The text of the instruction under a naming of variables. -/
def text (name : VarId → String) (instr : Instruction) : String :=
  instr.statement.text name

end Instruction

end ThreeAddress
