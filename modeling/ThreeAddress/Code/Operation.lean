/-!
# Operations on machine integers

The operators of an assignment and their values on 64-bit integers.  A value is
computed in the integers and exists only if it fits the machine word, so an
operation is undefined on overflow, on division by zero, and for a binary
operator without a left operand.
-/

namespace ThreeAddress

/-- The operator of an assignment. -/
inductive Operation
  | plus
  | minus
  | mul
  | div
  | less
  | greater
  | equal
  | notEqual
  | not
  | neg
  | copy
deriving DecidableEq, Repr, Inhabited

namespace Operation

/-- The sign of an operator in a listing.  A copy has none. -/
def symbol : Operation → String
  | plus => "+"
  | minus => "-"
  | mul => "*"
  | div => "/"
  | less => "<"
  | greater => ">"
  | equal => "=="
  | notEqual => "!="
  | not => "!"
  | neg => "-"
  | copy => ""

/-- The operators that take no left operand. -/
def isUnary : Operation → Bool
  | not | neg | copy => true
  | _ => false

/-- The machine word of an integer, if the integer fits one. -/
def fit? (z : Int) : Option Int64 :=
  if Int64.minValue.toInt ≤ z ∧ z ≤ Int64.maxValue.toInt then
    some (Int64.ofInt z)
  else
    none

theorem toInt_of_fit?
    {z : Int} {w : Int64} (h : fit? z = some w) :
    w.toInt = z := by
  have hmin : Int64.minValue.toInt = -2 ^ 63 := rfl
  have hmax : Int64.maxValue.toInt = 2 ^ 63 - 1 := rfl
  rw [fit?] at h
  split at h
  · obtain rfl := Option.some.inj h
    exact Int64.toInt_ofInt_of_le (by omega) (by omega)
  · contradiction

/-- The machine word of a truth value. -/
def flag (b : Bool) : Int64 :=
  if b then 1 else 0

/-- The value of an operation.  Unary operators ignore the left operand;
division goes toward zero. -/
def evaluate
    (op : Operation) (left : Option Int64) (right : Int64) :
    Option Int64 :=
  match op with
  | copy => some right
  | neg => fit? (-right.toInt)
  | not => some (flag (right == 0))
  | plus => left.bind fun l => fit? (l.toInt + right.toInt)
  | minus => left.bind fun l => fit? (l.toInt - right.toInt)
  | mul => left.bind fun l => fit? (l.toInt * right.toInt)
  | div => left.bind fun l =>
      if right == 0 then none else fit? (l.toInt.tdiv right.toInt)
  | less => left.map fun l => flag (decide (l < right))
  | greater => left.map fun l => flag (decide (right < l))
  | equal => left.map fun l => flag (l == right)
  | notEqual => left.map fun l => flag (l != right)

end Operation

end ThreeAddress
