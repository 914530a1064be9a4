import ThreeAddress.Error
import ThreeAddress.Text.Braced

/-!
# Constant values and environments

What is known of a variable's value: nothing yet, one constant, or that it is
no constant.  An environment holds one such value per variable.
-/

namespace ThreeAddress

/-- What is known of the value of one variable. -/
inductive ConstValue
  /-- No assignment has been seen. -/
  | undetermined
  /-- Every assignment seen gives this value. -/
  | constant (value : Int64)
  /-- Assignments disagree, or the value cannot be computed. -/
  | varying
deriving DecidableEq, Repr, Inhabited

namespace ConstValue

/-- The constant, if the value is one. -/
def constant? : ConstValue → Option Int64
  | constant value => some value
  | _ => none

/-- What is known when control arrives from two sides. -/
def meet : ConstValue → ConstValue → ConstValue
  | undetermined, x => x
  | x, undetermined => x
  | constant a, constant b => if a = b then constant a else varying
  | _, _ => varying

theorem undetermined_meet (x : ConstValue) : meet undetermined x = x := by
  cases x <;> rfl

theorem meet_undetermined (x : ConstValue) : meet x undetermined = x := by
  cases x <;> rfl

theorem meet_self (x : ConstValue) : meet x x = x := by
  cases x <;> simp [meet]

theorem meet_comm (x y : ConstValue) : meet x y = meet y x := by
  cases x <;> cases y <;> grind [meet]

theorem meet_assoc (x y z : ConstValue) :
    meet (meet x y) z = meet x (meet y z) := by
  cases x <;> cases y <;> cases z <;> grind [meet]

/-- The text of a value.  An undetermined value has none. -/
def text? : ConstValue → Option String
  | undetermined => none
  | constant value => some (toString value.toInt)
  | varying => some "NAC"

end ConstValue

/-- What is known of every variable, by index. -/
structure ConstEnv where
  values : Array ConstValue
deriving DecidableEq, Repr, Inhabited

namespace ConstEnv

/-- The environment that knows nothing of `n` variables. -/
def undetermined (n : Nat) : ConstEnv :=
  ⟨Array.replicate n .undetermined⟩

/-- What is known of a variable.  Nothing is known of variables outside the
environment. -/
def get (env : ConstEnv) (v : VarId) : ConstValue :=
  env.values.getD v.index .undetermined

/-- The environment with a new value for a variable.  A variable outside the
environment is left alone. -/
def set (env : ConstEnv) (v : VarId) (value : ConstValue) : ConstEnv :=
  ⟨env.values.setIfInBounds v.index value⟩

/-- The environment with a new value for a variable of its own. -/
def set?
    (env : ConstEnv) (v : VarId) (value : ConstValue) :
    Except Error ConstEnv :=
  if v.index < env.values.size then
    .ok (env.set v value)
  else
    .error (.outOfEnvironment v env.values.size)

/-- What is known, variable by variable, when control arrives from two sides.
Only variables of both environments remain. -/
def meet (a b : ConstEnv) : ConstEnv :=
  ⟨Array.zipWith ConstValue.meet a.values b.values⟩

/-- The determined variables and their values between braces, under a naming. -/
def text (name : VarId → String) (env : ConstEnv) : String :=
  braced <| env.values.toList.zipIdx.filterMap fun (value, i) =>
    value.text?.map fun shown => name (VarId.ofIndex i) ++ "=" ++ shown

end ConstEnv

end ThreeAddress
