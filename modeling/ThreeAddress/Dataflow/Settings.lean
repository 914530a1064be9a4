/-!
# Settings of the solver

How many passes the solver may make, and how facts on expressions are combined.
Pass counts are 64-bit machine words; arithmetic on them stops at the largest
word.
-/

namespace ThreeAddress

/-- Whether a site must arrive along every path or along some path. -/
inductive SiteMeet
  | intersection
  | union
deriving DecidableEq, Repr, Inhabited

/-- Limits and choices of an analysis run. -/
structure Settings where
  /-- A fixed number of passes, in place of the computed one. -/
  maxPasses : Option Nat
  /-- Passes allowed beyond those that can change anything. -/
  slack : Nat
  /-- How sites of expressions are combined. -/
  meet : SiteMeet
deriving DecidableEq, Repr

namespace Settings

/-- The computed limit with two passes to spare. -/
def default : Settings :=
  ⟨none, 2, .intersection⟩

/-- The computed limit with only the pass that confirms the result. -/
def strict : Settings :=
  { default with slack := 1 }

/-- A fixed limit. -/
def fixed (passes : Nat) : Settings :=
  { default with maxPasses := some passes }

/-- The largest machine word. -/
def maxWord : Nat :=
  UInt64.size - 1

/-- A number, or the largest machine word if it exceeds that. -/
def saturate (n : Nat) : Nat :=
  min n maxWord

/-- The number of passes allowed for `blocks` blocks and facts that can change
`height` times. -/
def passLimit (s : Settings) (blocks height : Nat) : Nat :=
  match s.maxPasses with
  | some passes => passes
  | none => saturate (saturate (blocks * max height 1) + s.slack)

end Settings

end ThreeAddress
