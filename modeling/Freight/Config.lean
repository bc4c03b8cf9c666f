import Freight.Cause
import Freight.Start.Rule

/-!
# Settings

What a caller can choose about planning: the rule of the first plan, whether to improve it, the
tolerance of all comparisons, and the budget of pivots.
-/

namespace Freight

structure Config (α : Type) where
  rule : StartRule
  optimize : Bool
  tolerance : α
  /-- The budget of pivots, if it is given outright. -/
  maxIterations : Option Nat
  /-- The budget of pivots for each cell of the tableau, where it is not given outright. -/
  iterationFactor : Nat

/-- The settings of a caller who chooses nothing but a tolerance. -/
def Config.withTolerance {α : Type} (tolerance : α) : Config α :=
  ⟨.vogel, true, tolerance, none, 10⟩

/-- The settings of a caller who chooses nothing. -/
def Config.standard : Config Float := .withTolerance 1e-6

namespace Config

/-- The least budget of pivots that is worked out from the iteration factor. -/
def leastBudget : Nat := 100

/-- The largest number of pivots that is counted. -/
def largestCount : Nat := 0xFFFFFFFFFFFFFFFF

variable {α : Type}

/-- The budget of pivots on a tableau. -/
def budget (c : Config α) (rows cols : Nat) : Nat :=
  c.maxIterations.getD (max (min (c.iterationFactor * rows * cols) largestCount) leastBudget)

/-- Whether the planner can work with the settings; if not, the first reason. -/
def check [Scalar α] (c : Config α) : Except (Cause α) Unit :=
  if !Scalar.isFinite c.tolerance || decide (c.tolerance ≤ 0) then
    .error (.invalidTolerance c.tolerance)
  else if c.iterationFactor = 0 then .error .zeroIterationFactor
  else .ok ()

end Config

end Freight
