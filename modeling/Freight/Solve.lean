import Freight.Config
import Freight.Plan.Check

/-!
# Planning

`Problem.solve` balances a problem, builds a first plan by a greedy rule and improves it.
`Plan.reoptimize` takes up a plan that was made before: it checks the plan, rests it on its stored
basic cells where they carry all its quantities and on the quantities alone where they do not, and
improves it further. Both fail with the best plan found when the budget of pivots runs out.
-/

namespace Freight

/-- Why planning failed, and the best plan found by then. -/
structure Failure (α : Type) where
  cause : Cause α
  best : Option (Plan α)

/-- A refusal before there is any plan. -/
def Failure.ofCause {α : Type} (cause : Cause α) : Failure α := ⟨cause, none⟩

/-- The answer that a planning step's refusal amounts to. -/
def planning {α β : Type} : Except (Cause α) β → Except (Failure α) β
  | .ok x => .ok x
  | .error e => .error (.ofCause e)

variable {α : Type} [Scalar α]

namespace Tableau

/-- The first plan of a rule, on a basis filled up to a tree. -/
def firstPosition (t : Tableau α) (rule : StartRule) (tol : α) :
    Except (Cause α) (Position α) := do
  let allocation ← within (rule.plan? t.supply t.demand t.costs tol)
  let basis ← within (Basis.ofLoaded? allocation tol)
  let (basis, _) ← basis.repair.mapError .cyclic
  pure ⟨allocation, basis⟩

/-- The position as it stands, as an outcome. -/
def unimproved (t : Tableau α) (p : Position α) : Except (Cause α) (Outcome α) := do
  let cost ← within (p.allocation.cost? t.costs)
  pure ⟨p, 0, .improving, [cost]⟩

/-- The plan that an outcome amounts to under the given settings. -/
def report (t : Tableau α) (config : Config α) (outcome : Outcome α) : Except (Cause α) (Plan α) :=
  within (Plan.ofOutcome? t config.tolerance config.rule outcome)

/-- The plan that improvement leads to from a position. -/
def optimize (t : Tableau α) (config : Config α) (p : Position α) :
    Except (Failure α) (Plan α) := do
  let outcome ← planning (p.run t.costs config.tolerance (config.budget t.rows t.cols))
  let plan ← planning (t.report config outcome)
  match outcome.ending with
  | .optimal => .ok plan
  | .improving => .error ⟨.notConverged outcome.iterations, some plan⟩

end Tableau

def Problem.solve (p : Problem α) (config : Config α) : Except (Failure α) (Plan α) := do
  planning config.check
  let t ← planning (Tableau.ofProblem p config.tolerance)
  let first ← planning (t.firstPosition config.rule config.tolerance)
  if config.optimize then t.optimize config first
  else
    let outcome ← planning (t.unimproved first)
    planning (t.report config outcome)

namespace Plan

/-- The stored cells carry every quantity above the tolerance. -/
def covers? (p : Plan α) (b : Basis) (tol : α) : Option Bool :=
  (p.allocation.loaded tol).allM b.contains?

/-- The basis of the quantities alone. It is refused if the routes in use close a cycle. -/
def rebuiltBasis (p : Plan α) (tol : α) : Except (Cause α) Basis := do
  let b ← within (Basis.ofLoaded? p.allocation tol)
  let (b, _) ← b.repair.mapError .notBasic
  pure b

/-- The basis on which a plan is taken up: the stored cells filled up to a tree, if they carry every
quantity and close no cycle, and else that of the quantities. -/
def resumedBasis (p : Plan α) (tol : α) : Except (Cause α) Basis := do
  let stored ← within p.basis?
  if ← within (p.covers? stored tol) then
    match stored.repair with
    | .ok (b, _) => .ok b
    | .error _ => p.rebuiltBasis tol
  else p.rebuiltBasis tol

/-- The plan that further improvement leads to. An optimal plan keeps the rule of the plan it came
from; the best plan of a spent budget carries the rule of the settings. -/
def reoptimize (p : Plan α) (config : Config α) : Except (Failure α) (Plan α) := do
  planning config.check
  planning (p.check config.tolerance)
  let basis ← planning (p.resumedBasis config.tolerance)
  let plan ← p.tableau.optimize config ⟨p.allocation, basis⟩
  pure { plan with rule := p.rule }

end Plan

end Freight
