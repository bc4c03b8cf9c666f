import Freight.Tableau
import Freight.Pivot
import Freight.Start.Rule

/-!
# Plans

A plan is what a planner hands out: the shipped quantities with everything needed to read them,
check them or take them up again. It keeps the balanced supplies, demands and costs it was made for,
the basis it rests on, and how it was found. Plans are also read from outside, so the parts of a
plan need not agree; see `Freight.Plan.Check`.
-/

namespace Freight

structure Route (α : Type) where
  sourceIndex : Nat
  destinationIndex : Nat
  source : String
  destination : String
  quantity : α
  unitCost : α
  routeCost : α
  /-- The route starts or ends at an added line. -/
  isDummy : Bool

def Route.priced {α : Type} [Scalar α] (cell : Cell) (source destination : String)
    (quantity unitCost : α) (isDummy : Bool) : Route α :=
  ⟨cell.row, cell.col, source, destination, quantity, unitCost, quantity * unitCost, isDummy⟩

structure Plan (α : Type) where
  totalCost : α
  allocation : Table α
  costs : Table α
  supply : List α
  demand : List α
  sourceNames : List String
  destinationNames : List String
  routes : List (Route α)
  isOptimal : Bool
  iterations : Nat
  rule : StartRule
  balance : Balance α
  basicCells : List Cell
  /-- The total cost of the first plan and after each pivot. -/
  costHistory : List α

/-- Where an outcome's quantities exceed the tolerance, as routes of a tableau. -/
def Tableau.routes? {α : Type} [Scalar α] (t : Tableau α) (tol : α) (allocation : Table α) :
    Option (List (Route α)) :=
  (allocation.loaded tol).mapM fun c => do
    let source ← t.sourceNames[c.row]?
    let destination ← t.destinationNames[c.col]?
    let quantity ← allocation.get? c
    let unitCost ← t.costs.get? c
    pure (Route.priced c source destination quantity unitCost (t.isDummy c))

namespace Plan

variable {α : Type}

/-- The plan that an outcome amounts to. -/
def ofOutcome? [Scalar α] (t : Tableau α) (tol : α) (rule : StartRule) (outcome : Outcome α) :
    Option (Plan α) := do
  let allocation := outcome.position.allocation
  let routes ← t.routes? tol allocation
  let totalCost ← allocation.cost? t.costs
  pure
    { totalCost, allocation, routes, rule
      costs := t.costs
      supply := t.supply
      demand := t.demand
      sourceNames := t.sourceNames
      destinationNames := t.destinationNames
      isOptimal := outcome.ending = .optimal
      iterations := outcome.iterations
      balance := t.balance
      basicCells := outcome.position.basis.cells
      costHistory := outcome.costHistory }

def tableau (p : Plan α) : Tableau α :=
  ⟨p.supply, p.demand, p.costs, p.sourceNames, p.destinationNames, p.balance⟩

/-- The basis of the stored cells, unless one lies outside the quantities. -/
def basis? (p : Plan α) : Option Basis :=
  Basis.ofCells? p.allocation.rows p.allocation.cols p.basicCells

/-- The routes between given lines. -/
def activeRoutes (p : Plan α) : List (Route α) := p.routes.filter fun r => !r.isDummy

def status (p : Plan α) : String := if p.isOptimal then "optimal" else "feasible"

def message (p : Plan α) : String :=
  if p.isOptimal then "Optimal solution found" else "Initial solution found"

variable [Scalar α]

/-- What the given sources ship together: all supplies less what an added source ships. -/
def totalSupply (p : Plan α) : α :=
  match p.balance with
  | .dummySource quantity => Scalar.sum p.supply - quantity
  | _ => Scalar.sum p.supply

/-- What the given destinations receive together: all demands less what an added destination
receives. -/
def totalDemand (p : Plan α) : α :=
  match p.balance with
  | .dummyDestination quantity => Scalar.sum p.demand - quantity
  | _ => Scalar.sum p.demand

end Plan

end Freight
