import Freight.Plan

/-!
# Checks of a plan

Three checks that do not trust the planner. `Table.violations?` lists where quantities break the
supplies and demands; `Table.isOptimal?` asks whether a basis proves that no plan is cheaper;
`Plan.check` decides whether a plan from outside hangs together well enough to be taken up again.
-/

namespace Freight

inductive Violation (α : Type) where
  | negativeQuantity (cell : Cell) (quantity : α)
  | rowSum (row : Nat) (expected actual : α)
  | columnSum (column : Nat) (expected actual : α)

variable {α : Type} [Scalar α]

namespace Table

/-- The violation of one line's quantity, if its sum is off by more than the tolerance. -/
def sumViolation (tol expected actual : α) (violation : α → Violation α) : List (Violation α) :=
  if tol < Scalar.distance (actual - expected) then [violation actual] else []

/-- Where quantities break supplies and demands by more than a tolerance: negative routes, then
rows, then columns. -/
def violations? (t : Table α) (supply demand : List α) (tol : α) :
    Option (List (Violation α)) := do
  let negative ← t.cells.mapM fun c => do
    let q ← t.get? c
    pure (if q < -tol then [Violation.negativeQuantity c q] else [])
  let rows ← supply.zipIdx.mapM fun (s, i) => do
    pure (sumViolation tol s (← t.rowSum? i) (.rowSum i s))
  let columns ← demand.zipIdx.mapM fun (d, j) => do
    pure (sumViolation tol d (← t.columnSum? j) (.columnSum j d))
  pure (negative.flatten ++ rows.flatten ++ columns.flatten)

/-- Whether each of the given vacant cells ships no more than the tolerance and has an opportunity
cost of at least minus the tolerance. The first cell that fails decides. -/
def vacantAreIdle? (t costs : Table α) (p : Potentials α) (tol : α) : List Cell → Option Bool
  | [] => some true
  | c :: cs => do
    if tol < (← t.get? c) then pure false
    else if (← p.opportunityCost? costs c) < -tol then pure false
    else vacantAreIdle? t costs p tol cs

/-- Whether a basis proves that the quantities cannot be shipped for less. -/
def isOptimal? (t costs : Table α) (b : Basis) (tol : α) : Except (Cause α) Bool := do
  let p ← Potentials.ofBasis b costs
  within (t.vacantAreIdle? costs p tol b.vacant)

end Table

namespace Plan

/-- The sizes of a plan's parts, with the sizes that its supplies and demands call for. -/
def sizes (p : Plan α) : List (PlanPart × Nat × Nat) :=
  let rows := p.supply.length
  let cols := p.demand.length
  [(.allocationRows, rows, p.allocation.rows),
    (.allocationColumns, cols, p.allocation.cols),
    (.allocationBuffer, Table.entryCount rows cols p.allocation.data.size, p.allocation.data.size),
    (.costRows, rows, p.costs.rows),
    (.costColumns, cols, p.costs.cols),
    (.costBuffer, Table.entryCount rows cols p.costs.data.size, p.costs.data.size),
    (.sourceNames, rows, p.sourceNames.length),
    (.destinationNames, cols, p.destinationNames.length)]

/-- There are lines on both sides, and every part has the size that they call for. -/
def checkShape (p : Plan α) : Except (Cause α) Unit :=
  if p.supply.isEmpty then .error (.noLines .supply)
  else if p.demand.isEmpty then .error (.noLines .demand)
  else match p.sizes.find? (fun s => s.2.1 ≠ s.2.2) with
    | some (part, expected, actual) => .error (.planShape part expected actual)
    | none => .ok ()

/-- The cost of a route is an amount, and its quantity is finite. -/
def checkCell (p : Plan α) (c : Cell) : Except (Cause α) Unit := do
  let cost ← within (p.costs.get? c)
  if !Scalar.isAmount cost then .error (.invalidCost c cost)
  else
    let quantity ← within (p.allocation.get? c)
    if !Scalar.isFinite quantity then .error (.invalidShipment c quantity) else .ok ()

/-- The basic cells lie inside the tableau. -/
def checkBasicCells (p : Plan α) : Except (Cause α) Unit :=
  let rows := p.supply.length
  let cols := p.demand.length
  match p.basicCells.find? (fun c => rows ≤ c.row || cols ≤ c.col) with
  | some c => .error (.basicCellOutside c rows cols)
  | none => .ok ()

/-- The quantities meet supplies and demands, up to the tolerance times the total supply or one. -/
def checkQuantities (p : Plan α) (tol : α) : Except (Cause α) Unit := do
  let scale := Scalar.greatest (Scalar.sum p.supply) 1
  let violations ← within (p.allocation.violations? p.supply p.demand (tol * scale))
  if violations.isEmpty then .ok () else .error (.infeasible violations.length)

/-- Whether a plan hangs together; if not, the first reason. -/
def check (p : Plan α) (tol : α) : Except (Cause α) Unit := do
  p.checkShape
  Problem.checkQuantities .supply p.supply
  Problem.checkQuantities .demand p.demand
  (Cell.grid p.supply.length p.demand.length).forM p.checkCell
  p.checkBasicCells
  p.checkQuantities tol

end Plan

end Freight
