import Freight.Cause

/-!
# Problems

A transport problem as a caller states it: supplies, demands and the unit costs between them, which
need not fit together. `Problem.check` finds the first thing that is wrong, in the order shape,
values, totals, names; `Problem.costTable` gives the costs as a table once nothing is.
-/

namespace Freight

structure Problem (α : Type) where
  supply : List α
  demand : List α
  costs : List (List α)
  sourceNames : Option (List String)
  destinationNames : Option (List String)
  name : String
  description : String

def untitled : String := "Untitled Transportation Problem"

namespace Problem

variable {α : Type}

def unnamed (supply demand : List α) (costs : List (List α)) : Problem α :=
  ⟨supply, demand, costs, none, none, untitled, ""⟩

/-- The name of a source: the one given, or its number from one. -/
def sourceName (p : Problem α) (i : Nat) : String :=
  (p.sourceNames.bind (·[i]?)).getD ("Source " ++ toString (i + 1))

/-- The name of a destination: the one given, or its number from one. -/
def destinationName (p : Problem α) (j : Nat) : String :=
  (p.destinationNames.bind (·[j]?)).getD ("Destination " ++ toString (j + 1))

def sourceLabels (p : Problem α) : List String :=
  (List.range p.supply.length).map p.sourceName

def destinationLabels (p : Problem α) : List String :=
  (List.range p.demand.length).map p.destinationName

/-- Names, where given, are as many as the lines of their side. -/
def checkNames (side : Side) (expected : Nat) : Option (List String) → Except (Cause α) Unit
  | some names =>
    if names.length = expected then .ok () else .error (.nameCount side expected names.length)
  | none => .ok ()

variable [Scalar α]

def totalSupply (p : Problem α) : α := Scalar.sum p.supply

def totalDemand (p : Problem α) : α := Scalar.sum p.demand

def isBalanced (p : Problem α) (tol : α) : Bool :=
  decide (Scalar.distance (p.totalSupply - p.totalDemand) ≤ tol)

/-- There are lines on both sides, and the costs have a row for each source with an entry for each
destination. -/
def checkShape (p : Problem α) : Except (Cause α) Unit :=
  let m := p.supply.length
  let n := p.demand.length
  if m = 0 then .error (.noLines .supply)
  else if n = 0 then .error (.noLines .demand)
  else if p.costs.length ≠ m then .error (.rowCount m p.costs.length)
  else match p.costs.zipIdx.find? (fun r => r.1.length ≠ n) with
    | some (row, i) => .error (.columnCount i n row.length)
    | none => .ok ()

/-- All quantities of a side are amounts. -/
def checkQuantities (side : Side) (xs : List α) : Except (Cause α) Unit :=
  match Scalar.firstNonAmount? xs with
  | some (i, x) => .error (.invalidQuantity side i x)
  | none => .ok ()

/-- All unit costs from row `i` on are amounts. -/
def checkCosts (i : Nat) : List (List α) → Except (Cause α) Unit
  | [] => .ok ()
  | row :: rows =>
    match Scalar.firstNonAmount? row with
    | some (j, x) => .error (.invalidCost ⟨i, j⟩ x)
    | none => checkCosts (i + 1) rows

/-- The total of a side is finite. -/
def checkTotal (side : Side) (total : α) : Except (Cause α) Unit :=
  if Scalar.isFinite total then .ok () else .error (.infiniteTotal side total)

/-- Whether the problem can be planned for; if not, the first reason. -/
def check (p : Problem α) : Except (Cause α) Unit := do
  p.checkShape
  checkQuantities .supply p.supply
  checkQuantities .demand p.demand
  checkCosts 0 p.costs
  checkTotal .supply p.totalSupply
  checkTotal .demand p.totalDemand
  checkNames .supply p.supply.length p.sourceNames
  checkNames .demand p.demand.length p.destinationNames

/-- The unit costs of a problem that can be planned for. -/
def costTable (p : Problem α) : Except (Cause α) (Table α) := do
  p.check
  match Table.ofRows? p.costs with
  | some t => .ok t
  | none => .error (.rowCount p.supply.length p.costs.length)

end Problem

end Freight
