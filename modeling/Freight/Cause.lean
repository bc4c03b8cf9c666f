import Freight.Table

/-!
# Why a plan is refused

The reasons for which a problem, a configuration, a plan or a set of basic cells is turned down, as
data. They fall into three kinds: input that cannot be planned for, basic cells that do not hang
together, and a search that ran out of budget.
-/

namespace Freight

inductive Kind where
  | validation
  /-- The basic cells are inconsistent, or a position lies outside its table. -/
  | internal
  | nonConvergence
deriving DecidableEq

inductive Side where
  | supply
  | demand
deriving DecidableEq

/-- The parts of a plan whose sizes must fit the numbers of its supplies and demands. -/
inductive PlanPart where
  | allocationRows
  | allocationColumns
  | allocationBuffer
  | costRows
  | costColumns
  | costBuffer
  | sourceNames
  | destinationNames
deriving DecidableEq

/-- Why something is refused. -/
inductive Cause (α : Type) where
  | noLines (side : Side)
  | rowCount (expected actual : Nat)
  | columnCount (row expected actual : Nat)
  | invalidQuantity (side : Side) (index : Nat) (value : α)
  | invalidCost (cell : Cell) (value : α)
  | nameCount (side : Side) (expected actual : Nat)
  | infiniteTotal (side : Side) (value : α)
  | planShape (part : PlanPart) (expected actual : Nat)
  | invalidShipment (cell : Cell) (value : α)
  | basicCellOutside (cell : Cell) (rows cols : Nat)
  /-- The quantities violate so many of the constraints. -/
  | infeasible (violations : Nat)
  | notBasic (cell : Cell)
  | invalidTolerance (value : α)
  | zeroIterationFactor
  | basisSize (expected actual : Nat)
  | disconnected (reached expected : Nat)
  | cyclic (cell : Cell)
  | noLoop (cell : Cell)
  /-- So many pivots did not reach a certified optimum. -/
  | notConverged (iterations : Nat)
  | outside

def Cause.kind {α : Type} : Cause α → Kind
  | basisSize .. | disconnected .. | cyclic .. | noLoop .. | outside => .internal
  | notConverged .. => .nonConvergence
  | _ => .validation

/-- The result of a lookup, where failure means that a position lies outside its table. -/
def within {α β : Type} : Option β → Except (Cause α) β
  | some x => .ok x
  | none => .error .outside

end Freight
