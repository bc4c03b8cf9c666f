import Freight.Cause
import Freight.Decimal.Layout

/-!
# Causes in words

The one place where causes are worded. Quantities are written in prose, with the fewest digits that
read back.
-/

namespace Freight

def Kind.label : Kind → String
  | validation => "validation"
  | internal => "internal"
  | nonConvergence => "non_convergence"

def Side.lines : Side → String
  | supply => "sources"
  | demand => "destinations"

def Side.quantity : Side → String
  | supply => "supply"
  | demand => "demand"

def Side.line : Side → String
  | supply => "source"
  | demand => "destination"

def PlanPart.label : PlanPart → String
  | allocationRows => "allocation rows"
  | allocationColumns => "allocation columns"
  | allocationBuffer => "allocation buffer"
  | costRows => "cost rows"
  | costColumns => "cost columns"
  | costBuffer => "cost buffer"
  | sourceNames => "source names"
  | destinationNames => "destination names"

def Cell.label (c : Cell) : String := "(" ++ toString c.row ++ ", " ++ toString c.col ++ ")"

/-- A quantity that should have been an amount. -/
def expectedAmount (what : String) (value : Float) : String :=
  what ++ " must be a non-negative number, got " ++ Decimal.prose value

def Cause.message : Cause Float → String
  | noLines side => "problem has no " ++ side.lines
  | rowCount expected actual =>
    s!"cost matrix has {actual} rows but there are {expected} sources"
  | columnCount row expected actual =>
    s!"cost matrix row {row} has {actual} entries but there are {expected} destinations"
  | invalidQuantity side index value =>
    expectedAmount (side.quantity ++ " at " ++ side.line ++ " " ++ toString index) value
  | invalidCost cell value => expectedAmount ("cost of route " ++ cell.label) value
  | nameCount side expected actual =>
    side.line ++ s!" list has {actual} names but {expected} entries"
  | infiniteTotal side value =>
    "total " ++ side.quantity ++ " overflows to " ++ Decimal.prose value
  | planShape part expected actual =>
    "solution " ++ part.label ++ s!" has {actual} entries, expected {expected}"
  | invalidShipment cell value =>
    "quantity on route " ++ cell.label ++ " must be finite, got " ++ Decimal.prose value
  | basicCellOutside cell rows cols =>
    "basic cell " ++ cell.label ++ s!" is outside the {rows}x{cols} tableau"
  | infeasible violations => s!"allocation violates {violations} supply/demand constraints"
  | notBasic cell =>
    "allocation is not a basic solution: route " ++ cell.label ++ " closes a cycle"
  | invalidTolerance value =>
    "invalid solver configuration: tolerance must be positive and finite, got " ++
      Decimal.prose value
  | zeroIterationFactor => "invalid solver configuration: iteration factor must be at least 1"
  | basisSize expected actual => s!"basic cell set has {actual} cells, expected {expected}"
  | disconnected reached expected =>
    s!"basic cell set is disconnected: reached {reached} of {expected} rows and columns"
  | cyclic cell => "basic cell " ++ cell.label ++ " closes a cycle"
  | noLoop cell => "no closed loop through entering cell " ++ cell.label
  | notConverged iterations =>
    s!"did not reach certified optimum after {iterations} iterations"
  | outside => "position outside its table"

end Freight
