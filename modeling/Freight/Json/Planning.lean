import Freight.Json.Record
import Freight.Json.Writer
import Freight.Config
import Freight.Model.LinearProgram

/-!
# The JSON shapes of problems, settings and plans

Each type has one shape: an object with a member for each field. Writing takes a rule for the
scalars, so that callers decide how values without digits appear, and reading takes one in turn.
-/

namespace Freight

open Json (record list option text nat)

variable {α : Type}

def Cell.toJson (c : Cell) : Json := .array [nat c.row, nat c.col]

def Cell.ofJson? : Json → Option Cell
  | .array [i, j] => do pure ⟨← i.asNat?, ← j.asNat?⟩
  | _ => none

/-- A table as its dimensions and its buffer. -/
def Table.toJson (scalar : α → Json) (t : Table α) : Json :=
  record [("data", list scalar t.data.toList), ("rows", nat t.rows), ("cols", nat t.cols)]

/-- The table that an object describes. Its dimensions need not agree with its buffer. -/
def Table.ofJson? (scalar : Json → Option α) (v : Json) : Option (Table α) := do
  let fields ← Json.Fields.ofJson? ["data", "rows", "cols"] v
  let data ← fields.required? "data" (Json.asList? scalar)
  let rows ← fields.required? "rows" Json.asNat?
  let cols ← fields.required? "cols" Json.asNat?
  pure ⟨rows, cols, data.toArray⟩

def StartRule.toJson (rule : StartRule) : Json := text rule.label

/-- The rule of a name. The name may also stand as the only member of an object, with null. -/
def StartRule.ofJson? : Json → Option StartRule
  | .string (some s) => StartRule.ofLabel? s
  | .object [(some s, .null)] => StartRule.ofLabel? s
  | _ => none

def Config.toJson (scalar : α → Json) (c : Config α) : Json :=
  record
    [("strategy", c.rule.toJson), ("optimize", .bool c.optimize),
      ("tolerance", scalar c.tolerance), ("max_iterations", option nat c.maxIterations),
      ("iteration_factor", nat c.iterationFactor)]

/-- The settings that an object describes; those that it leaves out are taken from `standard`. -/
def Config.ofJson? (scalar : Json → Option α) (standard : Config α) (v : Json) :
    Option (Config α) := do
  let fields ← Json.Fields.ofJson?
    ["strategy", "optimize", "tolerance", "max_iterations", "iteration_factor"] v
  let rule ← fields.optional? "strategy" standard.rule StartRule.ofJson?
  let optimize ← fields.optional? "optimize" standard.optimize Json.asBool?
  let tolerance ← fields.optional? "tolerance" standard.tolerance scalar
  let maxIterations ← fields.optional? "max_iterations" standard.maxIterations
    (Json.asOption? Json.asNat?)
  let iterationFactor ← fields.optional? "iteration_factor" standard.iterationFactor Json.asNat?
  pure ⟨rule, optimize, tolerance, maxIterations, iterationFactor⟩

def Problem.members (scalar : α → Json) (p : Problem α) : List (String × Json) :=
  [("supply", list scalar p.supply), ("demand", list scalar p.demand),
    ("costs", list (list scalar) p.costs),
    ("source_names", option (list text) p.sourceNames),
    ("destination_names", option (list text) p.destinationNames),
    ("name", text p.name), ("description", text p.description)]

def Problem.toJson (scalar : α → Json) (p : Problem α) : Json := record (p.members scalar)

/-- The problem that an object describes. Supplies, demands and costs must be there. -/
def Problem.ofJson? (scalar : Json → Option α) (v : Json) : Option (Problem α) := do
  let names := Json.asOption? (Json.asList? Json.asString?)
  let fields ← Json.Fields.ofJson?
    ["supply", "demand", "costs", "source_names", "destination_names", "name", "description"] v
  let supply ← fields.required? "supply" (Json.asList? scalar)
  let demand ← fields.required? "demand" (Json.asList? scalar)
  let costs ← fields.required? "costs" (Json.asList? (Json.asList? scalar))
  let sourceNames ← fields.optional? "source_names" none names
  let destinationNames ← fields.optional? "destination_names" none names
  let name ← fields.optional? "name" untitled Json.asString?
  let description ← fields.optional? "description" "" Json.asString?
  pure ⟨supply, demand, costs, sourceNames, destinationNames, name, description⟩

/-- A balance as an object that names its kind. -/
def Balance.toJson (scalar : α → Json) : Balance α → Json
  | balanced => record [("kind", text "balanced")]
  | dummySource q => record [("kind", text "dummy_source"), ("quantity", scalar q)]
  | dummyDestination q => record [("kind", text "dummy_destination"), ("quantity", scalar q)]

/-- The balance that an object describes. A list gives kind and quantity by position, and then only
what the kind calls for. -/
def Balance.ofJson? (scalar : Json → Option α) (v : Json) : Option (Balance α) := do
  let fields ← Json.Fields.ofJson? ["kind", "quantity"] v
  let kind ← fields.required? "kind" Json.asString?
  if kind = "balanced" then
    match v with
    | .array [_, _] => none
    | _ => pure balanced
  else if kind = "dummy_source" then (fields.required? "quantity" scalar).map dummySource
  else if kind = "dummy_destination" then
    (fields.required? "quantity" scalar).map dummyDestination
  else none

def Route.toJson (scalar : α → Json) (r : Route α) : Json :=
  record
    [("source_index", nat r.sourceIndex), ("destination_index", nat r.destinationIndex),
      ("source", text r.source), ("destination", text r.destination),
      ("quantity", scalar r.quantity), ("unit_cost", scalar r.unitCost),
      ("route_cost", scalar r.routeCost), ("is_dummy", .bool r.isDummy)]

/-- The route that an object describes. Its cost need not follow from the rest. -/
def Route.ofJson? (scalar : Json → Option α) (v : Json) : Option (Route α) := do
  let fields ← Json.Fields.ofJson?
    ["source_index", "destination_index", "source", "destination", "quantity", "unit_cost",
      "route_cost", "is_dummy"] v
  let sourceIndex ← fields.required? "source_index" Json.asNat?
  let destinationIndex ← fields.required? "destination_index" Json.asNat?
  let source ← fields.required? "source" Json.asString?
  let destination ← fields.required? "destination" Json.asString?
  let quantity ← fields.required? "quantity" scalar
  let unitCost ← fields.required? "unit_cost" scalar
  let routeCost ← fields.required? "route_cost" scalar
  let isDummy ← fields.required? "is_dummy" Json.asBool?
  pure ⟨sourceIndex, destinationIndex, source, destination, quantity, unitCost, routeCost, isDummy⟩

def Plan.members (scalar : α → Json) (p : Plan α) : List (String × Json) :=
  [("total_cost", scalar p.totalCost), ("allocation", p.allocation.toJson scalar),
    ("costs", p.costs.toJson scalar), ("supply", list scalar p.supply),
    ("demand", list scalar p.demand), ("source_names", list text p.sourceNames),
    ("destination_names", list text p.destinationNames),
    ("routes", list (Route.toJson scalar) p.routes), ("is_optimal", .bool p.isOptimal),
    ("iterations", nat p.iterations), ("strategy", p.rule.toJson),
    ("balance", p.balance.toJson scalar), ("basic_cells", list Cell.toJson p.basicCells),
    ("cost_history", list scalar p.costHistory)]

def Plan.toJson (scalar : α → Json) (p : Plan α) : Json := record (p.members scalar)

/-- The plan that an object describes. All fields must be there; nothing makes them agree. -/
def Plan.ofJson? (scalar : Json → Option α) (v : Json) : Option (Plan α) := do
  let scalars := Json.asList? scalar
  let names := Json.asList? Json.asString?
  let fields ← Json.Fields.ofJson?
    ["total_cost", "allocation", "costs", "supply", "demand", "source_names",
      "destination_names", "routes", "is_optimal", "iterations", "strategy", "balance",
      "basic_cells", "cost_history"] v
  let totalCost ← fields.required? "total_cost" scalar
  let allocation ← fields.required? "allocation" (Table.ofJson? scalar)
  let costs ← fields.required? "costs" (Table.ofJson? scalar)
  let supply ← fields.required? "supply" scalars
  let demand ← fields.required? "demand" scalars
  let sourceNames ← fields.required? "source_names" names
  let destinationNames ← fields.required? "destination_names" names
  let routes ← fields.required? "routes" (Json.asList? (Route.ofJson? scalar))
  let isOptimal ← fields.required? "is_optimal" Json.asBool?
  let iterations ← fields.required? "iterations" Json.asNat?
  let rule ← fields.required? "strategy" StartRule.ofJson?
  let balance ← fields.required? "balance" (Balance.ofJson? scalar)
  let basicCells ← fields.required? "basic_cells" (Json.asList? Cell.ofJson?)
  let costHistory ← fields.required? "cost_history" scalars
  pure
    { totalCost, allocation, costs, supply, demand, sourceNames, destinationNames, routes,
      isOptimal, iterations, rule, balance, basicCells, costHistory }

def VariableBound.toJson (scalar : α → Json) (b : VariableBound α) : Json :=
  record [("lower", option scalar b.lower), ("upper", option scalar b.upper)]

def LinearProgram.toJson (scalar : α → Json) (p : LinearProgram α) : Json :=
  record
    [("objective", list scalar p.objective),
      ("inequality_matrix", list (list scalar) p.inequalities),
      ("inequality_rhs", list scalar p.inequalityBounds),
      ("equality_matrix", list (list scalar) p.equalities),
      ("equality_rhs", list scalar p.equalityBounds),
      ("bounds", list (VariableBound.toJson scalar) p.bounds),
      ("sense", text p.sense.label)]

end Freight
