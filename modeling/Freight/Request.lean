import Freight.Cause.Message
import Freight.Json.Planning
import Freight.Json.Reader
import Freight.Text.Utf8

/-!
# Requests and responses

Planning for callers that speak JSON. A request is one object with the members of a problem and,
under `config`, the settings. The response says in one flat object how it went; when planning fails
with a best plan, the plan comes along.

The members of a request other than its settings are held while the object is read, so they must be
readable as they stand, unknown ones included, and not nested too deeply.
-/

namespace Freight

structure Request (α : Type) where
  problem : Problem α
  config : Config α

structure Response (α : Type) where
  success : Bool
  message : String
  totalCost : α
  allocation : List (List α)
  routes : List (Route α)
  isOptimal : Bool
  iterations : Nat
  initialMethod : Option String
  errorKind : Option Kind

namespace Response

variable {α : Type}

def ofPlan (plan : Plan α) (success : Bool) (message : String) (errorKind : Option Kind) :
    Response α :=
  ⟨success, message, plan.totalCost, plan.allocation.bufferRows, plan.routes, plan.isOptimal,
    plan.iterations, some plan.rule.title, errorKind⟩

def refused [Scalar α] (message : String) (kind : Kind) : Response α :=
  ⟨false, message, 0, [], [], false, 0, none, some kind⟩

/-- The response to a failure: with the best plan, if there is one. -/
def ofFailure (failure : Failure Float) : Response Float :=
  match failure.best with
  | some plan => ofPlan plan false failure.cause.message (some failure.cause.kind)
  | none => refused failure.cause.message failure.cause.kind

def toJson (scalar : α → Json) (r : Response α) : Json :=
  .record
    [("success", .bool r.success), ("message", .text r.message),
      ("total_cost", scalar r.totalCost),
      ("allocation", .list (.list scalar) r.allocation),
      ("routes", .list (Route.toJson scalar) r.routes), ("is_optimal", .bool r.isOptimal),
      ("iterations", .nat r.iterations), ("initial_method", .option .text r.initialMethod),
      ("error_kind", .option (fun k => .text k.label) r.errorKind)]

end Response

namespace Request

/-- How deeply arrays and objects may stand inside one another, the request itself included. -/
def greatestDepth : Nat := 127

def toJson {α : Type} (scalar : α → Json) (r : Request α) : Json :=
  .record (r.problem.members scalar ++ [("config", r.config.toJson scalar)])

/-- The settings among the members of a request: the standard ones if there are none. -/
def configOf? (members : List (Option String × Json)) : Option (Config Float) :=
  match members.filter fun m => m.1 = some "config" with
  | [] => some .standard
  | [(_, v)] => Config.ofJson? Json.asFloat? .standard v
  | _ => none

def ofJson? : Json → Option (Request Float)
  | .object members => do
    let held := Json.object (members.filter fun m => m.1 ≠ some "config")
    if held.isReadable && held.depth ≤ greatestDepth then
      let problem ← Problem.ofJson? Json.asFloat? held
      let config ← configOf? members
      pure ⟨problem, config⟩
    else none
  | _ => none

def respond (r : Request Float) : Response Float :=
  match r.problem.solve r.config with
  | .ok plan => .ofPlan plan true plan.message none
  | .error failure => .ofFailure failure

def respondText (s : String) : Response Float :=
  match (Json.parse? s).bind ofJson? with
  | some r => r.respond
  | none => .refused "invalid request" .validation

/-- The response to the bytes of a request, or to none at all. A zero byte ends the request. -/
def respondBytes : Option (List Nat) → Response Float
  | none => .refused "request is null" .validation
  | some bytes =>
    match Utf8.decode (bytes.takeWhile (· ≠ 0)) with
    | .ok s => respondText s
    | .error e => .refused ("request is not valid UTF-8: " ++ e.message) .validation

end Request

end Freight
