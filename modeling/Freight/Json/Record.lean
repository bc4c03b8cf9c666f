import Freight.Json.Value

/-!
# Records in JSON

How the values of a record are taken from a JSON value. No kind of value turns into another: a text
is never read as a number, and null stands only for a value that may be missing. A record is an
object with the record's names, or a list with its values in their order. Other names are passed
over; a name of the record that occurs twice makes the object ambiguous, and it is refused.
-/

namespace Freight.Json

def asBool? : Json → Option Bool
  | bool b => some b
  | _ => none

def asFloat? : Json → Option Float
  | number n => n.toFloat?
  | _ => none

/-- The natural number that a value is, below `2 ^ 64`. -/
def asNat? : Json → Option Nat
  | number n => n.toNat?
  | _ => none

def asString? : Json → Option String
  | string s => s
  | _ => none

/-- The elements of a list, each read by the same rule. -/
def asList? {α : Type} (read : Json → Option α) : Json → Option (List α)
  | array elements => elements.mapM read
  | _ => none

/-- A value that may be missing: null says so. -/
def asOption? {α : Type} (read : Json → Option α) : Json → Option (Option α)
  | null => some none
  | v => (read v).map some

/-- The values that an object or a list gives for the names of a record. -/
structure Fields where
  members : List (String × Json)

namespace Fields

/-- The members of an object that carry one of the names. Every member must have a name, and none of
the record's names may occur twice. -/
def ofMembers? (names : List String) (members : List (Option String × Json)) : Option Fields := do
  let named ← members.mapM fun (k, v) => k.map (·, v)
  let known := named.filter fun m => names.contains m.1
  if (known.map Prod.fst).Nodup then some ⟨known⟩ else none

/-- The fields of a record: those of an object by name, those of a list by position. -/
def ofJson? (names : List String) : Json → Option Fields
  | object members => ofMembers? names members
  | array elements => if elements.length ≤ names.length then some ⟨names.zip elements⟩ else none
  | _ => none

def required? {α : Type} (fields : Fields) (name : String) (read : Json → Option α) : Option α :=
  (fields.members.lookup name).bind read

/-- A field that has a value of its own when it is missing. -/
def optional? {α : Type} (fields : Fields) (name : String) (default : α)
    (read : Json → Option α) : Option α :=
  match fields.members.lookup name with
  | some v => read v
  | none => some default

end Fields

end Freight.Json
