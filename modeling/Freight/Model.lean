import Freight.Solve

/-!
# Models next to transport

Assignments and linear programs share a sense of optimisation and the reasons for which a model is
refused.
-/

namespace Freight

inductive Sense where
  | minimize
  | maximize
deriving DecidableEq

def Sense.label : Sense → String
  | minimize => "minimize"
  | maximize => "maximize"

/-- The parts of a model that can be malformed. -/
inductive ModelPart where
  | scoreRow
  | scoreMatrix
  | objective
  | inequalityRow
  | inequalityBounds
  | equalityRow
  | equalityBounds
  | variableBounds
deriving DecidableEq

inductive ModelError (α : Type) where
  | emptyObjective
  | wrongLength (part : ModelPart) (expected actual : Nat)
  | notFinite (part : ModelPart) (index : Nat)
  | crossedBounds (index : Nat) (lower upper : α)
  | planning (failure : Failure α)

/-- The entries of a part are finite; `offset` is the position of the first one. -/
def checkFinite {α : Type} [Scalar α] (part : ModelPart) (offset : Nat) (xs : List α) :
    Except (ModelError α) Unit :=
  match xs.findIdx? (fun x => !Scalar.isFinite x) with
  | some i => .error (.notFinite part (offset + i))
  | none => .ok ()

/-- A part has the length that is expected of it. -/
def checkLength {α : Type} (part : ModelPart) (expected actual : Nat) :
    Except (ModelError α) Unit :=
  if actual = expected then .ok () else .error (.wrongLength part expected actual)

end Freight
