import Freight.Model
import Freight.Cause.Message

/-!
# Refused models in words

The one place where the reasons for refusing a model are worded.
-/

namespace Freight

def ModelPart.label : ModelPart → String
  | scoreRow => "score row"
  | scoreMatrix => "score matrix"
  | objective => "objective"
  | inequalityRow => "inequality row"
  | inequalityBounds => "inequality rhs"
  | equalityRow => "equality row"
  | equalityBounds => "equality rhs"
  | variableBounds => "bounds"

def ModelError.message : ModelError Float → String
  | emptyObjective => "objective has no coefficients"
  | wrongLength part expected actual =>
    part.label ++ s!" has length {actual}, expected {expected}"
  | notFinite part index => part.label ++ s!" contains a non-finite value at {index}"
  | crossedBounds index lower upper =>
    s!"variable {index} has lower bound " ++ Decimal.prose lower ++ " above upper bound " ++
      Decimal.prose upper
  | planning failure => failure.cause.message

end Freight
