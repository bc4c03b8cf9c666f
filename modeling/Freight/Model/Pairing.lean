import Freight.Model.Assignment

/-!
# Rival pairings

What an assignment is compared with: every other way to pair rows with columns, each of them at most
once and as many as the shorter side has. Which total score is the better one depends on the sense,
and a margin says how much better it must be.
-/

namespace Freight

/-- The cells pair rows with columns, each of them at most once, and as many as there can be. -/
structure IsPairing (rows cols : Nat) (pairs : List Cell) : Prop where
  inside : ∀ c ∈ pairs, c ∈ Cell.grid rows cols
  rows_nodup : (pairs.map Cell.row).Nodup
  cols_nodup : (pairs.map Cell.col).Nodup
  length_eq : pairs.length = min rows cols

variable {α : Type} [Scalar α]

/-- One total score is better than another by more than a margin. -/
def Sense.Beats (sense : Sense) (margin rival total : α) : Prop :=
  match sense with
  | .minimize => rival + margin < total
  | .maximize => total + margin < rival

instance (sense : Sense) (margin rival total : α) : Decidable (sense.Beats margin rival total) :=
  match sense with
  | .minimize => inferInstanceAs (Decidable (rival + margin < total))
  | .maximize => inferInstanceAs (Decidable (total + margin < rival))

namespace Assignment

/-- The total score of given pairs, unless one lies outside the scores. -/
def totalOf? (scores : List (List α)) (pairs : List Cell) : Option α :=
  (pairs.mapM (scoreAt? scores)).map Scalar.sum

/-- Every pairing has a total score, and none is better by more than a margin. -/
def Unbeaten (sense : Sense) (scores : List (List α)) (cols : Nat) (margin total : α) : Prop :=
  ∀ pairs, IsPairing scores.length cols pairs →
    ∃ rival, totalOf? scores pairs = some rival ∧ ¬ sense.Beats margin rival total

end Assignment

end Freight
