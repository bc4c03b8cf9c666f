import Freight.Model

/-!
# Assignments

Pairing workers with tasks is a transport problem with unit supplies and unit demands. Scores are
shifted so that costs are not negative: the distance from the lowest score when scores are to be
low, and from the highest when they are to be high. A route that carries more than one half is a
pair. Whatever plan planning hands out, its pairing is called a success.
-/

namespace Freight

structure Assignment (α : Type) where
  /-- The pairing is said to be optimal. -/
  success : Bool
  pairs : List Cell
  scores : List α
  totalScore : α

namespace Assignment

variable {α : Type} [Scalar α]

def message : String := "Optimal assignment found"

/-- The rows of scores from row `i` on are of one length, and all scores are finite. -/
def checkScores (cols i : Nat) : List (List α) → Except (ModelError α) Unit
  | [] => .ok ()
  | row :: rows => do
    checkLength .scoreRow cols row.length
    checkFinite .scoreMatrix (i * cols) row
    checkScores cols (i + 1) rows

/-- The scores as costs. -/
def costs (sense : Sense) (scores : List (List α)) : List (List α) :=
  match sense with
  | .minimize =>
    let lowest := (Scalar.minimum? scores.flatten).getD 0
    scores.map fun row => row.map (· - lowest)
  | .maximize =>
    let highest := (Scalar.maximum? scores.flatten).getD 0
    scores.map fun row => row.map (highest - ·)

/-- The transport problem of a pairing: each row ships one unit and each column takes one. -/
def problem (sense : Sense) (scores : List (List α)) : Problem α :=
  let cols := (scores.head?.map List.length).getD 0
  { Problem.unnamed (List.replicate scores.length 1) (List.replicate cols 1)
      (costs sense scores) with name := "Assignment" }

/-- The pairs of a plan: the routes between given lines that carry more than one half. -/
def pairsOf (p : Plan α) : List Cell :=
  (p.activeRoutes.filter fun r => decide (Scalar.half < r.quantity)).map fun r =>
    ⟨r.sourceIndex, r.destinationIndex⟩

def scoreAt? (scores : List (List α)) (c : Cell) : Option α := do
  let row ← scores[c.row]?
  row[c.col]?

/-- The pairing with the best total score. -/
def solve (config : Config α) (sense : Sense) (scores : List (List α)) :
    Except (ModelError α) (Assignment α) := do
  checkScores ((scores.head?.map List.length).getD 0) 0 scores
  match (problem sense scores).solve config with
  | .error failure => .error (.planning failure)
  | .ok plan =>
    let pairs := pairsOf plan
    match pairs.mapM (scoreAt? scores) with
    | some values => .ok ⟨true, pairs, values, Scalar.sum values⟩
    | none => .error (.planning (.ofCause .outside))

end Assignment

end Freight
