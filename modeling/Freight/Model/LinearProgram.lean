import Freight.Model

/-!
# Linear programs

A linear program as data: an objective, inequalities `a · x ≤ b`, equalities `a · x = b`, and bounds
of the variables. Nothing is solved here. `LinearProgram.check` says whether the parts fit together,
and objective and slacks are evaluated at a point.
-/

namespace Freight

/-- The bounds of a variable; a missing one does not bind. -/
structure VariableBound (α : Type) where
  lower : Option α
  upper : Option α

/-- A variable that may not be negative. -/
def VariableBound.nonnegative {α : Type} [Scalar α] : VariableBound α := ⟨some 0, none⟩

structure LinearProgram (α : Type) where
  objective : List α
  inequalities : List (List α)
  inequalityBounds : List α
  equalities : List (List α)
  equalityBounds : List α
  /-- The bounds of the variables; if none are given, no variable may be negative. -/
  bounds : List (VariableBound α)
  sense : Sense

namespace LinearProgram

variable {α : Type}

def addInequality (p : LinearProgram α) (row : List α) (bound : α) : LinearProgram α :=
  { p with
    inequalities := p.inequalities ++ [row]
    inequalityBounds := p.inequalityBounds ++ [bound] }

def addEquality (p : LinearProgram α) (row : List α) (bound : α) : LinearProgram α :=
  { p with
    equalities := p.equalities ++ [row]
    equalityBounds := p.equalityBounds ++ [bound] }

def variableCount (p : LinearProgram α) : Nat := p.objective.length

variable [Scalar α]

def value (p : LinearProgram α) (x : List α) : α := Scalar.dot p.objective x

/-- What each inequality leaves over at a point. -/
def slacks (p : LinearProgram α) (x : List α) : List α :=
  List.zipWith (fun row b => b - Scalar.dot row x) p.inequalities p.inequalityBounds

/-- Each row has a coefficient for each of `n` variables, all of them finite. -/
def checkRows (part : ModelPart) (n : Nat) (rows : List (List α)) : Except (ModelError α) Unit :=
  rows.forM fun row => do
    checkLength part n row.length
    checkFinite part 0 row

/-- There is a finite right-hand side for each row, and the rows are right for `n` variables. -/
def checkBlock (rowPart boundPart : ModelPart) (n : Nat) (rows : List (List α))
    (bounds : List α) : Except (ModelError α) Unit := do
  checkLength boundPart rows.length bounds.length
  checkRows rowPart n rows
  checkFinite boundPart 0 bounds

/-- No variable from number `i` on has a lower bound above its upper bound. -/
def checkBounds (i : Nat) : List (VariableBound α) → Except (ModelError α) Unit
  | [] => .ok ()
  | ⟨some lower, some upper⟩ :: rest =>
    if upper < lower then .error (.crossedBounds i lower upper) else checkBounds (i + 1) rest
  | _ :: rest => checkBounds (i + 1) rest

/-- Whether the program is well formed; if not, the first reason. -/
def check (p : LinearProgram α) : Except (ModelError α) Unit := do
  let n := p.variableCount
  if n = 0 then .error .emptyObjective
  else
    checkFinite .objective 0 p.objective
    checkBlock .inequalityRow .inequalityBounds n p.inequalities p.inequalityBounds
    checkBlock .equalityRow .equalityBounds n p.equalities p.equalityBounds
    if !p.bounds.isEmpty && p.bounds.length ≠ n then
      .error (.wrongLength .variableBounds n p.bounds.length)
    else checkBounds 0 p.bounds

end LinearProgram

end Freight
