import Freight.Model.LinearProgram
import Freight.Proofs.Check

/-!
# Linear programs that are accepted

The parts of a linear program *fit* together if they have the sizes that the objective and the
matrices call for, with finite coefficients and right-hand sides (`LinearProgram.Fits`). In any
arithmetic, a program is accepted exactly if its parts fit and no lower bound lies above its upper
bound (`LinearProgram.check_eq_ok_iff`).

That asks less of the bounds than order: an undefined side lies neither above nor below anything.
Main statement: a program is accepted exactly if its parts fit and each two-sided bound is in order,
unless a side of it is undefined (`LinearProgram.check_eq_ok_iff_inOrder`).
-/

namespace Freight

open Scalar

/-! ## Lengths and finite entries -/

theorem checkLength_eq_ok {α : Type} {part : ModelPart} {expected actual : Nat} :
    (checkLength part expected actual : Except (ModelError α) Unit) = .ok () ↔
      actual = expected := by
  unfold checkLength
  split <;> simp_all

variable {α : Type} [Scalar α] {part rowPart boundPart : ModelPart} {n k : Nat} {xs : List α}
  {rows : List (List α)}

theorem checkFinite_eq_ok : checkFinite part k xs = .ok () ↔ ∀ x ∈ xs, isFinite x = true := by
  have none_iff : xs.findIdx? (fun x => !isFinite x) = none ↔ ∀ x ∈ xs, isFinite x = true := by
    simp only [List.findIdx?_eq_none_iff, Bool.not_eq_false']
  unfold checkFinite
  rw [← none_iff]
  cases xs.findIdx? fun x => !isFinite x <;> simp

namespace LinearProgram

/-- Constraints for `n` variables: a coefficient for each variable in every row and a right-hand
side for every row, all of them finite. -/
structure BlockFits (n : Nat) (rows : List (List α)) (bounds : List α) : Prop where
  bounds_length : bounds.length = rows.length
  rows_length : ∀ row ∈ rows, row.length = n
  rows_finite : ∀ row ∈ rows, ∀ x ∈ row, isFinite x = true
  bounds_finite : ∀ x ∈ bounds, isFinite x = true

theorem checkRows_eq_ok : checkRows part n rows = .ok () ↔
    ∀ row ∈ rows, row.length = n ∧ ∀ x ∈ row, isFinite x = true := by
  unfold checkRows
  rw [forM_eq_ok]
  refine forall₂_congr fun row _ => bind_eq_ok.trans ?_
  constructor
  · rintro ⟨⟨⟩, length, finite⟩
    exact ⟨checkLength_eq_ok.mp length, checkFinite_eq_ok.mp finite⟩
  · rintro ⟨length, finite⟩
    exact ⟨(), checkLength_eq_ok.mpr length, checkFinite_eq_ok.mpr finite⟩

theorem checkBlock_eq_ok :
    checkBlock rowPart boundPart n rows xs = .ok () ↔ BlockFits n rows xs := by
  simp only [checkBlock, bind_eq_ok]
  constructor
  · rintro ⟨⟨⟩, length, ⟨⟩, each, finite⟩
    have each := checkRows_eq_ok.mp each
    exact ⟨checkLength_eq_ok.mp length, fun row hrow => (each row hrow).1,
      fun row hrow => (each row hrow).2, checkFinite_eq_ok.mp finite⟩
  · intro h
    have each := fun row hrow => And.intro (h.rows_length row hrow) (h.rows_finite row hrow)
    exact ⟨(), checkLength_eq_ok.mpr h.bounds_length, (), checkRows_eq_ok.mpr each,
      checkFinite_eq_ok.mpr h.bounds_finite⟩

/-! ## Bounds of variables -/

/-- The two sides of each bound that has both are in a relation. -/
def SidesAre (R : α → α → Prop) (bounds : List (VariableBound α)) : Prop :=
  ∀ b ∈ bounds, ∀ lower upper, b.lower = some lower → b.upper = some upper → R lower upper

theorem checkBounds_eq_ok : ∀ (i : Nat) (bounds : List (VariableBound α)),
    checkBounds i bounds = .ok () ↔ SidesAre (fun lower upper => ¬ upper < lower) bounds
  | _, [] => ⟨fun _ b hb => absurd hb List.not_mem_nil, fun _ => rfl⟩
  | i, ⟨lower, upper⟩ :: rest => by
    have ih := checkBounds_eq_ok (i + 1) rest
    unfold SidesAre at ih ⊢
    rw [List.forall_mem_cons, ← ih]
    cases lower with
    | none => simp [checkBounds]
    | some lower =>
      cases upper with
      | none => simp [checkBounds]
      | some upper => by_cases crossed : upper < lower <;> simp [checkBounds, crossed]

/-! ## Programs -/

/-- The parts of a program fit together, and all its numbers but the bounds of its variables are
finite. -/
structure Fits (p : LinearProgram α) : Prop where
  objective_ne_nil : p.objective ≠ []
  objective_finite : ∀ x ∈ p.objective, isFinite x = true
  inequalities : BlockFits p.objective.length p.inequalities p.inequalityBounds
  equalities : BlockFits p.objective.length p.equalities p.equalityBounds
  bounds_length : p.bounds = [] ∨ p.bounds.length = p.objective.length

/-- The parts of a program fit together, and the sides of each bound are in order. -/
structure WellFormed (p : LinearProgram α) : Prop extends Fits p where
  inOrder : SidesAre (fun lower upper => lower ≤ upper) p.bounds

/-- A program is accepted exactly if its parts fit and no lower bound lies above its upper bound. -/
theorem check_eq_ok_iff {p : LinearProgram α} : p.check = .ok () ↔
    p.Fits ∧ SidesAre (fun lower upper => ¬ upper < lower) p.bounds := by
  have empty : p.variableCount = 0 ↔ p.objective = [] := List.length_eq_zero_iff
  have odd : (!p.bounds.isEmpty && decide (p.bounds.length ≠ p.variableCount)) = true ↔
      ¬ (p.bounds = [] ∨ p.bounds.length = p.objective.length) := by
    rw [Bool.and_eq_true, Bool.not_eq_true', List.isEmpty_eq_false_iff, decide_eq_true_eq, not_or]
    rfl
  rw [← checkBounds_eq_ok 0]
  unfold check
  dsimp only
  split
  · next none' =>
    constructor
    · intro h
      cases h
    · exact fun h => absurd (empty.mp none') h.1.objective_ne_nil
  · next some' =>
    simp only [bind_eq_ok]
    constructor
    · rintro ⟨⟨⟩, objective, ⟨⟩, inequalities, ⟨⟩, equalities, h⟩
      split at h
      · cases h
      · next fits =>
        exact ⟨⟨empty.not.mp some', checkFinite_eq_ok.mp objective, checkBlock_eq_ok.mp inequalities,
          checkBlock_eq_ok.mp equalities, not_not.mp (odd.not.mp fits)⟩, h⟩
    · rintro ⟨h, bounds⟩
      refine ⟨(), checkFinite_eq_ok.mpr h.objective_finite, (), checkBlock_eq_ok.mpr h.inequalities,
        (), checkBlock_eq_ok.mpr h.equalities, ?_⟩
      rw [if_neg (odd.not.mpr (not_not.mpr h.bounds_length))]
      exact bounds

end LinearProgram

/-- Of two numbers, one that does not lie below the other one lies above it or at it. What is
undefined lies below nothing. -/
theorem Extended.not_lt_iff {x y : Extended} :
    ¬ x < y ↔ (isNumber x = true → isNumber y = true → y ≤ x) := by
  change ¬ Extended.below x y = true ↔
    (decide (Extended.atMost x x = true) = true → decide (Extended.atMost y y = true) = true →
      Extended.atMost y x = true)
  rcases x with p | (_ | _) | _ <;> rcases y with q | (_ | _) | _ <;>
    simp [Extended.below, Extended.atMost]

namespace LinearProgram

/-- Which programs are accepted, with infinite and undefined values anywhere: those whose objective
has a coefficient, whose right-hand sides and rows are as many and as long as they should be, with
bounds for all variables or for none, whose numbers other than bounds are finite, and in which no
bound with two sides that are numbers is out of order. -/
theorem check_eq_ok_iff_inOrder (p : LinearProgram Extended) : p.check = .ok () ↔
    p.Fits ∧ SidesAre (fun lower upper =>
      isNumber lower = true → isNumber upper = true → lower ≤ upper) p.bounds := by
  rw [check_eq_ok_iff]
  have same : ∀ lower upper : Extended, ¬ upper < lower ↔
      (isNumber lower = true → isNumber upper = true → lower ≤ upper) := fun lower upper =>
    Extended.not_lt_iff.trans forall_comm
  simp only [same]

/-- One variable between an undefined bound and one. -/
def undefinedBound : LinearProgram Extended :=
  ⟨[1], [], [], [], [], [⟨some .undefined, some 1⟩], .minimize⟩

/-- A program is accepted although the sides of a bound are not in order, if one of them is
undefined. -/
theorem accepted_undefinedBound :
    undefinedBound.check = .ok () ∧ ¬ undefinedBound.WellFormed := by
  refine ⟨eq_ok_of_toOption (by decide), fun h => ?_⟩
  have inOrder := h.inOrder _ List.mem_cons_self .undefined 1 rfl rfl
  exact absurd inOrder (by decide)

end LinearProgram

end Freight
