import Freight.Scalar.Exact
import Mathlib.Algebra.Order.Ring.Rat
import Mathlib.Algebra.BigOperators.Group.List.Basic
import Mathlib.Tactic.Linarith

/-!
# Laws of scalars

Sets of laws. A *lawful* arithmetic orders its finite values totally, takes a value away from itself
without a rest, and does not lose ground when it adds an amount; rounding keeps these laws. In an
*ascending* one the amount may be infinite, and in a *separated* one no infinite amount lies below a
finite value. An *exact* one has finite sums and opposites too.
Rationals obey all of them (`Scalar.exact_rational`), and so do rationals with infinities
(`Scalar.exact_extended`), where only finite values are spoken of.

Over the rationals the operations of the library are the usual ones: sums, minima, maxima, absolute
values.
-/

namespace Freight

open Scalar

namespace Scalar

variable {α : Type} [Scalar α]

/-- Laws of finite values that hold with and without rounding. -/
class Lawful (α : Type) [Scalar α] : Prop where
  isFinite_zero : isFinite (0 : α) = true
  orInfinite_eq {x : α} : isFinite x = true → orInfinite x = x
  le_refl {x : α} : isFinite x = true → x ≤ x
  le_total {x y : α} : isFinite x = true → isFinite y = true → x ≤ y ∨ y ≤ x
  le_trans {x y z : α} : x ≤ y → y ≤ z → x ≤ z
  lt_iff_not_le {x y : α} : isFinite x = true → isFinite y = true → (x < y ↔ ¬ y ≤ x)
  sub_self {x : α} : isFinite x = true → x - x = 0
  isFinite_sub_of_le {x y : α} : isFinite x = true → isFinite y = true → 0 ≤ y → y ≤ x →
    isFinite (x - y) = true
  zero_add_of_pos {x : α} : isFinite x = true → 0 < x → 0 + x = x
  le_add {x y : α} : isFinite x = true → isFinite y = true → 0 ≤ y → x ≤ x + y

/-- A lawful arithmetic where adding an infinite amount loses no ground either. -/
class Ascending (α : Type) [Scalar α] : Prop extends Lawful α where
  le_add_of_nonneg {x y : α} : isFinite x = true → 0 ≤ y → x ≤ x + y

/-- A lawful arithmetic where amounts below a finite value are finite. -/
class Separated (α : Type) [Scalar α] : Prop extends Lawful α where
  isFinite_of_lt {x y : α} : 0 ≤ x → x < y → isFinite y = true → isFinite x = true

/-- Laws of an arithmetic without rounding: finite values have finite sums and opposites, and a
summand may change sides. -/
class Exact (α : Type) [Scalar α] : Prop extends Lawful α where
  isFinite_add {x y : α} : isFinite x = true → isFinite y = true → isFinite (x + y) = true
  isFinite_neg {x : α} : isFinite x = true → isFinite (-x) = true
  isFinite_sub {x y : α} : isFinite x = true → isFinite y = true → isFinite (x - y) = true
  add_neg_le {x y z : α} : isFinite x = true → isFinite y = true → isFinite z = true →
    x ≤ y + z → x + -y ≤ z

/-! ## Order -/

section Lawful

variable [Lawful α] {x y z tol : α} {xs : List α}

theorem Lawful.not_lt_iff (hx : isFinite x = true) (hy : isFinite y = true) : ¬ x < y ↔ y ≤ x := by
  rw [Lawful.lt_iff_not_le hx hy, not_not]

theorem Lawful.le_of_lt (hx : isFinite x = true) (hy : isFinite y = true) (h : x < y) : x ≤ y :=
  (Lawful.le_total hx hy).resolve_right ((Lawful.lt_iff_not_le hx hy).mp h)

theorem Lawful.lt_of_le_of_lt (hx : isFinite x = true) (hy : isFinite y = true) (hz : isFinite z = true)
    (h : x ≤ y) (h' : y < z) : x < z := by
  rw [Lawful.lt_iff_not_le hx hz]
  exact fun hzx => (Lawful.lt_iff_not_le hy hz).mp h' (Lawful.le_trans hzx h)

theorem Lawful.lt_of_lt_of_le (hx : isFinite x = true) (hy : isFinite y = true) (hz : isFinite z = true)
    (h : x < y) (h' : y ≤ z) : x < z := by
  rw [Lawful.lt_iff_not_le hx hz]
  exact fun hzx => (Lawful.lt_iff_not_le hx hy).mp h (Lawful.le_trans h' hzx)

theorem isNumber_of_isFinite (hx : isFinite x = true) : isNumber x = true :=
  decide_eq_true (Lawful.le_refl hx)

/-- The smaller of two finite values is one of them, and at most as large as both. -/
theorem least_cases (hx : isFinite x = true) (hy : isFinite y = true) :
    (least x y = x ∧ x ≤ y) ∨ (least x y = y ∧ y ≤ x) := by
  unfold least
  split
  · next h => exact .inr ⟨rfl, Lawful.le_of_lt hy hx h⟩
  · next h =>
    rw [if_pos (isNumber_of_isFinite hx)]
    exact .inl ⟨rfl, (Lawful.not_lt_iff hy hx).mp h⟩

theorem isFinite_least (hx : isFinite x = true) (hy : isFinite y = true) :
    isFinite (least x y) = true := by
  rcases least_cases hx hy with ⟨e, -⟩ | ⟨e, -⟩ <;> rwa [e]

theorem isFinite_positivePart (hx : isFinite x = true) : isFinite (positivePart x) = true := by
  unfold positivePart
  split
  · exact hx
  · exact Lawful.isFinite_zero

theorem foldl_least (hx : isFinite x = true) (hs : ∀ y ∈ xs, isFinite y = true) :
    xs.foldl least x ∈ x :: xs ∧ ∀ y ∈ x :: xs, xs.foldl least x ≤ y := by
  induction xs generalizing x with
  | nil => simpa using Lawful.le_refl hx
  | cons y ys ih =>
    have hy := hs y List.mem_cons_self
    obtain ⟨hm, hle⟩ := ih (isFinite_least hx hy) fun z hz => hs z (List.mem_cons_of_mem y hz)
    rw [List.foldl_cons]
    have start := hle _ List.mem_cons_self
    constructor
    · rcases List.mem_cons.mp hm with hm | hm
      · rw [hm]
        rcases least_cases hx hy with ⟨e, -⟩ | ⟨e, -⟩ <;> simp [e]
      · exact List.mem_cons_of_mem _ (List.mem_cons_of_mem _ hm)
    · intro z hz
      rcases List.mem_cons.mp hz with rfl | hz
      · rcases least_cases hx hy with ⟨e, -⟩ | ⟨e, h⟩
        · rwa [e] at start ⊢
        · exact Lawful.le_trans start (e.symm ▸ h)
      · rcases List.mem_cons.mp hz with rfl | hz
        · rcases least_cases hx hy with ⟨e, h⟩ | ⟨e, -⟩
          · exact Lawful.le_trans start (e.symm ▸ h)
          · rwa [e] at start ⊢
        · exact hle z (List.mem_cons_of_mem _ hz)

/-- The smallest of finite values is one of them, and at most as large as all. -/
theorem exists_minimum? (hs : ∀ x ∈ xs, isFinite x = true) (hne : xs ≠ []) :
    ∃ low, minimum? xs = some low ∧ low ∈ xs ∧ ∀ x ∈ xs, low ≤ x := by
  cases xs with
  | nil => exact absurd rfl hne
  | cons x xs =>
    have hx := hs x List.mem_cons_self
    have hs' : ∀ y ∈ xs, isFinite y = true := fun y hy => hs y (List.mem_cons_of_mem x hy)
    have numbers : xs.map orInfinite = xs :=
      (List.map_congr_left fun y hy => Lawful.orInfinite_eq (hs' y hy)).trans (List.map_id xs)
    refine ⟨_, ?_, foldl_least hx hs'⟩
    rw [minimum?, Lawful.orInfinite_eq hx, numbers]

/-- A value that runs empty when the smallest of a list is taken away from all: it is within a
tolerance of it that loses no ground. -/
theorem le_positivePart_add (hx : isFinite x = true)
    (slack : ∀ y : α, isFinite y = true → y ≤ y + tol) : x ≤ positivePart x + tol := by
  unfold positivePart
  split
  · exact slack x hx
  · next hx' =>
    exact Lawful.le_trans ((Lawful.not_lt_iff Lawful.isFinite_zero hx).mp hx')
      (slack 0 Lawful.isFinite_zero)

end Lawful

/-! ## Rationals -/

-- Sums of rationals start from the zero of their ring, although `Scalar.rational` has one as well.
instance zeroRat : Zero Rat := MulZeroClass.toZero

instance exact_rational : Exact Rat where
  isFinite_zero := rfl
  orInfinite_eq _ := rfl
  le_refl _ := Rat.le_refl
  le_total _ _ := Rat.le_total
  le_trans h h' := Rat.le_trans h h'
  lt_iff_not_le _ _ := Rat.not_le.symm
  sub_self _ := Rat.sub_self
  isFinite_sub_of_le _ _ _ _ := rfl
  zero_add_of_pos _ _ := Rat.zero_add _
  le_add _ _ h := by linarith
  isFinite_add _ _ := rfl
  isFinite_neg _ := rfl
  isFinite_sub _ _ := rfl
  add_neg_le _ _ _ h := by linarith

instance ascending_rational : Ascending Rat where
  le_add_of_nonneg _ h := by linarith

instance separated_rational : Separated Rat where
  isFinite_of_lt _ _ _ := rfl

@[simp] theorem isFinite_rat (x : Rat) : isFinite x = true := rfl

@[simp] theorem isNumber_rat (x : Rat) : isNumber x = true := decide_eq_true Rat.le_refl

theorem least_rat (x y : Rat) : least x y = min x y := by
  unfold least
  split
  · next h => exact (min_eq_right h.le).symm
  · next h => rw [if_pos (isNumber_rat x), min_eq_left (not_lt.mp h)]

theorem greatest_rat (x y : Rat) : greatest x y = max x y := by
  unfold greatest
  split
  · next h => exact (max_eq_right h.le).symm
  · next h => rw [if_pos (isNumber_rat x), max_eq_left (not_lt.mp h)]

theorem positivePart_rat (x : Rat) : positivePart x = max x 0 := by
  unfold positivePart
  split
  · next h => exact (max_eq_left h.le).symm
  · next h => exact (max_eq_right (not_lt.mp h)).symm

theorem positivePart_nonneg (x : Rat) : 0 ≤ positivePart x := by
  rw [positivePart_rat]
  exact le_max_right x 0

theorem distance_rat (x : Rat) : distance x = |x| := by
  unfold distance
  split
  · next h => exact (abs_of_neg h).symm
  · next h => exact (abs_of_nonneg (not_lt.mp h)).symm

theorem sum_rat (xs : List Rat) : sum xs = xs.sum := by
  have acc : ∀ (xs : List Rat) (a : Rat), xs.foldl (· + ·) a = a + xs.sum := by
    intro xs
    induction xs with
    | nil => intro a; simp
    | cons x xs ih => intro a; rw [List.foldl_cons, ih, List.sum_cons, Rat.add_assoc]
  show xs.foldl (· + ·) (-0) = xs.sum
  rw [acc, neg_zero, zero_add]

/-! ## Integers -/

/-- A rational without a fractional part. -/
def IsInteger (x : Rat) : Prop := ∃ k : Int, x = k

namespace IsInteger

variable {x y : Rat}

theorem iff_den_eq_one : IsInteger x ↔ x.den = 1 := by
  rw [Rat.den_eq_one_iff]
  exact ⟨fun ⟨k, e⟩ => by rw [e, Rat.num_intCast], fun e => ⟨x.num, e.symm⟩⟩

instance (x : Rat) : Decidable (IsInteger x) := decidable_of_iff (x.den = 1) iff_den_eq_one.symm

theorem zero : IsInteger 0 := ⟨0, rfl⟩

theorem add (hx : IsInteger x) (hy : IsInteger y) : IsInteger (x + y) := by
  obtain ⟨k, rfl⟩ := hx
  obtain ⟨l, rfl⟩ := hy
  exact ⟨k + l, by push_cast; rfl⟩

theorem neg (hx : IsInteger x) : IsInteger (-x) := by
  obtain ⟨k, rfl⟩ := hx
  exact ⟨-k, by push_cast; rfl⟩

theorem sub (hx : IsInteger x) (hy : IsInteger y) : IsInteger (x - y) := by
  rw [sub_eq_add_neg]
  exact hx.add hy.neg

/-- An integer above minus one is not negative. -/
theorem nonneg (hx : IsInteger x) (h : -1 < x) : 0 ≤ x := by
  obtain ⟨k, rfl⟩ := hx
  have : -1 < k := by exact_mod_cast h
  exact_mod_cast (by omega : 0 ≤ k)

/-- An amount below one is nothing if it is an integer. -/
theorem eq_zero (hx : IsInteger x) (h : 0 ≤ x) (h' : x < 1) : x = 0 := by
  obtain ⟨k, rfl⟩ := hx
  have h₁ : 0 ≤ k := by exact_mod_cast h
  have h₂ : k < 1 := by exact_mod_cast h'
  exact_mod_cast (by omega : k = 0)

theorem exists_nat (hx : IsInteger x) (h : 0 ≤ x) : ∃ k : Nat, x = k := by
  obtain ⟨k, rfl⟩ := hx
  have : 0 ≤ k := by exact_mod_cast h
  exact ⟨k.toNat, by exact_mod_cast (Int.toNat_of_nonneg this).symm⟩

end IsInteger

/-! ## Rationals with infinities -/

/-- A finite value is a rational. -/
theorem exists_finite {x : Extended} (h : isFinite x = true) : ∃ q, x = .finite q := by
  cases x with
  | finite q => exact ⟨q, rfl⟩
  | infinite s => cases h
  | undefined => cases h

theorem finite_le_iff (p q : Rat) : Extended.finite p ≤ .finite q ↔ p ≤ q := by
  show (!decide (q < p)) = true ↔ p ≤ q
  rw [Bool.not_eq_true', decide_eq_false_iff_not, not_lt]

theorem finite_lt_iff (p q : Rat) : Extended.finite p < .finite q ↔ p < q := by
  show decide (p < q) = true ↔ p < q
  exact decide_eq_true_iff

instance exact_extended : Exact Extended where
  isFinite_zero := rfl
  orInfinite_eq h := by
    obtain ⟨q, rfl⟩ := exists_finite h
    rfl
  le_refl h := by
    obtain ⟨q, rfl⟩ := exists_finite h
    exact (finite_le_iff q q).mpr Rat.le_refl
  le_total hx hy := by
    obtain ⟨p, rfl⟩ := exists_finite hx
    obtain ⟨q, rfl⟩ := exists_finite hy
    rw [finite_le_iff, finite_le_iff]
    exact Rat.le_total
  le_trans {x y z} h h' := by
    change Extended.atMost x y = true at h
    change Extended.atMost y z = true at h'
    change Extended.atMost x z = true
    cases x <;> cases y <;> cases z <;>
      simp_all [Extended.atMost, Extended.below] <;> first | linarith | grind
  lt_iff_not_le hx hy := by
    obtain ⟨p, rfl⟩ := exists_finite hx
    obtain ⟨q, rfl⟩ := exists_finite hy
    rw [finite_lt_iff, finite_le_iff, not_le]
  sub_self h := by
    obtain ⟨q, rfl⟩ := exists_finite h
    exact congrArg Extended.finite (Rat.add_neg_cancel q)
  isFinite_sub_of_le hx hy _ _ := by
    obtain ⟨p, rfl⟩ := exists_finite hx
    obtain ⟨q, rfl⟩ := exists_finite hy
    rfl
  zero_add_of_pos h _ := by
    obtain ⟨q, rfl⟩ := exists_finite h
    exact congrArg Extended.finite (Rat.zero_add q)
  le_add hx hy h := by
    obtain ⟨p, rfl⟩ := exists_finite hx
    obtain ⟨q, rfl⟩ := exists_finite hy
    have hq : 0 ≤ q := (finite_le_iff 0 q).mp h
    exact (finite_le_iff p (p + q)).mpr (by linarith)
  isFinite_add hx hy := by
    obtain ⟨p, rfl⟩ := exists_finite hx
    obtain ⟨q, rfl⟩ := exists_finite hy
    rfl
  isFinite_neg h := by
    obtain ⟨q, rfl⟩ := exists_finite h
    rfl
  isFinite_sub hx hy := by
    obtain ⟨p, rfl⟩ := exists_finite hx
    obtain ⟨q, rfl⟩ := exists_finite hy
    rfl
  add_neg_le hx hy hz h := by
    obtain ⟨p, rfl⟩ := exists_finite hx
    obtain ⟨q, rfl⟩ := exists_finite hy
    obtain ⟨r, rfl⟩ := exists_finite hz
    have h : p ≤ q + r := (finite_le_iff p (q + r)).mp h
    exact (finite_le_iff (p + -q) r).mpr (by linarith)

instance ascending_extended : Ascending Extended where
  le_add_of_nonneg {x y} hx h := by
    obtain ⟨p, rfl⟩ := exists_finite hx
    cases y with
    | finite q => exact Lawful.le_add rfl rfl h
    | infinite s =>
      change Extended.atMost (.finite p) (.infinite s) = true
      change Extended.atMost (.finite 0) (.infinite s) = true at h
      simpa [Extended.atMost, Extended.below] using h
    | undefined => exact h

instance separated_extended : Separated Extended where
  isFinite_of_lt {x y} h lt hy := by
    obtain ⟨q, rfl⟩ := exists_finite hy
    cases x with
    | finite p => rfl
    | infinite s =>
      cases s with
      | false => cases lt
      | true => cases h
    | undefined => cases lt

end Scalar

end Freight
