import Freight.Proofs.Remaining
import Mathlib.Algebra.BigOperators.Ring.Finset
import Mathlib.Algebra.BigOperators.Group.Finset.Sigma
import Mathlib.Algebra.Order.BigOperators.Group.Finset

/-!
# Sums over tables of rationals

Over the rationals, row sums, column sums and costs are finite sums of entries. A sum over the cells
of a rectangle is a double sum (`sum_grid`); weights that belong to lines come out of it and weigh
the totals of the lines (`sum_mul_lines`). A table serves supplies and demands exactly when these are
the totals of its lines (`Table.serves_iff`).
-/

namespace Freight

open Finset

variable {m n : Nat}

/-- The cells of a rectangle, as a set. -/
def Cell.rectangle (m n : Nat) : Finset Cell := (Cell.grid m n).toFinset

theorem Cell.mem_rectangle {c : Cell} : c ∈ rectangle m n ↔ c ∈ grid m n := List.mem_toFinset

theorem sum_map_range (f : Nat → Rat) (n : Nat) :
    ((List.range n).map f).sum = ∑ j ∈ range n, f j := rfl

theorem sum_map_grid (f : Cell → Rat) :
    ((Cell.grid m n).map f).sum = ∑ c ∈ Cell.rectangle m n, f c :=
  (List.sum_toFinset f (Cell.nodup_grid m n)).symm

/-- A sum over a rectangle goes row after row. -/
theorem sum_grid (f : Cell → Rat) :
    ∑ c ∈ Cell.rectangle m n, f c = ∑ i ∈ range m, ∑ j ∈ range n, f ⟨i, j⟩ := by
  rw [← sum_map_grid, Cell.grid, List.map_flatMap, List.flatMap_def, List.sum_flatten,
    List.map_map]
  simp only [List.map_map, Function.comp_def, sum_map_range]

/-! ## Totals of lines -/

/-- The sum over the cells of a line of a rectangle. -/
def Line.total (m n : Nat) (f : Cell → Rat) : Line → Rat
  | row i => ∑ j ∈ range n, f ⟨i, j⟩
  | column j => ∑ i ∈ range m, f ⟨i, j⟩

/-- Weights of lines, summed up over the cells, weigh the totals of the lines. -/
theorem sum_mul_lines (f : Cell → Rat) (w : Line → Rat) :
    ∑ c ∈ Cell.rectangle m n, f c * (w (.row c.row) + w (.column c.col)) =
      ∑ i ∈ range m, w (.row i) * Line.total m n f (.row i) +
        ∑ j ∈ range n, w (.column j) * Line.total m n f (.column j) := by
  have rows : ∑ i ∈ range m, ∑ j ∈ range n, f ⟨i, j⟩ * w (.row i) =
      ∑ i ∈ range m, w (.row i) * Line.total m n f (.row i) :=
    sum_congr rfl fun i _ => by rw [Line.total, mul_sum]; exact sum_congr rfl fun j _ => mul_comm _ _
  have columns : ∑ i ∈ range m, ∑ j ∈ range n, f ⟨i, j⟩ * w (.column j) =
      ∑ j ∈ range n, w (.column j) * Line.total m n f (.column j) := by
    rw [sum_comm]
    exact sum_congr rfl fun j _ => by
      rw [Line.total, mul_sum]; exact sum_congr rfl fun i _ => mul_comm _ _
  rw [sum_grid, ← rows, ← columns, ← sum_add_distrib]
  refine sum_congr rfl fun i _ => ?_
  rw [← sum_add_distrib]
  exact sum_congr rfl fun j _ => mul_add _ _ _

/-- One for the cells of a line, and zero for the others. -/
def Line.weight (l : Line) (c : Cell) : Rat :=
  (if row c.row = l then 1 else 0) + if column c.col = l then 1 else 0

theorem Line.weight_of_through {l : Line} {c : Cell} (h : l.Through c) : l.weight c = 1 := by
  obtain rfl | rfl := h.eq_or <;> simp [weight]

theorem Line.weight_of_not_through {l : Line} {c : Cell} (h : ¬ l.Through c) : l.weight c = 0 := by
  have hr : Line.row c.row ≠ l := fun e => h (e ▸ through_row c)
  have hcol : Line.column c.col ≠ l := fun e => h (e ▸ through_column c)
  simp [weight, hr, hcol]

theorem Line.weight_nonneg (l : Line) (c : Cell) : 0 ≤ l.weight c := by
  by_cases h : l.Through c
  · rw [weight_of_through h]
    exact zero_le_one
  · rw [weight_of_not_through h]

/-- The total of one line, as a sum over all cells. -/
theorem total_eq_sum (f : Cell → Rat) {l : Line} (hl : l.Within m n) :
    Line.total m n f l = ∑ c ∈ Cell.rectangle m n, f c * l.weight c := by
  refine .trans ?_ (sum_mul_lines f fun k => if k = l then 1 else 0).symm
  cases l with
  | row i =>
    have hi : i ∈ range m := mem_range.mpr hl
    simp [hi]
  | column j =>
    have hj : j ∈ range n := mem_range.mpr hl
    simp [hj]

theorem total_add (f g : Cell → Rat) (l : Line) :
    Line.total m n (fun c => f c + g c) l = Line.total m n f l + Line.total m n g l := by
  cases l <;> exact sum_add_distrib

theorem total_sub (f g : Cell → Rat) (l : Line) :
    Line.total m n (fun c => f c - g c) l = Line.total m n f l - Line.total m n g l := by
  cases l <;> exact sum_sub_distrib _ _

theorem total_mul (a : Rat) (f : Cell → Rat) (l : Line) :
    Line.total m n (fun c => a * f c) l = a * Line.total m n f l := by
  cases l <;> exact (mul_sum _ _ _).symm

theorem total_congr {f g : Cell → Rat} {l : Line} (h : ∀ c ∈ Cell.grid m n, f c = g c)
    (hl : l.Within m n) : Line.total m n f l = Line.total m n g l := by
  cases l with
  | row i => exact sum_congr rfl fun j hj => h _ (Cell.mem_grid.mpr ⟨hl, mem_range.mp hj⟩)
  | column j => exact sum_congr rfl fun i hi => h _ (Cell.mem_grid.mpr ⟨mem_range.mp hi, hl⟩)

/-! ## Sums of entries -/

namespace Table

variable {t costs : Table Rat} {supply demand : List Rat}

theorem Fits.rowSum?_rat (h : t.Fits m n) {i : Nat} (hi : i < m) :
    t.rowSum? i = some (Line.total m n t.entry (.row i)) := by
  rw [h.rowSum?_eq hi, Scalar.sum_rat]
  rfl

theorem Fits.columnSum?_rat (h : t.Fits m n) {j : Nat} (hj : j < n) :
    t.columnSum? j = some (Line.total m n t.entry (.column j)) := by
  rw [h.columnSum?_eq hj, Scalar.sum_rat]
  rfl

/-- Tables with the same row sums and column sums have the same totals. -/
theorem Fits.total_eq {u : Table Rat} (h : t.Fits m n) (hu : u.Fits m n)
    (rows : ∀ i < m, t.rowSum? i = u.rowSum? i) (columns : ∀ j < n, t.columnSum? j = u.columnSum? j)
    {l : Line} (hl : l.Within m n) : Line.total m n t.entry l = Line.total m n u.entry l := by
  cases l with
  | row i =>
    have e := rows i hl
    rw [h.rowSum?_rat hl, hu.rowSum?_rat hl] at e
    exact Option.some.inj e
  | column j =>
    have e := columns j hl
    rw [h.columnSum?_rat hl, hu.columnSum?_rat hl] at e
    exact Option.some.inj e

theorem Fits.cost?_rat (h : t.Fits m n) (hc : costs.Fits m n) :
    t.cost? costs = some (∑ c ∈ Cell.rectangle m n, t.entry c * costs.entry c) := by
  have acc : ∀ (cs : List Cell) (a : Rat),
      cs.foldl (fun total c => total + t.entry c * costs.entry c) a =
        a + (cs.map fun c => t.entry c * costs.entry c).sum := by
    intro cs
    induction cs with
    | nil => intro a; exact (add_zero a).symm
    | cons c cs ih => intro a; rw [List.foldl_cons, ih, List.map_cons, List.sum_cons, add_assoc]
  rw [h.cost?_eq hc, acc, sum_map_grid]
  exact congrArg some (zero_add _)

theorem IsShipping.fits (h : t.IsShipping m n) : t.Fits m n :=
  ⟨h.wellFormed, h.rows_eq, h.cols_eq⟩

/-- Quantities serve supplies and demands exactly when these are the totals of their lines. -/
theorem serves_iff : t.Serves supply demand ↔ t.IsShipping supply.length demand.length ∧
    ∀ l q, (Remaining.mk supply demand).left? l = some q →
      Line.total supply.length demand.length t.entry l = q := by
  constructor
  · intro h
    refine ⟨h.toIsShipping, fun l q hq => ?_⟩
    have fits := h.toIsShipping.fits
    cases l with
    | row i =>
      have e := h.supply_eq i q hq
      rw [fits.rowSum?_rat (List.getElem?_eq_some_iff.mp hq).1] at e
      exact Option.some.inj e
    | column j =>
      have e := h.demand_eq j q hq
      rw [fits.columnSum?_rat (List.getElem?_eq_some_iff.mp hq).1] at e
      exact Option.some.inj e
  · rintro ⟨h, total⟩
    refine ⟨h, fun i q hq => ?_, fun j q hq => ?_⟩
    · rw [h.fits.rowSum?_rat (List.getElem?_eq_some_iff.mp hq).1, total (.row i) q hq]
    · rw [h.fits.columnSum?_rat (List.getElem?_eq_some_iff.mp hq).1, total (.column j) q hq]

/-- Values that are those of a list add up to its sum. -/
theorem sum_range_eq {xs : List Rat} {f : Nat → Rat} (h : ∀ k x, xs[k]? = some x → f k = x) :
    ∑ k ∈ range xs.length, f k = xs.sum := by
  rw [← sum_map_range]
  refine congrArg List.sum (List.ext_getElem (by simp) fun k hk hk' => ?_)
  rw [List.getElem_map, List.getElem_range]
  exact h k _ (List.getElem?_eq_getElem hk')

/-- Values below those of a list that add up to its sum are those of the list. -/
theorem eq_of_sum_range_eq {xs : List Rat} {f : Nat → Rat}
    (le : ∀ k x, xs[k]? = some x → f k ≤ x) (sum : ∑ k ∈ range xs.length, f k = xs.sum) :
    ∀ k x, xs[k]? = some x → f k = x := by
  have values : ∑ k ∈ range xs.length, xs[k]?.getD 0 = xs.sum :=
    sum_range_eq fun k x hx => by rw [hx]; rfl
  have each : ∀ k ∈ range xs.length, f k ≤ xs[k]?.getD 0 := fun k hk => by
    have get := List.getElem?_eq_getElem (mem_range.mp hk)
    rw [get]
    exact le k _ get
  intro k x hx
  have hk := mem_range.mpr (List.getElem?_eq_some_iff.mp hx).1
  have e := (sum_eq_sum_iff_of_le each).mp (sum.trans values.symm) k hk
  rw [e, hx]
  rfl

/-- The totals of all rows come to the sum of the supplies that they are. -/
theorem sum_of_rows {f : Cell → Rat}
    (h : ∀ i s, supply[i]? = some s → Line.total m n f (.row i) = s) :
    ∑ c ∈ Cell.rectangle supply.length n, f c = supply.sum :=
  (sum_grid f).trans (sum_range_eq h)

/-- The totals of all columns come to the sum of the demands that they are. -/
theorem sum_of_columns {f : Cell → Rat}
    (h : ∀ j d, demand[j]? = some d → Line.total m n f (.column j) = d) :
    ∑ c ∈ Cell.rectangle m demand.length, f c = demand.sum :=
  (sum_grid f).trans (sum_comm.trans (sum_range_eq h))

/-- What is shipped in all is the sum of the supplies. -/
theorem Serves.sum_entry (h : t.Serves supply demand) :
    ∑ c ∈ Cell.rectangle supply.length demand.length, t.entry c = supply.sum :=
  sum_of_rows fun i s hs => (serves_iff.mp h).2 (.row i) s hs

/-! ## Plans that leave something over -/

section Moves

variable {total : Rat} (h : t.Moves supply demand total)

include h

theorem Moves.total_le (l : Line) (x : Rat) (hx : (Remaining.mk supply demand).left? l = some x) :
    Line.total supply.length demand.length t.entry l ≤ x := by
  have fits := h.toIsShipping.fits
  cases l with
  | row i => exact h.le_supply i x _ hx (fits.rowSum?_rat (List.getElem?_eq_some_iff.mp hx).1)
  | column j =>
    exact h.le_demand j x _ hx (fits.columnSum?_rat (List.getElem?_eq_some_iff.mp hx).1)

theorem Moves.sum_entry :
    ∑ c ∈ Cell.rectangle supply.length demand.length, t.entry c = total := by
  rw [← sum_map_grid, ← h.toIsShipping.fits.toList_eq, ← Scalar.sum_rat]
  exact h.total_eq

/-- A plan that moves all supplies leaves none over. -/
theorem Moves.total_row (all : total = supply.sum) : ∀ i s, supply[i]? = some s →
    Line.total supply.length demand.length t.entry (.row i) = s := by
  refine eq_of_sum_range_eq (fun i s hs => h.total_le (.row i) s hs) ?_
  rw [← all, ← h.sum_entry, sum_grid]
  rfl

/-- A plan that meets all demands leaves none open. -/
theorem Moves.total_column (all : total = demand.sum) : ∀ j d, demand[j]? = some d →
    Line.total supply.length demand.length t.entry (.column j) = d := by
  refine eq_of_sum_range_eq (fun j d hd => h.total_le (.column j) d hd) ?_
  rw [← all, ← h.sum_entry, sum_grid, sum_comm]
  rfl

end Moves

/-- A table with given entries. -/
theorem exists_entries (hm : 0 < m) (f : Cell → Rat) :
    ∃ u : Table Rat, u.Fits m n ∧ ∀ c ∈ Cell.grid m n, u.entry c = f c := by
  have lengths : ∀ row ∈ (List.range m).map fun i => (List.range n).map fun j => f ⟨i, j⟩,
      row.length = n := List.forall_mem_map.mpr fun i _ => by simp
  obtain ⟨u, -, fits, get⟩ := exists_ofRows? (by simpa using hm) lengths
  rw [List.length_map, List.length_range] at fits
  refine ⟨u, fits, fun c hc => ?_⟩
  obtain ⟨hr, hcol⟩ := Cell.mem_grid.mp hc
  rw [entry, get c.row c.col hcol, List.getElem?_map, List.getElem?_range hr]
  simp [List.getElem?_range hcol]

end Table

end Freight
