import Freight.Proofs.Report
import Freight.Proofs.Sum

/-!
# What the check of a plan asks for

Quantities *meet* supplies and demands up to a tolerance if none lies below minus the tolerance and no
line's total is off by more (`Table.Meets`). A table has no violations exactly if its quantities do
(`Table.Fits.violations?_eq_nil_iff`).

Main statement: the quantities of a plan whose parts fit together are accepted if they meet supplies
and demands up to the tolerance times the total supply or one, and found infeasible if not
(`Plan.Consistent.checkQuantities_cases`). If supplies and demands are amounts, nothing else can be
wrong with such a plan (`Plan.Consistent.check_eq`). The check of a problem asks for no more than
planning needs (`Problem.Plannable.check_eq_ok`).
-/

namespace Freight

open Scalar

/-! ## Shapes and amounts -/

section Shape

variable {α : Type} [Scalar α] {tol : α} {xs : List α} {side : Side}

namespace Problem

variable {p : Problem α}

theorem checkCosts_eq_ok {rows : List (List α)} {i : Nat}
    (h : ∀ row ∈ rows, ∀ x ∈ row, isAmount x = true) : checkCosts i rows = .ok () := by
  induction rows generalizing i with
  | nil => rfl
  | cons row rows ih =>
    rw [checkCosts, firstNonAmount?_eq_none_of_forall (h row List.mem_cons_self)]
    exact ih fun row' hrow => h row' (List.mem_cons_of_mem row hrow)

theorem Plannable.checkShape_eq_ok (h : p.Plannable) : p.checkShape = .ok () := by
  have full : p.costs.zipIdx.find? (fun r => r.1.length ≠ p.demand.length) = none := by
    refine List.find?_eq_none.mpr fun r hr => ?_
    simp [h.cols_length r.1 (List.fst_mem_of_mem_zipIdx hr)]
  unfold checkShape
  dsimp only
  rw [if_neg h.rows_pos.ne', if_neg h.cols_pos.ne', if_neg (not_not.mpr h.rows_length), full]

/-- A problem without names passes its check if it can be planned for. -/
theorem Plannable.check_eq_ok (h : p.Plannable) (sources : p.sourceNames = none)
    (destinations : p.destinationNames = none) : p.check = .ok () := by
  unfold check checkTotal
  rw [h.checkShape_eq_ok, checkQuantities_eq_ok h.supply, checkQuantities_eq_ok h.demand,
    checkCosts_eq_ok h.costs, if_pos h.totalSupply, if_pos h.totalDemand, sources, destinations]
  rfl

end Problem

namespace Plan

variable {p : Plan α}

theorem Consistent.shaped (h : p.Consistent) : p.Shaped where
  rows_pos := h.tableau.rows_pos
  cols_pos := h.tableau.cols_pos
  allocation_rows := h.allocation.rows_eq
  allocation_cols := h.allocation.cols_eq
  allocation_size := by
    rw [h.allocation.wellFormed.size_eq, h.allocation.rows_eq, h.allocation.cols_eq,
      Table.entryCount_self]
  cost_rows := h.tableau.costs.rows_eq
  cost_cols := h.tableau.costs.cols_eq
  cost_size := by
    have costs : p.costs.Fits p.supply.length p.demand.length := h.tableau.costs
    rw [costs.wellFormed.size_eq, costs.rows_eq, costs.cols_eq, Table.entryCount_self]
  sources_length := h.tableau.sources_length
  destinations_length := h.tableau.destinations_length

theorem Consistent.checkCell_eq_ok (h : p.Consistent) {c : Cell}
    (hc : c ∈ Cell.grid p.supply.length p.demand.length) : p.checkCell c = .ok () := by
  have held := h.allocation.get?_eq hc
  have cost : p.costs.get? c = some (p.costs.entry c) := h.tableau.costs.get?_eq hc
  have finite := h.finite c hc _ held
  simp [checkCell, cost, held, h.amounts c hc, finite, within, bind, Except.bind]

theorem Consistent.checkBasicCells_eq_ok (h : p.Consistent) : p.checkBasicCells = .ok () := by
  have inside : p.basicCells.find?
      (fun c => p.supply.length ≤ c.row || p.demand.length ≤ c.col) = none := by
    refine List.find?_eq_none.mpr fun c hc => ?_
    have := Cell.mem_grid.mp (h.basicCells c hc)
    simpa using this
  unfold checkBasicCells
  dsimp only
  rw [inside]

/-- Only the quantities of a consistent plan have to be looked at. -/
theorem Consistent.check_eq (h : p.Consistent) (supply : ∀ x ∈ p.supply, isAmount x = true)
    (demand : ∀ x ∈ p.demand, isAmount x = true) (tol : α) :
    p.check tol = p.checkQuantities tol := by
  unfold check
  rw [h.shaped.checkShape_eq_ok, Problem.checkQuantities_eq_ok supply,
    Problem.checkQuantities_eq_ok demand, forM_eq_ok.mpr fun c hc => h.checkCell_eq_ok hc,
    h.checkBasicCells_eq_ok]
  rfl

end Plan

end Shape

/-! ## Quantities -/

variable {m n : Nat} {tol : Rat} {supply demand : List Rat} {t : Table Rat}

/-- What holds of all supplies and demands with the totals of their lines, in terms of row sums and
column sums. -/
theorem Table.Fits.forall_total_iff {P : Rat → Rat → Prop}
    (h : t.Fits supply.length demand.length) :
    (∀ l x, (Remaining.mk supply demand).left? l = some x →
        P x (Line.total supply.length demand.length t.entry l)) ↔
      (∀ i s, supply[i]? = some s → ∃ x, t.rowSum? i = some x ∧ P s x) ∧
        ∀ j d, demand[j]? = some d → ∃ x, t.columnSum? j = some x ∧ P d x := by
  have row := fun i s (hs : supply[i]? = some s) =>
    h.rowSum?_rat (List.getElem?_eq_some_iff.mp hs).1
  have column := fun j d (hd : demand[j]? = some d) =>
    h.columnSum?_rat (List.getElem?_eq_some_iff.mp hd).1
  constructor
  · exact fun all => ⟨fun i s hs => ⟨_, row i s hs, all (.row i) s hs⟩,
      fun j d hd => ⟨_, column j d hd, all (.column j) d hd⟩⟩
  · rintro ⟨rows, columns⟩ l x hx
    cases l with
    | row i =>
      obtain ⟨y, hy, holds⟩ := rows i x hx
      rwa [Option.some.inj ((row i x hx).symm.trans hy)]
    | column j =>
      obtain ⟨y, hy, holds⟩ := columns j x hx
      rwa [Option.some.inj ((column j x hx).symm.trans hy)]

/-- Quantities meet supplies and demands up to a tolerance: none lies below minus the tolerance, and
no line's total is off by more. -/
structure Table.Meets (t : Table Rat) (supply demand : List Rat) (tol : Rat) : Prop where
  neg_le : ∀ c ∈ Cell.grid supply.length demand.length, -tol ≤ t.entry c
  near : ∀ l x, (Remaining.mk supply demand).left? l = some x →
    |Line.total supply.length demand.length t.entry l - x| ≤ tol

/-- Lists that are put together are all empty if the whole is. -/
theorem flatten_eq_nil_iff_of_mapM {β γ : Type} {f : β → Option (List γ)} {xs : List β}
    {ys : List (List γ)} (h : xs.mapM f = some ys) :
    ys.flatten = [] ↔ ∀ x ∈ xs, f x = some [] := by
  have all := forall₂_of_mapM h
  clear h
  induction all with
  | nil => simp
  | cons hx _ ih =>
    rw [List.flatten_cons, List.append_eq_nil_iff, List.forall_mem_cons, hx, Option.some.injEq]
    exact and_congr_right' ih

theorem forall_mem_zipIdx {β : Type} {xs : List β} {P : β × Nat → Prop} :
    (∀ x ∈ xs.zipIdx, P x) ↔ ∀ k x, xs[k]? = some x → P (x, k) :=
  ⟨fun h k x hx => h (x, k) (List.mem_zipIdx_iff_getElem?.mpr hx),
    fun h x hx => h x.2 x.1 (List.mem_zipIdx_iff_getElem?.mp hx)⟩

/-- A line does not violate its supply or demand exactly if its total is off by no more than the
tolerance. -/
theorem Table.sumViolation_eq_nil_iff {total : Option Rat} {x y : Rat}
    {violation : Rat → Violation Rat} (h : total = some y) :
    (do pure (sumViolation tol x (← total) violation)) = some [] ↔ |y - x| ≤ tol := by
  rw [h, Option.bind_eq_bind, Option.bind_some, sumViolation, distance_rat]
  simp

/-- A table has no violations exactly if its quantities meet supplies and demands. -/
theorem Table.Fits.violations?_eq_nil_iff (h : t.Fits supply.length demand.length)
    {violations : List (Violation Rat)} (e : t.violations? supply demand tol = some violations) :
    violations = [] ↔ t.Meets supply demand tol := by
  obtain ⟨negative, enegative, e⟩ := Option.bind_eq_some_iff.mp e
  obtain ⟨rows, erows, e⟩ := Option.bind_eq_some_iff.mp e
  obtain ⟨columns, ecolumns, e⟩ := Option.bind_eq_some_iff.mp e
  cases e
  rw [List.append_eq_nil_iff, List.append_eq_nil_iff, flatten_eq_nil_iff_of_mapM enegative,
    flatten_eq_nil_iff_of_mapM erows, flatten_eq_nil_iff_of_mapM ecolumns, h.cells_eq,
    forall_mem_zipIdx, forall_mem_zipIdx]
  have quantity : ∀ c ∈ Cell.grid supply.length demand.length,
      ((do let q ← t.get? c; pure (if q < -tol then [Violation.negativeQuantity c q] else [])) =
        some []) ↔ -tol ≤ t.entry c := fun c hc => by
    rw [h.get?_eq hc]
    simp
  have row := fun i x (hx : supply[i]? = some x) =>
    h.rowSum?_rat (List.getElem?_eq_some_iff.mp hx).1
  have column := fun j x (hx : demand[j]? = some x) =>
    h.columnSum?_rat (List.getElem?_eq_some_iff.mp hx).1
  constructor
  · rintro ⟨⟨quantities, rows⟩, columns⟩
    refine ⟨fun c hc => (quantity c hc).mp (quantities c hc), fun l x hx => ?_⟩
    cases l with
    | row i => exact (sumViolation_eq_nil_iff (row i x hx)).mp (rows i x hx)
    | column j => exact (sumViolation_eq_nil_iff (column j x hx)).mp (columns j x hx)
  · rintro ⟨quantities, totals⟩
    exact ⟨⟨fun c hc => (quantity c hc).mpr (quantities c hc),
      fun i x hx => (sumViolation_eq_nil_iff (row i x hx)).mpr (totals (.row i) x hx)⟩,
      fun j x hx => (sumViolation_eq_nil_iff (column j x hx)).mpr (totals (.column j) x hx)⟩

namespace Plan

variable {p : Plan Rat}

/-- The quantities of a consistent plan are accepted if they meet supplies and demands up to the
tolerance times the total supply or one, and found infeasible if not. -/
theorem Consistent.checkQuantities_cases (h : p.Consistent) (tol : Rat) :
    (p.checkQuantities tol = .ok () ∧
        p.allocation.Meets p.supply p.demand (tol * max p.supply.sum 1)) ∨
      (∃ k, p.checkQuantities tol = .error (.infeasible k)) ∧
        ¬ p.allocation.Meets p.supply p.demand (tol * max p.supply.sum 1) := by
  obtain ⟨violations, e⟩ := h.allocation.exists_violations? (tol * max p.supply.sum 1)
  rw [← h.allocation.violations?_eq_nil_iff e]
  unfold checkQuantities
  rw [sum_rat, greatest_rat]
  simp only [e, within, bind, Except.bind]
  cases violations with
  | nil => exact .inl ⟨rfl, rfl⟩
  | cons v vs => exact .inr ⟨⟨_, rfl⟩, List.cons_ne_nil v vs⟩

/-- The quantities of a plan that passes its check meet supplies and demands. -/
theorem meets_of_check (h : p.check tol = .ok ()) :
    p.allocation.Meets p.supply p.demand (tol * max p.supply.sum 1) := by
  have consistent := consistent_of_check h
  simp only [check, bind_eq_ok] at h
  obtain ⟨-, -, -, -, -, -, -, -, -, -, h⟩ := h
  rcases consistent.checkQuantities_cases tol with ⟨-, meets⟩ | ⟨⟨k, e⟩, -⟩
  · exact meets
  · rw [h] at e
    cases e

end Plan

end Freight
