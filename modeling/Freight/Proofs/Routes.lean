import Freight.Proofs.Circuit
import Freight.Proofs.Run
import Freight.Proofs.Sum

/-!
# Reported routes

The routes of a reported plan are those of the cells in use, each of which tells what the tableau and
the quantities have at its cell (`Route.Tells`). The plan's total cost is that of all cells, so it
exceeds the costs of the routes by what the other cells cost (`Table.Fits.cost_sub_loaded`), and these
hold no more than the tolerance.

Main statement: `Plan.ofOutcome?_accounts`.
-/

namespace Freight

open Finset

variable {m n : Nat}

section Tells

variable {α : Type}

/-- The cell that a route stands for. -/
def Route.cell (r : Route α) : Cell := ⟨r.sourceIndex, r.destinationIndex⟩

variable [Scalar α]

/-- A route tells the names, the quantity and the unit cost at its cell, and whether a line there was
added. -/
structure Route.Tells (r : Route α) (t : Tableau α) (allocation : Table α) : Prop where
  source : t.sourceNames[r.sourceIndex]? = some r.source
  destination : t.destinationNames[r.destinationIndex]? = some r.destination
  quantity : allocation.get? r.cell = some r.quantity
  unitCost : t.costs.get? r.cell = some r.unitCost
  routeCost : r.routeCost = r.quantity * r.unitCost
  isDummy : r.isDummy = t.isDummy r.cell

theorem Tableau.Fits.route_tells {t : Tableau α} {allocation : Table α} (h : t.Fits m n)
    (ha : allocation.Fits m n) {c : Cell} (hc : c ∈ Cell.grid m n) :
    (t.route allocation c).Tells t allocation := by
  obtain ⟨hr, hcol⟩ := Cell.mem_grid.mp hc
  have source := List.getElem?_eq_getElem (h.sources_length.symm ▸ hr)
  have destination := List.getElem?_eq_getElem (h.destinations_length.symm ▸ hcol)
  refine ⟨?_, ?_, ha.get?_eq hc, h.costs.get?_eq hc, rfl, rfl⟩
  · simp [route, Route.priced, source]
  · simp [route, Route.priced, destination]

end Tells

/-! ## Costs -/

namespace Table.Fits

variable {t costs : Table Rat} {tol : Rat} (h : t.Fits m n)

include h

/-- Sums over the cells in use. -/
theorem sum_loaded (f : Cell → Rat) : ((t.loaded tol).map f).sum =
    ∑ c ∈ Cell.rectangle m n with tol < t.entry c, f c := by
  have nodup : (t.loaded tol).Nodup := t.nodup_cellsWhere _
  rw [← List.sum_toFinset f nodup]
  refine sum_congr (ext fun c => ?_) fun _ _ => rfl
  rw [List.mem_toFinset, h.mem_loaded, mem_filter, Cell.mem_rectangle]

/-- The cells in use cost what the whole table costs, less what the other cells cost. -/
theorem cost_sub_loaded (hc : costs.Fits m n) {total : Rat} (e : t.cost? costs = some total) :
    total - ((t.loaded tol).map fun c => t.entry c * costs.entry c).sum =
      ∑ c ∈ Cell.rectangle m n with t.entry c ≤ tol, t.entry c * costs.entry c := by
  rw [h.cost?_rat hc] at e
  rw [← Option.some.inj e, h.sum_loaded,
    ← sum_filter_add_sum_filter_not (Cell.rectangle m n) fun c => tol < t.entry c,
    add_sub_cancel_left]
  simp only [not_lt]

end Table.Fits

/-- Quantities of no more than the tolerance cost no more than the tolerance does on their cells. -/
theorem Table.IsShipping.cost_idle {t costs : Table Rat} {tol : Rat} (h : t.IsShipping m n)
    (nonneg : ∀ c ∈ Cell.grid m n, 0 ≤ costs.entry c) :
    0 ≤ ∑ c ∈ Cell.rectangle m n with t.entry c ≤ tol, t.entry c * costs.entry c ∧
      ∑ c ∈ Cell.rectangle m n with t.entry c ≤ tol, t.entry c * costs.entry c ≤
        tol * ∑ c ∈ Cell.rectangle m n with t.entry c ≤ tol, costs.entry c := by
  have idle : ∀ c ∈ (Cell.rectangle m n).filter fun c => t.entry c ≤ tol,
      0 ≤ t.entry c ∧ t.entry c ≤ tol ∧ 0 ≤ costs.entry c := by
    intro c hc
    obtain ⟨hc, le⟩ := mem_filter.mp hc
    have grid := Cell.mem_rectangle.mp hc
    exact ⟨h.nonneg c (h.fits.cells_eq ▸ grid), le, nonneg c grid⟩
  rw [mul_sum]
  constructor
  · exact sum_nonneg fun c hc => mul_nonneg (idle c hc).1 (idle c hc).2.2
  · exact sum_le_sum fun c hc => mul_le_mul_of_nonneg_right (idle c hc).2.1 (idle c hc).2.2

/-- The report of quantities that are not negative, at costs that are not negative. There is one
route for each cell that holds more than the tolerance and for no other, in row-major order, and it
tells what the cell holds. What the routes do not account for of the total cost is at most the
tolerance on each cell that was left out. -/
theorem Plan.ofOutcome?_accounts (t : Tableau Rat) (tol : Rat) (rule : StartRule)
    (outcome : Outcome Rat) (fits : t.Fits m n)
    (costs : ∀ c ∈ Cell.grid m n, 0 ≤ t.costs.entry c)
    (shipping : outcome.position.allocation.IsShipping m n) :
    ∃ plan, Plan.ofOutcome? t tol rule outcome = some plan ∧
      (∀ c, c ∈ plan.routes.map Route.cell ↔
        c ∈ Cell.grid m n ∧ tol < outcome.position.allocation.entry c) ∧
      (plan.routes.map Route.cell).Pairwise (fun a b => a.before b = true) ∧
      (∀ r ∈ plan.routes, r.Tells t outcome.position.allocation) ∧
      0 ≤ plan.totalCost - (plan.routes.map Route.routeCost).sum ∧
      plan.totalCost - (plan.routes.map Route.routeCost).sum ≤
        tol * ∑ c ∈ Cell.rectangle m n with outcome.position.allocation.entry c ≤ tol,
          t.costs.entry c := by
  have ha := shipping.fits
  obtain ⟨plan, e⟩ := fits.exists_ofOutcome? tol rule ha
  obtain ⟨⟨-, -, -, listed, counted⟩, -⟩ := Tableau.describes_of_ofOutcome? e
  generalize outcome.position.allocation = allocation at *
  have routes : plan.routes = (allocation.loaded tol).map (t.route allocation) :=
    Option.some.inj (listed.symm.trans (fits.routes?_eq ha tol))
  have cells : plan.routes.map Route.cell = allocation.loaded tol := by
    rw [routes, List.map_map]
    exact List.map_id _
  have spent : plan.routes.map Route.routeCost =
      (allocation.loaded tol).map fun c => allocation.entry c * t.costs.entry c := by
    rw [routes, List.map_map]
    rfl
  refine ⟨plan, e, fun c => ?_, ?_, fun r hr => ?_, ?_⟩
  · rw [cells]
    exact ha.mem_loaded
  · rw [cells]
    exact ha.pairwise_before _
  · rw [routes] at hr
    obtain ⟨c, hc, rfl⟩ := List.mem_map.mp hr
    exact fits.route_tells ha (ha.mem_loaded.mp hc).1
  · rw [spent, ha.cost_sub_loaded fits.costs counted]
    exact shipping.cost_idle costs

/-- Two sources that fall short by four units, which the last one makes up for. -/
def Tableau.short : Tableau Rat :=
  ⟨[10, 10, 4], [8, 8, 8], ⟨3, 3, #[1, 2, 3, 4, 5, 6, 0, 0, 0]⟩, ["S1", "S2", dummySourceName],
    ["D1", "D2", "D3"], .dummySource 4⟩

/-- Quantities for it that lie a little off those of the corner rule. -/
def Outcome.crumb : Outcome Rat :=
  ⟨⟨⟨3, 3, #[8, 2, 1 / 1000, 0, 6, 3999 / 1000, 0, 0, 4]⟩, Basis.staircase⟩, 0, .optimal, []⟩

/-- The crumb on the first row is no route. It costs the total three thousandths more than the routes
do; the allowance is seven hundredths, which the costs of the unused cells bring to it. -/
theorem Plan.ofOutcome?_accounts_crumb :
    Tableau.short.Fits 3 3 ∧ (∀ c ∈ Cell.grid 3 3, 0 ≤ Tableau.short.costs.entry c) ∧
      Outcome.crumb.position.allocation.IsShipping 3 3 ∧
      ∃ plan, Plan.ofOutcome? Tableau.short (1 / 100) .northWestCorner Outcome.crumb = some plan ∧
        (⟨0, 2⟩ : Cell) ∉ plan.routes.map Route.cell ∧
        (⟨1, 2⟩ : Cell) ∈ plan.routes.map Route.cell ∧
        plan.totalCost - (plan.routes.map Route.routeCost).sum ≤ 7 / 100 := by
  have fits : Tableau.short.Fits 3 3 :=
    ⟨by decide, by decide, rfl, rfl, ⟨rfl, rfl, rfl⟩, rfl, rfl⟩
  have costs : ∀ c ∈ Cell.grid 3 3, 0 ≤ Tableau.short.costs.entry c := by decide +kernel
  have shipping : Outcome.crumb.position.allocation.IsShipping 3 3 :=
    ⟨rfl, rfl, rfl, by decide +kernel⟩
  obtain ⟨plan, made, cells, -, -, -, gap⟩ :=
    ofOutcome?_accounts Tableau.short (1 / 100) .northWestCorner Outcome.crumb fits costs shipping
  have allowance : 1 / 100 * ∑ c ∈ Cell.rectangle 3 3 with
      Outcome.crumb.position.allocation.entry c ≤ 1 / 100, Tableau.short.costs.entry c = 7 / 100 := by
    decide +kernel
  refine ⟨fits, costs, shipping, plan, made, ?_, ?_, gap.trans_eq allowance⟩
  · rw [cells]
    decide +kernel
  · rw [cells]
    decide +kernel

end Freight
