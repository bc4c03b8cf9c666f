import Freight.Proofs.Report
import Freight.Proofs.Shortfall

/-!
# The optimality test

The test of quantities on a basis asks of each vacant cell that it carries no more than the tolerance
and has an opportunity cost of at least minus the tolerance (`Table.isOptimal?_eq_ok_true_iff`).

It is sound: quantities on basic cells that pass cost no more than any other shipment with the same
totals, up to the tolerance on each unit of that (`Table.cost_le_of_isOptimal?`). And every plan that
is handed out as optimal passes it (`Plan.passes_of_planned`). For the position that it reports is one
where pricing had nothing to offer, the plan's cells make up the basis there, and only basic cells
hold more than the tolerance.
-/

namespace Freight

open Finset Scalar

section Test

variable {α : Type} [Scalar α] {costs t : Table α} {b : Basis} {p : Potentials α} {tol : α}
  {cs : List Cell}

/-- A vacant cell passes the optimality test: it carries no more than the tolerance, and using it
would not save more than the tolerance on each unit. -/
def Table.Passes (t costs : Table α) (p : Potentials α) (tol : α) (c : Cell) : Prop :=
  ∃ q d, t.get? c = some q ∧ ¬ tol < q ∧ p.opportunityCost? costs c = some d ∧ ¬ d < -tol

theorem Table.vacantAreIdle?_eq_some_true_iff :
    t.vacantAreIdle? costs p tol cs = some true ↔ ∀ c ∈ cs, t.Passes costs p tol c := by
  induction cs with
  | nil => simp [vacantAreIdle?]
  | cons c cs ih =>
    rw [List.forall_mem_cons, ← ih, vacantAreIdle?]
    constructor
    · intro h
      obtain ⟨q, hq, h⟩ := Option.bind_eq_some_iff.mp h
      split at h
      · cases h
      · next idle =>
        obtain ⟨d, hd, h⟩ := Option.bind_eq_some_iff.mp h
        split at h
        · cases h
        · next dear => exact ⟨⟨q, d, hq, idle, hd, dear⟩, h⟩
    · rintro ⟨⟨q, d, hq, idle, hd, dear⟩, h⟩
      simp only [hq, hd, Option.bind_eq_bind, Option.bind_some, if_neg idle, if_neg dear, h]

/-- The test is passed exactly if the basis has potentials and every vacant cell passes. -/
theorem Table.isOptimal?_eq_ok_true_iff : t.isOptimal? costs b tol = .ok true ↔
    ∃ p, Potentials.ofBasis b costs = .ok p ∧ ∀ c ∈ b.vacant, t.Passes costs p tol c := by
  unfold isOptimal?
  simp only [bind_eq_ok, within_eq_ok, vacantAreIdle?_eq_some_true_iff]

end Test

/-! ## Soundness -/

/-- A line whose total is that of amounts has some quantity on it if the amounts have. -/
theorem exists_ne_zero_of_total_eq {m n : Nat} {f g : Cell → Rat} {l : Line} (hl : l.Within m n)
    (hg : ∀ c ∈ Cell.grid m n, 0 ≤ g c) (totals : Line.total m n f l = Line.total m n g l)
    {c : Cell} (hc : c ∈ Cell.grid m n) (through : l.Through c) (used : g c ≠ 0) :
    ∃ d ∈ Cell.grid m n, l.Through d ∧ f d ≠ 0 := by
  have pos : 0 < Line.total m n g l := by
    rw [total_eq_sum g hl]
    refine sum_pos' (fun d hd => mul_nonneg (hg d (Cell.mem_rectangle.mp hd)) (l.weight_nonneg d))
      ⟨c, Cell.mem_rectangle.mpr hc, ?_⟩
    rw [Line.weight_of_through through, mul_one]
    exact (hg c hc).lt_of_ne' used
  rw [← totals, total_eq_sum f hl] at pos
  obtain ⟨d, hd, ne⟩ := exists_ne_zero_of_sum_ne_zero pos.ne'
  refine ⟨d, Cell.mem_rectangle.mp hd, by_contra fun out => ne ?_, left_ne_zero_of_mul ne⟩
  rw [Line.weight_of_not_through out, mul_zero]

/-- The optimality test is sound. Quantities on the basic cells that pass it cost no more than any
other shipment with the same totals in each row and column, up to the tolerance on each unit of that
shipment. The costs may be negative, and the basis may be one of another tableau. -/
theorem Table.cost_le_of_isOptimal? {m n : Nat} (costs x : Table Rat) (b : Basis) (tol : Rat)
    (hc : costs.Fits m n) (hx : x.Fits m n) (hb : b.WellFormed) (hpos : 0 ≤ tol)
    (idle : ∀ c ∈ Cell.grid m n, c ∉ b.cells → x.get? c = some 0)
    (passes : x.isOptimal? costs b tol = .ok true) (y : Table Rat) (hy : y.IsShipping m n)
    (rows : ∀ i < m, y.rowSum? i = x.rowSum? i)
    (columns : ∀ j < n, y.columnSum? j = x.columnSum? j) :
    ∃ cost cost', x.cost? costs = some cost ∧ y.cost? costs = some cost' ∧
      cost ≤ cost' + tol * Scalar.sum y.data.toList := by
  obtain ⟨p, e, vacant⟩ := isOptimal?_eq_ok_true_iff.mp passes
  have fits : b.Fits b.rows b.cols := ⟨hb, rfl, rfl⟩
  obtain ⟨-, -, prices⟩ := fits.prices_of_ofBasis e
  have hyFits := hy.fits
  have nonneg : ∀ c ∈ Cell.grid m n, 0 ≤ y.entry c := hyFits.cells_eq ▸ hy.nonneg
  have basic : ∀ c ∈ Cell.grid m n, x.entry c ≠ 0 → c ∈ b.cells := fun c hg used => by
    by_contra out
    rw [entry, idle c hg out] at used
    exact used rfl
  have totals : ∀ l : Line, l.Within m n → Line.total m n x.entry l = Line.total m n y.entry l :=
    fun l hl => (hyFits.total_eq hx rows columns hl).symm
  refine ⟨_, _, hx.cost?_rat hc, hyFits.cost?_rat hc, ?_⟩
  rw [sum_rat, hyFits.toList_eq, sum_map_grid]
  refine cost_le_of_values (fun c hg used => (prices c (basic c hg used)).entry_eq)
    (fun c hg used => ?_) nonneg totals
  by_cases hcell : c ∈ b.cells
  · rw [(prices c hcell).entry_eq]
    exact le_add_of_nonneg_right hpos
  · -- What the rival ships here needs basic cells in the same row and column, so the basis has both.
    obtain ⟨d, hd, row, used₁⟩ := exists_ne_zero_of_total_eq (Line.row_within hg) nonneg
      (totals _ (Line.row_within hg)) hg (Line.through_row c) used
    obtain ⟨d', hd', column, used₂⟩ := exists_ne_zero_of_total_eq (Line.column_within hg) nonneg
      (totals _ (Line.column_within hg)) hg (Line.through_column c) used
    have within : c ∈ Cell.grid b.rows b.cols := Cell.mem_grid.mpr
      ⟨row ▸ (fits.within (basic d hd used₁)).1, column ▸ (fits.within (basic d' hd' used₂)).2⟩
    obtain ⟨-, v, -, -, offered, dear⟩ := vacant c (fits.mem_vacant.mpr ⟨within, hcell⟩)
    have := Potentials.opportunityCost_eq offered
    rw [not_lt, this] at dear
    linarith

/-- Costs that pay for one route. -/
def subsidized : Table Rat := ⟨2, 2, #[-6, 1, 2, 8]⟩

/-- A shipment that leaves the paid route out. -/
def unpaid : Table Rat := ⟨2, 2, #[0, 5, 4, 1]⟩

/-- A shipment with the same totals that uses it. -/
def paid : Table Rat := ⟨2, 2, #[4, 1, 0, 5]⟩

/-- The basis of the three cells that are not paid for. -/
def unpaidCells : Basis := ⟨⟨2, 2, #[false, true, true, true]⟩, 3⟩

/-- At a tolerance of one the shipment passes on the other three cells. Taking the paid route saves
one on each of four units, which is within the ten that the tolerance allows. -/
theorem Table.cost_le_of_isOptimal?_subsidized :
    (∀ c ∈ Cell.grid 2 2, c ∉ unpaidCells.cells → unpaid.get? c = some 0) ∧
      unpaid.isOptimal? subsidized unpaidCells 1 = .ok true ∧
      unpaid.cost? subsidized = some 21 ∧ paid.cost? subsidized = some 17 ∧
      (21 : Rat) ≤ 17 + 1 * Scalar.sum paid.data.toList := by
  have idle : ∀ c ∈ Cell.grid 2 2, c ∉ unpaidCells.cells → unpaid.get? c = some 0 := by
    decide +kernel
  have passes : unpaid.isOptimal? subsidized unpaidCells 1 = .ok true := by cbv
  have cost : unpaid.cost? subsidized = some 21 := by decide +kernel
  have cost' : paid.cost? subsidized = some 17 := by decide +kernel
  have shipping : paid.IsShipping 2 2 := ⟨rfl, rfl, rfl, by decide +kernel⟩
  obtain ⟨x, y, ex, ey, le⟩ := cost_le_of_isOptimal? subsidized unpaid unpaidCells 1
    ⟨rfl, rfl, rfl⟩ ⟨rfl, rfl, rfl⟩ ⟨rfl, rfl⟩ (by decide +kernel) idle passes paid shipping
    (by decide +kernel) (by decide +kernel)
  rw [cost] at ex
  rw [cost'] at ey
  cases ex
  cases ey
  exact ⟨idle, passes, cost, cost', le⟩

/-! ## Agreement -/

section Agreement

variable {α : Type} [Scalar α] {m n : Nat} {costs : Table α} {tol : α} {position : Position α}

variable [Scalar.Exact α] (ht : isFinite tol = true) (hpos : 0 ≤ tol)

include ht hpos

/-- Quantities on the basic cells of a spanning tree pass the test where pricing has nothing to
offer. -/
theorem Position.Carries.isOptimal? (h : position.Carries m n tol) (sound : position.Sound m n)
    (hf : ∀ c ∈ Cell.grid m n, isFinite (costs.entry c) = true)
    (none' : position.basis.NoOffer costs tol) :
    position.allocation.isOptimal? costs position.basis tol = .ok true := by
  obtain ⟨p, offers, e, eo, best⟩ := none'
  have values := sound.basis.finite_of_ofBasis hf e
  have finite : ∀ o ∈ offers, isFinite o.opportunityCost = true := fun o ho => by
    obtain ⟨vacant, hd⟩ := (Basis.mem_offers eo).mp ho
    exact values.opportunityCost? (hf _ (sound.basis.mem_vacant.mp vacant).1) hd
  refine Table.isOptimal?_eq_ok_true_iff.mpr ⟨p, e, fun c hcell => ?_⟩
  obtain ⟨grid, vacant⟩ := sound.basis.mem_vacant.mp hcell
  obtain ⟨q, hq⟩ := sound.allocation.exists_get? grid
  obtain ⟨o, ho, eo⟩ := exists_of_mem_left (forall₂_of_mapM eo) c hcell
  obtain ⟨d, hd, rfl⟩ := Option.map_eq_some_iff.mp eo
  have low := neg_le_of_bestOffer?_eq_none ht hpos finite best _ ho
  refine ⟨q, d, hq, fun lt => vacant (h c grid q hq lt), hd, ?_⟩
  exact (Lawful.not_lt_iff (finite _ ho) (Exact.isFinite_neg ht)).mpr low

end Agreement

section Planned

variable {α : Type} [Scalar α] {tol : α} {plan : Plan α} {config : Config α}

/-- The plan passes the optimality test on the basis of its stored cells. -/
def Plan.Certified (plan : Plan α) (tol : α) : Prop :=
  ∃ b, plan.basis? = some b ∧ plan.allocation.isOptimal? plan.costs b tol = .ok true

variable [Scalar.Exact α]

/-- A plan passes if it reports a position where pricing has nothing to offer. -/
theorem Plan.Reports.certified {outcome : Outcome α} (h : plan.Reports tol outcome)
    (ht : isFinite tol = true) (hpos : 0 ≤ tol)
    (none' : outcome.position.basis.NoOffer plan.costs tol) : plan.Certified tol := by
  refine ⟨outcome.position.basis, h.describes.basis?_eq h.rests.sound, ?_⟩
  rw [h.describes.allocation_eq]
  exact h.rests.carries.isOptimal? ht hpos h.rests.sound
    (fun c hc => isFinite_of_isAmount (h.rests.amounts c hc)) none'

/-- A plan that planning calls optimal passes the optimality test. -/
theorem Problem.certified_of_solve {p : Problem α} (h : p.solve config = .ok plan)
    (optimal : plan.isOptimal = true) : plan.Certified config.tolerance := by
  obtain ⟨ht, hpos, -⟩ := Config.of_check (checks_of_solve h).1
  obtain ⟨outcome, reports, -, none'⟩ := exists_reports_of_solve h optimal
  exact reports.certified ht hpos none'

/-- A plan that was taken up and improved further is called optimal, and passes the optimality
test. -/
theorem Plan.certified_of_reoptimize {p : Plan α} (h : p.reoptimize config = .ok plan) :
    plan.isOptimal = true ∧ plan.Certified config.tolerance := by
  obtain ⟨⟨⟩, settings, -⟩ := bind_eq_ok.mp h
  obtain ⟨ht, hpos, -⟩ := Config.of_check (planning_eq_ok.mp settings)
  obtain ⟨outcome, reports, optimal, none'⟩ := exists_reports_of_reoptimize h
  exact ⟨by rw [reports.isOptimal_eq, decide_eq_true optimal], reports.certified ht hpos none'⟩

end Planned

/-- Planner and optimality test agree, under any settings. Every plan that planning calls optimal
passes the test at the tolerance of the settings, on the basis that its stored cells make up; and so
does every plan that was taken up, whatever basis was stored with it and whatever small quantities its
vacant cells hold, and improved to the end. -/
theorem Plan.passes_of_planned {α : Type} [Scalar α] [Scalar.Exact α] (config : Config α) :
    (∀ (p : Problem α) (plan : Plan α), p.solve config = .ok plan → plan.isOptimal = true →
      ∃ b, plan.basis? = some b ∧
        plan.allocation.isOptimal? plan.costs b config.tolerance = .ok true) ∧
      ∀ p plan : Plan α, p.reoptimize config = .ok plan → plan.isOptimal = true ∧
        ∃ b, plan.basis? = some b ∧
          plan.allocation.isOptimal? plan.costs b config.tolerance = .ok true :=
  ⟨fun _ _ h optimal => Problem.certified_of_solve h optimal,
    fun _ _ h => Plan.certified_of_reoptimize h⟩

/-- A stored plan without basic cells. It ships one unit each on two routes that are not worth it. -/
def untied : Plan Rat where
  totalCost := 100
  allocation := ⟨2, 2, #[1, 10, 10, 1]⟩
  costs := ⟨2, 2, #[8, 6, 2, 12]⟩
  supply := [11, 11]
  demand := [11, 11]
  sourceNames := ["S1", "S2"]
  destinationNames := ["D1", "D2"]
  routes := []
  isOptimal := false
  iterations := 0
  rule := .vogel
  balance := .balanced
  basicCells := []
  costHistory := []

/-- A planned problem, and a stored plan whose basis has to be rebuilt: one unit stays on a vacant
cell, within the tolerance of two. -/
theorem Plan.passes_of_planned_untied :
    (∃ plan, nearlyEven.solve coarse = .ok plan ∧ plan.isOptimal = true ∧
      ∃ b, plan.basis? = some b ∧
        plan.allocation.isOptimal? plan.costs b coarse.tolerance = .ok true) ∧
      ∃ plan, untied.reoptimize coarse = .ok plan ∧
        plan.basicCells = [⟨0, 0⟩, ⟨0, 1⟩, ⟨1, 0⟩] ∧ plan.allocation.get? ⟨1, 1⟩ = some 1 ∧
        ∃ b, plan.basis? = some b ∧
          plan.allocation.isOptimal? plan.costs b coarse.tolerance = .ok true := by
  have planned : (nearlyEven.solve coarse).toOption.map Plan.isOptimal = some true := by
    decide +kernel
  have resumed : (untied.reoptimize coarse).toOption.map
      (fun plan => (plan.basicCells, plan.allocation.get? ⟨1, 1⟩)) =
        some ([⟨0, 0⟩, ⟨0, 1⟩, ⟨1, 0⟩], some 1) := by
    decide +kernel
  obtain ⟨plan, solved, optimal⟩ := exists_of_map_toOption planned
  obtain ⟨plan', taken, data⟩ := exists_of_map_toOption resumed
  obtain ⟨cells, residue⟩ := Prod.mk.inj data
  obtain ⟨fresh, stored⟩ := passes_of_planned coarse
  exact ⟨⟨plan, solved, optimal, fresh nearlyEven plan solved optimal⟩,
    plan', taken, cells, residue, (stored untied plan' taken).2⟩

end Freight
