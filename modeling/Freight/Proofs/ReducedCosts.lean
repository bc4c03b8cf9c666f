import Freight.Proofs.Circuit
import Freight.Proofs.Iteration

/-!
# Reduced costs

What the potentials of a spanning tree leave of a vacant cell's cost is what the costs around its loop
come to (`Closes.opportunityCost?_eq`): the search that prices the cell and the one that traces its
loop cannot disagree. Charges on the lines cancel around a loop, so costs that differ by charges
(`Table.Charged`) have the same opportunity costs (`Charged.opportunityCost?_eq`), though not the same
potentials. Prices, steps and courses depend on costs through these only (`Charged.price_eq`,
`Charged.step_eq`, `Charged.course_eq`).

Main statements: an opportunity cost is an alternating sum
(`Potentials.opportunityCost?_eq_alternating`), and runs at costs that differ by charges are the same,
except for what the charges add to each total cost (`Position.run_of_charged`).
-/

namespace Freight

open Finset

variable {m n budget : Nat} {b : Basis} {c : Cell} {path loop : List Cell} {tol : Rat}
  {costs costs' : Table Rat} {charge : Line → Rat}

/-! ## Opportunity costs around loops -/

/-- The opportunity cost of a cell that closes a loop, at potentials of its basis. -/
theorem Basis.Closes.opportunityCost?_eq (h : b.Closes c path) (hb : b.Fits m n)
    (hc : costs.Fits m n) (hg : c ∈ Cell.grid m n) {p : Potentials Rat}
    (e : Potentials.ofBasis b costs = .ok p) :
    p.opportunityCost? costs c = some (alternating ((c :: path).map costs.entry)) := by
  obtain ⟨sized, -, prices⟩ := hb.prices_of_ofBasis e
  obtain ⟨d, hd⟩ := sized.exists_opportunityCost? hc hg
  rw [hd, h.alternating_costs p.value fun x hx => (prices x hx).entry_eq,
    Potentials.opportunityCost_eq hd]

/-- Potentials and loops agree. A vacant cell of a spanning tree has a loop, and its opportunity cost
is the sum of the costs at the even positions of the loop less that at the odd ones. -/
theorem Potentials.opportunityCost?_eq_alternating {m n : Nat} (b : Basis) (costs : Table Rat)
    (c : Cell) (hb : b.Fits m n) (ht : b.IsTree) (hc : costs.Fits m n) (vacant : c ∈ b.vacant) :
    ∃ p loop xs, ofBasis b costs = .ok p ∧
      (b.loop c : Except (Cause Rat) (List Cell)) = .ok loop ∧ loop.mapM costs.get? = some xs ∧
      p.opportunityCost? costs c = some (alternating xs) := by
  have grid := (hb.mem_vacant.mp vacant).1
  have hm : 0 < m := Nat.zero_lt_of_lt (Cell.mem_grid.mp grid).1
  obtain ⟨p, e, -⟩ := hb.exists_potentials hm ht hc
  obtain ⟨path, eloop, closes⟩ := hb.exists_loop_of_isTree (α := Rat) ht vacant
  exact ⟨p, c :: path, _, e, eloop,
    mapM_eq_map fun d hd => hc.get?_eq (hb.mem_grid_of_closes grid closes d hd),
    closes.opportunityCost?_eq hb hc grid e⟩

/-- Costs for the staircase. -/
def staircaseCosts : Table Rat := ⟨3, 3, #[4, 1, 7, 3, 5, 2, 9, 6, 8]⟩

/-- Around the whole staircase: `9 - 4 + 1 - 5 + 2 - 8`. -/
theorem Potentials.opportunityCost?_eq_alternating_staircase :
    Basis.staircase.Fits 3 3 ∧ Basis.staircase.IsTree ∧ staircaseCosts.Fits 3 3 ∧
      Cell.mk 2 0 ∈ Basis.staircase.vacant ∧
      ∃ p loop xs, ofBasis Basis.staircase staircaseCosts = .ok p ∧
        (Basis.staircase.loop ⟨2, 0⟩ : Except (Cause Rat) (List Cell)) = .ok loop ∧
        loop.mapM staircaseCosts.get? = some xs ∧ xs = [9, 4, 1, 5, 2, 8] ∧
        p.opportunityCost? staircaseCosts ⟨2, 0⟩ = some (-5) := by
  have hc : staircaseCosts.Fits 3 3 := ⟨rfl, rfl, rfl⟩
  have vacant : Cell.mk 2 0 ∈ Basis.staircase.vacant := by decide
  obtain ⟨p, loop, xs, e, eloop, exs, cost⟩ := opportunityCost?_eq_alternating Basis.staircase
    staircaseCosts ⟨2, 0⟩ Basis.fits_staircase Basis.isTree_staircase hc vacant
  have traced : (Basis.staircase.loop ⟨2, 0⟩ : Except (Cause Rat) (List Cell)) =
      .ok [⟨2, 0⟩, ⟨0, 0⟩, ⟨0, 1⟩, ⟨1, 1⟩, ⟨1, 2⟩, ⟨2, 2⟩] := rfl
  rw [eloop] at traced
  cases traced
  cases exs
  exact ⟨Basis.fits_staircase, Basis.isTree_staircase, hc, vacant, p, _, _, e, eloop, rfl, rfl,
    cost.trans (by decide +kernel)⟩

/-! ## Charges on lines -/

/-- Costs that differ by a charge for each unit on a line. -/
structure Table.Charged (costs : Table Rat) (charge : Line → Rat) (costs' : Table Rat) (m n : Nat) :
    Prop where
  fits : costs.Fits m n
  fits_charged : costs'.Fits m n
  entry_eq : ∀ c ∈ Cell.grid m n,
    costs'.entry c = costs.entry c + (charge (.row c.row) + charge (.column c.col))

theorem alternating_map_add (f g : Cell → Rat) (cs : List Cell) :
    alternating (cs.map fun c => f c + g c) = alternating (cs.map f) + alternating (cs.map g) := by
  induction cs with
  | nil => exact (add_zero 0).symm
  | cons c cs ih =>
    rw [List.map_cons, List.map_cons, List.map_cons, alternating_cons, alternating_cons,
      alternating_cons, ih]
    ring

namespace Table.Charged

variable (h : costs.Charged charge costs' m n)

include h

/-- Around a loop the charges cancel. -/
theorem alternating_eq (closes : b.Closes c path) (hs : ∀ d ∈ c :: path, d ∈ Cell.grid m n) :
    alternating ((c :: path).map costs'.entry) = alternating ((c :: path).map costs.entry) := by
  rw [List.map_congr_left fun d hd => h.entry_eq d (hs d hd), alternating_map_add,
    closes.alternating_eq_zero charge, add_zero]

/-- Charges leave total costs apart by what they come to on the lines. -/
theorem cost?_eq {t : Table Rat} (ht : t.Fits m n) {x : Rat} (hx : t.cost? costs = some x) :
    t.cost? costs' = some (x +
      (∑ i ∈ range m, charge (.row i) * Line.total m n t.entry (.row i) +
        ∑ j ∈ range n, charge (.column j) * Line.total m n t.entry (.column j))) := by
  rw [ht.cost?_rat h.fits] at hx
  cases hx
  rw [ht.cost?_rat h.fits_charged, ← sum_mul_lines, ← sum_add_distrib]
  refine congrArg some (sum_congr rfl fun c hc => ?_)
  rw [h.entry_eq c (Cell.mem_rectangle.mp hc), mul_add]

/-- Without cells there is nothing to charge. -/
theorem eq_of_grid_eq_nil (empty : Cell.grid m n = []) : costs' = costs := by
  refine Table.ext_get? h.fits.wellFormed h.fits_charged.wellFormed
    (h.fits_charged.rows_eq.trans h.fits.rows_eq.symm)
    (h.fits_charged.cols_eq.trans h.fits.cols_eq.symm) fun c hc => ?_
  rw [h.fits.cells_eq, empty] at hc
  cases hc

variable (hm : 0 < m)

/-- Vacant cells of a spanning tree have the same opportunity costs, each at its own potentials. -/
theorem opportunityCost?_eq (hb : b.Fits m n) (ht : b.IsTree) (hc : c ∈ b.vacant)
    {p p' : Potentials Rat} (e : Potentials.ofBasis b costs = .ok p)
    (e' : Potentials.ofBasis b costs' = .ok p') :
    p'.opportunityCost? costs' c = p.opportunityCost? costs c := by
  have grid := (hb.mem_vacant.mp hc).1
  obtain ⟨path, -, closes⟩ := hb.exists_loop_of_isTree (α := Rat) ht hc
  rw [closes.opportunityCost?_eq hb h.fits grid e,
    closes.opportunityCost?_eq hb h.fits_charged grid e',
    h.alternating_eq closes (hb.mem_grid_of_closes grid closes)]

include hm

/-- So pricing a spanning tree comes to the same. -/
theorem price_eq (hb : b.Fits m n) (ht : b.IsTree) (tol : Rat) :
    b.price costs' tol = b.price costs tol := by
  obtain ⟨p, offers, e, eoffers, eprice⟩ := hb.price hm ht h.fits tol
  obtain ⟨p', offers', e', eoffers', eprice'⟩ := hb.price hm ht h.fits_charged tol
  have same : b.offers? costs' p' = b.offers? costs p :=
    mapM_congr fun c hc => by rw [h.opportunityCost?_eq hb ht hc e e']
  rw [same, eoffers] at eoffers'
  cases eoffers'
  rw [eprice, eprice']

/-- And so does a step. -/
theorem step_eq {p : Position Rat} (hp : p.Sound m n) (tol : Rat) :
    p.step costs' tol = p.step costs tol := by
  unfold Position.step
  rw [h.price_eq hm hp.basis hp.isTree]

/-- Step by step, the course is the same. -/
theorem course_eq (hpos : 0 ≤ tol) : ∀ (budget : Nat) {p : Position Rat}, p.Sound m n →
    Position.course costs' tol budget p = Position.course costs tol budget p
  | 0, _, _ => rfl
  | budget + 1, p, hp => by
    have same := h.step_eq hm hp tol
    rcases hp.step_cases hm rfl hpos h.fits with still | ⟨next, record, hstep, sound⟩
    · have none' : ∀ next record, p.step costs tol ≠ (next, .ok (some record)) := by
        intro next record e
        rw [still] at e
        cases e
      rw [Position.course_of_no_step none', Position.course_of_no_step (same ▸ none')]
    · rw [Position.course_of_step hstep, Position.course_of_step (same.trans hstep),
        course_eq hpos budget sound]

/-- A run from a sound position ends at the same position, after as many pivots, and the same way. -/
theorem exists_run {p : Position Rat} (hp : p.Sound m n) (hpos : 0 ≤ tol) {outcome : Outcome Rat}
    (e : p.run costs tol budget = .ok outcome) :
    ∃ history, p.run costs' tol budget = .ok { outcome with costHistory := history } := by
  obtain ⟨outcome₁, e₁, -, iterations, last⟩ := hp.exists_run hm rfl hpos h.fits budget
  rw [e] at e₁
  cases e₁
  obtain ⟨⟨position', iterations', ending', history'⟩, e', -, eiterations, last'⟩ :=
    hp.exists_run hm rfl hpos h.fits_charged budget
  have same := h.course_eq hm hpos budget hp
  rw [Position.visited, same, ← Position.visited, last] at last'
  rw [same, ← iterations] at eiterations
  cases last'
  cases eiterations
  -- Both end optimal if one more step would find nothing to do, and that step is the same.
  have sound := hp.of_visited hm rfl hpos h.fits (List.getLast?_eq_getElem?.symm.trans last)
  have optimal := hp.optimal_iff_of_run hm rfl hpos h.fits e
  have optimal' := hp.optimal_iff_of_run hm rfl hpos h.fits_charged e'
  rw [h.step_eq hm sound, ← optimal] at optimal'
  have ends : ending' = outcome.ending := by
    cases ending' <;> cases ending : outcome.ending <;> simp_all
  rw [ends] at e'
  exact ⟨history', e'⟩

end Table.Charged

namespace Position

section Forest

variable {p q : Position Rat} (ha : p.allocation.Fits m n) (hb : p.basis.Fits m n)
  (acyclic : Acyclic p.basis.cells) (h : costs.Charged charge costs' m n) (hpos : 0 ≤ tol)

include ha hb acyclic hpos

/-- The quantities that a run from a forest visits make up a table of one size. -/
theorem fits_of_visited (hc : costs.Fits m n) {k : Nat}
    (hq : (p.visited costs tol budget)[k]? = some q) : q.allocation.Fits m n := by
  cases k with
  | zero =>
    cases hq
    exact ha
  | succ k =>
    rcases exists_full_or_grid_eq_nil ha hb acyclic with ⟨hm, b, added, e, full, sound⟩ | empty
    · rw [visited, course_of_repair e full] at hq
      exact (sound.of_visited (k := k + 1) hm rfl hpos hc hq).allocation
    · rw [visited, course_of_grid_eq_nil hb empty] at hq
      cases hq

include h

/-- Charged costs lead a run from a forest along the same course, -/
theorem course_of_charged (budget : Nat) :
    course costs' tol budget p = course costs tol budget p := by
  rcases exists_full_or_grid_eq_nil ha hb acyclic with ⟨hm, b, added, e, full, sound⟩ | empty
  · rw [course_of_repair e full, course_of_repair e full, h.course_eq hm hpos budget sound]
  · rw [h.eq_of_grid_eq_nil empty]

/-- and to the same end. -/
theorem exists_run_of_charged {outcome : Outcome Rat} (e : p.run costs tol budget = .ok outcome) :
    ∃ history, p.run costs' tol budget = .ok { outcome with costHistory := history } := by
  rcases exists_full_or_grid_eq_nil ha hb acyclic with ⟨hm, b, added, erepair, full, sound⟩ | empty
  · rw [run_of_repair erepair full] at e ⊢
    exact h.exists_run hm sound hpos e
  · rw [h.eq_of_grid_eq_nil empty]
    exact ⟨outcome.costHistory, e⟩

end Forest

/-- Improvement depends on costs only through reduced costs. A run from any quantities on a forest
takes, at costs raised by a charge for each line, the same course with the same pivots, and within
every budget it ends at the same position, after as many iterations and the same way. The total costs
that it records differ, at each position visited, by the charges on what the lines carry there. -/
theorem run_of_charged {m n : Nat} (p : Position Rat) (costs costs' : Table Rat)
    (charge : Line → Rat) (tol : Rat) (ha : p.allocation.Fits m n) (hb : p.basis.Fits m n)
    (acyclic : Acyclic p.basis.cells) (h : costs.Charged charge costs' m n) (hpos : 0 ≤ tol) :
    (0 < m → 0 < n → ∀ budget, ∃ outcome, p.run costs tol budget = .ok outcome) ∧
      ∀ budget, course costs' tol budget p = course costs tol budget p ∧
        (∀ cause, p.run costs tol budget = .error cause → p.run costs' tol budget = .error cause) ∧
        ∀ outcome, p.run costs tol budget = .ok outcome → ∃ history,
          p.run costs' tol budget = .ok { outcome with costHistory := history } ∧
          outcome.costHistory.length = (p.visited costs tol budget).length ∧
          history.length = (p.visited costs tol budget).length ∧
          ∀ (k : Nat) (q : Position Rat) (x : Rat), (p.visited costs tol budget)[k]? = some q →
            outcome.costHistory[k]? = some x → history[k]? = some (x +
              (∑ i ∈ range m, charge (.row i) * Line.total m n q.allocation.entry (.row i) +
                ∑ j ∈ range n,
                  charge (.column j) * Line.total m n q.allocation.entry (.column j))) := by
  have ends : 0 < m → 0 < n → ∀ budget, ∃ outcome, p.run costs tol budget = .ok outcome := by
    intro hm hn budget
    obtain ⟨outcome, erun, -⟩ := exists_run_of_forest hm hn ha hb h.fits acyclic hpos budget
    exact ⟨outcome, erun⟩
  refine ⟨ends, fun budget => ?_⟩
  have same := course_of_charged ha hb acyclic h hpos budget
  refine ⟨same, fun cause e => ?_, fun outcome e => ?_⟩
  · by_cases cells : 0 < m ∧ 0 < n
    · obtain ⟨outcome, erun⟩ := ends cells.1 cells.2 budget
      rw [e] at erun
      cases erun
    · rwa [h.eq_of_grid_eq_nil (Cell.grid_eq_nil cells)]
  obtain ⟨history, e'⟩ := exists_run_of_charged ha hb acyclic h hpos e
  have totals := (visited_of_run e).1
  have totals' := (visited_of_run e').1
  rw [visited, same, ← visited] at totals'
  refine ⟨history, e', totals.length_eq.symm, totals'.length_eq.symm, fun k q x hq hx => ?_⟩
  obtain ⟨q₁, hq₁, hx⟩ := exists_of_getElem?_right totals x hx
  rw [hq] at hq₁
  cases hq₁
  obtain ⟨y, hy, hx'⟩ := exists_of_getElem?_right totals'.flip q hq
  have fits := fits_of_visited ha hb acyclic hpos h.fits hq
  rw [hy, ← h.cost?_eq fits hx]
  exact hx'.symm

/-- The costs for crossing the two routes, with five more on the first row, three less on the second,
and one and two more on the columns. -/
def chargedCosts : Table Rat := ⟨2, 2, #[14, 13, 0, 11]⟩

/-- The charges on these lines. -/
def lineCharges : Line → Rat
  | .row i => if i = 0 then 5 else -3
  | .column j => j + 1

/-- The routes are crossed as before. The charges add `49` to the total cost at the start, and `50` in
the end, when a unit less is shipped. -/
theorem run_of_charged_twoRoutes :
    twoRoutes.allocation.Fits 2 2 ∧ twoRoutes.basis.Fits 2 2 ∧ Acyclic twoRoutes.basis.cells ∧
      crossedCosts.Charged lineCharges chargedCosts 2 2 ∧ (0 : Rat) ≤ 2 ∧
      ∃ outcome history, twoRoutes.run crossedCosts 2 5 = .ok outcome ∧
        outcome.costHistory = [212, 80] ∧
        twoRoutes.run chargedCosts 2 5 = .ok { outcome with costHistory := history } ∧
        history = [261, 130] := by
  have ha : twoRoutes.allocation.Fits 2 2 := ⟨rfl, rfl, rfl⟩
  have hb : twoRoutes.basis.Fits 2 2 := ⟨⟨rfl, rfl⟩, rfl, rfl⟩
  have acyclic : Acyclic twoRoutes.basis.cells := hb.components_isOk_iff.mp ⟨_, rfl⟩
  have h : crossedCosts.Charged lineCharges chargedCosts 2 2 :=
    ⟨⟨rfl, rfl, rfl⟩, ⟨rfl, rfl, rfl⟩, by decide +kernel⟩
  have hpos : (0 : Rat) ≤ 2 := by decide +kernel
  have values : (twoRoutes.run crossedCosts 2 5).toOption.map Outcome.costHistory =
    some [212, 80] := by decide +kernel
  obtain ⟨outcome, erun, costHistory⟩ := exists_of_map_toOption values
  obtain ⟨-, all⟩ := run_of_charged twoRoutes crossedCosts chargedCosts lineCharges 2 ha hb acyclic h
    hpos
  obtain ⟨history, erun', length, length', differ⟩ := (all 5).2.2 outcome erun
  have crossed : (twoRoutes.visited crossedCosts 2 5)[1]?.map Position.allocation =
    some ⟨2, 2, #[0, 10, 10, 0]⟩ := by decide +kernel
  obtain ⟨q, hq, ends⟩ := Option.map_eq_some_iff.mp crossed
  have first := (differ 0 twoRoutes 212 rfl (by rw [costHistory]; rfl)).trans
    (show _ = some 261 by decide +kernel)
  have second := differ 1 q 80 hq (by rw [costHistory]; rfl)
  rw [ends] at second
  have second := second.trans (show _ = some 130 by decide +kernel)
  rw [← length, costHistory] at length'
  obtain ⟨x, y, rfl⟩ := List.length_eq_two.mp length'
  cases first
  cases second
  exact ⟨ha, hb, acyclic, h, hpos, outcome, _, erun, costHistory, erun', rfl⟩

end Position

end Freight
