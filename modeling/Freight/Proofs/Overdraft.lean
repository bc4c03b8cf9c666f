import Freight.Proofs.Descent
import Freight.Proofs.Feasibility

/-!
# Plans that owe something

The check of a plan lets a negative quantity pass, up to the tolerance times the total supply. What
such routes owe at their unit costs is the *debt* of the plan, what the others ship its *spending*,
and the total cost is the difference (`Table.Fits.cost?_eq_sub`).

No pivot raises either of the two (`Sound.eases_of_step`). But a pivot that can send nothing may clear
a losing cell that owes something, and then the total cost rises by the debt that is cancelled. So
along a run the total cost may rise by the debt of its start, and by no more than that.

Main statement: that bound for the history of a plan that was taken up
(`Plan.cost_le_of_reoptimize`). Without a debt the total cost never rises.
-/

namespace Freight

open Finset Scalar

variable {m n budget : Nat} {c d leaving : Cell} {path : List Cell} {tol low : Rat}
  {costs t : Table Rat} {p q next : Position Rat} {record : Pivot Rat}

/-! ## Spending and debt -/

namespace Table

/-- What the quantities cost that are shipped. -/
def spending (t costs : Table Rat) : Rat :=
  ∑ c ∈ Cell.rectangle t.rows t.cols, max (t.entry c) 0 * costs.entry c

/-- What the quantities cost that are owed, as on routes with a negative quantity. -/
def debt (t costs : Table Rat) : Rat :=
  ∑ c ∈ Cell.rectangle t.rows t.cols, max (-t.entry c) 0 * costs.entry c

theorem Fits.spending_eq (h : t.Fits m n) :
    t.spending costs = ∑ c ∈ Cell.rectangle m n, max (t.entry c) 0 * costs.entry c := by
  rw [spending, h.rows_eq, h.cols_eq]

theorem Fits.debt_eq (h : t.Fits m n) :
    t.debt costs = ∑ c ∈ Cell.rectangle m n, max (-t.entry c) 0 * costs.entry c := by
  rw [debt, h.rows_eq, h.cols_eq]

/-- The total cost is what is spent, less what is owed. -/
theorem Fits.cost?_eq_sub (h : t.Fits m n) (hc : costs.Fits m n) :
    t.cost? costs = some (t.spending costs - t.debt costs) := by
  rw [h.cost?_rat hc, h.spending_eq, h.debt_eq, ← sum_sub_distrib]
  refine congrArg some (sum_congr rfl fun c _ => ?_)
  rw [← sub_mul]
  congr 1
  rcases le_total 0 (t.entry c) with held | owed
  · rw [max_eq_left held, max_eq_right (neg_nonpos.mpr held), sub_zero]
  · rw [max_eq_right owed, max_eq_left (neg_nonneg.mpr owed), sub_neg_eq_add, zero_add]

variable (h : t.Fits m n) (amounts : ∀ c ∈ Cell.grid m n, 0 ≤ costs.entry c)

include h amounts

theorem Fits.debt_nonneg : 0 ≤ t.debt costs := by
  rw [h.debt_eq]
  exact sum_nonneg fun c hc =>
    mul_nonneg (le_max_right _ _) (amounts c (Cell.mem_rectangle.mp hc))

/-- If no quantity lies below minus a tolerance, the debt is within the tolerance on each route. -/
theorem Fits.debt_le (hc : costs.Fits m n) (hpos : 0 ≤ tol)
    (small : ∀ c ∈ Cell.grid m n, -tol ≤ t.entry c) :
    t.debt costs ≤ tol * Scalar.sum costs.data.toList := by
  rw [h.debt_eq, sum_rat, hc.toList_eq, sum_map_grid, mul_sum]
  refine sum_le_sum fun c hc => mul_le_mul_of_nonneg_right (max_le ?_ hpos)
    (amounts c (Cell.mem_rectangle.mp hc))
  exact neg_le.mp (small c (Cell.mem_rectangle.mp hc))

omit amounts in
/-- Amounts owe nothing. -/
theorem Fits.debt_eq_zero (nonneg : ∀ c ∈ Cell.grid m n, 0 ≤ t.entry c) : t.debt costs = 0 := by
  rw [h.debt_eq]
  refine sum_eq_zero fun c hc => ?_
  rw [max_eq_right (neg_nonpos.mpr (nonneg c (Cell.mem_rectangle.mp hc))), zero_mul]

end Table

/-! ## Pivots -/

namespace Position

/-- A position spends no more than another one, and it owes no more. -/
structure Eases (next p : Position Rat) (costs : Table Rat) : Prop where
  spending_le : next.allocation.spending costs ≤ p.allocation.spending costs
  debt_le : next.allocation.debt costs ≤ p.allocation.debt costs

theorem Eases.refl (p : Position Rat) (costs : Table Rat) : p.Eases p costs :=
  ⟨le_refl _, le_refl _⟩

theorem Eases.trans (h : next.Eases q costs) (h' : q.Eases p costs) : next.Eases p costs :=
  ⟨h.spending_le.trans h'.spending_le, h.debt_le.trans h'.debt_le⟩

namespace Pivots

variable (h : p.Pivots next tol c path low leaving) (hp : p.Sound m n) (hpos : 0 ≤ tol)

include h hp hpos

/-- What a cell holds and what it owes after a pivot. A losing cell is cleared if hardly anything is
left on it, and otherwise it loses what is sent; neither leaves a debt. -/
theorem entry_cases (hd : d ∈ Cell.grid m n) :
    max (next.allocation.entry d) 0 ≤
        max (p.allocation.entry d) 0 + positivePart low * gain (c :: path) d ∧
      max (-next.allocation.entry d) 0 ≤ max (-p.allocation.entry d) 0 := by
  have nodup := h.closes.nodup_cons (hp.basis.mem_vacant.mp h.vacant).2
  have sent := positivePart_nonneg low
  rw [h.entry_eq hp hd, gain_eq nodup]
  have upper := le_max_left (p.allocation.entry d) 0
  have zero := le_max_right (p.allocation.entry d) 0
  have debt := le_max_right (-p.allocation.entry d) 0
  by_cases hl : d ∈ losing (c :: path)
  · have held := h.positivePart_le_max hp hl
    rw [if_pos hl, residue]
    split
    · -- The cell is cleared, and what it held makes up for what was sent.
      have empty : p.allocation.entry d + positivePart low * -1 -
          (p.allocation.entry d - positivePart low) = 0 := by ring
      rw [empty, max_self, neg_zero, max_self]
      exact ⟨by linarith, debt⟩
    · next kept =>
      have left : tol < p.allocation.entry d - positivePart low :=
        not_le.mp fun small => kept ⟨hl, small⟩
      exact ⟨max_le (by linarith) (by linarith), max_le (by linarith) debt⟩
  · rw [if_neg hl, residue_of_not_mem hl]
    split
    · exact ⟨max_le (by linarith) (by linarith), max_le_max_right 0 (by linarith)⟩
    · exact ⟨max_le (by linarith) (by linarith), max_le_max_right 0 (by linarith)⟩

/-- A pivot on a cell with a negative opportunity cost raises neither what is spent nor what is
owed. -/
theorem eases (hn : next.Sound m n) (amounts : ∀ c ∈ Cell.grid m n, 0 ≤ costs.entry c)
    (w : Line → Rat)
    (tight : ∀ d ∈ p.basis.cells, costs.entry d = w (.row d.row) + w (.column d.col))
    (worth : costs.entry c - (w (.row c.row) + w (.column c.col)) ≤ 0) : next.Eases p costs := by
  have loopGrid := hp.mem_grid_of_loop h.vacant h.closes
  have cases := fun d (hd : d ∈ Cell.rectangle m n) =>
    h.entry_cases hp hpos (Cell.mem_rectangle.mp hd)
  have amount := fun d (hd : d ∈ Cell.rectangle m n) => amounts d (Cell.mem_rectangle.mp hd)
  constructor
  · rw [hn.allocation.spending_eq, hp.allocation.spending_eq]
    calc ∑ d ∈ Cell.rectangle m n, max (next.allocation.entry d) 0 * costs.entry d
      _ ≤ ∑ d ∈ Cell.rectangle m n, (max (p.allocation.entry d) 0 +
            positivePart low * gain (c :: path) d) * costs.entry d :=
          sum_le_sum fun d hd => mul_le_mul_of_nonneg_right (cases d hd).1 (amount d hd)
      _ = ∑ d ∈ Cell.rectangle m n, max (p.allocation.entry d) 0 * costs.entry d +
            positivePart low * (costs.entry c - (w (.row c.row) + w (.column c.col))) := by
          rw [← h.closes.alternating_costs w tight, ← sum_gain costs.entry loopGrid, mul_sum,
            ← sum_add_distrib]
          exact sum_congr rfl fun d _ => by ring
      _ ≤ ∑ d ∈ Cell.rectangle m n, max (p.allocation.entry d) 0 * costs.entry d :=
          add_le_of_nonpos_right
            (mul_nonpos_of_nonneg_of_nonpos (positivePart_nonneg low) worth)
  · rw [hn.allocation.debt_eq, hp.allocation.debt_eq]
    exact sum_le_sum fun d hd => mul_le_mul_of_nonneg_right (cases d hd).2 (amount d hd)

end Pivots

/-! ## Runs -/

section Run

variable (hm : 0 < m) (hpos : 0 ≤ tol) (hc : costs.Fits m n)
  (amounts : ∀ c ∈ Cell.grid m n, 0 ≤ costs.entry c)

include hm hpos hc amounts

/-- The pivot of a step raises neither what is spent nor what is owed. -/
theorem Sound.eases_of_step (h : p.Sound m n)
    (e : p.step costs tol = (next, .ok (some record))) : next.Eases p costs := by
  obtain ⟨prices, path, low, -, tight, offered, worth, -, pivots, sound⟩ :=
    h.prices_of_step hm hpos hc e
  rw [Potentials.opportunityCost_eq offered] at worth
  exact pivots.eases h hpos sound amounts prices.value tight worth.le

/-- Neither rises between two positions that a run visits. -/
theorem Sound.eases_of_visited (h : p.Sound m n) {i : Nat}
    (hp : (p.visited costs tol budget)[i]? = some q) : ∀ {j : Nat} {next : Position Rat}, i ≤ j →
      (p.visited costs tol budget)[j]? = some next → next.Eases q costs := by
  intro j next hij
  induction hij generalizing next with
  | refl =>
    intro hnext
    rw [hp] at hnext
    cases hnext
    exact .refl q costs
  | step _ ih =>
    intro hnext
    obtain ⟨mid, record, hmid, -, step⟩ := exists_step_of_visited hnext
    have sound := h.of_visited hm rfl hpos hc hmid
    exact (sound.eases_of_step hm hpos hc amounts step).trans (ih hmid)

/-- The total cost never rises by more than the debt at the start. -/
theorem Sound.cost_le_of_visited (h : p.Sound m n) {history : List Rat}
    (all : List.Forall₂ (fun q cost => q.allocation.cost? costs = some cost)
      (p.visited costs tol budget) history) {i j : Nat} {x y : Rat} (hij : i ≤ j)
    (hx : history[i]? = some x) (hy : history[j]? = some y) :
    y ≤ x + p.allocation.debt costs := by
  obtain ⟨q, hq, ex⟩ := exists_of_getElem?_right all x hx
  obtain ⟨next, hnext, ey⟩ := exists_of_getElem?_right all y hy
  have soundq := h.of_visited hm rfl hpos hc hq
  have sound := h.of_visited hm rfl hpos hc hnext
  have first := h.eases_of_visited hm hpos hc amounts (i := 0) rfl (Nat.zero_le i) hq
  have later := h.eases_of_visited hm hpos hc amounts hq hij hnext
  have owed := sound.allocation.debt_nonneg amounts
  rw [soundq.allocation.cost?_eq_sub hc] at ex
  rw [sound.allocation.cost?_eq_sub hc] at ey
  cases ex
  cases ey
  linarith [first.debt_le, later.spending_le]

end Run

end Position

/-! ## Plans taken up -/

/-- The plan that an answer to a plan from outside comes with has the history of a run from the
quantities of that plan. -/
theorem Plan.exists_run_of_reported? {p plan : Plan Rat} {config : Config Rat}
    (h : reported? (p.reoptimize config) = some plan) : ∃ b outcome,
      config.check = .ok () ∧ p.check config.tolerance = .ok () ∧
      Position.Rests ⟨p.allocation, b⟩ p.tableau config.tolerance ∧
      Position.run ⟨p.allocation, b⟩ p.costs config.tolerance
        (config.budget p.tableau.rows p.tableau.cols) = .ok outcome ∧
      plan.costHistory = outcome.costHistory ∧
      outcome.position.allocation.cost? p.costs = some plan.totalCost := by
  obtain ⟨settings, accepted⟩ := checks_of_not_refused fun cause refused => by
    rw [refused] at h
    cases h
  rcases exists_resumed settings accepted with ⟨b, rests, e⟩ | ⟨c, e⟩
  · obtain ⟨outcome, made, erun, same, -, reports, -, e'⟩ := rests.exists_answer settings
    have costs : made.costs = p.costs := congrArg Tableau.costs same
    have total := reports.describes.totalCost_eq
    have history := reports.costHistory_eq
    refine ⟨b, outcome, settings, accepted, rests, erun, ?_⟩
    rw [e, e', answer] at h
    split at h <;> cases h <;> exact ⟨history, costs ▸ total⟩
  · rw [e] at h
    cases h

/-- A plan that is taken up may become dearer, but by no more than its debt. Whatever the settings and
whatever the answer comes with, the history begins with the total cost of the given quantities and
ends with that of the plan in the answer, and no value exceeds an earlier one by more than the debt.
The debt is an amount within the tolerance, times the total supply or one, on each route; if no
quantity is negative there is none, and the total cost never rises. -/
theorem Plan.cost_le_of_reoptimize (p plan : Plan Rat) (config : Config Rat)
    (h : reported? (p.reoptimize config) = some plan) :
    (∃ cost, p.allocation.cost? p.costs = some cost ∧ plan.costHistory.head? = some cost ∧
      plan.costHistory.getLast? = some plan.totalCost ∧
      plan.totalCost ≤ cost + p.allocation.debt p.costs) ∧
    (∀ (i j : Nat) (x y : Rat), i ≤ j → plan.costHistory[i]? = some x → plan.costHistory[j]? = some y →
      y ≤ x + p.allocation.debt p.costs) ∧
    0 ≤ p.allocation.debt p.costs ∧
    p.allocation.debt p.costs ≤
      config.tolerance * max p.supply.sum 1 * Scalar.sum p.costs.data.toList ∧
    ((∀ c ∈ p.allocation.cells, 0 ≤ p.allocation.entry c) →
      p.allocation.debt p.costs = 0 ∧ plan.costHistory.Pairwise (· ≥ ·)) := by
  obtain ⟨b, outcome, settings, accepted, rests, erun, history, total⟩ := exists_run_of_reported? h
  obtain ⟨-, hpos, -⟩ := Config.of_check settings
  have amounts : ∀ c ∈ Cell.grid p.supply.length p.demand.length, 0 ≤ p.costs.entry c :=
    fun c hc => zero_le_of_isAmount (rests.amounts c hc)
  have fits : p.allocation.Fits p.supply.length p.demand.length := rests.sound.allocation
  have visited := (Position.visited_of_run erun).1
  obtain ⟨final, efinal, etotal⟩ := Position.exists_getLast?_of_run erun
  rw [total] at etotal
  cases etotal
  rw [← history] at visited efinal
  have rise : ∀ (i j : Nat) (x y : Rat), i ≤ j → plan.costHistory[i]? = some x →
      plan.costHistory[j]? = some y → y ≤ x + p.allocation.debt p.costs := fun i j x y hij hx hy =>
    rests.sound.cost_le_of_visited rests.fits.rows_pos hpos rests.fits.costs amounts visited hij hx hy
  refine ⟨?_, rise, fits.debt_nonneg amounts, ?_, fun nonneg => ?_⟩
  · obtain ⟨cost, later, ecost, -, e⟩ := List.forall₂_cons_left_iff.mp visited
    have begins : plan.costHistory[0]? = some cost := by rw [e]; rfl
    refine ⟨cost, ecost, List.head?_eq_getElem?.trans begins, efinal, ?_⟩
    exact rise 0 _ _ _ (Nat.zero_le _) begins (List.getLast?_eq_getElem?.symm.trans efinal)
  · have scaled : 0 ≤ config.tolerance * max p.supply.sum 1 :=
      mul_nonneg hpos (zero_le_one.trans (le_max_right _ _))
    exact fits.debt_le amounts rests.fits.costs scaled (meets_of_check accepted).neg_le
  · have none' : p.allocation.debt p.costs = 0 :=
      fits.debt_eq_zero fun c hc => nonneg c (fits.cells_eq ▸ hc)
    refine ⟨none', List.pairwise_iff_getElem.mpr fun i j hi hj hij => ?_⟩
    have := rise i j _ _ hij.le (List.getElem?_eq_getElem hi) (List.getElem?_eq_getElem hj)
    rwa [none', add_zero] at this

/-- A stored plan with a negative quantity of one, which is within a millionth of the total supply. The
first source ships one unit less than nothing, and the second one makes up for it. -/
def overdrawn : Plan Rat where
  totalCost := 4999993
  allocation := ⟨2, 2, #[0, -1, 1000000, 1000001]⟩
  costs := ⟨2, 2, #[0, 7, 5, 0]⟩
  supply := [0, 2000000]
  demand := [1000000, 1000000]
  sourceNames := ["S1", "S2"]
  destinationNames := ["D1", "D2"]
  routes := []
  isOptimal := false
  iterations := 0
  rule := .vogel
  balance := .balanced
  basicCells := [⟨0, 1⟩, ⟨1, 0⟩, ⟨1, 1⟩]
  costHistory := []

/-- Taking up the overdrawn plan cancels all of its debt. So the bound is met with equality. -/
theorem Plan.cost_le_of_reoptimize_overdrawn : ∃ plan,
    reported? (overdrawn.reoptimize (.withTolerance (1 / 1000000))) = some plan ∧
      overdrawn.allocation.debt overdrawn.costs = 7 ∧
      ∃ cost, overdrawn.allocation.cost? overdrawn.costs = some cost ∧
        plan.totalCost ≤ cost + 7 ∧ plan.totalCost = cost + 7 := by
  have taken : (reported? (overdrawn.reoptimize (.withTolerance (1 / 1000000)))).map
      Plan.totalCost = some 5000000 := by
    decide +kernel
  obtain ⟨plan, h, final⟩ := Option.map_eq_some_iff.mp taken
  have debt : overdrawn.allocation.debt overdrawn.costs = 7 := by decide +kernel
  have given : overdrawn.allocation.cost? overdrawn.costs = some 4999993 := by decide +kernel
  obtain ⟨⟨cost, ecost, -, -, bound⟩, -⟩ := cost_le_of_reoptimize overdrawn plan _ h
  rw [debt] at bound
  refine ⟨plan, h, debt, cost, ecost, bound, ?_⟩
  rw [given] at ecost
  cases ecost
  rw [final]
  norm_num

/-- An accepted plan can become dearer. The pivot that makes use of the free route sends nothing, since
the losing cell holds less than nothing, and clears that cell. -/
theorem Plan.dearer_overdrawn : overdrawn.check (1 / 1000000) = .ok () ∧ ∃ plan,
    overdrawn.reoptimize (.withTolerance (1 / 1000000)) = .ok plan ∧
      overdrawn.allocation.cost? overdrawn.costs = some 4999993 ∧
      plan.costHistory = [4999993, 5000000] ∧ plan.totalCost = 5000000 := by
  have accepted : overdrawn.check (1 / 1000000) = .ok () :=
    eq_ok_of_toOption (by decide +kernel)
  have taken : (overdrawn.reoptimize (.withTolerance (1 / 1000000))).toOption.map
      (fun plan => (plan.costHistory, plan.totalCost)) = some ([4999993, 5000000], 5000000) := by
    decide +kernel
  obtain ⟨plan, e, costs⟩ := exists_of_map_toOption taken
  obtain ⟨history, total⟩ := Prod.mk.inj costs
  exact ⟨accepted, plan, e, by decide +kernel, history, total⟩

end Freight
