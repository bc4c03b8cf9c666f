import Freight.Proofs.Certificate
import Freight.Proofs.Circulation
import Freight.Proofs.Course

/-!
# Total costs along a run

Around the loop of a cell the unit costs come to the cell's opportunity cost. So a pivot changes the
total cost by the opportunity cost for each unit that it sends, less the cost of what it drops
(`Pivots.sum_cost`). The opportunity cost of an entering cell is negative and what is dropped is an
amount: the total cost never rises, and it falls if anything is sent (`Pivot.Lowers`).

Main statement: each pivot of a run from a forest does that, and the total cost in the end is the
least of all, also for the best plan of a spent budget (`Position.run_descends`).
-/

namespace Freight

open Finset Scalar

variable {m n budget : Nat} {c d leaving : Cell} {path loop : List Cell} {tol quantity low x y : Rat}
  {costs : Table Rat} {p q next : Position Rat} {record : Pivot Rat}

/-- What a pivot drops, at its unit costs: what is left on losing cells, where that is within the
tolerance. -/
def Position.dropped (p : Position Rat) (costs : Table Rat) (tol quantity : Rat)
    (loop : List Cell) : Rat :=
  (((losing loop).filter fun c => decide (p.allocation.entry c - quantity ≤ tol)).map fun c =>
    (p.allocation.entry c - quantity) * costs.entry c).sum

/-- A pivot takes a total cost from `x` to `y`: by the opportunity cost of its cell for each unit that
it sends around the loop, less what it drops. That is never a rise, and a fall if anything is sent. -/
structure Pivot.Lowers (record : Pivot Rat) (p : Position Rat) (costs : Table Rat) (tol x y : Rat) :
    Prop where
  cost_eq : ∃ loop, record.Around p costs loop ∧
    y = x + record.quantity * record.opportunityCost - p.dropped costs tol record.quantity loop
  opportunityCost_neg : record.opportunityCost < 0
  quantity_nonneg : 0 ≤ record.quantity
  le : y ≤ x
  lt : 0 < record.quantity → y < x

/-! ## One pivot -/

/-- A cell worth using has a negative opportunity cost: it is within the tolerance of one that lies
below minus the tolerance. -/
theorem neg_of_bestOffer?_eq_some {offers : List (Entering Rat)} {o : Entering Rat}
    (h : bestOffer? tol offers = some o) : o.opportunityCost < 0 := by
  unfold bestOffer? at h
  split at h
  · cases h
  · split at h
    · cases h
    · next low hlow =>
      have near := List.find?_some h
      simp only [decide_eq_true_eq] at near
      linarith [not_le.mp hlow]

/-- What is dropped, as a sum over the table. -/
theorem sum_residue (hs : ∀ d ∈ loop, d ∈ Cell.grid m n) (hn : loop.Nodup) :
    ∑ d ∈ Cell.rectangle m n, residue quantity tol loop d (p.allocation.entry d) * costs.entry d =
      p.dropped costs tol quantity loop := by
  have nodup := (hn.sublist (losing_sublist loop)).filter
    fun d => decide (p.allocation.entry d - quantity ≤ tol)
  have mem : ∀ d, d ∈ ((losing loop).filter fun d =>
      decide (p.allocation.entry d - quantity ≤ tol)).toFinset ↔
        d ∈ losing loop ∧ p.allocation.entry d - quantity ≤ tol := fun d => by
    rw [List.mem_toFinset, List.mem_filter, decide_eq_true_eq]
  have inside : ((losing loop).filter fun d =>
      decide (p.allocation.entry d - quantity ≤ tol)).toFinset ⊆ Cell.rectangle m n := fun d hd =>
    Cell.mem_rectangle.mpr (hs d ((losing_sublist loop).subset ((mem d).mp hd).1))
  rw [← sum_subset inside fun d _ hout => ?_, Position.dropped, ← List.sum_toFinset _ nodup]
  · refine sum_congr rfl fun d hd => ?_
    rw [residue, if_pos ((mem d).mp hd)]
  · rw [residue, if_neg fun hd => hout ((mem d).mpr hd), zero_mul]

namespace Position

namespace Pivots

variable (h : p.Pivots next tol c path low leaving) (hp : p.Sound m n)

include h hp

/-- The total cost after a pivot, if the marked cells cost what the values of their lines come to. -/
theorem sum_cost (w : Line → Rat)
    (tight : ∀ d ∈ p.basis.cells, costs.entry d = w (.row d.row) + w (.column d.col)) :
    ∑ d ∈ Cell.rectangle m n, next.allocation.entry d * costs.entry d =
      ∑ d ∈ Cell.rectangle m n, p.allocation.entry d * costs.entry d +
        positivePart low * (costs.entry c - (w (.row c.row) + w (.column c.col))) -
          p.dropped costs tol (positivePart low) (c :: path) := by
  have loopGrid := hp.mem_grid_of_loop h.vacant h.closes
  have nodup := h.closes.nodup_cons (hp.basis.mem_vacant.mp h.vacant).2
  rw [← h.closes.alternating_costs w tight, ← sum_gain costs.entry loopGrid, mul_sum,
    ← sum_residue loopGrid nodup, ← sum_add_distrib, ← sum_sub_distrib]
  refine sum_congr rfl fun d hd => ?_
  rw [h.entry_eq hp (Cell.mem_rectangle.mp hd)]
  ring

/-- What is dropped costs nothing or something. -/
theorem dropped_nonneg (hn : ∀ c ∈ Cell.grid m n, 0 ≤ p.allocation.entry c)
    (amounts : ∀ c ∈ Cell.grid m n, 0 ≤ costs.entry c) :
    0 ≤ p.dropped costs tol (positivePart low) (c :: path) := by
  refine List.sum_nonneg (List.forall_mem_map.mpr fun d hd => ?_)
  have hlosing := (List.mem_filter.mp hd).1
  exact mul_nonneg (sub_nonneg.mpr (h.positivePart_le hp hn hlosing))
    (amounts d (h.mem_grid_of_losing hp hlosing))

end Pivots

section Run

variable (hm : 0 < m) (hpos : 0 ≤ tol) (hc : costs.Fits m n)

include hm hpos hc

/-- The pivot of a step is on a cell that is worth using: at potentials that the basic cells cost
exactly, its opportunity cost is negative. -/
theorem Sound.prices_of_step (h : p.Sound m n)
    (e : p.step costs tol = (next, .ok (some record))) :
    ∃ prices path low, Potentials.ofBasis p.basis costs = .ok prices ∧
      (∀ d ∈ p.basis.cells,
        costs.entry d = prices.value (.row d.row) + prices.value (.column d.col)) ∧
      prices.opportunityCost? costs record.entering = some record.opportunityCost ∧
      record.opportunityCost < 0 ∧ record.quantity = positivePart low ∧
      p.Pivots next tol record.entering path low record.leaving ∧ next.Sound m n := by
  obtain ⟨prices, offers, path, low, eprices, eoffers, best, equantity, pivots, sound⟩ :=
    h.of_step hm rfl hpos hc e
  obtain ⟨prices', eprices', -, -, tight⟩ := h.basis.exists_potentials hm h.isTree hc
  rw [eprices] at eprices'
  cases eprices'
  obtain ⟨-, offered⟩ := (Basis.mem_offers eoffers).mp (mem_of_bestOffer?_eq_some best)
  exact ⟨prices, path, low, eprices, fun d hd => (tight d hd).entry_eq, offered,
    neg_of_bestOffer?_eq_some best, equantity, pivots, sound⟩

variable (amounts : ∀ c ∈ Cell.grid m n, 0 ≤ costs.entry c)

include amounts

/-- The pivot of a step lowers the total cost. -/
theorem Sound.lowers_of_step (h : p.Sound m n) (hn : ∀ c ∈ Cell.grid m n, 0 ≤ p.allocation.entry c)
    (e : p.step costs tol = (next, .ok (some record))) (hx : p.allocation.cost? costs = some x)
    (hy : next.allocation.cost? costs = some y) : record.Lowers p costs tol x y := by
  obtain ⟨prices, path, low, eprices, tight, offered, negative, equantity, pivots, sound⟩ :=
    h.prices_of_step hm hpos hc e
  have nonneg : 0 ≤ record.quantity := equantity ▸ positivePart_nonneg low
  have dropped := pivots.dropped_nonneg h hn amounts
  have change := pivots.sum_cost h prices.value tight
  rw [h.allocation.cost?_rat hc] at hx
  rw [sound.allocation.cost?_rat hc] at hy
  cases hx
  cases hy
  rw [← Potentials.opportunityCost_eq offered, ← equantity] at change
  rw [← equantity] at dropped
  refine ⟨⟨_, ⟨p.basis, 0, prices, h.basis.repair_of_isTree hm h.isTree, eprices, offered,
    pivots.traced⟩, change⟩, negative, nonneg, ?_, fun pos => ?_⟩
  · linarith [mul_nonpos_of_nonneg_of_nonpos nonneg negative.le]
  · linarith [mul_neg_of_pos_of_neg pos negative]

/-- So does every pivot of a run. -/
theorem Sound.lowers_of_visited (h : p.Sound m n)
    (hn : ∀ c ∈ Cell.grid m n, 0 ≤ p.allocation.entry c) {history : List Rat}
    (all : List.Forall₂ (fun q cost => q.allocation.cost? costs = some cost)
      (p.visited costs tol budget) history) {k : Nat} (hx : history[k]? = some x)
    (hy : history[k + 1]? = some y) :
    ∃ q record next, (p.visited costs tol budget)[k]? = some q ∧
      (course costs tol budget p)[k]? = some (record, next) ∧ record.Lowers q costs tol x y := by
  obtain ⟨next, hnext, ey⟩ := exists_of_getElem?_right all y hy
  obtain ⟨q, record, hq, hk, step⟩ := exists_step_of_visited hnext
  obtain ⟨q', hq', ex⟩ := exists_of_getElem?_right all x hx
  rw [hq] at hq'
  cases hq'
  obtain ⟨sound, nonneg⟩ := Sound.visited hm rfl hpos hc
    (I := fun _ q => ∀ c ∈ Cell.grid m n, 0 ≤ q.allocation.entry c)
    (fun _ _ _ _ _ _ _ hp hn pivots => pivots.nonneg hp hn) h (j := 0) hn hq
  exact ⟨q, record, next, hq, hk, sound.lowers_of_step hm hpos hc amounts nonneg step ex ey⟩

end Run

end Position

/-! ## Runs from a forest -/

/-- A pivot on a basis that is not yet full lowers the cost as on the full one. -/
theorem Pivot.Lowers.of_repair {b : Basis} {added : Nat} (e : p.basis.repair = .ok (b, added))
    (full : b.repair = .ok (b, 0)) (h : record.Lowers { p with basis := b } costs tol x y) :
    record.Lowers p costs tol x y := by
  obtain ⟨loop, ⟨b', added', prices, e', around⟩, change⟩ := h.cost_eq
  rw [full] at e'
  cases e'
  exact ⟨⟨loop, ⟨b, added, prices, e, around⟩, change⟩, h.opportunityCost_neg, h.quantity_nonneg,
    h.le, h.lt⟩

/-- The last of falling values is the least. -/
theorem getLast?_le {xs : List Rat} {last : Rat}
    (falls : ∀ k x y, xs[k]? = some x → xs[k + 1]? = some y → y ≤ x)
    (h : xs.getLast? = some last) : ∀ x ∈ xs, last ≤ x := by
  induction xs with
  | nil => exact fun x hx => absurd hx List.not_mem_nil
  | cons x xs ih =>
    cases xs with
    | nil =>
      intro y hy
      cases h
      exact (List.mem_singleton.mp hy).ge
    | cons y ys =>
      rw [List.getLast?_cons_cons] at h
      have rest := ih (fun k => falls (k + 1)) h
      intro z hz
      rcases List.mem_cons.mp hz with rfl | hz
      · exact (rest y List.mem_cons_self).trans (falls 0 z y rfl rfl)
      · exact rest z hz

/-- The plan that an answer comes with, be it the best one of a failure. -/
def reported? : Except (Failure Rat) (Plan Rat) → Option (Plan Rat)
  | .ok plan => some plan
  | .error failure => failure.best

/-- The plan that improvement ends with has the history of its run. -/
theorem Tableau.exists_run_of_reported? {t : Tableau Rat} {config : Config Rat} {plan : Plan Rat}
    (h : reported? (t.optimize config p) = some plan) :
    ∃ outcome, p.run t.costs config.tolerance (config.budget t.rows t.cols) = .ok outcome ∧
      outcome.position.allocation.cost? t.costs = some plan.totalCost ∧
      plan.costHistory = outcome.costHistory := by
  unfold optimize at h
  cases erun : p.run t.costs config.tolerance (config.budget t.rows t.cols) with
  | error cause =>
    rw [erun] at h
    cases h
  | ok outcome =>
    rw [erun] at h
    cases ereport : t.report config outcome with
    | error cause =>
      simp only [planning, ereport, bind, Except.bind] at h
      cases h
    | ok plan' =>
      have same : plan' = plan := by
        simp only [planning, ereport, bind, Except.bind] at h
        cases ending : outcome.ending <;> rw [ending] at h <;> exact Option.some.inj h
      subst same
      obtain ⟨describes, -, -, history⟩ := describes_of_ofOutcome? (within_eq_ok.mp ereport)
      exact ⟨outcome, rfl, describes.totalCost_eq, history⟩

section Forest

variable (ha : p.allocation.Fits m n) (hb : p.basis.Fits m n) (acyclic : Acyclic p.basis.cells)
  (hn : ∀ c ∈ Cell.grid m n, 0 ≤ p.allocation.entry c) (hc : costs.Fits m n)
  (amounts : ∀ c ∈ Cell.grid m n, 0 ≤ costs.entry c) (hpos : 0 ≤ tol)

include ha hb acyclic

/-- The basis of a forest is filled up to a tree, and the run begins from there. -/
theorem Position.exists_full (hm : 0 < m) (hn : 0 < n) :
    ∃ b added, p.basis.repair = .ok (b, added) ∧ b.repair = .ok (b, 0) ∧
      ({ p with basis := b } : Position Rat).Sound m n := by
  obtain ⟨b, added, e, hb', tree, -⟩ := hb.exists_repair hm hn acyclic
  exact ⟨b, added, e, hb'.repair_of_isTree hm tree, ha, hb', tree, fun _ _ _ _ => rfl⟩

/-- Without cells there is nothing to fill up to. -/
theorem Position.exists_full_or_grid_eq_nil : (0 < m ∧ ∃ b added,
    p.basis.repair = .ok (b, added) ∧ b.repair = .ok (b, 0) ∧
      ({ p with basis := b } : Position Rat).Sound m n) ∨ Cell.grid m n = [] := by
  by_cases cells : 0 < m ∧ 0 < n
  · exact .inl ⟨cells.1, exists_full ha hb acyclic cells.1 cells.2⟩
  · exact .inr (Cell.grid_eq_nil cells)

include hn hc amounts hpos

/-- Each pivot of a run from a forest lowers the total cost. -/
theorem Position.lowers_of_run {outcome : Outcome Rat} (h : p.run costs tol budget = .ok outcome)
    {k : Nat} (hx : outcome.costHistory[k]? = some x)
    (hy : outcome.costHistory[k + 1]? = some y) :
    ∃ q record next, (p.visited costs tol budget)[k]? = some q ∧
      (course costs tol budget p)[k]? = some (record, next) ∧ record.Lowers q costs tol x y := by
  rcases exists_full_or_grid_eq_nil ha hb acyclic with ⟨hm, b, added, e, full, sound⟩ | empty
  · have same : course costs tol budget p = course costs tol budget { p with basis := b } :=
      course_of_repair e full budget
    rw [run_of_repair e full] at h
    obtain ⟨q, record, next, hq, hk, lowers⟩ :=
      sound.lowers_of_visited hm hpos hc amounts hn (visited_of_run h).1 hx hy
    rw [← same] at hk
    cases k with
    | zero =>
      cases hq
      exact ⟨p, record, next, rfl, hk, lowers.of_repair e full⟩
    | succ k =>
      refine ⟨q, record, next, ?_, hk, lowers⟩
      rwa [visited, ← same] at hq
  · obtain ⟨next, hnext, -⟩ := exists_of_getElem?_right (visited_of_run h).1 y hy
    rw [visited, course_of_grid_eq_nil hb empty] at hnext
    cases hnext

end Forest

/-- A run of improvements from amounts on a forest, at costs that are amounts. If there are lines on
both sides it comes to an end. Each of its pivots takes the total cost from one value of the history to
the next one, by the opportunity cost of its cell for each unit sent, less what it drops; that is
never a rise. The last value is the total cost of the position in the end and the least of all, and
so is the total cost of the plan that improvement ends with, also if it is only the best one. -/
theorem Position.run_descends (p : Position Rat) (costs : Table Rat) (tol : Rat) (budget : Nat)
    (ha : p.allocation.Fits m n) (hb : p.basis.Fits m n) (hc : costs.Fits m n)
    (acyclic : Acyclic p.basis.cells) (nonneg : ∀ c ∈ Cell.grid m n, 0 ≤ p.allocation.entry c)
    (amounts : ∀ c ∈ Cell.grid m n, 0 ≤ costs.entry c) (hpos : 0 ≤ tol) :
    (0 < m → 0 < n → ∃ outcome, p.run costs tol budget = .ok outcome) ∧
      ∀ outcome, p.run costs tol budget = .ok outcome →
        (∀ k x y, outcome.costHistory[k]? = some x → outcome.costHistory[k + 1]? = some y →
          ∃ q record next, (p.visited costs tol budget)[k]? = some q ∧
            (course costs tol budget p)[k]? = some (record, next) ∧
            record.Lowers q costs tol x y) ∧
        (∃ last, outcome.costHistory.getLast? = some last ∧
          outcome.position.allocation.cost? costs = some last ∧
          ∀ x ∈ outcome.costHistory, last ≤ x) ∧
        ∀ (t : Tableau Rat) (config : Config Rat) plan, t.costs = costs →
          config.tolerance = tol → config.budget t.rows t.cols = budget →
          reported? (t.optimize config p) = some plan →
          plan.costHistory = outcome.costHistory ∧
            plan.costHistory.getLast? = some plan.totalCost ∧
            ∀ x ∈ plan.costHistory, plan.totalCost ≤ x := by
  refine ⟨fun hm hn => ?_, fun outcome erun => ?_⟩
  · obtain ⟨b, added, e, full, sound⟩ := exists_full ha hb acyclic hm hn
    obtain ⟨outcome, erun, -⟩ := sound.exists_run hm rfl hpos hc budget
    exact ⟨outcome, (run_of_repair e full budget).trans erun⟩
  have lowers := fun k x y => lowers_of_run ha hb acyclic nonneg hc amounts hpos erun (k := k)
    (x := x) (y := y)
  obtain ⟨last, hlast, cost⟩ := exists_getLast?_of_run erun
  have least : ∀ x ∈ outcome.costHistory, last ≤ x := getLast?_le (fun k x y hx hy => by
    obtain ⟨q, record, next, -, -, h⟩ := lowers k x y hx hy
    exact h.le) hlast
  refine ⟨lowers, ⟨last, hlast, cost, least⟩, fun t config plan ec et eb reported => ?_⟩
  subst ec et eb
  obtain ⟨outcome', erun', cost', history⟩ := Tableau.exists_run_of_reported? reported
  rw [erun] at erun'
  cases erun'
  rw [cost] at cost'
  cases cost'
  rw [history]
  exact ⟨rfl, hlast, least⟩

/-- Two routes of ten and eleven units, on a basis that falls short of a tree. -/
def twoRoutes : Position Rat := ⟨⟨2, 2, #[10, 0, 0, 11]⟩, ⟨⟨2, 2, #[true, false, false, true]⟩, 2⟩⟩

/-- Costs at which the two routes should be crossed. -/
def crossedCosts : Table Rat := ⟨2, 2, #[8, 6, 2, 12]⟩

/-- Crossing the routes saves twelve for each of ten units, and drops one unit that cost twelve. -/
theorem Position.run_descends_twoRoutes :
    twoRoutes.allocation.Fits 2 2 ∧ twoRoutes.basis.Fits 2 2 ∧ crossedCosts.Fits 2 2 ∧
      Acyclic twoRoutes.basis.cells ∧
      (∀ c ∈ Cell.grid 2 2, 0 ≤ twoRoutes.allocation.entry c) ∧
      (∀ c ∈ Cell.grid 2 2, 0 ≤ crossedCosts.entry c) ∧ (0 : Rat) ≤ 2 ∧
      ∃ outcome record next, twoRoutes.run crossedCosts 2 5 = .ok outcome ∧
        outcome.costHistory = [212, 80] ∧
        course crossedCosts 2 5 twoRoutes = [(record, next)] ∧
        record.Lowers twoRoutes crossedCosts 2 212 80 ∧
        ∃ last, outcome.costHistory.getLast? = some last ∧
          ∀ x ∈ outcome.costHistory, last ≤ x := by
  have ha : twoRoutes.allocation.Fits 2 2 := ⟨rfl, rfl, rfl⟩
  have hb : twoRoutes.basis.Fits 2 2 := ⟨⟨rfl, rfl⟩, rfl, rfl⟩
  have hc : crossedCosts.Fits 2 2 := ⟨rfl, rfl, rfl⟩
  have acyclic : Acyclic twoRoutes.basis.cells := hb.components_isOk_iff.mp ⟨_, rfl⟩
  have nonneg : ∀ c ∈ Cell.grid 2 2, 0 ≤ twoRoutes.allocation.entry c := by decide +kernel
  have amounts : ∀ c ∈ Cell.grid 2 2, 0 ≤ crossedCosts.entry c := by decide +kernel
  have hpos : (0 : Rat) ≤ 2 := by decide +kernel
  have values : (twoRoutes.run crossedCosts 2 5).toOption.map Outcome.costHistory =
    some [212, 80] := by decide +kernel
  have pivots : (course crossedCosts 2 5 twoRoutes).length = 1 := by decide +kernel
  obtain ⟨outcome, erun, history⟩ := exists_of_map_toOption values
  obtain ⟨-, all⟩ := run_descends twoRoutes crossedCosts 2 5 ha hb hc acyclic nonneg amounts hpos
  obtain ⟨lowers, ⟨last, hlast, -, least⟩, -⟩ := all outcome erun
  obtain ⟨q, record, next, hq, hk, h⟩ := lowers 0 212 80 (by rw [history]; rfl) (by rw [history]; rfl)
  cases hq
  obtain ⟨e, he⟩ := List.length_eq_one_iff.mp pivots
  rw [he] at hk
  cases hk
  exact ⟨ha, hb, hc, acyclic, nonneg, amounts, hpos, outcome, record, next, erun, history, he, h, last,
    hlast, least⟩

end Freight
