import Freight.Proofs.Certificate
import Freight.Proofs.Conservation
import Freight.Proofs.Solve

/-!
# Plans that cannot be beaten

Integer supplies and demands are balanced exactly under a tolerance below one
(`Tableau.whole_of_ofProblem`). From there on every position serves them exactly, in integers, and
the plan that improvement ends with is that of a position where pricing has nothing to offer
(`Problem.exists_last`). Its potentials certify it: no other shipment is cheaper by more than the
tolerance on each unit, and none is cheaper at all if the costs are integers too
(`Problem.solve_optimal`).
-/

namespace Freight

open Finset Scalar

/-! ## Balanced totals -/

section Balance

variable {p : Problem Rat} {t : Tableau Rat} {tol : Rat} {xs supply demand : List Rat}

theorem isInteger_sum (h : ∀ x ∈ xs, IsInteger x) : IsInteger xs.sum := by
  induction xs with
  | nil => exact IsInteger.zero
  | cons x xs ih =>
    rw [List.sum_cons]
    exact (h x List.mem_cons_self).add (ih fun y hy => h y (List.mem_cons_of_mem x hy))

theorem whole_of_mem (hs : ∀ x ∈ supply, 0 ≤ x ∧ IsInteger x)
    (hd : ∀ x ∈ demand, 0 ≤ x ∧ IsInteger x) (balanced : supply.sum = demand.sum) :
    (Remaining.mk supply demand).Whole := by
  have each := Remaining.forall_left? hs hd
  exact ⟨fun l x hx => (each l x hx).1, fun l x hx => (each l x hx).2, balanced⟩

/-- The lines of the balanced tableau of integer supplies and demands, under a tolerance below one:
those of the problem if the totals agree exactly, and else one more that makes up the exact
difference. -/
theorem Tableau.lines_of_ofProblem (h : p.check = .ok ()) (small : tol < 1)
    (hs : ∀ x ∈ p.supply, IsInteger x) (hd : ∀ x ∈ p.demand, IsInteger x)
    (e : ofProblem p tol = .ok t) :
    (p.supply.sum = p.demand.sum ∧ t.supply = p.supply ∧ t.demand = p.demand) ∨
      (p.demand.sum ≤ p.supply.sum ∧ t.supply = p.supply ∧
        t.demand = p.demand ++ [p.supply.sum - p.demand.sum]) ∨
      (p.supply.sum ≤ p.demand.sum ∧ t.supply = p.supply ++ [p.demand.sum - p.supply.sum] ∧
        t.demand = p.demand) := by
  have surplus : IsInteger (p.supply.sum - p.demand.sum) :=
    (isInteger_sum hs).sub (isInteger_sum hd)
  obtain ⟨costs, -, cases⟩ := ofProblem_cases h tol
  have totalSupply : p.totalSupply = p.supply.sum := sum_rat p.supply
  have totalDemand : p.totalDemand = p.demand.sum := sum_rat p.demand
  rw [totalSupply, totalDemand, distance_rat] at cases
  obtain ⟨near, et⟩ | ⟨-, pos, et⟩ | ⟨-, neg, et⟩ := cases <;> rw [et] at e <;> cases e
  · -- Integers that differ by less than one are the same.
    rw [abs_le] at near
    have below := surplus.nonneg (by linarith)
    have above := surplus.neg.nonneg (by linarith)
    exact .inl ⟨by linarith, rfl, rfl⟩
  · exact .inr (.inl ⟨by linarith, rfl, rfl⟩)
  · exact .inr (.inr ⟨by linarith [not_lt.mp neg], by rw [neg_sub], rfl⟩)

/-- The totals of integer supplies and demands are made equal exactly under a tolerance below
one. -/
theorem Tableau.whole_of_ofProblem (h : p.check = .ok ()) (small : tol < 1)
    (hs : ∀ x ∈ p.supply, IsInteger x) (hd : ∀ x ∈ p.demand, IsInteger x)
    (e : ofProblem p tol = .ok t) : (Remaining.mk t.supply t.demand).Whole := by
  have plannable := Problem.plannable_of_check h
  have supply : ∀ x ∈ p.supply, 0 ≤ x ∧ IsInteger x := fun x hx =>
    ⟨zero_le_of_isAmount (plannable.supply x hx), hs x hx⟩
  have demand : ∀ x ∈ p.demand, 0 ≤ x ∧ IsInteger x := fun x hx =>
    ⟨zero_le_of_isAmount (plannable.demand x hx), hd x hx⟩
  have append : ∀ {xs : List Rat} {rest : Rat}, (∀ x ∈ xs, 0 ≤ x ∧ IsInteger x) →
      0 ≤ rest → IsInteger rest → ∀ x ∈ xs ++ [rest], 0 ≤ x ∧ IsInteger x := by
    intro xs rest hxs hrest integer x hx
    rcases List.mem_append.mp hx with hx | hx
    · exact hxs x hx
    · rw [List.mem_singleton.mp hx]
      exact ⟨hrest, integer⟩
  have totalSupply := isInteger_sum hs
  have totalDemand := isInteger_sum hd
  obtain ⟨same, es, ed⟩ | ⟨le, es, ed⟩ | ⟨le, es, ed⟩ := lines_of_ofProblem h small hs hd e <;>
    rw [es, ed]
  · exact whole_of_mem supply demand same
  · refine whole_of_mem supply (append demand (sub_nonneg.mpr le) (totalSupply.sub totalDemand)) ?_
    rw [List.sum_append, List.sum_singleton]
    ring
  · refine whole_of_mem (append supply (sub_nonneg.mpr le) (totalDemand.sub totalSupply)) demand ?_
    rw [List.sum_append, List.sum_singleton]
    ring

end Balance

/-! ## The last position -/

section Last

variable {p : Problem Rat} {config : Config Rat} {plan : Plan Rat}

/-- The plan for integer supplies and demands is that of a position which serves them exactly, and
where pricing has nothing to offer. -/
theorem Problem.exists_last (hs : ∀ x ∈ p.supply, IsInteger x) (hd : ∀ x ∈ p.demand, IsInteger x)
    (improve : config.optimize = true) (small : config.tolerance < 1)
    (h : p.solve config = .ok plan) :
    plan.isOptimal = true ∧ Tableau.ofProblem p config.tolerance = .ok plan.tableau ∧
      plan.tableau.Fits plan.supply.length plan.demand.length ∧
      ∃ last, plan.Describes plan.tableau config.tolerance last ∧
        last.Sound plan.supply.length plan.demand.length ∧
        last.Ships plan.supply plan.demand plan.supply.length plan.demand.length ∧
        last.basis.NoOffer plan.costs config.tolerance := by
  obtain ⟨settings, parts⟩ := checks_of_solve h
  obtain ⟨-, hpos, -⟩ := Config.of_check settings
  obtain ⟨t, ss, left, start, et, fits, finite, run, sound, holds, cells, -, e⟩ :=
    exists_start settings parts
  have whole := Tableau.whole_of_ofProblem parts small hs hd et
  have keep : Position.Keeps t.supply.length t.demand.length config.tolerance
      fun q => q.Ships t.supply t.demand t.supply.length t.demand.length :=
    fun _ _ _ _ _ _ hp ships pivots => pivots.ships hp rfl rfl hpos small ships
  rw [e, improve, if_pos rfl] at h
  obtain ⟨plan', last, describes, hlast, ships, ⟨e', optimal, none'⟩ | ⟨k, e', -⟩⟩ :=
    fits.optimize_cases rfl hpos keep sound (run.ships finite hpos holds whole small cells)
  · rw [h] at e'
    cases e'
    have same := describes.tableau_eq
    subst same
    exact ⟨optimal, et, fits, last, describes, hlast, ships, none'⟩
  · rw [h] at e'
    cases e'

/-- Quantities that serve a tableau exactly, as a shipment. -/
theorem Position.Ships.serves {q : Position Rat} {supply demand : List Rat}
    (h : q.Ships supply demand supply.length demand.length)
    (hq : q.Sound supply.length demand.length) : q.allocation.Serves supply demand :=
  Table.serves_iff.mpr ⟨⟨hq.allocation.wellFormed, hq.allocation.rows_eq, hq.allocation.cols_eq,
    fun c hc => h.nonneg c (hq.allocation.cells_eq ▸ hc)⟩, h.total⟩

/-- The plan of a certified position costs no more than any other shipment, up to the tolerance of
the certificate on each unit. -/
theorem Plan.Describes.totalCost_le {last : Position Rat} {tol rest : Rat} {w : Line → Rat}
    {y : Table Rat} (h : plan.Describes plan.tableau tol last)
    (fits : plan.tableau.Fits plan.supply.length plan.demand.length)
    (hq : last.Sound plan.supply.length plan.demand.length)
    (ships : last.Ships plan.supply plan.demand plan.supply.length plan.demand.length)
    (hw : Certifies w last.basis plan.costs plan.supply.length plan.demand.length rest)
    (hy : y.Serves plan.supply plan.demand) :
    ∃ cost, y.cost? plan.costs = some cost ∧ plan.totalCost ≤ cost + rest * plan.supply.sum := by
  have yFits := hy.toIsShipping.fits
  have total := h.totalCost_eq
  rw [hq.allocation.cost?_rat fits.costs] at total
  refine ⟨_, yFits.cost?_rat fits.costs, ?_⟩
  rw [← Option.some.inj total, ← hy.sum_entry]
  refine hw.cost_le ships.idle (fun c hc => hy.nonneg c (yFits.cells_eq ▸ hc)) fun l hl => ?_
  obtain ⟨x, hx⟩ : ∃ x, (Remaining.mk plan.supply plan.demand).left? l = some x :=
    Remaining.exists_left?_iff.mpr hl
  rw [ships.total l x hx, (Table.serves_iff.mp hy).2 l x hx]

/-- On integer costs the plan is as cheap as any other shipment. -/
theorem Problem.totalCost_le_of_integer (hs : ∀ x ∈ p.supply, IsInteger x)
    (hd : ∀ x ∈ p.demand, IsInteger x) (hc : ∀ row ∈ p.costs, ∀ x ∈ row, IsInteger x)
    (improve : config.optimize = true) (small : config.tolerance < 1)
    (h : p.solve config = .ok plan) {y : Table Rat} (hy : y.Serves plan.supply plan.demand) :
    ∃ cost, y.cost? plan.costs = some cost ∧ plan.totalCost ≤ cost := by
  obtain ⟨settings, parts⟩ := checks_of_solve h
  obtain ⟨-, hpos, -⟩ := Config.of_check settings
  obtain ⟨-, et, fits, last, describes, sound, ships, none'⟩ := exists_last hs hd improve small h
  obtain ⟨w, certifies, start⟩ :=
    sound.basis.exists_certifies fits.rows_pos sound.isTree fits.costs hpos none'
  have exactly := certifies.of_integer sound.basis fits.rows_pos sound.isTree start small
    (Tableau.forall_costs_of_ofProblem parts hc IsInteger.zero et)
  obtain ⟨cost, e, le⟩ := describes.totalCost_le fits sound ships exactly hy
  exact ⟨cost, e, by simpa using le⟩

/-- The quantities of the plan serve every line exactly, at the plan's cost. -/
theorem Problem.serves_of_solve (hs : ∀ x ∈ p.supply, IsInteger x)
    (hd : ∀ x ∈ p.demand, IsInteger x) (improve : config.optimize = true)
    (small : config.tolerance < 1) (h : p.solve config = .ok plan) :
    plan.allocation.Serves plan.supply plan.demand ∧
      plan.allocation.cost? plan.costs = some plan.totalCost := by
  obtain ⟨-, -, -, last, describes, sound, ships, -⟩ := exists_last hs hd improve small h
  rw [describes.allocation_eq]
  exact ⟨ships.serves sound, describes.totalCost_eq⟩

/-- On integer costs no other settings with the same tolerance lead to a cheaper plan. -/
theorem Problem.totalCost_le_of_tolerance_eq (hs : ∀ x ∈ p.supply, IsInteger x)
    (hd : ∀ x ∈ p.demand, IsInteger x) (hc : ∀ row ∈ p.costs, ∀ x ∈ row, IsInteger x)
    (improve : config.optimize = true) (small : config.tolerance < 1)
    (h : p.solve config = .ok plan) {config' : Config Rat} {plan' : Plan Rat}
    (improve' : config'.optimize = true) (tolerance : config'.tolerance = config.tolerance)
    (h' : p.solve config' = .ok plan') : plan.totalCost ≤ plan'.totalCost := by
  have small' : config'.tolerance < 1 := tolerance ▸ small
  -- Both plans are for the same tableau, so each is a rival of the other.
  obtain ⟨-, et, -⟩ := exists_last hs hd improve small h
  obtain ⟨-, et', -⟩ := exists_last hs hd improve' small' h'
  rw [tolerance] at et'
  have same : plan'.tableau = plan.tableau := Except.ok.inj (et'.symm.trans et)
  obtain ⟨serves, cost⟩ := serves_of_solve hs hd improve' small' h'
  have supply : plan'.supply = plan.supply := congrArg Tableau.supply same
  have demand : plan'.demand = plan.demand := congrArg Tableau.demand same
  have costs : plan'.costs = plan.costs := congrArg Tableau.costs same
  rw [supply, demand] at serves
  obtain ⟨x, ex, le⟩ := totalCost_le_of_integer hs hd hc improve small h serves
  rw [costs, ex] at cost
  exact Option.some.inj cost ▸ le

/-- Planning with improvement for integer supplies and demands, under a tolerance below one. The
plan is optimal for the balanced tableau of the problem, it serves every line exactly with natural
numbers, and no other shipment is cheaper by more than the tolerance on each unit. On integer costs
none is cheaper at all, so every rule of the first plan leads to the same cost. -/
theorem Problem.solve_optimal (p : Problem Rat) (config : Config Rat) (plan : Plan Rat)
    (hs : ∀ x ∈ p.supply, IsInteger x) (hd : ∀ x ∈ p.demand, IsInteger x)
    (improve : config.optimize = true) (small : config.tolerance < 1)
    (h : p.solve config = .ok plan) :
    plan.isOptimal = true ∧ Tableau.ofProblem p config.tolerance = .ok plan.tableau ∧
      (∀ c ∈ Cell.grid plan.supply.length plan.demand.length,
        ∃ k : Nat, plan.allocation.get? c = some (k : Rat)) ∧
      plan.allocation.Serves plan.supply plan.demand ∧
      plan.allocation.cost? plan.costs = some plan.totalCost ∧
      (∀ y : Table Rat, y.Serves plan.supply plan.demand → ∃ cost,
        y.cost? plan.costs = some cost ∧
          plan.totalCost ≤ cost + config.tolerance * plan.supply.sum) ∧
      ((∀ row ∈ p.costs, ∀ x ∈ row, IsInteger x) →
        (∀ y : Table Rat, y.Serves plan.supply plan.demand → ∃ cost,
          y.cost? plan.costs = some cost ∧ plan.totalCost ≤ cost) ∧
        ∀ rule plan', p.solve { config with rule } = .ok plan' →
          plan'.totalCost = plan.totalCost) := by
  obtain ⟨settings, -⟩ := checks_of_solve h
  obtain ⟨-, hpos, -⟩ := Config.of_check settings
  obtain ⟨optimal, et, fits, last, describes, sound, ships, none'⟩ :=
    exists_last hs hd improve small h
  obtain ⟨serves, cost⟩ := serves_of_solve hs hd improve small h
  refine ⟨optimal, et, fun c hg => ?_, serves, cost, fun y hy => ?_, fun hc => ⟨fun y hy => ?_,
    fun rule plan' h' => ?_⟩⟩
  · obtain ⟨k, hk⟩ := (ships.integer c hg).exists_nat (ships.nonneg c hg)
    exact ⟨k, by rw [describes.allocation_eq, sound.allocation.get?_eq hg, hk]⟩
  · obtain ⟨w, certifies, -⟩ :=
      sound.basis.exists_certifies fits.rows_pos sound.isTree fits.costs hpos none'
    exact describes.totalCost_le fits sound ships certifies hy
  · exact totalCost_le_of_integer hs hd hc improve small h hy
  · have improve' : ({ config with rule } : Config Rat).optimize = true := improve
    have small' : ({ config with rule } : Config Rat).tolerance < 1 := small
    exact le_antisymm
      (totalCost_le_of_tolerance_eq hs hd hc improve' small' h' improve rfl h)
      (totalCost_le_of_tolerance_eq hs hd hc improve small h improve' rfl h')

end Last

/-- Three sources and four destinations, with a surplus of five units. -/
def threeSources : Problem Rat :=
  .unnamed [20, 30, 25] [10, 35, 15, 10] [[8, 6, 10, 9], [9, 12, 13, 7], [14, 9, 16, 5]]

/-- A start that ignores the costs, with a tolerance of one half. -/
def fromCorner : Config Rat := { Config.withTolerance (1 / 2) with rule := .northWestCorner }

/-- The north-west corner plan as it stands. -/
def cornerOnly : Config Rat := { fromCorner with optimize := false }

theorem threeSources_planned : ∃ plan, threeSources.solve fromCorner = .ok plan ∧
    plan.totalCost = 590 ∧ plan.iterations = 3 := by
  have planned : (threeSources.solve fromCorner).toOption.map
      (fun plan => (plan.totalCost, plan.iterations)) = some (590, 3) := by decide +kernel
  obtain ⟨plan, solved, e⟩ := exists_of_map_toOption planned
  obtain ⟨cost, iterations⟩ := Prod.mk.inj e
  exact ⟨plan, solved, cost, iterations⟩

/-- Three pivots lead from the north-west corner to a cost of 590, and no shipment to the balanced
lines is cheaper. -/
theorem Problem.solve_optimal_threeSources :
    (∀ x ∈ threeSources.supply, IsInteger x) ∧ (∀ x ∈ threeSources.demand, IsInteger x) ∧
      fromCorner.optimize = true ∧ fromCorner.tolerance < 1 ∧
      ∃ plan, threeSources.solve fromCorner = .ok plan ∧ plan.totalCost = 590 ∧
        plan.iterations = 3 ∧ plan.isOptimal = true ∧
        plan.allocation.Serves plan.supply plan.demand ∧
        ∀ y : Table Rat, y.Serves plan.supply plan.demand → ∃ cost,
          y.cost? plan.costs = some cost ∧ 590 ≤ cost := by
  have supply : ∀ x ∈ threeSources.supply, IsInteger x := by decide +kernel
  have demand : ∀ x ∈ threeSources.demand, IsInteger x := by decide +kernel
  have costs : ∀ row ∈ threeSources.costs, ∀ x ∈ row, IsInteger x := by decide +kernel
  have small : fromCorner.tolerance < 1 := by decide +kernel
  obtain ⟨plan, solved, cost, iterations⟩ := threeSources_planned
  obtain ⟨optimal, -, -, serves, -, -, exact'⟩ :=
    solve_optimal threeSources fromCorner plan supply demand rfl small solved
  refine ⟨supply, demand, rfl, small, plan, solved, cost, iterations, optimal, serves, ?_⟩
  rw [← cost]
  exact (exact' costs).1

end Freight
