import Freight.Proofs.Pivot
import Freight.Solve

/-!
# Runs of improvements

A run from a sound position always comes to an end that can be reported: it succeeds, the last
position is sound, and the run is called optimal only if pricing has nothing to offer there
(`Sound.run`). What every pivot keeps, the whole run keeps; the theorems carry such an invariant
along as a parameter.

Main statement: improving a tableau from a sound position ends with an optimal plan or with the best
plan of a spent budget, and both are the plan of a sound position (`Tableau.Fits.optimize_cases`).
-/

namespace Freight

variable {α : Type} [Scalar α] {m n : Nat} {tol : α} {costs : Table α} {config : Config α}

/-- Pricing has nothing to offer for a basis. -/
def Basis.NoOffer (b : Basis) (costs : Table α) (tol : α) : Prop :=
  ∃ p offers, Potentials.ofBasis b costs = .ok p ∧ b.offers? costs p = some offers ∧
    bestOffer? tol offers = none

namespace Position

/-- What every pivot of a sound position keeps. -/
def Keeps (m n : Nat) (tol : α) (I : Position α → Prop) : Prop :=
  ∀ ⦃p next c path low leaving⦄, p.Sound m n → I p → p.Pivots next tol c path low leaving → I next

variable [Scalar.Exact α] {p : Position α} {I : Position α → Prop}

/-- The improvements within a budget succeed from a sound position. They end in a sound position,
and optimal only if there is nothing on offer. -/
theorem Sound.improve (keep : Keeps m n tol I) (hm : 0 < m) (ht : Scalar.isFinite tol = true)
    (hpos : 0 ≤ tol) (hc : costs.Fits m n) :
    ∀ (budget : Nat) {p : Position α}, p.Sound m n → I p →
      ∃ last ending later, Position.improve costs tol budget p = .ok (last, ending, later) ∧
        last.Sound m n ∧ I last ∧ (ending = .optimal → last.basis.NoOffer costs tol)
  | 0, p, h, hi => by
    obtain ⟨prices, offers, eprices, eoffers, eprice⟩ := h.basis.price hm h.isTree hc tol
    refine ⟨p, if (bestOffer? tol offers).isSome then .improving else .optimal, [], ?_, h, hi, ?_⟩
    · rw [Position.improve, eprice]
      rfl
    · intro e
      refine ⟨prices, offers, eprices, eoffers, ?_⟩
      cases hbest : bestOffer? tol offers with
      | none => rfl
      | some o =>
        rw [hbest] at e
        cases e
  | budget + 1, p, h, hi => by
    obtain ⟨prices, offers, eprices, eoffers, eprice⟩ := h.basis.price hm h.isTree hc tol
    rw [Position.improve, eprice]
    cases hbest : bestOffer? tol offers with
    | none =>
      exact ⟨p, .optimal, [], rfl, h, hi, fun _ => ⟨prices, offers, eprices, eoffers, hbest⟩⟩
    | some entering =>
      have vacant : entering.cell ∈ p.basis.vacant :=
        ((Basis.mem_offers eoffers).mp (mem_of_bestOffer?_eq_some hbest)).1
      obtain ⟨path, low, leaving, next, epivot, pivots, hnext⟩ := h.pivot ht hpos vacant
      obtain ⟨last, ending, later, e, hlast, hi', hend⟩ :=
        Sound.improve keep hm ht hpos hc budget hnext (keep h hi pivots)
      obtain ⟨cost, ecost⟩ := hnext.allocation.exists_cost? hc
      refine ⟨last, ending, cost :: later, ?_, hlast, hi', hend⟩
      simp only [bind, Except.bind, epivot, ecost, within, e]
      rfl

/-- A run from a sound position succeeds. It ends in a sound position, and optimal only if there is
nothing on offer. -/
theorem Sound.run (keep : Keeps m n tol I) (hm : 0 < m) (ht : Scalar.isFinite tol = true)
    (hpos : 0 ≤ tol) (hc : costs.Fits m n) (budget : Nat) (h : p.Sound m n) (hi : I p) :
    ∃ outcome, p.run costs tol budget = .ok outcome ∧ outcome.position.Sound m n ∧
      I outcome.position ∧
      (outcome.ending = .optimal → outcome.position.basis.NoOffer costs tol) := by
  obtain ⟨cost, ecost⟩ := h.allocation.exists_cost? hc
  obtain ⟨last, ending, later, e, hlast, hi', hend⟩ := h.improve keep hm ht hpos hc budget hi
  refine ⟨⟨last, later.length, ending, cost :: later⟩, ?_, hlast, hi', hend⟩
  simp only [Position.run, bind, Except.bind, ecost, within, e]
  rfl

end Position

/-! ## The plan of a position -/

/-- The parts of a tableau have the size of its supplies and demands, and there are lines on both
sides. -/
structure Tableau.Fits (t : Tableau α) (m n : Nat) : Prop where
  rows_pos : 0 < m
  cols_pos : 0 < n
  supply_length : t.supply.length = m
  demand_length : t.demand.length = n
  costs : t.costs.Fits m n
  sources_length : t.sourceNames.length = m
  destinations_length : t.destinationNames.length = n

/-- The plan says what a position of a tableau is worth. -/
structure Plan.Describes (plan : Plan α) (t : Tableau α) (tol : α) (p : Position α) : Prop where
  tableau_eq : plan.tableau = t
  allocation_eq : plan.allocation = p.allocation
  basicCells_eq : plan.basicCells = p.basis.cells
  routes_eq : t.routes? tol p.allocation = some plan.routes
  totalCost_eq : p.allocation.cost? t.costs = some plan.totalCost

namespace Tableau

variable {t : Tableau α} {p : Position α} {plan : Plan α} {allocation : Table α}

/-- The route that a cell of a tableau stands for. -/
def route (t : Tableau α) (allocation : Table α) (c : Cell) : Route α :=
  Route.priced c (t.sourceNames[c.row]?.getD "") (t.destinationNames[c.col]?.getD "")
    (allocation.entry c) (t.costs.entry c) (t.isDummy c)

/-- The routes in use are those of the cells in use. -/
theorem Fits.routes?_eq (h : t.Fits m n) (ha : allocation.Fits m n) (tol : α) :
    t.routes? tol allocation = some ((allocation.loaded tol).map (t.route allocation)) := by
  refine mapM_eq_map fun c hc => ?_
  have hg : c ∈ Cell.grid m n := ha.cells_eq ▸ ((Table.mem_cellsWhere ha.wellFormed).mp hc).1
  obtain ⟨hr, hcol⟩ := Cell.mem_grid.mp hg
  have source := List.getElem?_eq_getElem (h.sources_length.symm ▸ hr)
  have destination := List.getElem?_eq_getElem (h.destinations_length.symm ▸ hcol)
  rw [route, source, destination, ha.get?_eq hg, h.costs.get?_eq hg]
  rfl

theorem describes_of_ofOutcome? {rule : StartRule} {outcome : Outcome α}
    (h : Plan.ofOutcome? t tol rule outcome = some plan) :
    plan.Describes t tol outcome.position ∧
      plan.isOptimal = decide (outcome.ending = .optimal) ∧ plan.rule = rule ∧
      plan.costHistory = outcome.costHistory := by
  unfold Plan.ofOutcome? at h
  obtain ⟨routes, eroutes, h⟩ := Option.bind_eq_some_iff.mp h
  obtain ⟨cost, ecost, h⟩ := Option.bind_eq_some_iff.mp h
  cases h
  exact ⟨⟨rfl, rfl, rfl, eroutes, ecost⟩, rfl, rfl, rfl⟩

theorem Fits.exists_ofOutcome? (h : t.Fits m n) (tol : α) (rule : StartRule) {outcome : Outcome α}
    (ha : outcome.position.allocation.Fits m n) :
    ∃ plan, Plan.ofOutcome? t tol rule outcome = some plan := by
  obtain ⟨cost, ecost⟩ := ha.exists_cost? h.costs
  simp only [Plan.ofOutcome?, h.routes?_eq ha, ecost, Option.bind_eq_bind, Option.bind_some]
  exact ⟨_, rfl⟩

/-- The outcome of a run can be reported, as the plan of its last position. -/
theorem Fits.exists_report (h : t.Fits m n) (config : Config α) (outcome : Outcome α)
    (ha : outcome.position.allocation.Fits m n) :
    ∃ plan, t.report config outcome = .ok plan ∧
      plan.Describes t config.tolerance outcome.position ∧
      plan.isOptimal = decide (outcome.ending = .optimal) := by
  obtain ⟨plan, e⟩ := h.exists_ofOutcome? config.tolerance config.rule ha
  obtain ⟨describes, optimal, -⟩ := describes_of_ofOutcome? e
  exact ⟨plan, by rw [report, e]; rfl, describes, optimal⟩

/-- Improving from a sound position ends with an optimal plan, or with the best plan of a spent
budget. Both are the plan of a sound position that has what every pivot keeps. -/
theorem Fits.optimize_cases [Scalar.Exact α] {I : Position α → Prop} (h : t.Fits m n)
    (ht : Scalar.isFinite config.tolerance = true) (hpos : 0 ≤ config.tolerance)
    (keep : Position.Keeps m n config.tolerance I) (hp : p.Sound m n) (hi : I p) :
    ∃ plan last, plan.Describes t config.tolerance last ∧ last.Sound m n ∧ I last ∧
      ((t.optimize config p = .ok plan ∧ plan.isOptimal = true ∧
          last.basis.NoOffer t.costs config.tolerance) ∨
        ∃ k, t.optimize config p = .error ⟨.notConverged k, some plan⟩ ∧
          plan.isOptimal = false) := by
  obtain ⟨outcome, erun, hlast, hi', hend⟩ :=
    hp.run keep h.rows_pos ht hpos h.costs (config.budget t.rows t.cols) hi
  obtain ⟨plan, ereport, describes, optimal⟩ := h.exists_report config outcome hlast.allocation
  refine ⟨plan, outcome.position, describes, hlast, hi', ?_⟩
  unfold optimize
  simp only [erun, ereport, planning, bind, Except.bind]
  cases e : outcome.ending with
  | optimal =>
    refine .inl ⟨rfl, ?_, hend e⟩
    rw [optimal, e]
    rfl
  | improving =>
    refine .inr ⟨outcome.iterations, rfl, ?_⟩
    rw [optimal, e]
    rfl

end Tableau

end Freight
