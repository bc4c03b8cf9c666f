import Freight.Proofs.Report
import Freight.Proofs.Optimum

/-!
# Stopping and going on

A run can be continued: the run with both budgets makes the pivots of the first one and then those of
the second one, whose history begins where the first one's ended (`Sound.run_append`). A run that
starts where pricing has nothing to offer is over at once (`Sound.run_of_noOffer`).

Main statements: for plans that pass their check, taking one up is continuing the run that it
reports. So a planner who is stopped and resumed plans as one who is not (`Problem.solve_add`), and
there is nothing left to do for a plan that is optimal (`Plan.reoptimize_eq_self`).
-/

namespace Freight

open Scalar

/-! ## Runs -/

namespace Position

variable {α : Type} [Scalar α] {m n a b : Nat} {tol : α} {costs : Table α}
  {p mid last : Position α} {outcome rest : Outcome α}

/-- Improvements that come upon the end of their budget have spent it. -/
theorem length_of_improve_eq_improving : ∀ {a : Nat} {p last : Position α} {later : List α},
    improve costs tol a p = .ok (last, .improving, later) → later.length = a
  | 0, p, last, later, h => by
    rw [improve] at h
    obtain ⟨r, -, e⟩ := bind_eq_ok.mp h
    exact congrArg List.length (Prod.mk.inj (Prod.mk.inj (Except.ok.inj e)).2).2.symm
  | a + 1, p, last, later, h => by
    rw [improve] at h
    obtain ⟨⟨basis, offer⟩, -, e⟩ := bind_eq_ok.mp h
    cases offer with
    | none => cases e
    | some entering =>
      obtain ⟨⟨next, record⟩, -, e⟩ := bind_eq_ok.mp e
      obtain ⟨cost, -, e⟩ := bind_eq_ok.mp e
      obtain ⟨⟨last', ending, later'⟩, eimprove, e⟩ := bind_eq_ok.mp e
      cases e
      exact congrArg Nat.succ (length_of_improve_eq_improving eimprove)

/-- A run that stops while a cell is still worth using has spent its budget. -/
theorem iterations_of_improving (h : p.run costs tol a = .ok outcome)
    (improving : outcome.ending = .improving) : outcome.iterations = a := by
  obtain ⟨cost, -, h⟩ := bind_eq_ok.mp h
  obtain ⟨⟨last, ending, later⟩, eimprove, h⟩ := bind_eq_ok.mp h
  cases h
  cases improving
  exact length_of_improve_eq_improving eimprove

/-- Where pricing has nothing to offer, improvements are over at once, whatever their budget. -/
theorem improve_of_price_eq_none {basis : Basis}
    (h : p.basis.price costs tol = .ok (basis, none)) (b : Nat) :
    improve costs tol b p = .ok ({ p with basis }, .optimal, []) := by
  cases b <;> rw [improve, h] <;> rfl

/-- A run without a budget looks at prices only. -/
theorem Sound.run_zero (hm : 0 < m) (hc : costs.Fits m n) (h : p.Sound m n) {cost : α}
    (ecost : p.allocation.cost? costs = some cost) :
    ∃ ending, p.run costs tol 0 = .ok ⟨p, 0, ending, [cost]⟩ := by
  obtain ⟨prices, offers, -, -, eprice⟩ := h.basis.price hm h.isTree hc tol
  refine ⟨if (bestOffer? tol offers).isSome then .improving else .optimal, ?_⟩
  unfold Position.run
  rw [Position.improve]
  simp only [ecost, eprice, within, bind, Except.bind]
  rfl

/-- A run from where pricing has nothing to offer is over at once, whatever its budget. -/
theorem Sound.run_of_noOffer (hm : 0 < m) (hc : costs.Fits m n) (h : p.Sound m n)
    (none' : p.basis.NoOffer costs tol) {cost : α} (ecost : p.allocation.cost? costs = some cost)
    (b : Nat) :
    p.run costs tol b = .ok ⟨p, 0, .optimal, [cost]⟩ := by
  obtain ⟨prices, offers, eprices, eoffers, best⟩ := none'
  obtain ⟨prices', offers', eprices', eoffers', eprice⟩ := h.basis.price hm h.isTree hc tol
  rw [eprices] at eprices'
  cases eprices'
  rw [eoffers] at eoffers'
  cases eoffers'
  unfold Position.run
  simp only [ecost, within, bind, Except.bind, improve_of_price_eq_none (best ▸ eprice) b]
  rfl

variable [Scalar.Exact α] (hm : 0 < m) (ht : isFinite tol = true) (hpos : 0 ≤ tol)
  (hc : costs.Fits m n)

include hm ht hpos hc

/-- Improvements are continued by those from where they ended. -/
theorem Sound.improve_add : ∀ {a : Nat} {p mid : Position α} {ending : Ending} {later : List α},
    p.Sound m n → Position.improve costs tol a p = .ok (mid, ending, later) →
      ∀ (b : Nat) {last : Position α} {ending' : Ending} {rest : List α},
        Position.improve costs tol b mid = .ok (last, ending', rest) →
          Position.improve costs tol (a + b) p = .ok (last, ending', later ++ rest)
  | 0, p, mid, ending, later, h, e, b, last, ending', rest, e' => by
    -- Pricing leaves the basis as it is, since that is a tree already.
    obtain ⟨-, offers, -, -, eprice⟩ := h.basis.price hm h.isTree hc tol
    rw [Position.improve] at e
    simp only [eprice, bind, Except.bind] at e
    cases e
    rw [Nat.zero_add]
    exact e'
  | a + 1, p, mid, ending, later, h, e, b, last, ending', rest, e' => by
    obtain ⟨prices, offers, -, eoffers, eprice⟩ := h.basis.price hm h.isTree hc tol
    rw [Position.improve] at e
    simp only [eprice, bind, Except.bind] at e
    cases best : bestOffer? tol offers with
    | none =>
      -- There is nothing to do, within the longer budget as within each of the two.
      rw [best] at e
      cases e
      rw [improve_of_price_eq_none (best ▸ eprice) b] at e'
      cases e'
      exact improve_of_price_eq_none (best ▸ eprice) _
    | some entering =>
      rw [Nat.add_right_comm, Position.improve]
      simp only [eprice, bind, Except.bind]
      simp only [best] at e ⊢
      have vacant : entering.cell ∈ p.basis.vacant :=
        ((Basis.mem_offers eoffers).mp (mem_of_bestOffer?_eq_some best)).1
      obtain ⟨path, low, leaving, next, epivot, -, sound⟩ := h.pivot ht hpos vacant
      obtain ⟨cost, ecost⟩ := sound.allocation.exists_cost? hc
      simp only [epivot, ecost, within] at e ⊢
      obtain ⟨⟨mid', ending₁, later'⟩, eimprove, e⟩ := bind_eq_ok.mp e
      cases e
      have whole := Sound.improve_add sound eimprove b e'
      simp only [whole]
      rfl

/-- A run is continued by the run from where it ended: together they are the run within both
budgets. -/
theorem Sound.run_append (h : p.Sound m n) (e : p.run costs tol a = .ok outcome)
    (e' : outcome.position.run costs tol b = .ok rest) :
    p.run costs tol (a + b) = .ok ⟨rest.position, outcome.iterations + rest.iterations, rest.ending,
      outcome.costHistory ++ rest.costHistory.tail⟩ := by
  obtain ⟨cost, ecost, e⟩ := bind_eq_ok.mp e
  obtain ⟨⟨mid, ending, later⟩, eimprove, e⟩ := bind_eq_ok.mp e
  cases e
  obtain ⟨cost', -, e'⟩ := bind_eq_ok.mp e'
  obtain ⟨⟨last, ending', later'⟩, eimprove', e'⟩ := bind_eq_ok.mp e'
  cases e'
  have whole := Sound.improve_add hm ht hpos hc h eimprove b eimprove'
  unfold Position.run
  simp only [ecost, whole, bind, Except.bind]
  rw [List.length_append]
  rfl

/-- A run that spent its budget is continued by the run from where it ended. -/
theorem Sound.run_add (h : p.Sound m n) (e : p.run costs tol a = .ok outcome)
    (spent : outcome.iterations = a) (e' : outcome.position.run costs tol b = .ok rest) :
    p.run costs tol (a + b) = .ok ⟨rest.position, a + rest.iterations, rest.ending,
      outcome.costHistory ++ rest.costHistory.tail⟩ := by
  rw [h.run_append hm ht hpos hc e e', spent]

end Position

/-! ## Plans -/

variable {α : Type} [Scalar α]

/-- Planning for a problem stops after `a` pivots, with a plan that may not be optimal yet: because
improvement is not wanted, or because it has spent its budget. -/
def Problem.StopsAt (p : Problem α) (config : Config α) (a : Nat) (plan : Plan α) : Prop :=
  (config.optimize = false ∧ a = 0 ∧ p.solve config = .ok plan) ∨
    config.budget plan.tableau.rows plan.tableau.cols = a ∧
      ∃ k, p.solve config = .error ⟨.notConverged k, some plan⟩

variable [Scalar.Exact α] {p : Problem α} {config : Config α} {a : Nat} {plan : Plan α}

/-- Planning stops at the plan of a run that spent its budget. -/
theorem Problem.StopsAt.exists_run (h : p.StopsAt config a plan) :
    ∃ first outcome ending, config.check = .ok () ∧ first.Rests plan.tableau config.tolerance ∧
      (∀ c : Config α, c.check = .ok () → c.tolerance = config.tolerance → c.rule = config.rule →
        c.optimize = true → p.solve c = plan.tableau.optimize c first) ∧
      plan.rule = config.rule ∧ plan.Reports config.tolerance outcome ∧ outcome.iterations = a ∧
      first.run plan.tableau.costs config.tolerance a = .ok { outcome with ending } := by
  obtain ⟨settings, parts⟩ : config.check = .ok () ∧ p.check = .ok () := by
    rcases h with ⟨-, -, e⟩ | ⟨-, k, e⟩
    · exact checks_of_solve e
    · exact checks_of_best e
  obtain ⟨t, first, et, efirst, rests⟩ := exists_first settings parts
  have go : ∀ c : Config α, c.check = .ok () → c.tolerance = config.tolerance →
      c.rule = config.rule → c.optimize = true → p.solve c = t.optimize c first := by
    intro c hc tolerance rule optimize
    rw [solve_of_first hc (tolerance ▸ et) (by rw [tolerance, rule, efirst]), if_pos optimize]
  rcases solve_cases_of_first settings et efirst rests with
    ⟨still, cost, made, ecost, rfl, rule, reports, e⟩ |
      ⟨improve, outcome, made, erun, rfl, rule, reports, -, e⟩ <;>
    rcases h with ⟨still', rfl, h⟩ | ⟨spent, k, h⟩ <;> rw [h] at e
  · cases e
    obtain ⟨ending, erun⟩ := rests.sound.run_zero rests.fits.rows_pos rests.fits.costs ecost
    exact ⟨first, _, ending, settings, rests, go, rule, reports, rfl, erun⟩
  · cases e
  · rw [improve] at still'
    cases still'
  · obtain ⟨best, improving⟩ := Plan.best_of_answer e.symm
    cases best
    subst spent
    have improving : outcome.ending = .improving := by
      rw [reports.isOptimal_eq, decide_eq_false_iff_not] at improving
      cases h : outcome.ending with
      | optimal => exact absurd h improving
      | improving => rfl
    exact ⟨first, outcome, outcome.ending, settings, rests, go, rule, reports,
      Position.iterations_of_improving erun improving, erun⟩

/-- Stopping and resuming is the same as never stopping. Planning stops after `a` pivots with a plan
that passes its check; then taking it up with a budget of `b` pivots, and planning with a budget of
`a + b` pivots from the beginning, both end with an optimal plan or both with the best one of a spent
budget. The two plans differ only in what they count: the pivots of the second count from the
beginning, and so does its history. -/
theorem Problem.solve_add (p : Problem α) (config : Config α) (a b : Nat) (plan : Plan α)
    (stopped : p.StopsAt config a plan) (accepted : plan.check config.tolerance = .ok ()) :
    ∃ rest whole : Plan α,
      (plan.reoptimize { config with maxIterations := some b } = .ok rest ∧
          p.solve { config with optimize := true, maxIterations := some (a + b) } = .ok whole ∨
        plan.reoptimize { config with maxIterations := some b } =
            .error ⟨.notConverged rest.iterations, some rest⟩ ∧
          p.solve { config with optimize := true, maxIterations := some (a + b) } =
            .error ⟨.notConverged whole.iterations, some whole⟩) ∧
      whole = { rest with
        iterations := a + rest.iterations
        costHistory := plan.costHistory ++ rest.costHistory.tail } := by
  obtain ⟨first, outcome, ending, settings, rests, go, rule, reports, spent, erun⟩ :=
    stopped.exists_run
  obtain ⟨ht, hpos, -⟩ := Config.of_check settings
  let later : Config α := { config with maxIterations := some b }
  let once : Config α := { config with optimize := true, maxIterations := some (a + b) }
  have laterSettings : later.check = .ok () := settings
  have onceSettings : once.check = .ok () := settings
  have laterRests : outcome.position.Rests plan.tableau later.tolerance := reports.rests
  have onceRests : first.Rests plan.tableau once.tolerance := rests
  have laterReports : plan.Reports later.tolerance outcome := reports
  obtain ⟨outcome₁, rest, erun₁, same₁, rule₁, reports₁, -, e₁⟩ :=
    laterRests.exists_answer laterSettings
  obtain ⟨outcome₂, whole, erun₂, same₂, rule₂, reports₂, -, e₂⟩ :=
    onceRests.exists_answer onceSettings
  have joined := rests.sound.run_add rests.fits.rows_pos ht hpos rests.fits.costs erun spent erun₁
  have eoutcome := Except.ok.inj (erun₂.symm.trans joined)
  have ewhole : whole = { rest with
      iterations := a + rest.iterations
      costHistory := plan.costHistory ++ rest.costHistory.tail } := by
    have e := Plan.ofOutcome?_congr reports₁.eq_some rest.rule outcome₂ (by rw [eoutcome])
      (by rw [eoutcome])
    have e' := reports₂.eq_some
    rw [same₂, rule₂, ← same₁, show once.rule = rest.rule from rule₁.symm] at e'
    have := Option.some.inj (e'.symm.trans e)
    rw [this, eoutcome, reports₁.iterations_eq, reports₁.costHistory_eq, reports.costHistory_eq]
  refine ⟨rest, whole, ?_, ewhole⟩
  have keep : ({ rest with rule := plan.rule } : Plan α) = rest := by
    rw [rule, show config.rule = rest.rule from rule₁.symm]
  have optimal : whole.isOptimal = rest.isOptimal := by rw [ewhole]
  have resumed := laterReports.reoptimize_eq laterSettings accepted
  rw [go once onceSettings rfl rfl rfl, e₂, resumed, e₁, Plan.answer, Plan.answer, optimal]
  cases rest.isOptimal with
  | true => exact .inl ⟨congrArg Except.ok keep, rfl⟩
  | false => exact .inr ⟨rfl, rfl⟩

/-- A budget of a single pivot. -/
def hurried : Config Rat := { fromCorner with maxIterations := some 1 }

/-- The best plan of a spent budget, with the number of pivots that were made. -/
def spent? : Except (Failure Rat) (Plan Rat) → Option (Nat × Plan Rat)
  | .error ⟨.notConverged k, some plan⟩ => some (k, plan)
  | _ => none

theorem eq_error_of_spent? {answer : Except (Failure Rat) (Plan Rat)} {k : Nat} {plan : Plan Rat}
    (h : spent? answer = some (k, plan)) : answer = .error ⟨.notConverged k, some plan⟩ := by
  unfold spent? at h
  split at h <;> cases h
  rfl

/-- One pivot is not enough for the three sources. The two pivots that follow when the best plan is
taken up are the second and third one of planning with a budget of three. -/
theorem Problem.solve_add_threeSources :
    ∃ plan, threeSources.StopsAt hurried 1 plan ∧ plan.check hurried.tolerance = .ok () ∧
      ∃ rest whole : Plan Rat, plan.reoptimize { hurried with maxIterations := some 2 } = .ok rest ∧
        threeSources.solve { hurried with optimize := true, maxIterations := some 3 } = .ok whole ∧
        whole = { rest with
          iterations := 1 + rest.iterations
          costHistory := plan.costHistory ++ rest.costHistory.tail } ∧
        rest.costHistory = [655, 605, 590] ∧ whole.costHistory = [715, 655, 605, 590] := by
  have runs : (spent? (threeSources.solve hurried)).map (fun s => (s.2.costHistory,
      (s.2.check hurried.tolerance).toOption,
      (s.2.reoptimize { hurried with maxIterations := some 2 }).toOption.map Plan.costHistory)) =
        some ([715, 655], some (), some [655, 605, 590]) := by
    decide +kernel
  obtain ⟨⟨k, plan⟩, stops, e⟩ := Option.map_eq_some_iff.mp runs
  obtain ⟨history, e⟩ := Prod.mk.inj e
  obtain ⟨accepted, resumed⟩ := Prod.mk.inj e
  have accepted := eq_ok_of_toOption accepted
  obtain ⟨rest, erest, history'⟩ := exists_of_map_toOption resumed
  have stopped : threeSources.StopsAt hurried 1 plan := .inr ⟨rfl, k, eq_error_of_spent? stops⟩
  obtain ⟨rest', whole, ends, same⟩ := solve_add threeSources hurried 1 2 plan stopped accepted
  rw [erest] at ends
  rcases ends with ⟨e, ewhole⟩ | ⟨e, -⟩ <;> cases e
  refine ⟨plan, stopped, accepted, rest, whole, erest, ewhole, same, history', ?_⟩
  rw [same, history, history']
  rfl

/-- There is nothing left to do for an optimal plan that passes its check. Under any settings with
the tolerance it was planned under, taking it up gives it back, without a pivot. -/
theorem Plan.reoptimize_eq_self (plan : Plan α) (origin config : Config α)
    (planned : (∃ p : Problem α, p.solve origin = .ok plan ∧ plan.isOptimal = true) ∨
      ∃ p : Plan α, p.reoptimize origin = .ok plan)
    (settings : config.check = .ok ()) (same : config.tolerance = origin.tolerance)
    (accepted : plan.check config.tolerance = .ok ()) :
    plan.reoptimize config = .ok { plan with iterations := 0, costHistory := [plan.totalCost] } := by
  obtain ⟨outcome, reports, optimal, none'⟩ : ∃ outcome,
      plan.Reports config.tolerance outcome ∧ outcome.ending = .optimal ∧
        outcome.position.basis.NoOffer plan.costs config.tolerance := by
    rw [same]
    rcases planned with ⟨p, e, optimal⟩ | ⟨p, e⟩
    · exact p.exists_reports_of_solve e optimal
    · exact exists_reports_of_reoptimize e
  obtain ⟨outcome', again, erun, same', rule, reports', -, e⟩ := reports.rests.exists_answer settings
  have rests := reports.rests
  have still := rests.sound.run_of_noOffer rests.fits.rows_pos rests.fits.costs none'
    reports.describes.totalCost_eq (config.budget plan.tableau.rows plan.tableau.cols)
  have eoutcome := Except.ok.inj (erun.symm.trans still)
  have eagain : again = { plan with
      rule := again.rule, iterations := 0, costHistory := [plan.totalCost] } := by
    have e := ofOutcome?_congr reports.eq_some again.rule outcome' (by rw [eoutcome])
      (by rw [eoutcome, optimal])
    rw [← same'] at e
    have := Option.some.inj (reports'.eq_some.symm.trans e)
    rwa [eoutcome] at this
  have done : again.isOptimal = true := by
    rw [reports'.isOptimal_eq, eoutcome, decide_eq_true rfl]
  rw [reports.reoptimize_eq settings accepted, e, answer, done, if_pos rfl, eagain]
  rfl

/-- Settings under which a plan would not be improved: another rule, and no pivots at all. -/
def resting : Config Rat :=
  { Config.withTolerance (1 / 2) with optimize := false, maxIterations := some 0 }

/-- The plan for three sources, taken up. It was planned from another rule, with three pivots. -/
theorem Plan.reoptimize_eq_self_threeSources :
    ∃ plan, threeSources.solve fromCorner = .ok plan ∧ plan.isOptimal = true ∧
      plan.rule ≠ resting.rule ∧ plan.costHistory = [715, 655, 605, 590] ∧
      plan.reoptimize resting = .ok { plan with iterations := 0, costHistory := [590] } := by
  have planned : (threeSources.solve fromCorner).toOption.map (fun plan => (plan.isOptimal,
      decide (plan.rule = resting.rule), plan.costHistory, plan.totalCost,
      (plan.check resting.tolerance).toOption)) =
        some (true, false, [715, 655, 605, 590], 590, some ()) := by
    decide +kernel
  obtain ⟨plan, solved, e⟩ := exists_of_map_toOption planned
  obtain ⟨optimal, e⟩ := Prod.mk.inj e
  obtain ⟨rule, e⟩ := Prod.mk.inj e
  obtain ⟨history, e⟩ := Prod.mk.inj e
  obtain ⟨cost, accepted⟩ := Prod.mk.inj e
  have settings : resting.check = .ok () := eq_ok_of_toOption (by decide +kernel)
  refine ⟨plan, solved, optimal, of_decide_eq_false rule, history, ?_⟩
  rw [reoptimize_eq_self plan fromCorner resting (.inl ⟨threeSources, solved, optimal⟩) settings rfl
    (eq_ok_of_toOption accepted), cost]

end Freight
