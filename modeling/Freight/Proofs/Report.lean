import Freight.Proofs.Resume
import Freight.Proofs.Solve

/-!
# Plans and the positions that they report

A position *rests* on a tableau whose parts fit together if it is sound and only basic cells hold
more than the tolerance (`Position.Rests`). First positions do (`Problem.exists_first`), and so does
the position on which a plan from outside is taken up (`Plan.exists_resumed`). Improvement goes from
such a position to another one, and its answer comes with a plan that *reports* where it ended
(`Position.Rests.exists_answer`).

So whatever is handed out reports an outcome at a position that rests on the plan's own tableau
(`Plan.Reports`). If the plan passes its check, taking it up leads back to just that position
(`Plan.Reports.reoptimize_eq`).
-/

namespace Freight

open Scalar

/-! ## Quantities on basic cells -/

section Carries

variable {α : Type} [Scalar α] {m n : Nat} {tol : α} {position : Position α}

/-- Only basic cells hold more than the tolerance. -/
def Position.Carries (position : Position α) (m n : Nat) (tol : α) : Prop :=
  ∀ c ∈ Cell.grid m n, ∀ q, position.allocation.get? c = some q → tol < q →
    c ∈ position.basis.cells

variable [Scalar.Exact α] (ht : isFinite tol = true) (hpos : 0 ≤ tol)

include ht hpos

/-- Pivots keep it so: the cell that leaves holds nothing, and the others that stay vacant hold what
they held. -/
theorem Position.keeps_carries : Keeps m n tol fun p => p.Carries m n tol := by
  intro p next c path low leaving hp carries pivots d hd q hq lt
  by_contra hout
  by_cases hleaving : d = leaving
  · rw [hleaving, hp.get?_leaving ht pivots] at hq
    cases hq
    exact (Lawful.not_lt_iff ht Lawful.isFinite_zero).mpr hpos lt
  · obtain ⟨vacant, same⟩ := pivots.get?_eq_of_not_mem (hp.allocation.cells_eq ▸ hd) hout hleaving
    exact vacant (carries d hd q (same ▸ hq) lt)

/-- A first plan ships on basic cells only. -/
theorem Table.Holds.carries {ss : List (Shipment α)} (h : position.allocation.Holds ss m n)
    (cells : ∀ s ∈ ss, s.cell ∈ position.basis.cells) : position.Carries m n tol := by
  intro c hc q hq lt
  by_cases hm : c ∈ ss.map Shipment.cell
  · obtain ⟨s, hs, rfl⟩ := List.mem_map.mp hm
    exact cells s hs
  · rw [h.empty c hc hm] at hq
    cases hq
    exact absurd lt ((Lawful.not_lt_iff ht Lawful.isFinite_zero).mpr hpos)

end Carries

/-! ## Answers -/

namespace Plan

variable {α : Type} {plan : Plan α}

/-- What improvement answers with the plan of its run: that plan if it is optimal, and else a failure
with that plan as the best one. -/
def answer (plan : Plan α) : Except (Failure α) (Plan α) :=
  if plan.isOptimal then .ok plan else .error ⟨.notConverged plan.iterations, some plan⟩

theorem answer_eq_ok {plan' : Plan α} (h : plan.answer = .ok plan') :
    plan' = plan ∧ plan.isOptimal = true := by
  unfold answer at h
  split at h <;> cases h
  exact ⟨rfl, ‹_›⟩

theorem best_of_answer {failure : Failure α} (h : plan.answer = .error failure) :
    failure.best = some plan ∧ plan.isOptimal = false := by
  unfold answer at h
  split at h <;> cases h
  exact ⟨rfl, Bool.eq_false_iff.mpr ‹_›⟩

end Plan

variable {α : Type} [Scalar α] {m n : Nat} {tol : α} {t : Tableau α} {first last : Position α}
  {b : Basis} {outcome : Outcome α} {plan : Plan α} {config : Config α}

/-! ## Positions that rest on a tableau -/

/-- A position that can be improved and reported: it is sound, with all that exceeds the tolerance
on basic cells, in a tableau whose parts fit together and whose costs are amounts. -/
structure Position.Rests (p : Position α) (t : Tableau α) (tol : α) : Prop where
  fits : t.Fits t.supply.length t.demand.length
  amounts : ∀ c ∈ Cell.grid t.supply.length t.demand.length, isAmount (t.costs.entry c) = true
  sound : p.Sound t.supply.length t.demand.length
  carries : p.Carries t.supply.length t.demand.length tol

namespace Plan

/-- The plan is what an outcome amounts to, at a position that rests on the plan's own tableau. -/
structure Reports (plan : Plan α) (tol : α) (outcome : Outcome α) : Prop where
  eq_some : Plan.ofOutcome? plan.tableau tol plan.rule outcome = some plan
  rests : outcome.position.Rests plan.tableau tol

/-- The plan of an outcome depends on where it ended; the rest of the outcome is copied. -/
theorem ofOutcome?_congr {r : StartRule} (h : ofOutcome? t tol r outcome = some plan)
    (rule : StartRule) (other : Outcome α) (position : other.position = outcome.position)
    (ending : other.ending = outcome.ending) :
    ofOutcome? t tol rule other = some { plan with
      rule, iterations := other.iterations, costHistory := other.costHistory } := by
  unfold ofOutcome? at *
  obtain ⟨routes, eroutes, h⟩ := Option.bind_eq_some_iff.mp h
  obtain ⟨cost, ecost, h⟩ := Option.bind_eq_some_iff.mp h
  cases h
  simp only [position, ending, eroutes, ecost, Option.bind_eq_bind, Option.bind_some]
  rfl

/-- The stored cells of a plan make up the basis that it rests on. -/
theorem Describes.basis?_eq (h : plan.Describes t tol last) (sound : last.Sound m n) :
    plan.basis? = some last.basis := by
  obtain ⟨b, e, hb, mem⟩ := Basis.exists_ofCells? fun c (hc : c ∈ last.basis.cells) =>
    sound.basis.mem_grid hc
  rw [basis?, h.allocation_eq, h.basicCells_eq, sound.allocation.rows_eq, sound.allocation.cols_eq, e,
    sound.basis.ext hb mem]

namespace Reports

variable (h : plan.Reports tol outcome)

include h

theorem describes : plan.Describes plan.tableau tol outcome.position :=
  (Tableau.describes_of_ofOutcome? h.eq_some).1

theorem isOptimal_eq : plan.isOptimal = decide (outcome.ending = .optimal) :=
  (Tableau.describes_of_ofOutcome? h.eq_some).2.1

theorem costHistory_eq : plan.costHistory = outcome.costHistory :=
  (Tableau.describes_of_ofOutcome? h.eq_some).2.2.2

theorem iterations_eq : plan.iterations = outcome.iterations := by
  have same := ofOutcome?_congr h.eq_some plan.rule outcome rfl rfl
  rw [h.eq_some] at same
  exact congrArg iterations (Option.some.inj same)

/-- The rule that a plan carries does not matter to what it reports. -/
theorem withRule (rule : StartRule) : ({ plan with rule } : Plan α).Reports tol outcome := by
  refine ⟨?_, h.rests⟩
  have same := ofOutcome?_congr h.eq_some rule outcome rfl rfl
  rwa [← h.iterations_eq, ← h.costHistory_eq] at same

end Reports

end Plan

namespace Position.Rests

/-- An outcome at a position that rests on a tableau can be reported. -/
theorem exists_report (outcome : Outcome α)
    (h : outcome.position.Rests t config.tolerance) : ∃ plan : Plan α,
      t.report config outcome = .ok plan ∧ plan.tableau = t ∧ plan.rule = config.rule ∧
        plan.Reports config.tolerance outcome := by
  obtain ⟨plan, e, describes, -⟩ := h.fits.exists_report config outcome h.sound.allocation
  have eplan := within_eq_ok.mp e
  obtain ⟨-, -, rule, -⟩ := Tableau.describes_of_ofOutcome? eplan
  have same := describes.tableau_eq
  exact ⟨plan, e, same, rule, by rwa [same, rule], same.symm ▸ h⟩

/-- A position as it stands can be reported. -/
theorem exists_unimproved (h : first.Rests t config.tolerance) :
    ∃ cost, ∃ plan : Plan α, first.allocation.cost? t.costs = some cost ∧ plan.tableau = t ∧
      plan.rule = config.rule ∧ plan.Reports config.tolerance ⟨first, 0, .improving, [cost]⟩ ∧
      (planning (t.unimproved first) >>= fun o => planning (t.report config o)) = .ok plan := by
  obtain ⟨cost, ecost⟩ := h.sound.allocation.exists_cost? h.fits.costs
  obtain ⟨plan, ereport, same, rule, reports⟩ :=
    exists_report ⟨first, 0, .improving, [cost]⟩ h
  refine ⟨cost, plan, ecost, same, rule, reports, ?_⟩
  simp only [Tableau.unimproved, ecost, within, planning, bind, Except.bind, pure, Except.pure,
    ereport]

/-- Improvement from a position that rests on a tableau answers with a plan that reports the outcome
of its run. If the plan is optimal, pricing has nothing to offer there. -/
theorem exists_answer [Scalar.Exact α] (h : first.Rests t config.tolerance)
    (settings : config.check = .ok ()) : ∃ outcome, ∃ plan : Plan α,
      first.run t.costs config.tolerance (config.budget t.rows t.cols) = .ok outcome ∧
        plan.tableau = t ∧ plan.rule = config.rule ∧ plan.Reports config.tolerance outcome ∧
        (outcome.ending = .optimal → outcome.position.basis.NoOffer t.costs config.tolerance) ∧
        t.optimize config first = plan.answer := by
  obtain ⟨ht, hpos, -⟩ := Config.of_check settings
  obtain ⟨outcome, erun, sound, carries, none'⟩ := h.sound.run (Position.keeps_carries ht hpos)
    h.fits.rows_pos ht hpos h.fits.costs (config.budget t.rows t.cols) h.carries
  obtain ⟨plan, ereport, same, rule, reports⟩ :=
    exists_report outcome ⟨h.fits, h.amounts, sound, carries⟩
  refine ⟨outcome, plan, erun, same, rule, reports, none', ?_⟩
  unfold Tableau.optimize Plan.answer
  simp only [erun, ereport, planning, bind, Except.bind]
  rw [reports.isOptimal_eq, reports.iterations_eq]
  cases outcome.ending <;> rfl

end Position.Rests

/-! ## Plans of problems -/

namespace Problem

variable [Scalar.Exact α] {p : Problem α}

/-- The position of a greedy start rests on its tableau. -/
theorem rests_of_holds {ss : List (Shipment α)} (settings : config.check = .ok ())
    (parts : p.check = .ok ()) (et : Tableau.ofProblem p config.tolerance = .ok t)
    (fits : t.Fits t.supply.length t.demand.length)
    (sound : first.Sound t.supply.length t.demand.length)
    (holds : first.allocation.Holds ss t.supply.length t.demand.length)
    (cells : ∀ s ∈ ss, s.cell ∈ first.basis.cells) : first.Rests t config.tolerance := by
  obtain ⟨ht, hpos, -⟩ := Config.of_check settings
  have zero : isAmount (0 : α) = true :=
    isAmount_of_zero_le Lawful.isFinite_zero (Lawful.le_refl Lawful.isFinite_zero)
  exact ⟨fits, Tableau.forall_costs_of_ofProblem parts (plannable_of_check parts).costs zero et,
    sound, holds.carries ht hpos cells⟩

/-- Planning for a problem that passes its check has a first position to begin with. -/
theorem exists_first (settings : config.check = .ok ()) (parts : p.check = .ok ()) :
    ∃ t first, Tableau.ofProblem p config.tolerance = .ok t ∧
      t.firstPosition config.rule config.tolerance = .ok first ∧
      first.Rests t config.tolerance := by
  obtain ⟨t, ss, -, first, et, fits, -, -, sound, holds, cells, efirst, -⟩ :=
    exists_start settings parts
  exact ⟨t, first, et, efirst, rests_of_holds settings parts et fits sound holds cells⟩

/-- Planning hands out a plan of its first position, or of a run from there. -/
theorem solve_cases_of_first (settings : config.check = .ok ())
    (et : Tableau.ofProblem p config.tolerance = .ok t)
    (efirst : t.firstPosition config.rule config.tolerance = .ok first)
    (rests : first.Rests t config.tolerance) :
    (config.optimize = false ∧ ∃ cost, ∃ plan : Plan α,
        first.allocation.cost? t.costs = some cost ∧ plan.tableau = t ∧ plan.rule = config.rule ∧
        plan.Reports config.tolerance ⟨first, 0, .improving, [cost]⟩ ∧ p.solve config = .ok plan) ∨
      config.optimize = true ∧ ∃ outcome, ∃ plan : Plan α,
        first.run t.costs config.tolerance (config.budget t.rows t.cols) = .ok outcome ∧
        plan.tableau = t ∧ plan.rule = config.rule ∧ plan.Reports config.tolerance outcome ∧
        (outcome.ending = .optimal → outcome.position.basis.NoOffer t.costs config.tolerance) ∧
        p.solve config = plan.answer := by
  have e := solve_of_first settings et efirst
  cases improve : config.optimize with
  | false =>
    rw [improve, if_neg Bool.false_ne_true] at e
    obtain ⟨cost, plan, ecost, same, rule, reports, e'⟩ := rests.exists_unimproved
    exact .inl ⟨rfl, cost, plan, ecost, same, rule, reports, e.trans e'⟩
  | true =>
    rw [improve, if_pos rfl] at e
    obtain ⟨outcome, plan, erun, same, rule, reports, none', e'⟩ := rests.exists_answer settings
    exact .inr ⟨rfl, outcome, plan, erun, same, rule, reports, none', e.trans e'⟩

/-- A plan that planning calls optimal reports a position where pricing has nothing to offer. -/
theorem exists_reports_of_solve (h : p.solve config = .ok plan) (optimal : plan.isOptimal = true) :
    ∃ outcome, plan.Reports config.tolerance outcome ∧ outcome.ending = .optimal ∧
      outcome.position.basis.NoOffer plan.costs config.tolerance := by
  obtain ⟨settings, parts⟩ := checks_of_solve h
  obtain ⟨t, first, et, efirst, rests⟩ := exists_first settings parts
  rcases solve_cases_of_first settings et efirst rests with
    ⟨-, cost, plan', -, -, -, reports, e⟩ | ⟨-, outcome, plan', -, rfl, -, reports, none', e⟩ <;>
    rw [h] at e
  · cases e
    rw [reports.isOptimal_eq] at optimal
    cases optimal
  · obtain ⟨rfl, -⟩ := Plan.answer_eq_ok e.symm
    rw [reports.isOptimal_eq, decide_eq_true_eq] at optimal
    exact ⟨outcome, reports, optimal, none' optimal⟩

end Problem

/-! ## Plans taken up -/

namespace Plan

variable {p : Plan α}

/-- A plan that passes its check is improved from its quantities on the basis for them. -/
theorem reoptimize_of_resumedBasis (settings : config.check = .ok ())
    (accepted : p.check config.tolerance = .ok ()) (e : p.resumedBasis config.tolerance = .ok b) :
    p.reoptimize config = (p.tableau.optimize config ⟨p.allocation, b⟩).map
      fun plan => { plan with rule := p.rule } := by
  unfold reoptimize
  simp only [settings, accepted, e, planning, bind, Except.bind]
  cases p.tableau.optimize config ⟨p.allocation, b⟩ <;> rfl

/-- A plan that passes its check is taken up on a position that rests on its tableau, unless its
routes in use close a cycle. -/
theorem exists_resumed (settings : config.check = .ok ())
    (accepted : p.check config.tolerance = .ok ()) :
    (∃ b, Position.Rests ⟨p.allocation, b⟩ p.tableau config.tolerance ∧
        p.reoptimize config = (p.tableau.optimize config ⟨p.allocation, b⟩).map
          fun plan => { plan with rule := p.rule }) ∨
      ∃ c, p.reoptimize config = .error (.ofCause (.notBasic c)) := by
  have consistent := consistent_of_check accepted
  rcases consistent.resumedBasis_spans config.tolerance with ⟨b, e, hb, tree, all⟩ | ⟨c, e⟩
  · refine .inl ⟨b, ⟨consistent.tableau, consistent.amounts,
      ⟨consistent.allocation, hb, tree, consistent.finite⟩, fun c hc q hq lt => ?_⟩,
      reoptimize_of_resumedBasis settings accepted e⟩
    exact all c (consistent.mem_loaded_iff.mpr ⟨hc, q, hq, lt⟩)
  · refine .inr ⟨c, ?_⟩
    unfold reoptimize
    simp only [settings, accepted, e, planning, bind, Except.bind]

/-- A plan that fails its check is refused with what is wrong with it. -/
theorem reoptimize_of_refused {cause : Cause α} (settings : config.check = .ok ())
    (refused : p.check config.tolerance = .error cause) :
    p.reoptimize config = .error (.ofCause cause) := by
  unfold reoptimize
  simp only [settings, refused, planning, bind, Except.bind]

/-- Settings and plans that are not refused pass their checks. -/
theorem checks_of_not_refused (h : ∀ cause, p.reoptimize config ≠ .error (.ofCause cause)) :
    config.check = .ok () ∧ p.check config.tolerance = .ok () := by
  cases settings : config.check with
  | error cause =>
    refine absurd ?_ (h cause)
    unfold reoptimize
    rw [settings]
    rfl
  | ok _ =>
    cases accepted : p.check config.tolerance with
    | error cause => exact absurd (reoptimize_of_refused settings accepted) (h cause)
    | ok _ => exact ⟨rfl, rfl⟩

/-- The parts of a reported plan fit together. -/
theorem Reports.consistent (h : plan.Reports tol outcome) : plan.Consistent := by
  have sound := h.rests.sound
  have same := h.describes.allocation_eq
  exact ⟨h.rests.fits, same ▸ sound.allocation, same ▸ sound.finite, h.rests.amounts,
    fun c hc => sound.basis.mem_grid (h.describes.basicCells_eq ▸ hc)⟩

/-- A reported plan is taken up on the basis that it rests on. -/
theorem Reports.resumedBasis_eq (h : plan.Reports tol outcome) :
    plan.resumedBasis tol = .ok outcome.position.basis := by
  have sound := h.rests.sound
  have consistent := h.consistent
  obtain ⟨covered, ecovered, all⟩ := consistent.exists_covers? sound.basis tol
  have full : covered = true := all.mpr fun c hc => by
    obtain ⟨hg, q, hq, lt⟩ := consistent.mem_loaded_iff.mp hc
    exact h.rests.carries c hg q (h.describes.allocation_eq ▸ hq) lt
  unfold resumedBasis
  simp only [h.describes.basis?_eq sound, ecovered, full, within, bind, Except.bind,
    sound.basis.repair_of_isTree h.rests.fits.rows_pos sound.isTree]
  rfl

/-- A reported plan that passes its check is improved from the position that it reports. -/
theorem Reports.reoptimize_eq (h : plan.Reports config.tolerance outcome)
    (settings : config.check = .ok ()) (accepted : plan.check config.tolerance = .ok ()) :
    plan.reoptimize config = (plan.tableau.optimize config outcome.position).map
      fun improved => { improved with rule := plan.rule } := by
  rw [reoptimize_of_resumedBasis settings accepted h.resumedBasis_eq, h.describes.allocation_eq]

variable [Scalar.Exact α]

/-- A plan that was taken up and improved to the end reports a position where pricing has nothing to
offer. -/
theorem exists_reports_of_reoptimize (h : p.reoptimize config = .ok plan) :
    ∃ outcome, plan.Reports config.tolerance outcome ∧ outcome.ending = .optimal ∧
      outcome.position.basis.NoOffer plan.costs config.tolerance := by
  obtain ⟨settings, accepted⟩ := checks_of_not_refused fun cause refused => by
    rw [h] at refused
    cases refused
  rcases exists_resumed settings accepted with ⟨b, rests, e⟩ | ⟨c, e⟩
  · obtain ⟨outcome, plan', -, same, -, reports, none', e'⟩ := rests.exists_answer settings
    rw [e, e'] at h
    obtain ⟨plan', answered, rfl⟩ := map_eq_ok.mp h
    obtain ⟨rfl, optimal⟩ := answer_eq_ok answered
    rw [reports.isOptimal_eq, decide_eq_true_eq] at optimal
    have costs : p.costs = plan'.costs := congrArg Tableau.costs same.symm
    exact ⟨outcome, reports.withRule p.rule, optimal, costs ▸ none' optimal⟩
  · rw [e] at h
    cases h

end Plan

end Freight
