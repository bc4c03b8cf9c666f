import Freight.Proofs.Continuation

/-!
# What a plan taken up keeps

Improvement reports where it ended as a plan for the tableau that it improved, under the rule of its
settings (`Tableau.optimize_eq_answer`). So a plan that is taken up comes back for the supplies,
demands, costs, names and balance that it went in with, whichever way improvement ends and in any
arithmetic, with rounding or without.

The rule is kept on one of the two ways only (`Plan.reoptimize_keeps`). An optimal plan gets back the
rule of the plan that it came from. The best plan of a spent budget is handed out before that, with
the rule of the settings (`Plan.rule_lost_threeSources`).
-/

namespace Freight

variable {α : Type} [Scalar α]

/-- Improvement is refused without a plan, or it answers with a plan for its own tableau that carries
the rule of the settings. -/
theorem Tableau.optimize_eq_answer (t : Tableau α) (config : Config α) (first : Position α) :
    (∃ cause, t.optimize config first = .error (.ofCause cause)) ∨
      ∃ plan : Plan α, plan.tableau = t ∧ plan.rule = config.rule ∧
        t.optimize config first = plan.answer := by
  unfold optimize
  cases erun : first.run t.costs config.tolerance (config.budget t.rows t.cols) with
  | error cause =>
    left
    exists cause
  | ok outcome =>
    cases ereport : t.report config outcome with
    | error cause =>
      left
      exists cause
      simp only [planning, ereport, bind, Except.bind]
    | ok plan =>
      right
      have made := within_eq_ok.mp ereport
      obtain ⟨describes, optimal, rule, -⟩ := describes_of_ofOutcome? made
      have copied := Plan.ofOutcome?_congr made config.rule outcome rfl rfl
      rw [made] at copied
      have iterations : plan.iterations = outcome.iterations :=
        congrArg Plan.iterations (Option.some.inj copied)
      refine ⟨plan, describes.tableau_eq, rule, ?_⟩
      unfold Plan.answer
      simp only [planning, ereport, bind, Except.bind]
      rw [optimal, iterations]
      cases outcome.ending <;> rfl

/-- A plan that is taken up is refused without another one, or the answer of its improvement has the
plan's own rule put back where it is a plan. -/
theorem Plan.reoptimize_eq_map (p : Plan α) (config : Config α) :
    (∃ cause, p.reoptimize config = .error (.ofCause cause)) ∨
      ∃ plan : Plan α, plan.tableau = p.tableau ∧ plan.rule = config.rule ∧
        p.reoptimize config = plan.answer.map fun plan => { plan with rule := p.rule } := by
  by_cases refused : ∃ cause, p.reoptimize config = .error (.ofCause cause)
  · left
    exact refused
  right
  obtain ⟨settings, accepted⟩ := checks_of_not_refused (not_exists.mp refused)
  cases e : p.resumedBasis config.tolerance with
  | error cause =>
    refine absurd ⟨cause, ?_⟩ refused
    unfold reoptimize
    simp only [settings, accepted, e, planning, bind, Except.bind]
  | ok b =>
    have resumed := reoptimize_of_resumedBasis settings accepted e
    rcases p.tableau.optimize_eq_answer config ⟨p.allocation, b⟩ with
      ⟨cause, e'⟩ | ⟨plan, same, rule, e'⟩
    · rw [e'] at resumed
      exact absurd ⟨cause, resumed⟩ refused
    · rw [e'] at resumed
      exact ⟨plan, same, rule, resumed⟩

/-- What a plan keeps when it is taken up, whatever the settings. Both the optimal plan that improvement
ends with and the best one of a spent budget are plans for the same tableau: supplies, demands, costs,
names and balance stay as they were. The optimal plan also keeps the rule of the plan that was taken
up; the best plan of a spent budget has that of the settings. -/
theorem Plan.reoptimize_keeps (p plan : Plan α) (config : Config α) :
    (p.reoptimize config = .ok plan → plan.tableau = p.tableau ∧ plan.rule = p.rule) ∧
      ∀ cause, p.reoptimize config = .error ⟨cause, some plan⟩ →
        cause = .notConverged plan.iterations ∧ plan.tableau = p.tableau ∧
          plan.rule = config.rule := by
  rcases p.reoptimize_eq_map config with ⟨refusal, e⟩ | ⟨made, same, rule, e⟩
  · rw [e]
    constructor
    · intro h
      cases h
    · intro cause h
      cases h
  · rw [e]
    constructor
    · intro h
      obtain ⟨made', answered, rfl⟩ := map_eq_ok.mp h
      obtain ⟨rfl, -⟩ := answer_eq_ok answered
      exact ⟨same, rfl⟩
    · intro cause h
      unfold answer at h
      split at h <;> cases h
      exact ⟨rfl, same, rule⟩

/-- So many pivots at most, under the standard rule. -/
def pivotsAtMost (k : Nat) : Config Rat :=
  { Config.withTolerance (1 / 2) with maxIterations := some k }

/-- The plan from the north-west corner needs three pivots. Taken up with a budget of three it keeps
its rule; with a budget of two the best plan has the standard rule. -/
theorem Plan.reoptimize_keeps_threeSources : ∃ plan last best : Plan Rat,
    threeSources.solve cornerOnly = .ok plan ∧
      plan.reoptimize (pivotsAtMost 3) = .ok last ∧ last.tableau = plan.tableau ∧
        last.rule = .northWestCorner ∧
      plan.reoptimize (pivotsAtMost 2) = .error ⟨.notConverged 2, some best⟩ ∧
        best.tableau = plan.tableau ∧ best.rule = .vogel := by
  have planned : (threeSources.solve cornerOnly).toOption.map (fun plan => (plan.rule,
      (plan.reoptimize (pivotsAtMost 3)).toOption.map Plan.iterations,
      (spent? (plan.reoptimize (pivotsAtMost 2))).map Prod.fst)) =
        some (.northWestCorner, some 3, some 2) := by
    decide +kernel
  obtain ⟨plan, solved, e⟩ := exists_of_map_toOption planned
  obtain ⟨rule, e⟩ := Prod.mk.inj e
  obtain ⟨enough, short⟩ := Prod.mk.inj e
  obtain ⟨last, elast, -⟩ := exists_of_map_toOption enough
  obtain ⟨⟨k, best⟩, stops, rfl⟩ := Option.map_eq_some_iff.mp short
  have ebest := eq_error_of_spent? stops
  obtain ⟨kept, ruleKept⟩ := (reoptimize_keeps plan last (pivotsAtMost 3)).1 elast
  obtain ⟨-, kept', ruleLost⟩ := (reoptimize_keeps plan best (pivotsAtMost 2)).2 _ ebest
  exact ⟨plan, last, best, solved, elast, kept, ruleKept.trans rule, ebest, kept', ruleLost⟩

/-- The rule of a plan that passes its check is lost when its budget is spent: the best plan names the
rule of the settings, which did not build the plan that it came from. -/
theorem Plan.rule_lost_threeSources : (pivotsAtMost 2).check = .ok () ∧ ∃ plan best k,
    threeSources.solve cornerOnly = .ok plan ∧ plan.rule = .northWestCorner ∧
      plan.check (pivotsAtMost 2).tolerance = .ok () ∧
      plan.reoptimize (pivotsAtMost 2) = .error ⟨.notConverged k, some best⟩ ∧
      best.rule = .vogel := by
  have settings : (pivotsAtMost 2).check = .ok () := eq_ok_of_toOption (by decide +kernel)
  have planned : (threeSources.solve cornerOnly).toOption.map (fun plan => (plan.rule,
      (plan.check (pivotsAtMost 2).tolerance).toOption,
      (spent? (plan.reoptimize (pivotsAtMost 2))).map fun s => s.2.rule)) =
        some (.northWestCorner, some (), some .vogel) := by
    decide +kernel
  obtain ⟨plan, solved, e⟩ := exists_of_map_toOption planned
  obtain ⟨rule, e⟩ := Prod.mk.inj e
  obtain ⟨accepted, short⟩ := Prod.mk.inj e
  obtain ⟨⟨k, best⟩, stops, lost⟩ := Option.map_eq_some_iff.mp short
  exact ⟨settings, plan, best, k, solved, rule, eq_ok_of_toOption accepted,
    eq_error_of_spent? stops, lost⟩

end Freight
