import Freight.Proofs.Balance

/-!
# How planning ends

When settings and problem pass their checks, planning gets as far as a sound first position of the
balanced tableau, and improves it or reports it as it stands (`Problem.exists_start`). So planning is
refused exactly when a check fails, with that check's cause, the settings' first; otherwise there is
a plan, or the budget runs out with a best plan at hand. Basic cells always hang together, and no
position lies outside its table (`Problem.solve_ends`).
-/

namespace Freight

namespace Problem

section Start

variable {α : Type} [Scalar α] {p : Problem α} {config : Config α}

theorem solve_of_refused_config {cause : Cause α} (h : config.check = .error cause) :
    p.solve config = .error (.ofCause cause) := by
  unfold solve
  rw [h]
  rfl

theorem solve_of_refused {cause : Cause α} (settings : config.check = .ok ())
    (h : p.check = .error cause) : p.solve config = .error (.ofCause cause) := by
  unfold solve Tableau.ofProblem costTable
  rw [settings, h]
  rfl

/-- Settings and problems that are not refused pass their checks. -/
theorem checks_of_not_refused (h : ∀ cause, p.solve config ≠ .error (.ofCause cause)) :
    config.check = .ok () ∧ p.check = .ok () := by
  cases settings : config.check with
  | error cause => exact absurd (solve_of_refused_config settings) (h cause)
  | ok _ =>
    cases parts : p.check with
    | error cause => exact absurd (solve_of_refused settings parts) (h cause)
    | ok _ => exact ⟨rfl, rfl⟩

/-- A plan is only handed out for settings and problems that pass their checks. -/
theorem checks_of_solve {plan : Plan α} (h : p.solve config = .ok plan) :
    config.check = .ok () ∧ p.check = .ok () :=
  checks_of_not_refused fun cause refused => by
    rw [h] at refused
    cases refused

/-- So is a best plan. -/
theorem checks_of_best {cause : Cause α} {best : Plan α}
    (h : p.solve config = .error ⟨cause, some best⟩) :
    config.check = .ok () ∧ p.check = .ok () :=
  checks_of_not_refused fun cause' refused => by
    rw [h] at refused
    cases refused

/-- Planning goes on from the first position of the balanced tableau. -/
theorem solve_of_first {t : Tableau α} {first : Position α} (settings : config.check = .ok ())
    (et : Tableau.ofProblem p config.tolerance = .ok t)
    (efirst : t.firstPosition config.rule config.tolerance = .ok first) : p.solve config =
      if config.optimize then t.optimize config first
      else planning (t.unimproved first) >>= fun o => planning (t.report config o) := by
  unfold solve
  simp only [settings, et, efirst, planning, bind, Except.bind]

variable [Scalar.Exact α]

/-- What planning starts from when the checks pass: the shipments of a greedy run on a spanning
tree of the balanced tableau. -/
theorem exists_start (settings : config.check = .ok ()) (h : p.check = .ok ()) :
    ∃ t ss last first, Tableau.ofProblem p config.tolerance = .ok t ∧
      t.Fits t.supply.length t.demand.length ∧
      (Remaining.mk t.supply t.demand).Sound t.supply.length t.demand.length ∧
      Remaining.Run config.tolerance ⟨t.supply, t.demand⟩ ss last ∧
      first.Sound t.supply.length t.demand.length ∧
      first.allocation.Holds ss t.supply.length t.demand.length ∧
      (∀ s ∈ ss, s.cell ∈ first.basis.cells) ∧
      t.firstPosition config.rule config.tolerance = .ok first ∧
      p.solve config =
        if config.optimize then t.optimize config first
        else planning (t.unimproved first) >>= fun o => planning (t.report config o) := by
  obtain ⟨ht, hpos, -⟩ := Config.of_check settings
  obtain ⟨t, et, fits, finite⟩ := Tableau.exists_ofProblem h config.tolerance
  obtain ⟨ss, last, first, run, efirst, sound, holds, cells⟩ :=
    fits.exists_firstPosition ht hpos finite config.rule
  exact ⟨t, ss, last, first, et, fits, finite, run, sound, holds, cells, efirst,
    solve_of_first settings et efirst⟩

end Start

/-! ## Ends -/

section Ends

variable {p : Problem Extended} {config : Config Extended}

/-- Without improvement the first plan is reported. -/
theorem exists_solve_of_not_optimize (settings : config.check = .ok ()) (h : p.check = .ok ())
    (still : config.optimize = false) : ∃ plan, p.solve config = .ok plan := by
  obtain ⟨t, -, -, first, -, fits, -, -, sound, -, -, -, e⟩ := exists_start settings h
  obtain ⟨cost, ecost⟩ := sound.allocation.exists_cost? fits.costs
  obtain ⟨plan, ereport, -⟩ :=
    fits.exists_report config ⟨first, 0, .improving, [cost]⟩ sound.allocation
  refine ⟨plan, ?_⟩
  rw [e, still]
  simp only [Tableau.unimproved, ecost, within, planning, bind, Except.bind, pure, Except.pure,
    ereport]
  rfl

/-- When the checks pass, there is a plan or improvement runs out of budget. -/
theorem solve_cases (settings : config.check = .ok ()) (h : p.check = .ok ()) :
    (∃ plan, p.solve config = .ok plan) ∨
      config.optimize = true ∧ ∃ k best, p.solve config = .error ⟨.notConverged k, some best⟩ ∧
        best.isOptimal = false := by
  cases improve : config.optimize with
  | false => exact .inl (exists_solve_of_not_optimize settings h improve)
  | true =>
    obtain ⟨ht, hpos, -⟩ := Config.of_check settings
    obtain ⟨t, -, -, first, -, fits, -, -, sound, -, -, -, e⟩ := exists_start settings h
    rw [e, improve, if_pos rfl]
    obtain ⟨plan, -, -, -, -, ⟨e', -⟩ | ⟨k, e', improving⟩⟩ :=
      fits.optimize_cases (I := fun _ => True) ht hpos (fun _ _ _ _ _ _ _ _ _ => trivial) sound
        trivial
    · exact .inl ⟨plan, e'⟩
    · exact .inr ⟨rfl, k, plan, e', improving⟩

end Ends

/-- How planning for any problem under any settings ends. It is refused for an input fault exactly
when a check fails, and then for the fault that the check names. In every other case there is a plan,
or improvement ran out of budget with a best plan at hand. No end is of the internal kind. -/
theorem solve_ends (p : Problem Extended) (config : Config Extended) :
    ((∃ cause, p.solve config = .error (.ofCause cause) ∧ cause.kind = .validation) ↔
        (∃ cause, config.check = .error cause) ∨ ∃ cause, p.check = .error cause) ∧
      (∀ cause, config.check = .error cause → p.solve config = .error (.ofCause cause)) ∧
      (∀ cause, config.check = .ok () → p.check = .error cause →
        p.solve config = .error (.ofCause cause)) ∧
      (config.check = .ok () → p.check = .ok () →
        (∃ plan, p.solve config = .ok plan) ∨
          config.optimize = true ∧ ∃ k best, p.solve config = .error ⟨.notConverged k, some best⟩ ∧
            best.isOptimal = false) ∧
      ∀ failure, p.solve config = .error failure → failure.cause.kind ≠ .internal := by
  refine ⟨⟨?_, ?_⟩, fun _ => solve_of_refused_config, fun _ => solve_of_refused, solve_cases, ?_⟩
  · rintro ⟨cause, e, kind⟩
    cases settings : config.check with
    | error cause => exact .inl ⟨cause, rfl⟩
    | ok _ =>
      cases h : p.check with
      | error cause => exact .inr ⟨cause, rfl⟩
      | ok _ =>
        rcases solve_cases settings h with ⟨plan, e'⟩ | ⟨-, k, best, e', -⟩ <;> rw [e] at e' <;>
          cases e'
  · rintro (⟨cause, e⟩ | ⟨cause, e⟩)
    · exact ⟨cause, solve_of_refused_config e, Config.kind_of_check e⟩
    · cases settings : config.check with
      | error cause' =>
        exact ⟨cause', solve_of_refused_config settings, Config.kind_of_check settings⟩
      | ok _ => exact ⟨cause, solve_of_refused settings e, kind_of_check e⟩
  · intro failure e
    cases settings : config.check with
    | error cause =>
      rw [solve_of_refused_config settings] at e
      cases e
      rw [Failure.ofCause, Config.kind_of_check settings]
      decide
    | ok _ =>
      cases h : p.check with
      | error cause =>
        rw [solve_of_refused settings h] at e
        cases e
        rw [Failure.ofCause, kind_of_check h]
        decide
      | ok _ =>
        rcases solve_cases settings h with ⟨plan, e'⟩ | ⟨-, k, best, e', -⟩ <;> rw [e] at e' <;>
          cases e'
        show Kind.nonConvergence ≠ .internal
        decide

end Problem

end Freight
