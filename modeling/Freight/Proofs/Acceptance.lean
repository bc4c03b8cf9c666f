import Freight.Proofs.Descent
import Freight.Proofs.Feasibility
import Freight.Proofs.Shortfall

/-!
# Whether planned plans are accepted

A plan that planning hands out, be it the best one of a failure, reports a position that some greedy
start and some pivots led to. So what greedy starts have and pivots pass on is true of it
(`Problem.of_reported?`). Its parts fit together, and its quantities are amounts that no line carries
too much of; all that its check can find wrong is a line that falls short.

That does happen. Lines within the tolerance are taken to be served from the start and pivots drop
what is within the tolerance, so a column with small supplies only may get nothing. The check scales
the tolerance by the total supply, and accepts whatever planning lost if that is no less than the
number of tolerances that can be lost. Integers lose nothing.

Main statement: which plans pass, and that the others are refused as infeasible
(`Problem.check_of_reported?`).
-/

namespace Freight

open Scalar

variable {tol rest : Rat} {supply demand : List Rat} {q : Position Rat}

/-! ## Quantities that fall short -/

/-- Quantities that fall short of supplies and demands meet them if no line falls short by more than
the tolerance. -/
theorem Position.FallsShort.meets_iff
    (h : q.FallsShort supply demand supply.length demand.length rest) (hpos : 0 ≤ tol) :
    q.allocation.Meets supply demand tol ↔ ∀ l x, (Remaining.mk supply demand).left? l = some x →
      x - Line.total supply.length demand.length q.allocation.entry l ≤ tol := by
  constructor
  · intro meets l x hx
    have := (abs_le.mp (meets.near l x hx)).1
    linarith
  · refine fun small => ⟨fun c hc => ?_, fun l x hx => abs_le.mpr ⟨?_, ?_⟩⟩
    · linarith [h.nonneg c hc]
    · linarith [small l x hx]
    · linarith [h.total_le l x hx]

/-- Quantities that serve supplies and demands exactly meet them up to any tolerance. -/
theorem Position.Ships.meets (h : q.Ships supply demand supply.length demand.length)
    (hpos : 0 ≤ tol) : q.allocation.Meets supply demand tol := by
  refine ⟨fun c hc => ?_, fun l x hx => ?_⟩
  · linarith [h.nonneg c hc]
  · rw [h.total l x hx, sub_self, abs_zero]
    exact hpos

/-- A pivot adds one tolerance to what a position falls short by. -/
theorem Position.Pivots.fallsShort_succ {p next : Position Rat} {m n k : Nat} {c leaving : Cell}
    {path : List Cell} {low : Rat} (h : p.Pivots next tol c path low leaving) (hp : p.Sound m n)
    (hpos : 0 ≤ tol) (hm : supply.length = m) (hn : demand.length = n)
    (hf : p.FallsShort supply demand m n ((max m n + 1 + k : Nat) * tol)) :
    next.FallsShort supply demand m n ((max m n + 1 + (k + 1) : Nat) * tol) := by
  have more := h.fallsShort hp hpos hm hn hf
  rwa [← add_one_mul, ← Nat.cast_succ] at more

/-! ## Plans that planning hands out -/

section Reported

variable {p : Problem Rat} {config : Config Rat} {plan : Plan Rat}

theorem reported?_answer : reported? plan.answer = some plan := by
  unfold Plan.answer
  split <;> rfl

theorem Problem.reported?_of_solve (h : p.solve config = .ok plan) :
    reported? (p.solve config) = some plan := by
  rw [h]
  rfl

theorem Problem.checks_of_reported? (h : reported? (p.solve config) = some plan) :
    config.check = .ok () ∧ p.check = .ok () :=
  checks_of_not_refused fun cause refused => by
    rw [refused] at h
    cases h

/-- What is true of every greedy start on the lines of a plan, and after each pivot if it was true
before, is true of the position that the plan reports. -/
theorem Problem.of_reported? {I : Nat → Position Rat → Prop}
    (h : reported? (p.solve config) = some plan)
    (start : ∀ ⦃ss last first⦄, Tableau.ofProblem p config.tolerance = .ok plan.tableau →
      Remaining.Run config.tolerance ⟨plan.supply, plan.demand⟩ ss last →
      (Remaining.mk plan.supply plan.demand).Sound plan.supply.length plan.demand.length →
      first.allocation.Holds ss plan.supply.length plan.demand.length →
      (∀ s ∈ ss, s.cell ∈ first.basis.cells) → I 0 first)
    (keep : ∀ ⦃k p next c path low leaving⦄, p.Sound plan.supply.length plan.demand.length → I k p →
      p.Pivots next config.tolerance c path low leaving → I (k + 1) next) :
    Tableau.ofProblem p config.tolerance = .ok plan.tableau ∧ ∃ outcome,
      plan.Reports config.tolerance outcome ∧ I outcome.iterations outcome.position := by
  obtain ⟨settings, parts⟩ := checks_of_reported? h
  obtain ⟨-, hpos, -⟩ := Config.of_check settings
  obtain ⟨t, ss, last, first, et, fits, finite, run, sound, holds, cells, efirst, -⟩ :=
    exists_start settings parts
  have rests := rests_of_holds settings parts et fits sound holds cells
  rcases solve_cases_of_first settings et efirst rests with
    ⟨-, cost, made, -, rfl, -, reports, e⟩ | ⟨-, outcome, made, erun, rfl, -, reports, -, e⟩ <;>
    rw [e] at h
  · cases h
    exact ⟨et, _, reports, start et run finite holds cells⟩
  · rw [reported?_answer] at h
    cases h
    exact ⟨et, outcome, reports,
      (sound.of_run fits.rows_pos rfl hpos fits.costs keep (start et run finite holds cells) erun).2⟩

section Lines

variable (h : reported? (p.solve config) = some plan)

include h

/-- No line of a plan carries too much, and none falls short by more than what a greedy start and the
pivots can lose. -/
theorem Problem.fallsShort_of_reported? : ∃ outcome, plan.Reports config.tolerance outcome ∧
    outcome.position.FallsShort plan.supply plan.demand plan.supply.length plan.demand.length
      ((max plan.supply.length plan.demand.length + 1 + plan.iterations : Nat) *
        config.tolerance) := by
  obtain ⟨settings, parts⟩ := checks_of_reported? h
  obtain ⟨-, hpos, -⟩ := Config.of_check settings
  obtain ⟨-, outcome, reports, short⟩ := of_reported? (I := fun k q =>
      q.FallsShort plan.supply plan.demand plan.supply.length plan.demand.length
        ((max plan.supply.length plan.demand.length + 1 + k : Nat) * config.tolerance)) h
    (fun _ _ _ et run finite holds cells => by
      obtain ⟨nonneg, near⟩ := Tableau.near_of_ofProblem parts hpos et
      have start := run.fallsShort finite hpos nonneg near holds cells
      rwa [← Nat.cast_succ] at start)
    fun _ _ _ _ _ _ _ hp short pivots => pivots.fallsShort_succ hp hpos rfl rfl short
  rw [← reports.iterations_eq] at short
  exact ⟨outcome, reports, short⟩

/-- With integer supplies and demands and a tolerance below one, the lines of a plan carry exactly
their supplies and demands. -/
theorem Problem.ships_of_reported? (small : config.tolerance < 1)
    (hs : ∀ x ∈ p.supply, IsInteger x) (hd : ∀ x ∈ p.demand, IsInteger x) :
    ∃ outcome, plan.Reports config.tolerance outcome ∧
      outcome.position.Ships plan.supply plan.demand plan.supply.length plan.demand.length := by
  obtain ⟨settings, parts⟩ := checks_of_reported? h
  obtain ⟨-, hpos, -⟩ := Config.of_check settings
  obtain ⟨-, outcome, reports, ships⟩ := of_reported? (I := fun _ q =>
      q.Ships plan.supply plan.demand plan.supply.length plan.demand.length) h
    (fun _ _ _ et run finite holds cells =>
      run.ships finite hpos holds (Tableau.whole_of_ofProblem parts small hs hd et) small cells)
    fun _ _ _ _ _ _ _ hp ships pivots => pivots.ships hp rfl rfl hpos small ships
  exact ⟨outcome, reports, ships⟩

/-- A plan passes its check exactly if its quantities meet supplies and demands. Otherwise it is found
infeasible. -/
theorem Problem.check_cases_of_reported? :
    (plan.check config.tolerance = .ok () ∧
        plan.allocation.Meets plan.supply plan.demand
          (config.tolerance * max plan.supply.sum 1)) ∨
      (∃ k, plan.check config.tolerance = .error (.infeasible k)) ∧
        ¬ plan.allocation.Meets plan.supply plan.demand
          (config.tolerance * max plan.supply.sum 1) := by
  obtain ⟨settings, parts⟩ := checks_of_reported? h
  obtain ⟨-, hpos, -⟩ := Config.of_check settings
  obtain ⟨et, outcome, reports, -⟩ := of_reported? (I := fun _ _ => True) h
    (fun _ _ _ _ _ _ _ _ => trivial) fun _ _ _ _ _ _ _ _ _ _ => trivial
  have nonneg := (Tableau.near_of_ofProblem parts hpos et).1
  rw [reports.consistent.check_eq (fun x hx => isAmount_of_zero_le rfl (nonneg.supply x hx))
    fun x hx => isAmount_of_zero_le rfl (nonneg.demand x hx)]
  exact reports.consistent.checkQuantities_cases config.tolerance

end Lines

/-- Which plans can be taken up again. A plan that planning hands out passes its check exactly if each
row and each column falls short of its supply or demand by no more than the tolerance times the
total supply or one. That is so if the total supply is no less than the number of lines on the longer
side, one, and the number of pivots together, and if supplies and demands are integers and the
tolerance is below one. Under any settings with this tolerance, a plan that passes is taken up, and
any other is refused as infeasible. -/
theorem Problem.check_of_reported? (p : Problem Rat) (config : Config Rat) (plan : Plan Rat)
    (h : reported? (p.solve config) = some plan) :
    (plan.check config.tolerance = .ok () ↔
      (∀ i s, plan.supply[i]? = some s → ∃ x, plan.allocation.rowSum? i = some x ∧
        s - x ≤ config.tolerance * max plan.supply.sum 1) ∧
      ∀ j d, plan.demand[j]? = some d → ∃ x, plan.allocation.columnSum? j = some x ∧
        d - x ≤ config.tolerance * max plan.supply.sum 1) ∧
    ((max plan.supply.length plan.demand.length + 1 + plan.iterations : Nat) ≤
      max plan.supply.sum 1 → plan.check config.tolerance = .ok ()) ∧
    (config.tolerance < 1 → (∀ x ∈ p.supply, IsInteger x) → (∀ x ∈ p.demand, IsInteger x) →
      plan.check config.tolerance = .ok ()) ∧
    ∀ c : Config Rat, c.check = .ok () → c.tolerance = config.tolerance →
      (plan.check config.tolerance = .ok () →
        ∃ resumed, reported? (plan.reoptimize c) = some resumed) ∧
      (plan.check config.tolerance ≠ .ok () →
        ∃ k, plan.reoptimize c = .error (.ofCause (.infeasible k))) := by
  obtain ⟨-, hpos, -⟩ := Config.of_check (checks_of_reported? h).1
  obtain ⟨outcome, reports, short⟩ := fallsShort_of_reported? h
  have same := reports.describes.allocation_eq
  have scaled : 0 ≤ config.tolerance * max plan.supply.sum 1 :=
    mul_nonneg hpos (zero_le_one.trans (le_max_right _ _))
  have cases := check_cases_of_reported? h
  have accepted : plan.check config.tolerance = .ok () ↔
      plan.allocation.Meets plan.supply plan.demand
        (config.tolerance * max plan.supply.sum 1) := by
    rcases cases with ⟨e, meets⟩ | ⟨⟨k, e⟩, fails⟩
    · exact iff_of_true e meets
    · exact iff_of_false (by rw [e]; nofun) fails
  refine ⟨?_, fun enough => ?_, fun small hs hd => ?_, fun c settings tolerance =>
    ⟨fun passes => ?_, fun fails => ?_⟩⟩
  · rw [accepted, same, short.meets_iff scaled]
    exact reports.rests.sound.allocation.forall_total_iff
      (P := fun x y => x - y ≤ config.tolerance * max plan.supply.sum 1)
  · rw [accepted, same, short.meets_iff scaled]
    intro l x hx
    have lost := short.le_total l x hx
    have := mul_le_mul_of_nonneg_left enough hpos
    linarith
  · obtain ⟨outcome', reports', ships⟩ := ships_of_reported? h small hs hd
    rw [accepted, reports'.describes.allocation_eq]
    exact ships.meets scaled
  · rw [← tolerance] at reports passes
    obtain ⟨-, resumed, -, -, -, -, -, e⟩ := reports.rests.exists_answer settings
    rw [reports.reoptimize_eq settings passes, e, Plan.answer]
    split <;> exact ⟨_, rfl⟩
  · obtain ⟨k, e⟩ := (cases.resolve_left fun passes => fails passes.1).1
    exact ⟨k, Plan.reoptimize_of_refused settings (by rw [tolerance, e])⟩

end Reported

/-- A plan of three nearly equal sources leaves two units of the last one behind. That is within the
tolerance of two times the 33 units of supply. -/
theorem Problem.check_of_reported?_nearlyEven : ∃ plan,
    reported? (nearlyEven.solve coarse) = some plan ∧ plan.allocation.rowSum? 2 = some 10 ∧
      plan.check coarse.tolerance = .ok () ∧
      ∃ resumed, reported? (plan.reoptimize coarse) = some resumed := by
  have planned : (nearlyEven.solve coarse).toOption.map (fun plan =>
      (plan.allocation.rowSum? 2, plan.supply, plan.demand.length, plan.iterations)) =
        some (some 10, [10, 11, 12], 3, 4) := by
    decide +kernel
  obtain ⟨plan, solved, e⟩ := exists_of_map_toOption planned
  obtain ⟨third, e⟩ := Prod.mk.inj e
  obtain ⟨supply, e⟩ := Prod.mk.inj e
  obtain ⟨columns, pivots⟩ := Prod.mk.inj e
  have h : reported? (nearlyEven.solve coarse) = some plan := by rw [solved]; rfl
  have settings : coarse.check = .ok () := rfl
  obtain ⟨-, enough, -, taken⟩ := check_of_reported? nearlyEven coarse plan h
  have accepted := enough (by rw [supply, columns, pivots]; decide +kernel)
  exact ⟨plan, h, third, accepted, (taken coarse settings rfl).1 accepted⟩

/-- Two supplies of one millionth, and a demand for both of them. -/
def crumbs : Problem Rat := .unnamed [1 / 1000000, 1 / 1000000] [2 / 1000000] [[1], [1]]

/-- The settings of a caller who chooses a tolerance of one millionth. -/
def millionth : Config Rat := .withTolerance (1 / 1000000)

/-- A plan can be refused by the planner that made it. Both supplies are within the tolerance, so
nothing is shipped, and the plan is called optimal; but the demand is not within the tolerance. -/
theorem Problem.refused_crumbs : millionth.check = .ok () ∧ crumbs.check = .ok () ∧ ∃ plan k,
    crumbs.solve millionth = .ok plan ∧ plan.isOptimal = true ∧
      plan.allocation.columnSum? 0 = some 0 ∧
      plan.check millionth.tolerance = .error (.infeasible k) ∧
      plan.reoptimize millionth = .error (.ofCause (.infeasible k)) := by
  have settings : millionth.check = .ok () := eq_ok_of_toOption (by decide +kernel)
  have parts : crumbs.check = .ok () := eq_ok_of_toOption (by decide +kernel)
  have planned : (crumbs.solve millionth).toOption.map (fun plan =>
      (plan.isOptimal, plan.allocation.columnSum? 0,
        (plan.check millionth.tolerance).toOption)) = some (true, some 0, none) := by
    decide +kernel
  obtain ⟨plan, solved, e⟩ := exists_of_map_toOption planned
  obtain ⟨optimal, e⟩ := Prod.mk.inj e
  obtain ⟨column, fails⟩ := Prod.mk.inj e
  have h : reported? (crumbs.solve millionth) = some plan := by rw [solved]; rfl
  rcases check_cases_of_reported? h with ⟨passes, -⟩ | ⟨⟨k, refused⟩, -⟩
  · rw [passes] at fails
    cases fails
  · exact ⟨settings, parts, plan, k, solved, optimal, column, refused,
      Plan.reoptimize_of_refused settings refused⟩

end Freight
