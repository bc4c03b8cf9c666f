import Freight.Proofs.Pairing

/-!
# Assignments

Scores become costs by their distance from a base, the extreme score of the matrix. With the base
on each pair, a total score becomes a total cost in the same way (`Assignment.sum_map_cost`). All
pairings have equally many pairs, so one beats another exactly if it costs less
(`Assignment.not_beats_iff`), and what is known of costs carries over
(`Assignment.unbeaten_of_sum_le`).

Main statements: with improvement, and under a tolerance below one, an assignment is a pairing, in
the order of its rows, whose total score no other pairing beats by more than the tolerance on each
line of the longer side; on integer scores none beats it at all (`Assignment.solve_unbeaten`). But
every assignment is called a success, also if its pairing was not improved, and if the tolerance
leaves no pairs (`Assignment.solve_success`).
-/

namespace Freight

open Scalar

/-! ## Extreme scores -/

theorem Scalar.minimum?_rat (xs : List Rat) : minimum? xs = xs.min? := by
  cases xs with
  | nil => rfl
  | cons x xs =>
    rw [List.min?_cons', minimum?, funext fun x => funext fun y => least_rat x y]
    exact congrArg (fun ys => some (ys.foldl min x)) (List.map_id xs)

theorem Scalar.maximum?_rat (xs : List Rat) : maximum? xs = xs.max? := by
  cases xs with
  | nil => rfl
  | cons x xs => rw [List.max?_cons', maximum?, funext fun x => funext fun y => greatest_rat x y]

namespace Assignment

variable {config : Config Rat} {sense : Sense} {scores : List (List Rat)} {n : Nat}
  {base margin rival total : Rat} {a : Assignment Rat} {c : Cell}

/-! ## Scores and costs -/

/-- A score as a cost: its distance from the base, on the side of the worse scores. -/
def cost (sense : Sense) (base score : Rat) : Rat :=
  match sense with
  | .minimize => score - base
  | .maximize => base - score

/-- The base of the costs is an extreme score, or zero if there is none; no cost is negative. -/
theorem exists_costs (sense : Sense) (scores : List (List Rat)) :
    ∃ base, costs sense scores = scores.map (List.map (cost sense base)) ∧
      (∀ x ∈ scores.flatten, 0 ≤ cost sense base x) ∧ (base = 0 ∨ base ∈ scores.flatten) := by
  cases sense with
  | minimize =>
    refine ⟨(minimum? scores.flatten).getD 0, rfl, ?_⟩
    rw [minimum?_rat]
    cases e : scores.flatten.min? with
    | none =>
      rw [List.min?_eq_none_iff.mp e]
      simp
    | some low =>
      obtain ⟨hm, least⟩ := List.min?_eq_some_iff.mp e
      refine ⟨?_, .inr hm⟩
      intro x hx
      exact sub_nonneg.mpr (least x hx)
  | maximize =>
    refine ⟨(maximum? scores.flatten).getD 0, rfl, ?_⟩
    rw [maximum?_rat]
    cases e : scores.flatten.max? with
    | none =>
      rw [List.max?_eq_none_iff.mp e]
      simp
    | some high =>
      obtain ⟨hm, greatest⟩ := List.max?_eq_some_iff.mp e
      refine ⟨?_, .inr hm⟩
      intro x hx
      exact sub_nonneg.mpr (greatest x hx)

theorem isInteger_cost {score : Rat} (hb : IsInteger base) (hs : IsInteger score) :
    IsInteger (cost sense base score) := by
  cases sense with
  | minimize => exact hs.sub hb
  | maximize => exact hb.sub hs

/-- A sum of costs is the cost of the sum, if each score brings the base along. -/
theorem sum_map_cost (sense : Sense) (base : Rat) (xs : List Rat) :
    (xs.map (cost sense base)).sum = cost sense (xs.length * base) xs.sum := by
  induction xs with
  | nil => cases sense <;> simp [cost]
  | cons x xs ih =>
    rw [List.map_cons, List.sum_cons, ih, List.length_cons, List.sum_cons]
    cases sense <;> simp only [cost] <;> push_cast <;> ring

/-- One total score is not better than another exactly if it does not cost less. -/
theorem not_beats_iff (base : Rat) : ¬ sense.Beats margin rival total ↔
    cost sense base total ≤ cost sense base rival + margin := by
  cases sense with
  | minimize =>
    simp only [Sense.Beats, cost, not_lt]
    constructor <;> intro h <;> linarith
  | maximize =>
    simp only [Sense.Beats, cost, not_lt]
    constructor <;> intro h <;> linarith

/-! ## The problem of a pairing -/

section Problem

variable (rect : ∀ row ∈ scores, row.length = n)

include rect

theorem head_length (hm : scores ≠ []) : (scores.head?.map List.length).getD 0 = n := by
  cases scores with
  | nil => exact absurd rfl hm
  | cons row rows => exact rect row List.mem_cons_self

/-- Every cell inside has a score. -/
theorem exists_scoreAt? (hc : c ∈ Cell.grid scores.length n) : ∃ x, scoreAt? scores c = some x := by
  obtain ⟨hr, hcol⟩ := Cell.mem_grid.mp hc
  have row := List.getElem?_eq_getElem hr
  rw [← rect _ (List.getElem_mem hr)] at hcol
  exact ⟨_, Option.bind_eq_some_iff.mpr ⟨_, row, List.getElem?_eq_getElem hcol⟩⟩

theorem checkScores_eq_ok (i : Nat) : checkScores n i scores = .ok () := by
  induction scores generalizing i with
  | nil => rfl
  | cons row rows ih =>
    have finite : row.findIdx? (fun x => !isFinite x) = none :=
      List.findIdx?_eq_none_iff.mpr fun x _ => rfl
    rw [checkScores, checkLength, if_pos (rect row List.mem_cons_self), checkFinite, finite]
    exact ih (fun row' hrow => rect row' (List.mem_cons_of_mem row hrow)) (i + 1)

omit rect in
theorem eq_one_of_supply : ∀ x ∈ (problem sense scores).supply, x = 1 := by
  intro x hx
  exact List.eq_of_mem_replicate hx

omit rect in
theorem eq_one_of_demand : ∀ x ∈ (problem sense scores).demand, x = 1 := by
  intro x hx
  exact List.eq_of_mem_replicate hx

/-- The problem has a row for each row of scores, and a column for each score of a row. -/
theorem length_problem (sense : Sense) (hm : scores ≠ []) :
    (problem sense scores).supply.length = scores.length ∧
      (problem sense scores).demand.length = n := by
  constructor
  · exact List.length_replicate
  · rw [← head_length rect hm]
    exact List.length_replicate

theorem check_problem (sense : Sense) (hm : scores ≠ []) (hn : 0 < n) :
    (problem sense scores).check = .ok () := by
  obtain ⟨rows, cols⟩ := length_problem rect sense hm
  obtain ⟨base, e, nonneg, -⟩ := exists_costs sense scores
  have costs : (problem sense scores).costs = scores.map (List.map (cost sense base)) := e
  have one : isAmount (1 : Rat) = true := isAmount_of_zero_le rfl zero_le_one
  refine Problem.Plannable.check_eq_ok ⟨?_, ?_, ?_, ?_, ?_, ?_, ?_, rfl, rfl⟩ rfl rfl
  · rw [rows]
    exact List.length_pos_iff.mpr hm
  · rw [cols]
    exact hn
  · rw [costs, List.length_map, rows]
  · rw [costs, cols, List.forall_mem_map]
    intro row hrow
    rw [List.length_map, rect row hrow]
  · intro x hx
    rw [eq_one_of_supply x hx, one]
  · intro x hx
    rw [eq_one_of_demand x hx, one]
  · simp only [costs, List.forall_mem_map]
    intro row hrow x hx
    exact isAmount_of_zero_le rfl (nonneg x (List.mem_flatten_of_mem hrow hx))

omit rect in
theorem ne_nil_of_check (parts : (problem sense scores).check = .ok ()) : scores ≠ [] := by
  rintro rfl
  exact absurd (Problem.plannable_of_check parts).rows_pos (Nat.lt_irrefl 0)

/-- The costs of the problem are those of the scores, cell by cell. -/
theorem exists_costTable (parts : (problem sense scores).check = .ok ()) :
    ∃ base t, (problem sense scores).costTable = .ok t ∧
      (∀ c x, scoreAt? scores c = some x → t.entry c = cost sense base x) ∧
      ((∀ row ∈ scores, ∀ x ∈ row, IsInteger x) →
        ∀ row ∈ (problem sense scores).costs, ∀ x ∈ row, IsInteger x) := by
  obtain ⟨-, cols⟩ := length_problem rect sense (ne_nil_of_check parts)
  obtain ⟨t, et, -, get⟩ := Problem.exists_costTable parts
  obtain ⟨base, e, -, extreme⟩ := exists_costs sense scores
  have costs : (problem sense scores).costs = scores.map (List.map (cost sense base)) := e
  refine ⟨base, t, et, ?_, ?_⟩
  · intro c x hx
    obtain ⟨row, hrow, hx⟩ := Option.bind_eq_some_iff.mp hx
    have hcol : c.col < (problem sense scores).demand.length := by
      rw [cols, ← rect row (List.mem_of_getElem? hrow)]
      exact (List.getElem?_eq_some_iff.mp hx).1
    rw [Table.entry, get c.row c.col hcol, costs, List.getElem?_map, hrow, Option.map_some,
      Option.bind_some, List.getElem?_map, hx]
    rfl
  · intro integer
    have hb : IsInteger base := by
      rcases extreme with rfl | hm
      · exact IsInteger.zero
      · obtain ⟨row, hrow, hx⟩ := List.mem_flatten.mp hm
        exact integer row hrow base hx
    simp only [costs, List.forall_mem_map]
    intro row hrow x hx
    exact isInteger_cost hb (integer row hrow x hx)

end Problem

section Costs

variable {t : Table Rat} {pairs : List Cell} {values : List Rat}
  (entries : ∀ c x, scoreAt? scores c = some x → t.entry c = cost sense base x)
  (found : pairs.mapM (scoreAt? scores) = some values)

include entries found

/-- Pairs with their scores cost what these cost. -/
theorem map_entry : pairs.map t.entry = values.map (cost sense base) := by
  have all := forall₂_of_mapM found
  clear found
  induction all with
  | nil => rfl
  | cons hx _ ih => rw [List.map_cons, List.map_cons, entries _ _ hx, ih]

/-- The costs of a pairing come to the cost of its total score, with the base on each pair. -/
theorem sum_entry (h : IsPairing scores.length n pairs) : (pairs.map t.entry).sum =
    cost sense ((min scores.length n : Nat) * base) (Scalar.sum values) := by
  rw [map_entry entries found, sum_map_cost, ← (forall₂_of_mapM found).length_eq, h.length_eq,
    sum_rat]

/-- A pairing that no other one undercuts by more than a margin is not beaten by more than that. -/
theorem unbeaten_of_sum_le (rect : ∀ row ∈ scores, row.length = n)
    (h : IsPairing scores.length n pairs)
    (least : ∀ others, IsPairing scores.length n others →
      (pairs.map t.entry).sum ≤ (others.map t.entry).sum + margin) :
    Unbeaten sense scores n margin (Scalar.sum values) := by
  intro others hr
  obtain ⟨rivals, found'⟩ := exists_mapM fun c hc => exists_scoreAt? rect (hr.inside c hc)
  have le := least others hr
  rw [sum_entry entries found h, sum_entry entries found' hr] at le
  refine ⟨Scalar.sum rivals, ?_, ?_⟩
  · rw [totalOf?, found', Option.map_some]
  · rw [not_beats_iff ((min scores.length n : Nat) * base)]
    exact le

end Costs

/-! ## Answers -/

/-- An assignment is that of a plan. -/
theorem exists_plan_of_solve {α : Type} [Scalar α] {config : Config α} {scores : List (List α)}
    {a : Assignment α} (h : solve config sense scores = .ok a) :
    ∃ plan, (problem sense scores).solve config = .ok plan ∧ a.success = true ∧
      a.pairs = pairsOf plan ∧ a.pairs.mapM (scoreAt? scores) = some a.scores ∧
      a.totalScore = Scalar.sum a.scores := by
  unfold solve at h
  obtain ⟨-, -, h⟩ := bind_eq_ok.mp h
  split at h
  · cases h
  · next plan planned =>
    dsimp only at h
    split at h <;> cases h
    next values found => exact ⟨plan, planned, rfl, rfl, found, rfl⟩

/-- A tolerance of one or more leaves no pairs. -/
theorem pairsOf_eq_nil {plan : Plan Rat} (large : 1 ≤ config.tolerance)
    (h : reported? ((problem sense scores).solve config) = some plan) : pairsOf plan = [] := by
  refine Problem.pairsOf_eq_nil ?_ ?_ h
  · intro x hx
    rwa [eq_one_of_supply x hx]
  · intro x hx
    rwa [eq_one_of_demand x hx]

section Plan

variable {plan : Plan Rat} (rect : ∀ row ∈ scores, row.length = n) (hm : scores ≠ [])

include rect hm

theorem solve_of_failure {failure : Failure Rat}
    (h : (problem sense scores).solve config = .error failure) :
    solve config sense scores = .error (.planning failure) := by
  unfold solve
  rw [head_length rect hm, checkScores_eq_ok rect]
  simp only [bind, Except.bind, h]

/-- A plan whose pairs are inside makes an assignment. -/
theorem exists_solve_of_plan (h : (problem sense scores).solve config = .ok plan)
    (inside : ∀ c ∈ pairsOf plan, c ∈ Cell.grid scores.length n) :
    ∃ a, solve config sense scores = .ok a := by
  obtain ⟨values, found⟩ := exists_mapM fun c hc => exists_scoreAt? rect (inside c hc)
  unfold solve
  rw [head_length rect hm, checkScores_eq_ok rect]
  simp only [bind, Except.bind, h, found]
  exact ⟨_, rfl⟩

/-- Under a tolerance below one, the pairs of a plan are a pairing in the order of its rows. -/
theorem isPairing_of_reported? (small : config.tolerance < 1)
    (h : reported? ((problem sense scores).solve config) = some plan) :
    IsPairing scores.length n (pairsOf plan) ∧
      (pairsOf plan).Pairwise fun c d => c.row < d.row := by
  obtain ⟨rows, cols⟩ := length_problem rect sense hm
  obtain ⟨-, parts⟩ := Problem.checks_of_reported? h
  obtain ⟨-, t, et, -⟩ := exists_costTable rect parts
  obtain ⟨last, units⟩ :=
    Problem.exists_shipsUnits eq_one_of_supply eq_one_of_demand small et h
  have pairing := units.isPairing
  rw [rows, cols] at pairing
  exact ⟨pairing, units.pairwise_row⟩

/-- The pairs of a plan lie inside, whatever the tolerance. -/
theorem inside_of_solve (h : (problem sense scores).solve config = .ok plan) :
    ∀ c ∈ pairsOf plan, c ∈ Cell.grid scores.length n := by
  have reported := Problem.reported?_of_solve h
  rcases lt_or_ge config.tolerance 1 with small | large
  · exact (isPairing_of_reported? rect hm small reported).1.inside
  · rw [pairsOf_eq_nil large reported]
    simp

/-- With improvement, and under a tolerance below one, no pairing beats that of a plan by more than
the tolerance on each line of the longer side, and none beats it at all if the scores are
integers. -/
theorem unbeaten_of_plan {values : List Rat} (improve : config.optimize = true)
    (small : config.tolerance < 1) (h : (problem sense scores).solve config = .ok plan)
    (found : (pairsOf plan).mapM (scoreAt? scores) = some values) :
    Unbeaten sense scores n (config.tolerance * (max scores.length n : Nat)) (Scalar.sum values) ∧
      ((∀ row ∈ scores, ∀ x ∈ row, IsInteger x) →
        Unbeaten sense scores n 0 (Scalar.sum values)) := by
  obtain ⟨rows, cols⟩ := length_problem rect sense hm
  obtain ⟨-, parts⟩ := Problem.checks_of_solve h
  obtain ⟨base, t, et, entries, integers⟩ := exists_costTable rect parts
  obtain ⟨pairing, -⟩ := isPairing_of_reported? rect hm small (Problem.reported?_of_solve h)
  have least :=
    Problem.sum_costs_le_of_solve eq_one_of_supply eq_one_of_demand small et improve h
  rw [rows, cols] at least
  constructor
  · apply unbeaten_of_sum_le entries found rect pairing
    intro others hr
    exact (least others hr).1
  · intro integer
    apply unbeaten_of_sum_le entries found rect pairing
    intro others hr
    rw [add_zero]
    exact (least others hr).2 (integers integer)

end Plan

/-- Under settings that pass their check, rows of scores of one length have an assignment, or
improvement runs out of budget. -/
theorem solve_cases (rect : ∀ row ∈ scores, row.length = n) (hm : scores ≠ []) (hn : 0 < n)
    (settings : config.check = .ok ()) :
    (∃ a, solve config sense scores = .ok a) ∨ config.optimize = true ∧ ∃ k best,
      solve config sense scores = .error (.planning ⟨.notConverged k, some best⟩) := by
  obtain ⟨t, first, et, efirst, rests⟩ :=
    Problem.exists_first settings (check_problem rect sense hm hn)
  rcases Problem.solve_cases_of_first settings et efirst rests with
    ⟨-, cost, plan, -, -, -, -, e⟩ | ⟨improve, outcome, plan, -, -, -, -, -, e⟩
  · exact .inl (exists_solve_of_plan rect hm e (inside_of_solve rect hm e))
  · unfold Plan.answer at e
    split at e
    · exact .inl (exists_solve_of_plan rect hm e (inside_of_solve rect hm e))
    · exact .inr ⟨improve, plan.iterations, plan, solve_of_failure rect hm e⟩

/-! ## What an assignment is worth -/

/-- Assignments with improvement under a tolerance below one. The pairs are in the order of their
rows, no row and no column has two of them, and they are as many as the shorter side has lines. They
come with their scores, and no other pairing beats the total score by more than the tolerance on each
line of the longer side; if the scores are integers, none beats it at all. -/
theorem solve_unbeaten (config : Config Rat) (sense : Sense) (scores : List (List Rat)) (n : Nat)
    (a : Assignment Rat) (rect : ∀ row ∈ scores, row.length = n) (improve : config.optimize = true)
    (small : config.tolerance < 1) (h : solve config sense scores = .ok a) :
    IsPairing scores.length n a.pairs ∧ (a.pairs.Pairwise fun c d => c.row < d.row) ∧
      a.pairs.mapM (scoreAt? scores) = some a.scores ∧ a.totalScore = a.scores.sum ∧
      Unbeaten sense scores n (config.tolerance * (max scores.length n : Nat)) a.totalScore ∧
      ((∀ row ∈ scores, ∀ x ∈ row, IsInteger x) → Unbeaten sense scores n 0 a.totalScore) := by
  obtain ⟨plan, planned, -, pairs, found, total⟩ := exists_plan_of_solve h
  have hm := ne_nil_of_check (Problem.checks_of_solve planned).2
  obtain ⟨pairing, ordered⟩ :=
    isPairing_of_reported? rect hm small (Problem.reported?_of_solve planned)
  have unbeaten := unbeaten_of_plan rect hm improve small planned (pairs ▸ found)
  rw [total]
  rw [← pairs] at pairing ordered
  exact ⟨pairing, ordered, found, sum_rat a.scores, unbeaten⟩

/-- Two rows and three columns, with scores below zero. -/
def twoByThree : List (List Rat) := [[3, -1, 4], [2, 5, -6]]

/-- The pairs with scores 4 and 5 are the best of six. -/
theorem solve_unbeaten_twoByThree :
    (∀ row ∈ twoByThree, row.length = 3) ∧ fromCorner.optimize = true ∧ fromCorner.tolerance < 1 ∧
      ∃ a, solve fromCorner .maximize twoByThree = .ok a ∧ a.pairs = [⟨0, 2⟩, ⟨1, 1⟩] ∧
        Unbeaten .maximize twoByThree 3 0 9 := by
  have rect : ∀ row ∈ twoByThree, row.length = 3 := by decide
  have integer : ∀ row ∈ twoByThree, ∀ x ∈ row, IsInteger x := by decide +kernel
  have small : fromCorner.tolerance < 1 := by decide +kernel
  have assigned : (solve fromCorner .maximize twoByThree).toOption.map
      (fun a => (a.pairs, a.totalScore)) = some ([⟨0, 2⟩, ⟨1, 1⟩], 9) := by decide +kernel
  obtain ⟨a, solved, e⟩ := exists_of_map_toOption assigned
  obtain ⟨pairs, total⟩ := Prod.mk.inj e
  obtain ⟨-, -, -, -, -, best⟩ :=
    solve_unbeaten fromCorner .maximize twoByThree 3 a rect rfl small solved
  exact ⟨rect, rfl, small, a, solved, pairs, total ▸ best integer⟩

/-- What the success of an assignment is worth. Under settings that pass their check there is an
assignment, or improvement runs out of budget; and every assignment is called a success. Under a
tolerance below one it is a pairing with its total score, but only improvement makes it one that no
other beats by more than the tolerance on each line of the longer side. Under a tolerance of one or
more it has no pairs at all. -/
theorem solve_success (config : Config Rat) (sense : Sense) (scores : List (List Rat)) (n : Nat)
    (rect : ∀ row ∈ scores, row.length = n) (hm : scores ≠ []) (hn : 0 < n)
    (settings : config.check = .ok ()) :
    ((∃ a, solve config sense scores = .ok a) ∨ config.optimize = true ∧ ∃ k best,
        solve config sense scores = .error (.planning ⟨.notConverged k, some best⟩)) ∧
      ∀ a, solve config sense scores = .ok a → a.success = true ∧
        totalOf? scores a.pairs = some a.totalScore ∧
        (config.tolerance < 1 → IsPairing scores.length n a.pairs ∧
          (config.optimize = true → Unbeaten sense scores n
            (config.tolerance * (max scores.length n : Nat)) a.totalScore)) ∧
        (1 ≤ config.tolerance → a.pairs = [] ∧ a.totalScore = 0) := by
  refine ⟨solve_cases rect hm hn settings, ?_⟩
  intro a h
  obtain ⟨plan, planned, success, pairs, found, total⟩ := exists_plan_of_solve h
  have reported := Problem.reported?_of_solve planned
  refine ⟨success, ?_, ?_, ?_⟩
  · rw [totalOf?, found, Option.map_some, total]
  · intro small
    constructor
    · rw [pairs]
      exact (isPairing_of_reported? rect hm small reported).1
    · intro improve
      rw [total]
      exact (unbeaten_of_plan rect hm improve small planned (pairs ▸ found)).1
  · intro large
    have none' : a.pairs = [] := pairs.trans (pairsOf_eq_nil large reported)
    rw [none'] at found
    have noScores : a.scores = [] := (Option.some.inj found).symm
    refine ⟨none', ?_⟩
    rw [total, noScores]
    rfl

/-- Two rows and two columns, with the better scores off the diagonal. -/
def crossedScores : List (List Rat) := [[2, 1], [1, 2]]

/-- The north-west corner pairs along the diagonal, and that is called a success. -/
theorem solve_success_crossedScores :
    (∀ row ∈ crossedScores, row.length = 2) ∧ crossedScores ≠ [] ∧ 0 < 2 ∧
      cornerOnly.check = .ok () ∧ ∃ a, solve cornerOnly .minimize crossedScores = .ok a ∧
        a.success = true ∧ IsPairing 2 2 a.pairs := by
  have rect : ∀ row ∈ crossedScores, row.length = 2 := by decide
  have hm : crossedScores ≠ [] := by decide
  have settings : cornerOnly.check = .ok () := eq_ok_of_toOption (by decide +kernel)
  have small : cornerOnly.tolerance < 1 := by decide +kernel
  obtain ⟨some' | ⟨improve, -⟩, each⟩ :=
    solve_success cornerOnly .minimize crossedScores 2 rect hm (by decide) settings
  · obtain ⟨a, solved⟩ := some'
    obtain ⟨success, -, pairing, -⟩ := each a solved
    exact ⟨rect, hm, by decide, settings, a, solved, success, (pairing small).1⟩
  · cases improve

/-- The success is not an optimum: the total score of the diagonal is four, and that of the other
pairing is two. -/
theorem beaten_crossedScores : cornerOnly.check = .ok () ∧
    ∃ a, solve cornerOnly .minimize crossedScores = .ok a ∧ a.success = true ∧
      ¬ Unbeaten .minimize crossedScores 2
        (cornerOnly.tolerance * (max crossedScores.length 2 : Nat)) a.totalScore := by
  have assigned : (solve cornerOnly .minimize crossedScores).toOption.map
      (fun a => (a.success, a.totalScore)) = some (true, 4) := by decide +kernel
  obtain ⟨a, solved, e⟩ := exists_of_map_toOption assigned
  obtain ⟨success, total⟩ := Prod.mk.inj e
  refine ⟨eq_ok_of_toOption (by decide +kernel), a, solved, success, fun unbeaten => ?_⟩
  obtain ⟨rival, found, best⟩ := unbeaten [⟨0, 1⟩, ⟨1, 0⟩]
    ⟨by decide, by decide, by decide, by decide⟩
  have two : totalOf? crossedScores [⟨0, 1⟩, ⟨1, 0⟩] = some 2 := by decide +kernel
  rw [two] at found
  cases found
  rw [total] at best
  exact best (by decide +kernel)

end Assignment

end Freight
