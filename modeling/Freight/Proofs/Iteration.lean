import Freight.Proofs.Continuation
import Freight.Proofs.Descent
import Mathlib.Data.ENat.Lattice
import Mathlib.Order.CompletePartialOrder

/-!
# Runs as iterated steps

A run prices, pivots and prices again; a step prices and pivots once. A run within a budget visits
what steps lead to (`visited_eq_after?`), and it makes as many of them as there are, up to its budget
(`length_course_eq_min`). From a sound position no step is refused (`Sound.step_cases`), and a run ends
optimal exactly if one more step would find nothing to do (`Sound.optimal_iff_of_run`).

The first step fills up a basis that is not yet a tree. A run does so at once, even without a budget,
which makes no difference to any step (`step_of_repair`).

Main statement: what a run within any budget does in terms of steps, and that two runs one after the
other are one run (`Position.run_eq_steps`).
-/

namespace Freight.Position

/-! ## Counting steps -/

section Count

variable {α : Type} [Scalar α] {budget k : Nat} {p next : Position α} {costs : Table α} {tol : α}
  {record : Pivot α}

/-- How many steps with a pivot follow one another from a position; infinite if there is no last
one. -/
noncomputable def stepsAhead (p : Position α) (costs : Table α) (tol : α) : ℕ∞ :=
  ⨆ (k : Nat) (_ : (p.after? costs tol k).isSome), (k : ℕ∞)

/-- A step without a pivot: pricing finds nothing, and the basis is filled up. -/
theorem step_eq_none_iff {q : Position α} : p.step costs tol = (q, .ok none) ↔
    ∃ b, p.basis.price costs tol = .ok (b, none) ∧ { p with basis := b } = q := by
  unfold step
  cases eprice : p.basis.price costs tol with
  | error e => simp
  | ok r =>
    obtain ⟨b, offer⟩ := r
    cases offer with
    | none => simp
    | some entering =>
      cases epivot : ({ p with basis := b } : Position α).pivot tol entering with
      | error e => simp [epivot]
      | ok r => simp [epivot]

/-- Without a pivot to make, improvements end at once. -/
theorem improve_of_step_eq_none {q : Position α} (h : p.step costs tol = (q, .ok none))
    (budget : Nat) : Position.improve costs tol budget p = .ok (q, .optimal, []) := by
  obtain ⟨b, eprice, same⟩ := step_eq_none_iff.mp h
  rw [improve_of_price_eq_none eprice budget, same]

theorem after?_of_step (h : p.step costs tol = (next, .ok (some record))) (k : Nat) :
    p.after? costs tol (k + 1) = next.after? costs tol k := by
  rw [after?, h]

theorem after?_of_no_step (h : ∀ next record, p.step costs tol ≠ (next, .ok (some record)))
    (k : Nat) : p.after? costs tol (k + 1) = none := by
  rw [after?]
  split
  · next e => exact absurd e (h _ _)
  · rfl

theorem length_course_le (costs : Table α) (tol : α) : ∀ (budget : Nat) (p : Position α),
    (course costs tol budget p).length ≤ budget
  | 0, _ => Nat.le_refl 0
  | budget + 1, p => by
    rw [course]
    split
    · exact Nat.succ_le_succ (length_course_le costs tol budget _)
    · exact Nat.zero_le _

variable (p costs tol)

/-- The position visited after `k` steps of a run is the position after `k` steps. -/
theorem visited_eq_after? (h : k ≤ budget) :
    (p.visited costs tol budget)[k]? = p.after? costs tol k := by
  induction k generalizing p budget with
  | zero => rfl
  | succ k ih =>
    obtain ⟨budget, rfl⟩ := Nat.exists_eq_add_of_le' (Nat.zero_lt_of_lt h)
    by_cases hstep : ∃ next record, p.step costs tol = (next, .ok (some record))
    · obtain ⟨next, record, e⟩ := hstep
      rw [after?_of_step e, ← ih next (Nat.le_of_succ_le_succ h), visited, course_of_step e]
      rfl
    · simp only [not_exists] at hstep
      rw [after?_of_no_step hstep, visited, course_of_no_step hstep]
      rfl

/-- There are so many steps exactly if a run makes them that has the budget for it. -/
theorem isSome_after?_iff (h : k ≤ budget) :
    (p.after? costs tol k).isSome ↔ k ≤ (course costs tol budget p).length := by
  rw [← visited_eq_after? p costs tol h, isSome_getElem?, visited, List.length_cons, List.length_map]
  exact Nat.lt_succ_iff

/-- A course within a budget has as many pivots as there are steps, up to the budget. -/
theorem length_course_eq_min (budget : Nat) :
    ((course costs tol budget p).length : ℕ∞) = min (budget : ℕ∞) (p.stepsAhead costs tol) := by
  have all := length_course_le costs tol budget p
  apply le_antisymm
  · apply le_min
    · exact Nat.cast_le.mpr all
    · have made := (isSome_after?_iff p costs tol all).mpr (Nat.le_refl _)
      exact le_iSup₂ (f := fun (k : Nat) (_ : (p.after? costs tol k).isSome) => (k : ℕ∞)) _ made
  · rcases Nat.lt_or_ge (course costs tol budget p).length budget with short | full
    · -- The course stops before its budget does, so there is no further step.
      refine min_le_of_right_le (iSup₂_le fun k made => Nat.cast_le.mpr ?_)
      by_contra more
      have long := (isSome_after?_iff p costs tol (Nat.le_refl k)).mp made
      have further := (isSome_after?_iff p costs tol (Nat.not_le.mp more)).mpr
        ((Nat.not_le.mp more).trans_le long)
      exact Nat.not_succ_le_self _ ((isSome_after?_iff p costs tol short).mp further)
    · exact min_le_of_left_le (Nat.cast_le.mpr full)

/-- Pricing fills up the basis that it is given. -/
theorem repair_of_price {b filled : Basis} {offer : Option (Entering α)}
    (h : b.price costs tol = .ok (filled, offer)) : ∃ added, b.repair = .ok (filled, added) := by
  obtain ⟨⟨b', added⟩, erepair, h⟩ := bind_eq_ok.mp h
  obtain ⟨prices, -, h⟩ := bind_eq_ok.mp h
  obtain ⟨offers, -, h⟩ := bind_eq_ok.mp h
  cases h
  cases e : b.repair with
  | error c =>
    rw [e] at erepair
    cases erepair
  | ok r =>
    rw [e] at erepair
    cases erepair
    exact ⟨added, rfl⟩

variable {p costs tol} in
/-- What a run that comes to an end has done: as many steps as there are, up to its budget. It ends
where they lead, once the basis is filled up, and has recorded the total cost after each of them. -/
theorem after?_of_run {outcome : Outcome α} (h : p.run costs tol budget = .ok outcome) :
    (outcome.iterations : ℕ∞) = min (budget : ℕ∞) (p.stepsAhead costs tol) ∧
      outcome.iterations ≤ budget ∧
      (∃ last added, p.after? costs tol outcome.iterations = some last ∧
        outcome.position.allocation = last.allocation ∧
        last.basis.repair = .ok (outcome.position.basis, added)) ∧
      outcome.costHistory.length = outcome.iterations + 1 ∧
      ∀ k cost, outcome.costHistory[k]? = some cost → ∃ q,
        p.after? costs tol k = some q ∧ q.allocation.cost? costs = some cost := by
  obtain ⟨history, iterations, last, b, offer, hlast, eprice, same⟩ := visited_of_run h
  have bound : outcome.iterations ≤ budget := iterations ▸ length_course_le costs tol budget p
  have visits : (p.visited costs tol budget).length = outcome.iterations + 1 := by
    rw [visited, List.length_cons, List.length_map, iterations]
  obtain ⟨added, erepair⟩ := repair_of_price costs tol eprice
  refine ⟨iterations ▸ length_course_eq_min p costs tol budget, bound, ⟨last, added, ?_, ?_, ?_⟩, ?_,
    fun k cost hk => ?_⟩
  · rw [List.getLast?_eq_getElem?, visits, Nat.add_sub_cancel] at hlast
    rw [← visited_eq_after? p costs tol bound, hlast]
  · rw [same]
  · rw [same]
    exact erepair
  · rw [← history.length_eq, visits]
  · obtain ⟨q, hq, total⟩ := exists_of_getElem?_right history cost hk
    have short : k < outcome.iterations + 1 := by
      rw [← visits]
      exact (List.getElem?_eq_some_iff.mp hq).1
    have inside : k ≤ budget := by omega
    exact ⟨q, by rw [← visited_eq_after? p costs tol inside, hq], total⟩

end Count

/-! ## Steps and runs from sound positions -/

section Sound

variable {α : Type} [Scalar α] [Scalar.Exact α] {m n budget k : Nat} {tol : α} {costs : Table α}
  {p q last : Position α} {outcome : Outcome α}

variable (hm : 0 < m) (ht : Scalar.isFinite tol = true) (hpos : 0 ≤ tol) (hc : costs.Fits m n)

include hm ht hpos hc

/-- A step from a sound position finds nothing to do and leaves it as it is, or makes a pivot to a
sound position. -/
theorem Sound.step_cases (h : p.Sound m n) : p.step costs tol = (p, .ok none) ∨
    ∃ next record, p.step costs tol = (next, .ok (some record)) ∧ next.Sound m n := by
  obtain ⟨prices, offers, -, eoffers, eprice⟩ := h.basis.price hm h.isTree hc tol
  unfold step
  rw [eprice]
  cases best : bestOffer? tol offers with
  | none =>
    left
    rfl
  | some entering =>
    right
    have vacant : entering.cell ∈ p.basis.vacant :=
      ((Basis.mem_offers eoffers).mp (mem_of_bestOffer?_eq_some best)).1
    obtain ⟨path, low, leaving, next, epivot, -, sound⟩ := h.pivot ht hpos vacant
    simp only [epivot]
    exact ⟨next, _, rfl, sound⟩

/-- Improvements end optimal exactly if one more step would find nothing to do. -/
theorem Sound.optimal_iff_of_improve {ending : Ending} {later : List α} (h : p.Sound m n)
    (e : Position.improve costs tol budget p = .ok (last, ending, later)) :
    ending = .optimal ↔ (last.step costs tol).2 = .ok none := by
  induction budget generalizing p ending later with
  | zero =>
    rcases h.step_cases hm ht hpos hc with still | ⟨next, record, hstep, sound⟩
    · rw [improve_of_step_eq_none still 0] at e
      cases e
      simp [still]
    · -- The budget is spent, and pricing leaves the tree as it is.
      obtain ⟨b, entering, eprice, epivot⟩ := step_eq_some_iff.mp hstep
      obtain ⟨prices, offers, -, -, eprice'⟩ := h.basis.price hm h.isTree hc tol
      rw [eprice] at eprice'
      obtain ⟨rfl, -⟩ := Prod.mk.inj (Except.ok.inj eprice')
      rw [Position.improve, eprice] at e
      cases e
      simp [hstep]
  | succ budget ih =>
    rcases h.step_cases hm ht hpos hc with still | ⟨next, record, hstep, sound⟩
    · rw [improve_of_step_eq_none still (budget + 1)] at e
      cases e
      simp [still]
    · obtain ⟨b, entering, eprice, epivot⟩ := step_eq_some_iff.mp hstep
      rw [Position.improve, eprice] at e
      obtain ⟨r, er, e⟩ := bind_eq_ok.mp e
      cases er
      obtain ⟨r, epivot', e⟩ := bind_eq_ok.mp e
      rw [epivot] at epivot'
      cases epivot'
      obtain ⟨cost, -, e⟩ := bind_eq_ok.mp e
      obtain ⟨⟨last', ending', later'⟩, eimprove, e⟩ := bind_eq_ok.mp e
      cases e
      exact ih sound eimprove

/-- A run ends optimal exactly if one more step would find nothing to do. -/
theorem Sound.optimal_iff_of_run (h : p.Sound m n) (e : p.run costs tol budget = .ok outcome) :
    outcome.ending = .optimal ↔ (outcome.position.step costs tol).2 = .ok none := by
  obtain ⟨cost, -, e⟩ := bind_eq_ok.mp e
  obtain ⟨⟨last, ending, later⟩, eimprove, e⟩ := bind_eq_ok.mp e
  cases e
  exact h.optimal_iff_of_improve hm ht hpos hc eimprove

/-- Steps lead from a sound position to sound positions. -/
theorem Sound.of_after? (h : p.Sound m n) (hq : p.after? costs tol k = some q) : q.Sound m n := by
  rw [← visited_eq_after? p costs tol (Nat.le_refl k)] at hq
  exact h.of_visited hm ht hpos hc hq

end Sound

/-! ## Starts on a forest -/

section Forest

variable {α : Type} [Scalar α] {k : Nat} {p : Position α} {costs : Table α} {tol : α} {b : Basis}
  {added : Nat} (e : p.basis.repair = .ok (b, added)) (full : b.repair = .ok (b, 0))

include e full

/-- A step fills up the basis first, so filling it up before makes no difference to what it does. -/
theorem step_of_repair :
    (p.step costs tol).2 = (({ p with basis := b } : Position α).step costs tol).2 := by
  unfold step
  rw [Basis.price_of_repair e full]
  cases b.price costs tol with
  | error cause => rfl
  | ok r =>
    obtain ⟨b', offer⟩ := r
    cases offer with
    | none => rfl
    | some entering => rfl

theorem after?_of_repair (k : Nat) : p.after? costs tol (k + 1) =
    ({ p with basis := b } : Position α).after? costs tol (k + 1) := by
  by_cases hstep : ∃ next record, p.step costs tol = (next, .ok (some record))
  · obtain ⟨next, record, step⟩ := hstep
    rw [after?_of_step step, after?_of_step ((step_eq_some_of_repair e full).mp step)]
  · simp only [not_exists] at hstep
    rw [after?_of_no_step hstep, after?_of_no_step fun next record step =>
      hstep next record ((step_eq_some_of_repair e full).mpr step)]

end Forest

section Exact

variable {m n : Nat} {p q : Position Rat} {costs : Table Rat} {tol : Rat} {budget k : Nat}
  {outcome : Outcome Rat} (hm : 0 < m) (hn : 0 < n) (ha : p.allocation.Fits m n)
  (hb : p.basis.Fits m n) (hc : costs.Fits m n) (acyclic : Acyclic p.basis.cells) (hpos : 0 ≤ tol)

include hm hn ha hb hc acyclic hpos

/-- No step after a start on a forest is refused. -/
theorem exists_offer_of_after? (hq : p.after? costs tol k = some q) :
    ∃ offer, (q.step costs tol).2 = .ok offer := by
  obtain ⟨b, added, e, full, sound⟩ := exists_full ha hb acyclic hm hn
  have goes : ∀ {r : Position Rat}, r.Sound m n → ∃ offer, (r.step costs tol).2 = .ok offer := by
    intro r hr
    rcases hr.step_cases hm rfl hpos hc with still | ⟨next, record, hstep, -⟩
    · exact ⟨none, congrArg Prod.snd still⟩
    · exact ⟨some record, congrArg Prod.snd hstep⟩
  cases k with
  | zero =>
    cases hq
    rw [step_of_repair e full]
    exact goes sound
  | succ k =>
    rw [after?_of_repair e full] at hq
    exact goes (sound.of_after? hm rfl hpos hc hq)

/-- A run from a start on a forest comes to an end, at a sound position. -/
theorem exists_run_of_forest (budget : Nat) : ∃ outcome, p.run costs tol budget = .ok outcome ∧
    outcome.position.Sound m n ∧
    (outcome.ending = .optimal ↔ (outcome.position.step costs tol).2 = .ok none) := by
  obtain ⟨b, added, e, full, sound⟩ := exists_full ha hb acyclic hm hn
  have keep : Keeps m n tol fun _ : Position Rat => True := fun _ _ _ _ _ _ _ _ _ => trivial
  obtain ⟨outcome, erun, ends, -⟩ := sound.run keep hm rfl hpos hc budget trivial
  exact ⟨outcome, (run_of_repair e full budget).trans erun, ends,
    sound.optimal_iff_of_run hm rfl hpos hc erun⟩

/-- Two runs one after the other are the run within both budgets. -/
theorem run_append_of_forest {a b : Nat} {first rest : Outcome Rat}
    (h : p.run costs tol a = .ok first) (h' : first.position.run costs tol b = .ok rest) :
    p.run costs tol (a + b) = .ok ⟨rest.position, first.iterations + rest.iterations, rest.ending,
      first.costHistory ++ rest.costHistory.tail⟩ := by
  obtain ⟨b', added, e, full, sound⟩ := exists_full ha hb acyclic hm hn
  rw [run_of_repair e full] at h ⊢
  exact sound.run_append hm rfl hpos hc h h'

end Exact

/-- What a run does in terms of steps, from finite quantities on a forest. Within any budget it makes
as many steps as there are, up to the budget, and ends where they lead, once the basis is filled up. Its
history has the total cost after each of them, from the start on. It ends optimal exactly if one more
step would find nothing to do, and otherwise its budget is spent. No step is refused. A run from where
another one ended makes up with it the run within both budgets. -/
theorem run_eq_steps {m n : Nat} (p : Position Rat) (costs : Table Rat) (tol : Rat) (hm : 0 < m)
    (hn : 0 < n) (ha : p.allocation.Fits m n) (hb : p.basis.Fits m n) (hc : costs.Fits m n)
    (acyclic : Acyclic p.basis.cells) (hpos : 0 ≤ tol) :
    (∀ budget, ∃ outcome last added, p.run costs tol budget = .ok outcome ∧
        (outcome.iterations : ℕ∞) = min (budget : ℕ∞) (p.stepsAhead costs tol) ∧
        outcome.iterations ≤ budget ∧
        p.after? costs tol outcome.iterations = some last ∧
        outcome.position.allocation = last.allocation ∧
        last.basis.repair = .ok (outcome.position.basis, added) ∧
        outcome.costHistory.length = outcome.iterations + 1 ∧
        (∀ k cost, outcome.costHistory[k]? = some cost → ∃ q,
          p.after? costs tol k = some q ∧ q.allocation.cost? costs = some cost) ∧
        (outcome.ending = .optimal ↔ (outcome.position.step costs tol).2 = .ok none) ∧
        (outcome.ending = .improving → outcome.iterations = budget)) ∧
      (∀ k q, p.after? costs tol k = some q → ∃ offer, (q.step costs tol).2 = .ok offer) ∧
      ∀ a b, ∃ first rest, p.run costs tol a = .ok first ∧
        first.position.run costs tol b = .ok rest ∧
        p.run costs tol (a + b) = .ok ⟨rest.position, first.iterations + rest.iterations,
          rest.ending, first.costHistory ++ rest.costHistory.tail⟩ := by
  refine ⟨fun budget => ?_, fun k q hq => exists_offer_of_after? hm hn ha hb hc acyclic hpos hq,
    fun a b => ?_⟩
  · obtain ⟨outcome, erun, -, optimal⟩ := exists_run_of_forest hm hn ha hb hc acyclic hpos budget
    obtain ⟨counted, bound, ⟨last, added, hlast, ends, filled⟩, length, history⟩ := after?_of_run erun
    exact ⟨outcome, last, added, erun, counted, bound, hlast, ends, filled, length, history, optimal,
      iterations_of_improving erun⟩
  · obtain ⟨first, erun, sound, -⟩ := exists_run_of_forest hm hn ha hb hc acyclic hpos a
    obtain ⟨rest, erun', -⟩ := sound.exists_run hm rfl hpos hc b
    exact ⟨first, rest, erun, erun',
      run_append_of_forest hm hn ha hb hc acyclic hpos erun erun'⟩

/-- Crossing the two routes takes one step. A budget of one pivot is spent by it, and yet the run ends
optimal, since another step would find nothing to do. -/
theorem run_eq_steps_twoRoutes :
    0 < 2 ∧ twoRoutes.allocation.Fits 2 2 ∧ twoRoutes.basis.Fits 2 2 ∧ crossedCosts.Fits 2 2 ∧
      Acyclic twoRoutes.basis.cells ∧ (0 : Rat) ≤ 2 ∧
      twoRoutes.stepsAhead crossedCosts 2 = 1 ∧
      ∃ outcome last, twoRoutes.run crossedCosts 2 1 = .ok outcome ∧ outcome.iterations = 1 ∧
        outcome.costHistory = [212, 80] ∧ outcome.ending = .optimal ∧
        twoRoutes.after? crossedCosts 2 1 = some last ∧
        outcome.position.allocation = last.allocation ∧
        (outcome.position.step crossedCosts 2).2 = .ok none := by
  have ha : twoRoutes.allocation.Fits 2 2 := ⟨rfl, rfl, rfl⟩
  have hb : twoRoutes.basis.Fits 2 2 := ⟨⟨rfl, rfl⟩, rfl, rfl⟩
  have hc : crossedCosts.Fits 2 2 := ⟨rfl, rfl, rfl⟩
  have acyclic : Acyclic twoRoutes.basis.cells := hb.components_isOk_iff.mp ⟨_, rfl⟩
  have two : 0 < 2 := by decide
  have hpos : (0 : Rat) ≤ 2 := by decide +kernel
  have values : (twoRoutes.run crossedCosts 2 1).toOption.map
      (fun o => (o.iterations, o.costHistory, o.ending)) = some (1, [212, 80], .optimal) := by
    decide +kernel
  have more : (twoRoutes.run crossedCosts 2 5).toOption.map Outcome.iterations = some 1 := by
    decide +kernel
  obtain ⟨all, -, -⟩ := run_eq_steps twoRoutes crossedCosts 2 two two ha hb hc acyclic hpos
  have ahead : twoRoutes.stepsAhead crossedCosts 2 = 1 := by
    obtain ⟨outcome, -, -, erun, counted, -⟩ := all 5
    obtain ⟨outcome', erun', one⟩ := exists_of_map_toOption more
    rw [erun] at erun'
    cases erun'
    rw [one] at counted
    rcases min_choice ((5 : Nat) : ℕ∞) (twoRoutes.stepsAhead crossedCosts 2) with e | e <;>
      rw [e] at counted
    · exact absurd counted (by decide)
    · exact counted.symm
  obtain ⟨outcome, last, -, erun, -, -, hlast, ends, -, -, -, optimal, -⟩ := all 1
  obtain ⟨outcome', erun', e⟩ := exists_of_map_toOption values
  rw [erun] at erun'
  cases erun'
  obtain ⟨iterations, e⟩ := Prod.mk.inj e
  obtain ⟨history, ending⟩ := Prod.mk.inj e
  rw [iterations] at hlast
  exact ⟨two, ha, hb, hc, acyclic, hpos, ahead, outcome, last, erun, iterations, history, ending, hlast,
    ends, optimal.mp ending⟩

end Freight.Position
