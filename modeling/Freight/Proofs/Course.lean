import Freight.Proofs.Check

/-!
# What a run visits

A run ends where its course does, and its history lists the total cost of each position that it
visits (`visited_of_run`). From a sound position every step is a pivot as `Position.Pivots` says, on
the best offer of the potentials (`Sound.of_step`), so what is true of the start and passed on by
every pivot is true of all positions visited (`Sound.visited`), the last one included
(`Sound.of_run`). The number of pivots made so far may enter into it.

A basis that is not yet a tree is filled up before anything else is done. Such a start has the course
and the run of the filled up one (`course_of_repair`, `run_of_repair`).
-/

namespace Freight

variable {α : Type} [Scalar α] {m n : Nat} {tol : α} {costs : Table α}

/-- A pivot comes about on a position: it is made on the basis filled up to a tree, on a cell with its
opportunity cost there, around the loop of that cell. -/
def Pivot.Around (record : Pivot α) (p : Position α) (costs : Table α) (loop : List Cell) : Prop :=
  ∃ b added prices, p.basis.repair = .ok (b, added) ∧ Potentials.ofBasis b costs = .ok prices ∧
    prices.opportunityCost? costs record.entering = some record.opportunityCost ∧
    (b.loop record.entering : Except (Cause α) (List Cell)) = .ok loop

namespace Position

variable {p q next : Position α} {record : Pivot α} {budget k : Nat}

/-! ## Steps -/

/-- A step with a pivot: pricing finds a cell, and the pivot on it succeeds. -/
theorem step_eq_some_iff : p.step costs tol = (next, .ok (some record)) ↔
    ∃ b entering, p.basis.price costs tol = .ok (b, some entering) ∧
      ({ p with basis := b } : Position α).pivot tol entering = .ok (next, record) := by
  unfold step
  cases eprice : p.basis.price costs tol with
  | error e => simp
  | ok r =>
    obtain ⟨b, offer⟩ := r
    cases offer with
    | none => simp
    | some entering =>
      cases epivot : ({ p with basis := b } : Position α).pivot tol entering with
      | error e => simp [epivot]
      | ok r =>
        obtain ⟨next', record'⟩ := r
        simp [epivot]

theorem course_of_step (h : p.step costs tol = (next, .ok (some record))) (n : Nat) :
    course costs tol (n + 1) p = (record, next) :: course costs tol n next := by
  rw [course, h]

theorem course_of_no_step (h : ∀ next record, p.step costs tol ≠ (next, .ok (some record)))
    (n : Nat) : course costs tol n p = [] := by
  cases n with
  | zero => rfl
  | succ n =>
    rw [course]
    split
    · next e => exact absurd e (h _ _)
    · rfl

/-- Each pivot of a course is that of the step from the position visited before. -/
theorem exists_step_of_course : ∀ {budget k : Nat} {p : Position α},
    (course costs tol budget p)[k]? = some (record, next) →
    ∃ q, (p.visited costs tol budget)[k]? = some q ∧
      q.step costs tol = (next, .ok (some record))
  | 0, _, _, h => by cases h
  | budget + 1, k, p, h => by
    rw [course] at h
    split at h
    · next next' record' e =>
      cases k with
      | zero =>
        cases h
        exact ⟨p, rfl, e⟩
      | succ k =>
        obtain ⟨q, hq, step⟩ := exists_step_of_course h
        refine ⟨q, ?_, step⟩
        rwa [visited, course_of_step e]
    · cases h

/-- Each position visited after the first one is where a step from the one before led. -/
theorem exists_step_of_visited (h : (p.visited costs tol budget)[k + 1]? = some next) :
    ∃ q record, (p.visited costs tol budget)[k]? = some q ∧
      (course costs tol budget p)[k]? = some (record, next) ∧
      q.step costs tol = (next, .ok (some record)) := by
  rw [visited, List.getElem?_cons_succ, List.getElem?_map] at h
  obtain ⟨⟨record, next'⟩, hk, rfl⟩ := Option.map_eq_some_iff.mp h
  obtain ⟨q, hq, step⟩ := exists_step_of_course hk
  exact ⟨q, record, hq, hk, step⟩

/-! ## The run and its course -/

/-- Improvements end where their course does, once its last basis is filled up, and list the total
costs of the positions that the pivots lead to. -/
theorem visited_of_improve : ∀ {budget : Nat} {p last : Position α} {ending : Ending}
    {later : List α}, improve costs tol budget p = .ok (last, ending, later) →
    List.Forall₂ (fun q cost => q.allocation.cost? costs = some cost)
        ((course costs tol budget p).map Prod.snd) later ∧
      ∃ q b offer, (p.visited costs tol budget).getLast? = some q ∧
        q.basis.price costs tol = .ok (b, offer) ∧ last = { q with basis := b }
  | 0, p, last, ending, later, h => by
    rw [improve] at h
    obtain ⟨⟨b, offer⟩, eprice, e⟩ := bind_eq_ok.mp h
    cases e
    exact ⟨.nil, p, b, offer, rfl, eprice, rfl⟩
  | budget + 1, p, last, ending, later, h => by
    rw [improve] at h
    obtain ⟨⟨b, offer⟩, eprice, e⟩ := bind_eq_ok.mp h
    cases offer with
    | none =>
      cases e
      have still : course costs tol (budget + 1) p = [] := by
        refine course_of_no_step (fun next record step => ?_) _
        obtain ⟨b', entering, eprice', -⟩ := step_eq_some_iff.mp step
        rw [eprice] at eprice'
        cases eprice'
      rw [visited, still]
      exact ⟨.nil, p, b, none, rfl, eprice, rfl⟩
    | some entering =>
      obtain ⟨⟨next, record⟩, epivot, e⟩ := bind_eq_ok.mp e
      obtain ⟨cost, ecost, e⟩ := bind_eq_ok.mp e
      obtain ⟨⟨last', ending', later'⟩, eimprove, e⟩ := bind_eq_ok.mp e
      cases e
      have step := step_eq_some_iff.mpr ⟨b, entering, eprice, epivot⟩
      obtain ⟨costs', q, b', offer, hq, eprice', elast⟩ := visited_of_improve eimprove
      rw [visited, course_of_step step, List.map_cons]
      exact ⟨.cons (within_eq_ok.mp ecost) costs', q, b', offer,
        List.getLast?_cons_cons.trans hq, eprice', elast⟩

/-- A run ends at the last position that it visits, once its basis is filled up. Its history lists
the total cost of each position visited. -/
theorem visited_of_run {outcome : Outcome α} (h : p.run costs tol budget = .ok outcome) :
    List.Forall₂ (fun q cost => q.allocation.cost? costs = some cost)
        (p.visited costs tol budget) outcome.costHistory ∧
      outcome.iterations = (course costs tol budget p).length ∧
      ∃ q b offer, (p.visited costs tol budget).getLast? = some q ∧
        q.basis.price costs tol = .ok (b, offer) ∧ outcome.position = { q with basis := b } := by
  obtain ⟨cost, ecost, e⟩ := bind_eq_ok.mp h
  obtain ⟨⟨last, ending, later⟩, eimprove, e⟩ := bind_eq_ok.mp e
  cases e
  obtain ⟨costs', q, b, offer, hq, eprice, elast⟩ := visited_of_improve eimprove
  refine ⟨.cons (within_eq_ok.mp ecost) costs', ?_, q, b, offer, hq, eprice, elast⟩
  rw [← List.length_map (f := Prod.snd), costs'.length_eq]

/-- The last total cost of a run is that of the position where it ends. -/
theorem exists_getLast?_of_run {outcome : Outcome α}
    (h : p.run costs tol budget = .ok outcome) : ∃ cost,
      outcome.costHistory.getLast? = some cost ∧
        outcome.position.allocation.cost? costs = some cost := by
  obtain ⟨all, -, q, b, offer, hq, -, e⟩ := visited_of_run h
  rw [List.getLast?_eq_getElem?, all.length_eq] at hq
  obtain ⟨cost, hcost, hq⟩ := exists_of_getElem?_right all.flip q hq
  exact ⟨cost, List.getLast?_eq_getElem?.trans hcost, by rw [e]; exact hq⟩

/-! ## Sound starts -/

section Exact

variable [Scalar.Exact α] (hm : 0 < m) (ht : Scalar.isFinite tol = true) (hpos : 0 ≤ tol)
  (hc : costs.Fits m n)

include hm ht hpos hc

/-- A step with a pivot from a sound position: a pivot on the best offer of the potentials, to a sound
position. -/
theorem Sound.of_step (h : p.Sound m n) (e : p.step costs tol = (next, .ok (some record))) :
    ∃ prices offers path low, Potentials.ofBasis p.basis costs = .ok prices ∧
      p.basis.offers? costs prices = some offers ∧
      bestOffer? tol offers = some ⟨record.entering, record.opportunityCost⟩ ∧
      record.quantity = Scalar.positivePart low ∧
      p.Pivots next tol record.entering path low record.leaving ∧ next.Sound m n := by
  obtain ⟨b, entering, eprice, epivot⟩ := step_eq_some_iff.mp e
  obtain ⟨prices, offers, eprices, eoffers, eprice'⟩ := h.basis.price hm h.isTree hc tol
  rw [eprice] at eprice'
  obtain ⟨rfl, best⟩ := Prod.mk.inj (Except.ok.inj eprice')
  have vacant : entering.cell ∈ p.basis.vacant :=
    ((Basis.mem_offers eoffers).mp (mem_of_bestOffer?_eq_some best.symm)).1
  obtain ⟨path, low, leaving, next', epivot', pivots, sound⟩ := h.pivot ht hpos vacant
  rw [epivot] at epivot'
  obtain ⟨rfl, rfl⟩ := Prod.mk.inj (Except.ok.inj epivot')
  exact ⟨prices, offers, path, low, eprices, eoffers, best.symm, rfl, pivots, sound⟩

/-- What is true of a sound start, and after each pivot if it was true before, is true of every
position visited. -/
theorem Sound.visited {I : Nat → Position α → Prop}
    (keep : ∀ ⦃k p next c path low leaving⦄, p.Sound m n → I k p →
      p.Pivots next tol c path low leaving → I (k + 1) next) :
    ∀ {k budget j : Nat} {p q : Position α}, p.Sound m n → I j p →
      (p.visited costs tol budget)[k]? = some q → q.Sound m n ∧ I (j + k) q
  | 0, _, _, p, q, h, hi, hq => by
    cases hq
    exact ⟨h, hi⟩
  | k + 1, 0, _, _, _, _, _, hq => by cases hq
  | k + 1, budget + 1, j, p, q, h, hi, hq => by
    by_cases hstep : ∃ next record, p.step costs tol = (next, .ok (some record))
    · obtain ⟨next, record, e⟩ := hstep
      obtain ⟨-, -, path, low, -, -, -, -, pivots, sound⟩ := h.of_step hm ht hpos hc e
      rw [Position.visited, course_of_step e] at hq
      have := Sound.visited keep sound (keep h hi pivots) hq
      rwa [Nat.add_right_comm] at this
    · simp only [not_exists] at hstep
      rw [Position.visited, course_of_no_step hstep] at hq
      cases hq

/-- A run from a sound start visits sound positions. -/
theorem Sound.of_visited (h : p.Sound m n) (hq : (p.visited costs tol budget)[k]? = some q) :
    q.Sound m n :=
  (Sound.visited hm ht hpos hc (I := fun _ _ => True) (fun _ _ _ _ _ _ _ _ _ _ => trivial) h
    (j := 0) trivial hq).1

/-- A run from a sound start succeeds, and it ends at the last position that it visits. -/
theorem Sound.exists_run (h : p.Sound m n) (budget : Nat) :
    ∃ outcome, p.run costs tol budget = .ok outcome ∧
      List.Forall₂ (fun q cost => q.allocation.cost? costs = some cost)
        (p.visited costs tol budget) outcome.costHistory ∧
      outcome.iterations = (course costs tol budget p).length ∧
      (p.visited costs tol budget).getLast? = some outcome.position := by
  have keep : Keeps m n tol fun _ : Position α => True := fun _ _ _ _ _ _ _ _ _ => trivial
  obtain ⟨outcome, erun, -⟩ := h.run keep hm ht hpos hc budget trivial
  obtain ⟨costs', iterations, q, b, offer, hq, eprice, elast⟩ := visited_of_run erun
  have sound := h.of_visited hm ht hpos hc (List.getLast?_eq_getElem?.symm.trans hq)
  obtain ⟨prices, offers, -, -, eprice'⟩ := sound.basis.price hm sound.isTree hc tol
  rw [eprice] at eprice'
  obtain ⟨rfl, -⟩ := Prod.mk.inj (Except.ok.inj eprice')
  exact ⟨outcome, erun, costs', iterations, hq.trans (congrArg some elast.symm)⟩

/-- What is true of a sound start, and after each pivot if it was true before, is true where a run
ends. -/
theorem Sound.of_run {I : Nat → Position α → Prop} {outcome : Outcome α}
    (keep : ∀ ⦃k p next c path low leaving⦄, p.Sound m n → I k p →
      p.Pivots next tol c path low leaving → I (k + 1) next) (h : p.Sound m n) (hi : I 0 p)
    (e : p.run costs tol budget = .ok outcome) :
    outcome.position.Sound m n ∧ I outcome.iterations outcome.position := by
  obtain ⟨outcome', e', -, iterations, hlast⟩ := h.exists_run hm ht hpos hc budget
  rw [e] at e'
  cases e'
  rw [Position.visited, List.getLast?_eq_getElem?, List.length_cons, Nat.add_sub_cancel,
    List.length_map, ← iterations] at hlast
  have := Sound.visited hm ht hpos hc keep h hi hlast
  rwa [Nat.zero_add] at this

end Exact

/-! ## Starts on a forest -/

section Repair

variable {b : Basis} {added : Nat} (e : p.basis.repair = .ok (b, added))
  (full : b.repair = .ok (b, 0))

include e full

theorem improve_of_repair (budget : Nat) :
    improve costs tol budget p = improve costs tol budget { p with basis := b } := by
  cases budget <;> rw [improve, improve, Basis.price_of_repair e full]

/-- A run from a basis that is not yet full is the run from the full one. -/
theorem run_of_repair (budget : Nat) :
    p.run costs tol budget = ({ p with basis := b } : Position α).run costs tol budget := by
  unfold run
  rw [improve_of_repair e full]

theorem step_eq_some_of_repair : p.step costs tol = (next, .ok (some record)) ↔
    ({ p with basis := b } : Position α).step costs tol = (next, .ok (some record)) := by
  rw [step_eq_some_iff, step_eq_some_iff, Basis.price_of_repair e full]

/-- It makes the same pivots. -/
theorem course_of_repair (budget : Nat) :
    course costs tol budget p = course costs tol budget { p with basis := b } := by
  cases budget with
  | zero => rfl
  | succ budget =>
    by_cases hstep : ∃ next record, p.step costs tol = (next, .ok (some record))
    · obtain ⟨next, record, step⟩ := hstep
      rw [course_of_step step, course_of_step ((step_eq_some_of_repair e full).mp step)]
    · simp only [not_exists] at hstep
      rw [course_of_no_step hstep, course_of_no_step fun next record step =>
        hstep next record ((step_eq_some_of_repair e full).mpr step)]

end Repair

/-- Without cells there is no pivot. -/
theorem course_of_grid_eq_nil (hb : p.basis.Fits m n) (empty : Cell.grid m n = []) (budget : Nat) :
    course costs tol budget p = [] := by
  refine course_of_no_step (fun next record step => ?_) budget
  obtain ⟨b, entering, eprice, -⟩ := step_eq_some_iff.mp step
  rw [Basis.price, hb.repair_of_grid_eq_nil empty] at eprice
  obtain ⟨r, erepair, eprice⟩ := bind_eq_ok.mp eprice
  cases erepair
  obtain ⟨prices, -, eprice⟩ := bind_eq_ok.mp eprice
  obtain ⟨offers, eoffers, eprice⟩ := bind_eq_ok.mp eprice
  have best := (Prod.mk.inj (Except.ok.inj eprice)).2
  have vacant := ((Basis.mem_offers (within_eq_ok.mp eoffers)).mp
    (mem_of_bestOffer?_eq_some best)).1
  have grid := (hb.mem_vacant.mp vacant).1
  rw [empty] at grid
  cases grid

end Position

end Freight
