import Freight.Proofs.Check
import Freight.Proofs.Start

/-!
# Balanced tableaux of problems

A problem that passes its check has a cost table with its own entries (`Problem.exists_costTable`),
and a balanced tableau in one of three forms (`Tableau.ofProblem_cases`): its own lines, or one more
column or row without costs that takes up the difference of the totals. In all three the parts fit
together and the quantities are finite, so a greedy start can begin (`Tableau.exists_ofProblem`).
-/

namespace Freight

namespace Problem

variable {α : Type}

theorem length_sourceLabels (p : Problem α) : p.sourceLabels.length = p.supply.length := by
  rw [sourceLabels, List.length_map, List.length_range]

theorem length_destinationLabels (p : Problem α) :
    p.destinationLabels.length = p.demand.length := by
  rw [destinationLabels, List.length_map, List.length_range]

end Problem

variable {α : Type} [Scalar α] {p : Problem α} {tol : α}

theorem Problem.exists_costTable (h : p.check = .ok ()) :
    ∃ costs, p.costTable = .ok costs ∧ costs.Fits p.supply.length p.demand.length ∧
      ∀ i j, j < p.demand.length → costs.get? ⟨i, j⟩ = p.costs[i]?.bind (·[j]?) := by
  have plannable := plannable_of_check h
  obtain ⟨costs, e, fits, get⟩ := Table.exists_ofRows?
    (plannable.rows_length.symm ▸ plannable.rows_pos) plannable.cols_length
  rw [plannable.rows_length] at fits
  refine ⟨costs, ?_, fits, get⟩
  unfold costTable
  rw [h, e]
  rfl

/-- The balanced tableau of a problem: its own lines if the totals agree within the tolerance, and
else one more line without costs on the side that falls short. -/
theorem Tableau.ofProblem_cases (h : p.check = .ok ()) (tol : α) :
    ∃ costs, p.costTable = .ok costs ∧
      ((Scalar.distance (p.totalSupply - p.totalDemand) ≤ tol ∧
          ofProblem p tol = .ok ⟨p.supply, p.demand, costs, p.sourceLabels, p.destinationLabels,
            .balanced⟩) ∨
        (¬ Scalar.distance (p.totalSupply - p.totalDemand) ≤ tol ∧
          0 < p.totalSupply - p.totalDemand ∧
          ofProblem p tol = .ok ⟨p.supply, p.demand ++ [p.totalSupply - p.totalDemand],
            costs.appendColumn 0, p.sourceLabels, p.destinationLabels ++ [dummyDestinationName],
            .dummyDestination (p.totalSupply - p.totalDemand)⟩) ∨
        (¬ Scalar.distance (p.totalSupply - p.totalDemand) ≤ tol ∧
          ¬ 0 < p.totalSupply - p.totalDemand ∧
          ofProblem p tol = .ok ⟨p.supply ++ [-(p.totalSupply - p.totalDemand)], p.demand,
            costs.appendRow 0, p.sourceLabels ++ [dummySourceName], p.destinationLabels,
            .dummySource (-(p.totalSupply - p.totalDemand))⟩)) := by
  obtain ⟨costs, e, -⟩ := Problem.exists_costTable h
  refine ⟨costs, e, ?_⟩
  unfold ofProblem
  simp only [e, bind, Except.bind]
  by_cases near : Scalar.distance (p.totalSupply - p.totalDemand) ≤ tol
  · exact .inl ⟨near, if_pos near⟩
  · rw [if_neg near]
    by_cases surplus : 0 < p.totalSupply - p.totalDemand
    · exact .inr (.inl ⟨near, surplus, if_pos surplus⟩)
    · exact .inr (.inr ⟨near, surplus, if_neg surplus⟩)

/-- Lines and costs of a balanced tableau: cells of the problem keep their cost, and cells of the
added line cost nothing. -/
theorem Tableau.costs_of_ofProblem {t : Tableau α} {costs : Table α} (h : p.check = .ok ())
    (e : ofProblem p tol = .ok t) (ec : p.costTable = .ok costs) {c : Cell}
    (hc : c ∈ Cell.grid t.supply.length t.demand.length) :
    (t.isDummy c = true ∧ c ∉ Cell.grid p.supply.length p.demand.length ∧
        t.costs.entry c = 0) ∨
      (t.isDummy c = false ∧ c ∈ Cell.grid p.supply.length p.demand.length ∧
        t.costs.entry c = costs.entry c) := by
  obtain ⟨costs', ec', fits, -⟩ := Problem.exists_costTable h
  rw [ec] at ec'
  cases ec'
  obtain ⟨hr, hcol⟩ := Cell.mem_grid.mp hc
  obtain ⟨costs', ec', ⟨-, et⟩ | ⟨-, -, et⟩ | ⟨-, -, et⟩⟩ := ofProblem_cases h tol <;>
    rw [ec] at ec' <;> cases ec' <;> rw [et] at e <;> cases e
  · exact .inr ⟨rfl, hc, rfl⟩
  · simp only [List.length_append, List.length_singleton] at hcol
    have get := (fits.appendColumn 0).2 c hr hcol
    by_cases last : c.col = p.demand.length
    · refine .inl ⟨by simp [isDummy, cols, last], by simp [last], ?_⟩
      rw [Table.entry, get, if_pos last]
      rfl
    · refine .inr ⟨by simp [isDummy, cols, last], Cell.mem_grid.mpr ⟨hr, by omega⟩, ?_⟩
      rw [Table.entry, get, if_neg last]
      rfl
  · simp only [List.length_append, List.length_singleton] at hr
    have get := fits.get?_appendRow 0 hr hcol
    by_cases last : c.row = p.supply.length
    · refine .inl ⟨by simp [isDummy, rows, last], by simp [last], ?_⟩
      rw [Table.entry, get, if_pos last]
      rfl
    · refine .inr ⟨by simp [isDummy, rows, last], Cell.mem_grid.mpr ⟨by omega, hcol⟩, ?_⟩
      rw [Table.entry, get, if_neg last]
      rfl

/-- What is true of all costs of a problem and of zero is true of the costs of its balanced
tableau. -/
theorem Tableau.forall_costs_of_ofProblem {t : Tableau α} {P : α → Prop} (h : p.check = .ok ())
    (hc : ∀ row ∈ p.costs, ∀ x ∈ row, P x) (zero : P 0) (e : ofProblem p tol = .ok t) :
    ∀ c ∈ Cell.grid t.supply.length t.demand.length, P (t.costs.entry c) := by
  obtain ⟨costs, ec, fits, get⟩ := Problem.exists_costTable h
  intro c hg
  rcases costs_of_ofProblem h e ec hg with ⟨-, -, free⟩ | ⟨-, hp, same⟩
  · exact free ▸ zero
  · rw [same]
    have read := get c.row c.col (Cell.mem_grid.mp hp).2
    rw [fits.get?_eq hp] at read
    obtain ⟨row, hrow, hx⟩ := Option.bind_eq_some_iff.mp read.symm
    exact hc row (List.mem_of_getElem? hrow) _ (List.mem_of_getElem? hx)

theorem Remaining.sound_of_finite {supply demand : List α}
    (hs : ∀ x ∈ supply, Scalar.isFinite x = true) (hd : ∀ x ∈ demand, Scalar.isFinite x = true) :
    (Remaining.mk supply demand).Sound supply.length demand.length :=
  ⟨rfl, rfl, forall_left? hs hd⟩

/-- A problem that passes its check has a balanced tableau from which a greedy start can begin. -/
theorem Tableau.exists_ofProblem [Scalar.Exact α] (h : p.check = .ok ()) (tol : α) :
    ∃ t, ofProblem p tol = .ok t ∧ t.Fits t.supply.length t.demand.length ∧
      (Remaining.mk t.supply t.demand).Sound t.supply.length t.demand.length := by
  have plannable := Problem.plannable_of_check h
  obtain ⟨costs', e', fits, -⟩ := Problem.exists_costTable h
  have supplyFinite : ∀ x ∈ p.supply, Scalar.isFinite x = true := fun x hx =>
    Scalar.isFinite_of_isAmount (plannable.supply x hx)
  have demandFinite : ∀ x ∈ p.demand, Scalar.isFinite x = true := fun x hx =>
    Scalar.isFinite_of_isAmount (plannable.demand x hx)
  have surplusFinite : Scalar.isFinite (p.totalSupply - p.totalDemand) = true :=
    Scalar.Exact.isFinite_sub plannable.totalSupply plannable.totalDemand
  obtain ⟨costs, e, ⟨-, et⟩ | ⟨-, -, et⟩ | ⟨-, -, et⟩⟩ := ofProblem_cases h tol <;>
    rw [e] at e' <;> cases e' <;> refine ⟨_, et, ?_, ?_⟩
  · exact ⟨plannable.rows_pos, plannable.cols_pos, rfl, rfl, fits, p.length_sourceLabels,
      p.length_destinationLabels⟩
  · exact Remaining.sound_of_finite supplyFinite demandFinite
  · refine ⟨plannable.rows_pos, ?_, rfl, rfl, ?_, p.length_sourceLabels, ?_⟩
    · simp
    · simpa using (fits.appendColumn 0).1
    · simp [p.length_destinationLabels]
  · refine Remaining.sound_of_finite supplyFinite fun x hx => ?_
    rcases List.mem_append.mp hx with hx | hx
    · exact demandFinite x hx
    · exact List.mem_singleton.mp hx ▸ surplusFinite
  · refine ⟨?_, plannable.cols_pos, rfl, rfl, ?_, ?_, p.length_destinationLabels⟩
    · simp
    · simpa using fits.appendRow 0
    · simp [p.length_sourceLabels]
  · refine Remaining.sound_of_finite (fun x hx => ?_) demandFinite
    rcases List.mem_append.mp hx with hx | hx
    · exact supplyFinite x hx
    · exact List.mem_singleton.mp hx ▸ Scalar.Exact.isFinite_neg surplusFinite

end Freight
