import Freight.Proofs.Completion
import Freight.Proofs.Descent
import Freight.Proofs.OptimalityTest

/-!
# What pricing finds

Pricing stops at the lowest offer, the optimality test at the first vacant cell that fails. Both ask
the same of the vacant cells: no offer is made exactly if each of them costs at least minus the
tolerance (`bestOffer?_eq_none_iff`).

Otherwise the offers are gone through a second time, for the first one that comes within the tolerance
of the lowest (`exists_of_bestOffer?_eq_some`). It need not be the lowest, and it may lie above minus
the tolerance, but it is negative. The offers come in the order of their cells, so it is the first such
cell in row-major order (`Basis.Fits.first_of_offers`).

Main statement: pricing a forest (`Basis.price_decides`).
-/

namespace Freight

variable {m n : Nat} {b : Basis} {costs : Table Rat} {p : Potentials Rat} {tol low : Rat}
  {offers before after : List (Entering Rat)} {o : Entering Rat} {c : Cell}

/-! ## The best offer -/

/-- No offer is worth using exactly if none lies below minus the tolerance. -/
theorem bestOffer?_eq_none_iff (hpos : 0 ≤ tol) :
    bestOffer? tol offers = none ↔ ∀ o ∈ offers, -tol ≤ o.opportunityCost := by
  constructor
  · intro h
    exact neg_le_of_bestOffer?_eq_none rfl hpos (fun _ _ => rfl) h
  · intro h
    unfold bestOffer?
    split
    · rfl
    · next low e =>
      have ne : offers.map Entering.opportunityCost ≠ [] := by
        intro empty
        rw [empty] at e
        cases e
      obtain ⟨low', e', hlow, -⟩ := Scalar.exists_minimum? (fun _ _ => rfl) ne
      rw [e] at e'
      cases e'
      obtain ⟨o, ho, rfl⟩ := List.mem_map.mp hlow
      rw [if_pos (h o ho)]

/-- The best offer is the first one within the tolerance of the lowest, which lies below minus the
tolerance. -/
theorem exists_of_bestOffer?_eq_some (h : bestOffer? tol offers = some o) :
    ∃ low before after, (∃ o ∈ offers, o.opportunityCost = low) ∧
      (∀ o ∈ offers, low ≤ o.opportunityCost) ∧ low < -tol ∧ offers = before ++ o :: after ∧
      o.opportunityCost ≤ low + tol ∧ ∀ a ∈ before, low + tol < a.opportunityCost := by
  have ne : offers.map Entering.opportunityCost ≠ [] :=
    List.map_eq_nil_iff.not.mpr (List.ne_nil_of_mem (mem_of_bestOffer?_eq_some h))
  obtain ⟨low, e, hlow, least⟩ := Scalar.exists_minimum? (fun _ _ => rfl) ne
  unfold bestOffer? at h
  rw [e] at h
  dsimp only at h
  split at h
  · cases h
  · next below =>
    obtain ⟨near, before, after, split, far⟩ := List.find?_eq_some_iff_append.mp h
    refine ⟨low, before, after, List.mem_map.mp hlow,
      fun o ho => least _ (List.mem_map_of_mem ho), not_le.mp below, split,
      of_decide_eq_true near, fun a ha => ?_⟩
    have := far a ha
    simpa using this

namespace Basis

/-- Pricing goes through the vacant cells in their order. -/
theorem map_cell_offers (h : b.offers? costs p = some offers) :
    offers.map Entering.cell = b.vacant := by
  have all := forall₂_of_mapM h
  have same : List.Forall₂ (fun c o => c = Entering.cell o) b.vacant offers := by
    refine all.imp fun c o e => ?_
    obtain ⟨d, -, rfl⟩ := Option.map_eq_some_iff.mp e
    rfl
  rw [← List.forall₂_map_right_iff, List.forall₂_eq_eq_eq] at same
  exact same.symm

namespace Fits

theorem pairwise_vacant (h : b.Fits m n) : b.vacant.Pairwise fun a b => a.before b = true := by
  rw [vacant, h.marks_cells]
  exact (Cell.pairwise_grid m n).filter _

/-- The vacant cells before that of an offer have their offers before it. -/
theorem first_of_offers (h : b.Fits m n) (e : b.offers? costs p = some (before ++ o :: after))
    (hc : c ∈ b.vacant) (first : c.before o.cell = true) : ∃ a ∈ before, a.cell = c := by
  have sorted := h.pairwise_vacant
  rw [← map_cell_offers e, List.map_append, List.map_cons] at hc sorted
  have hm : c ∈ before.map Entering.cell := by
    rw [← Cell.filter_before sorted]
    exact List.mem_filter.mpr ⟨hc, first⟩
  exact List.mem_map.mp hm

end Fits

/-! ## Pricing a forest -/

/-- The opportunity costs of the vacant cells of a basis. -/
def opportunityCosts (b : Basis) (costs : Table Rat) (p : Potentials Rat) : Set Rat :=
  {d | ∃ c ∈ b.vacant, p.opportunityCost? costs c = some d}

/-- A vacant cell worth using, at its opportunity cost: in row-major order the first one within the
tolerance of the lowest, and cheaper than the basic cells. -/
structure Offered (b : Basis) (costs : Table Rat) (p : Potentials Rat) (tol : Rat)
    (o : Entering Rat) : Prop where
  vacant : o.cell ∈ b.vacant
  opportunityCost_eq : p.opportunityCost? costs o.cell = some o.opportunityCost
  opportunityCost_neg : o.opportunityCost < 0
  first : ∃ low, IsLeast (b.opportunityCosts costs p) low ∧ o.opportunityCost ≤ low + tol ∧
    ∀ c ∈ b.vacant, c.before o.cell = true → ∀ d, p.opportunityCost? costs c = some d → low + tol < d

theorem Fits.offered (h : b.Fits m n) (e : b.offers? costs p = some offers)
    (best : bestOffer? tol offers = some o) : b.Offered costs p tol o := by
  have mem := fun o => mem_offers (o := o) e
  obtain ⟨low, before, after, ⟨o', ho', rfl⟩, least, -, rfl, near, far⟩ :=
    exists_of_bestOffer?_eq_some best
  obtain ⟨vacant, cost⟩ := (mem o).mp (by simp)
  refine ⟨vacant, cost, neg_of_bestOffer?_eq_some best, o'.opportunityCost, ⟨?_, ?_⟩, near, ?_⟩
  · obtain ⟨vacant', cost'⟩ := (mem o').mp ho'
    exact ⟨o'.cell, vacant', cost'⟩
  · rintro d ⟨c, hc, hd⟩
    exact least ⟨c, d⟩ ((mem ⟨c, d⟩).mpr ⟨hc, hd⟩)
  · intro c hc first d hd
    obtain ⟨a, ha, rfl⟩ := h.first_of_offers e hc first
    obtain ⟨-, cost'⟩ := (mem a).mp (List.mem_append_left _ ha)
    rw [hd] at cost'
    cases cost'
    exact far a ha

/-- There is no offer exactly if no opportunity cost lies below minus the tolerance. -/
theorem bestOffer?_eq_none_iff_costs (e : b.offers? costs p = some offers) (hpos : 0 ≤ tol) :
    bestOffer? tol offers = none ↔ ∀ d ∈ b.opportunityCosts costs p, -tol ≤ d := by
  rw [bestOffer?_eq_none_iff hpos]
  constructor
  · rintro h d ⟨c, hcell, hd⟩
    exact h ⟨c, d⟩ ((mem_offers e).mpr ⟨hcell, hd⟩)
  · intro h o ho
    obtain ⟨vacant, hd⟩ := (mem_offers e).mp ho
    exact h _ ⟨o.cell, vacant, hd⟩

/-- On quantities that exceed the tolerance on basic cells only, the optimality test asks the same of
the opportunity costs. -/
theorem Fits.isOptimal?_iff_costs (h : b.Fits m n) (hc : costs.Fits m n)
    (e : Potentials.ofBasis b costs = .ok p) {t : Table Rat} (ht : t.Fits m n)
    (idle : ∀ c ∈ b.vacant, ∀ q, t.get? c = some q → q ≤ tol) :
    t.isOptimal? costs b tol = .ok true ↔ ∀ d ∈ b.opportunityCosts costs p, -tol ≤ d := by
  rw [Table.isOptimal?_eq_ok_true_iff]
  constructor
  · rintro ⟨p', e', passes⟩ d ⟨c, hcell, hd⟩
    rw [e] at e'
    cases e'
    obtain ⟨-, d', -, -, hd', dear⟩ := passes c hcell
    rw [hd] at hd'
    cases hd'
    exact not_lt.mp dear
  · intro dear
    refine ⟨p, e, fun c hcell => ?_⟩
    have grid := (h.mem_vacant.mp hcell).1
    obtain ⟨q, hq⟩ := ht.exists_get? grid
    obtain ⟨d, hd⟩ := (h.prices_of_ofBasis e).1.exists_opportunityCost? hc grid
    exact ⟨q, d, hq, not_lt.mpr (idle c hcell q hq), hd, not_lt.mpr (dear d ⟨c, hcell, hd⟩)⟩

/-- Pricing a forest over the rationals. It succeeds and leaves the basis filled up to a spanning
tree. There is no offer exactly if no vacant cell of the tree has an opportunity cost below minus the
tolerance; an offer is the first vacant cell within the tolerance of the lowest, with its own
opportunity cost, and that is negative. On quantities that exceed the tolerance on basic cells only,
the optimality test passes exactly if there is no offer. -/
theorem price_decides {m n : Nat} (b : Basis) (costs : Table Rat) (tol : Rat) (hb : b.Fits m n)
    (hm : 0 < m) (hn : 0 < n) (forest : b.graph.IsAcyclic) (hc : costs.Fits m n) (hpos : 0 ≤ tol) :
    ∃ tree added p offer, b.repair = .ok (tree, added) ∧ writeRepair.run b = .ok added tree ∧
      tree.isSpanningTree = true ∧ tree.graph.IsTree ∧ Potentials.ofBasis tree costs = .ok p ∧
      (∀ c ∈ tree.vacant, ∃ d, p.opportunityCost? costs c = some d) ∧
      b.price costs tol = .ok (tree, offer) ∧
      (offer = none ↔ ∀ d ∈ tree.opportunityCosts costs p, -tol ≤ d) ∧
      (∀ o, offer = some o → tree.Offered costs p tol o) ∧
      ∀ allocation : Table Rat, allocation.Fits m n →
        (∀ c ∈ tree.vacant, ∀ q, allocation.get? c = some q → q ≤ tol) →
        (offer = none ↔ allocation.isOptimal? costs tree tol = .ok true) := by
  have lines : 0 < m + n := Nat.add_pos_left hm n
  obtain ⟨tree, added, e, ht, isTree, -⟩ :=
    hb.exists_repair hm hn (hb.graph_isAcyclic_iff.mp forest)
  obtain ⟨p, offers, ep, eo, eprice⟩ := ht.price hm isTree hc tol
  rw [← price_of_repair e (ht.repair_of_isTree hm isTree)] at eprice
  have none_iff := bestOffer?_eq_none_iff_costs eo hpos
  refine ⟨tree, added, p, bestOffer? tol offers, e, by rw [run_writeRepair, e],
    (ht.isSpanningTree_iff lines).mpr isTree, (ht.graph_isTree_iff lines).mpr isTree, ep,
    fun c hcell => ?_, eprice, none_iff, fun o best => ht.offered eo best,
    fun allocation ha idle => ?_⟩
  · exact (ht.prices_of_ofBasis ep).1.exists_opportunityCost? hc (ht.mem_vacant.mp hcell).1
  · rw [none_iff, ht.isOptimal?_iff_costs hc ep ha idle]

/-- Three cells are filled up to a tree. At a tolerance of one the offer comes from the second row,
although a cell in the third row costs less, and an empty shipment does not pass the test. -/
theorem price_decides_nearLowest :
    let gaps : Basis := ⟨⟨3, 3, #[true, false, true, false, true, false, false, false, false]⟩, 3⟩
    let tree : Basis := ⟨⟨3, 3, #[true, true, true, false, true, false, true, false, false]⟩, 5⟩
    let costs : Table Rat := ⟨3, 3, #[1, 2, 3, 4, 5, 3, 4, 1, 6]⟩
    let idle : Table Rat := .fill 3 3 0
    gaps.Fits 3 3 ∧ 0 < 3 ∧ gaps.graph.IsAcyclic ∧ costs.Fits 3 3 ∧ (0 : Rat) ≤ 1 ∧
      idle.Fits 3 3 ∧ (∀ c ∈ tree.vacant, ∀ q, idle.get? c = some q → q ≤ 1) ∧
      ∃ p, gaps.price costs 1 = .ok (tree, some ⟨⟨1, 2⟩, -3⟩) ∧
        tree.Offered costs p 1 ⟨⟨1, 2⟩, -3⟩ ∧ -4 ∈ tree.opportunityCosts costs p ∧
        idle.isOptimal? costs tree 1 ≠ .ok true := by
  intro gaps tree costs idle
  have hb : gaps.Fits 3 3 := ⟨⟨rfl, rfl⟩, rfl, rfl⟩
  have hc : costs.Fits 3 3 := ⟨rfl, rfl, rfl⟩
  have hidle : idle.Fits 3 3 := ⟨rfl, rfl, rfl⟩
  have zero : ∀ c ∈ tree.vacant, idle.get? c = some 0 := by decide +kernel
  have empty : ∀ c ∈ tree.vacant, ∀ q, idle.get? c = some q → q ≤ 1 := by
    intro c hcell q hq
    rw [zero c hcell] at hq
    cases hq
    decide +kernel
  have filled : gaps.repair = .ok (tree, 2) := by decide +kernel
  have acyclic : gaps.graph.IsAcyclic :=
    hb.graph_isAcyclic_iff.mpr (hb.repair_isOk_iff.mp ⟨_, filled⟩)
  obtain ⟨tree', added, p, offer, e, -, -, -, ep, -, eprice, -, offered, test⟩ :=
    price_decides gaps costs 1 hb (by decide) (by decide) acyclic hc (by decide +kernel)
  rw [filled] at e
  cases e
  have values : (gaps.price costs 1).toOption.map
      (fun r => r.2.map fun o => (o.cell, o.opportunityCost)) = some (some (⟨1, 2⟩, -3)) := by
    decide +kernel
  rw [eprice] at values
  obtain ⟨⟨cell, d⟩, rfl, data⟩ := Option.map_eq_some_iff.mp (Option.some.inj values)
  cases data
  have cost : (Potentials.ofBasis tree costs).toOption.map
      (fun p => p.opportunityCost? costs ⟨2, 1⟩) = some (some (-4)) := by decide +kernel
  rw [ep] at cost
  refine ⟨hb, by decide, acyclic, hc, by decide +kernel, hidle, empty, p, eprice, offered _ rfl,
    ⟨⟨2, 1⟩, by decide, Option.some.inj cost⟩, fun passes => ?_⟩
  cases (test idle hidle empty).mpr passes

end Basis

end Freight
