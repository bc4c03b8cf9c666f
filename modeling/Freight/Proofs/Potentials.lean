import Freight.Pivot
import Freight.Proofs.Scalar
import Freight.Proofs.Search

/-!
# Potentials of a basis

Settling values along the steps of a search stops only at a step that is not fresh
(`Sized.settle_cases`), and it leaves a value alone once it is settled (`settled_of_settle`). Potentials
are only given out when the search has reached every line, so they price every marked cell, whatever
the basis (`Fits.prices_of_ofBasis`).

A spanning tree has potentials (`Fits.exists_potentials`), and pricing it never fails: it returns the
basis as it stands and the best of the offers of the vacant cells (`Fits.price`). When there is no
offer, no vacant cell costs less than minus the tolerance (`neg_le_of_bestOffer?_eq_none`).
-/

namespace Freight

namespace Potentials

section Values

variable {α : Type} {m n : Nat} {p q : Potentials α} {k l : Line}

/-- The potentials have a value for each line of a tableau. -/
structure Sized (p : Potentials α) (m n : Nat) : Prop where
  rows_size : p.rows.size = m
  columns_size : p.columns.size = n

namespace Sized

theorem exists_value? (h : p.Sized m n) (hl : l.Within m n) : ∃ x, p.value? l = some x := by
  cases l with
  | row i =>
    have hi : i < p.rows.size := h.rows_size.symm ▸ hl
    exact ⟨p.rows[i], Array.getElem?_eq_getElem hi⟩
  | column j =>
    have hj : j < p.columns.size := h.columns_size.symm ▸ hl
    exact ⟨p.columns[j], Array.getElem?_eq_getElem hj⟩

/-- A value can be given to every line of the tableau. -/
theorem exists_assign? (h : p.Sized m n) (hl : l.Within m n) (x : α) :
    ∃ q, p.assign? x l = some q := by
  cases l with
  | row i =>
    have hi : i < p.rows.size := h.rows_size.symm ▸ hl
    exact ⟨_, if_pos hi⟩
  | column j =>
    have hj : j < p.columns.size := h.columns_size.symm ▸ hl
    exact ⟨_, if_pos hj⟩

theorem of_assign? (h : p.Sized m n) {x : α} (e : p.assign? x l = some q) : q.Sized m n := by
  cases l <;> rw [assign?] at e <;> split at e <;> cases e
  · exact ⟨Array.size_setIfInBounds.trans h.rows_size, h.columns_size⟩
  · exact ⟨h.rows_size, Array.size_setIfInBounds.trans h.columns_size⟩

end Sized

/-- A new value for one line; the other lines keep theirs. -/
theorem value?_of_assign? {x : α} (h : p.assign? x l = some q) :
    ∀ k, q.value? k = if k = l then some x else p.value? k := by
  intro k
  cases l with
  | row i =>
    rw [assign?] at h
    split at h
    · next hi =>
      cases h
      cases k with
      | row i' =>
        simp only [value?, Array.getElem?_setIfInBounds, Line.row.injEq, hi, if_true,
          eq_comm (a := i')]
      | column j => simp [value?]
    · cases h
  | column j =>
    rw [assign?] at h
    split at h
    · next hj =>
      cases h
      cases k with
      | row i => simp [value?]
      | column j' =>
        simp only [value?, Array.getElem?_setIfInBounds, Line.column.injEq, hj, if_true,
          eq_comm (a := j')]
    · cases h

end Values

variable {α : Type} [Scalar α] {m n : Nat} {costs : Table α} {b : Basis} {p q : Potentials α}
  {c : Cell} {s : Step}

theorem sized_start (m n : Nat) : (start m n : Potentials α).Sized m n :=
  ⟨Array.size_replicate, Array.size_replicate⟩

theorem eq_zero_of_value?_start {l : Line} {x : α}
    (h : (start m n : Potentials α).value? l = some x) : x = 0 := by
  cases l <;> simp only [start, value?, Array.getElem?_replicate] at h <;> split at h <;> cases h <;>
    rfl

theorem value?_start (hm : 0 < m) : (start m n : Potentials α).value? (.row 0) = some 0 := by
  simp [start, value?, hm]

/-! ## Settling -/

/-- The value of the line that a step leads to is what the cell's cost leaves over. -/
def Settled (p : Potentials α) (costs : Table α) (s : Step) : Prop :=
  ∃ x u, costs.get? s.cell = some x ∧ p.value? s.source = some u ∧
    p.value? s.target = some (x - u)

/-- What settling along one more step takes. -/
theorem settle_cons_eq_ok {steps : List Step} (h : settle costs (s :: steps) p = .ok q) :
    s.fresh = true ∧ ∃ x u p', costs.get? s.cell = some x ∧ p.value? s.source = some u ∧
      p.assign? (x - u) s.target = some p' ∧ settle costs steps p' = .ok q := by
  unfold settle at h
  split at h
  · next fresh =>
    cases hu : p.value? s.source with
    | none =>
      rw [hu] at h
      cases h
    | some u =>
      cases hx : costs.get? s.cell with
      | none =>
        rw [hu, hx] at h
        cases h
      | some x =>
        simp only [hu, hx, within, bind, Except.bind] at h
        cases hp : p.assign? (x - u) s.target with
        | none =>
          rw [hp] at h
          cases h
        | some p' =>
          rw [hp] at h
          exact ⟨fresh, x, u, p', rfl, rfl, hp, h⟩
  · cases h

/-- Settling along the steps of a growing tree: the lines known before keep their values, and every
step is settled in the end. -/
theorem settled_of_settle {steps : List Step} {known : List Line} (hg : b.Grows known steps)
    (h : settle costs steps p = .ok q) :
    (∀ k ∈ known, q.value? k = p.value? k) ∧ ∀ s ∈ steps, q.Settled costs s := by
  induction steps generalizing known p with
  | nil =>
    cases h
    exact ⟨fun _ _ => rfl, fun s hs => absurd hs List.not_mem_nil⟩
  | cons s steps ih =>
    obtain ⟨⟨source, target, -, -⟩, hg⟩ := hg
    obtain ⟨-, x, u, p', hx, hu, e, h⟩ := settle_cons_eq_ok h
    obtain ⟨keep, all⟩ := ih hg h
    have value := value?_of_assign? e
    have keep' : ∀ k ∈ known, q.value? k = p.value? k := fun k hk => by
      rw [keep k (List.mem_append_left _ hk), value, if_neg (ne_of_mem_of_not_mem hk target)]
    refine ⟨keep', List.forall_mem_cons.mpr ⟨⟨x, u, hx, (keep' _ source).trans hu, ?_⟩, all⟩⟩
    rw [keep _ (List.mem_append_right _ List.mem_cons_self), value, if_pos rfl]

theorem Sized.of_settle {steps : List Step} (hp : p.Sized m n)
    (h : Potentials.settle costs steps p = .ok q) : q.Sized m n := by
  induction steps generalizing p with
  | nil =>
    cases h
    exact hp
  | cons s steps ih =>
    obtain ⟨-, x, u, p', -, -, e, h⟩ := settle_cons_eq_ok h
    exact ih (hp.of_assign? e) h

/-- Settling along the steps of a search, whose fresh ones grow a tree: it stops at the first step that
is not fresh, and succeeds if there is none. -/
theorem Sized.settle_cases (hb : b.Fits m n) (hc : costs.Fits m n) {steps : List Step}
    {known : List Line} (hp : p.Sized m n) (hg : b.Grows known (steps.filter Step.fresh))
    (hk : ∀ k ∈ known, k.Within m n) :
    (∃ q, settle costs steps p = .ok q ∧ ∀ s ∈ steps, s.fresh = true) ∨
      ∃ s ∈ steps, s.fresh = false ∧ settle costs steps p = .error (.cyclic s.cell) := by
  induction steps generalizing known p with
  | nil => exact .inl ⟨p, rfl, fun s hs => absurd hs List.not_mem_nil⟩
  | cons s rest ih =>
    rw [settle]
    by_cases fresh : s.fresh = true
    · rw [List.filter_cons_of_pos fresh] at hg
      obtain ⟨⟨source, -, marked, -⟩, hg⟩ := hg
      have target : s.target.Within m n := .crossing (hb.within marked).1 (hb.within marked).2 _
      obtain ⟨u, hu⟩ := hp.exists_value? (hk _ source)
      obtain ⟨x, hx⟩ := hc.exists_get? (hb.mem_grid marked)
      obtain ⟨p₁, e₁⟩ := hp.exists_assign? target (x - u)
      have hk' : ∀ k ∈ known ++ [s.target], k.Within m n := by
        intro k hm
        rcases List.mem_append.mp hm with hm | hm
        · exact hk k hm
        · exact List.mem_singleton.mp hm ▸ target
      rw [if_pos fresh, hu, hx]
      simp only [within, bind, Except.bind, e₁]
      rcases ih (hp.of_assign? e₁) hg hk' with ⟨q, e, all⟩ | ⟨r, hr, stale, e⟩
      · exact .inl ⟨q, e, List.forall_mem_cons.mpr ⟨fresh, all⟩⟩
      · exact .inr ⟨r, List.mem_cons_of_mem s hr, stale, e⟩
    · rw [if_neg fresh]
      exact .inr ⟨s, List.mem_cons_self, Bool.eq_false_iff.mpr fresh, rfl⟩

/-- Only fresh steps are settled. -/
theorem fresh_of_settle {steps : List Step} (h : settle costs steps p = .ok q) :
    ∀ s ∈ steps, s.fresh = true := by
  induction steps generalizing p with
  | nil => exact fun s hs => absurd hs List.not_mem_nil
  | cons r steps ih =>
    obtain ⟨fresh, -, -, p', -, -, -, e⟩ := settle_cons_eq_ok h
    intro s hs
    rcases List.mem_cons.mp hs with rfl | hs
    · exact fresh
    · exact ih e s hs

/-- Every value is finite. -/
def Finite (p : Potentials α) : Prop :=
  ∀ l x, p.value? l = some x → Scalar.isFinite x = true

/-- Finite costs settle finite values. -/
theorem Finite.settle [Scalar.Exact α] {steps : List Step} (hp : p.Finite)
    (hf : ∀ s ∈ steps, Scalar.isFinite (costs.entry s.cell) = true)
    (h : settle costs steps p = .ok q) : q.Finite := by
  induction steps generalizing p with
  | nil =>
    cases h
    exact hp
  | cons s steps ih =>
    obtain ⟨-, x, u, p', hx, hu, e, h⟩ := settle_cons_eq_ok h
    refine ih (fun l y hy => ?_) (fun r hr => hf r (List.mem_cons_of_mem s hr)) h
    rw [value?_of_assign? e l] at hy
    split at hy
    · cases hy
      have cost := hf s List.mem_cons_self
      rw [Table.entry, hx] at cost
      exact Scalar.Exact.isFinite_sub cost (hp _ u hu)
    · exact hp l y hy

/-! ## Potentials of a basis -/

/-- The values of a cell's row and column are settled by its cost, one from the other. -/
def Prices (p : Potentials α) (costs : Table α) (c : Cell) : Prop :=
  ∃ x u v, costs.get? c = some x ∧ p.value? (.row c.row) = some u ∧
    p.value? (.column c.col) = some v ∧ (v = x - u ∨ u = x - v)

theorem Settled.prices (h : p.Settled costs s) (ht : s.source.Through s.cell) :
    p.Prices costs s.cell := by
  obtain ⟨x, u, hx, hu, hv⟩ := h
  unfold Step.target at hv
  obtain e | e := ht.eq_or
  · rw [e] at hu hv
    exact ⟨x, u, x - u, hx, hu, hv, .inl rfl⟩
  · rw [e] at hu hv
    exact ⟨x, x - u, u, hx, hv, hu, .inr rfl⟩

end Potentials

/-! ## Pricing a spanning tree -/

section Pricing

variable {α : Type} [Scalar α] {m n : Nat} {costs : Table α} {b : Basis} {tol : α}
  {offers : List (Entering α)} {o : Entering α}

/-- What an opportunity cost is made of. -/
theorem Potentials.opportunityCost?_eq_some {p : Potentials α} {c : Cell} {d : α}
    (h : p.opportunityCost? costs c = some d) : ∃ x u v, costs.get? c = some x ∧
      p.value? (.row c.row) = some u ∧ p.value? (.column c.col) = some v ∧ d = x - u - v := by
  obtain ⟨x, hx, h⟩ := Option.bind_eq_some_iff.mp h
  obtain ⟨u, hu, h⟩ := Option.bind_eq_some_iff.mp h
  obtain ⟨v, hv, h⟩ := Option.bind_eq_some_iff.mp h
  exact ⟨x, u, v, hx, hu, hv, (Option.some.inj h).symm⟩

theorem Potentials.Finite.opportunityCost? [Scalar.Exact α] {p : Potentials α} {c : Cell} {d : α}
    (hp : p.Finite) (hf : Scalar.isFinite (costs.entry c) = true)
    (h : p.opportunityCost? costs c = some d) : Scalar.isFinite d = true := by
  obtain ⟨x, u, v, hx, hu, hv, rfl⟩ := opportunityCost?_eq_some h
  rw [Table.entry, hx] at hf
  exact Scalar.Exact.isFinite_sub (Scalar.Exact.isFinite_sub hf (hp _ u hu)) (hp _ v hv)

/-- Every cell of a tableau has an opportunity cost. -/
theorem Potentials.Sized.exists_opportunityCost? {p : Potentials α} (hp : p.Sized m n)
    (hc : costs.Fits m n) {c : Cell} (hg : c ∈ Cell.grid m n) :
    ∃ d, p.opportunityCost? costs c = some d := by
  obtain ⟨x, hx⟩ := hc.exists_get? hg
  obtain ⟨u, hu⟩ := hp.exists_value? (Line.row_within hg)
  obtain ⟨v, hv⟩ := hp.exists_value? (Line.column_within hg)
  exact ⟨x - u - v, by simp [Potentials.opportunityCost?, hx, hu, hv]⟩

namespace Basis.Fits

/-- The search from row zero settles the potentials of a basis, and reaches every line. -/
theorem settle_of_ofBasis (h : b.Fits m n) {p : Potentials α}
    (e : Potentials.ofBasis b costs = .ok p) :
    0 < m ∧ Potentials.settle costs (b.search (.row 0)) (.start m n) = .ok p ∧
      m + n ≤ (b.reached (.row 0)).length := by
  unfold Potentials.ofBasis at e
  rw [h.rows_eq, h.cols_eq, h.lines_eq] at e
  split at e
  · cases e
  split at e
  · cases e
  next hm =>
  dsimp only at e
  cases es : Potentials.settle costs (b.search (.row 0)) (.start m n) with
  | error cause =>
    rw [es] at e
    cases e
  | ok q =>
    simp only [es, bind, Except.bind] at e
    split at e
    · cases e
    · next full =>
      cases e
      rw [reached, List.length_cons, List.length_map]
      exact ⟨Nat.pos_of_ne_zero hm, rfl, Nat.not_lt.mp full⟩

/-- The potentials of a basis: row zero has the value zero, and every marked cell is priced. -/
theorem prices_of_ofBasis (h : b.Fits m n) {p : Potentials α}
    (e : Potentials.ofBasis b costs = .ok p) :
    p.Sized m n ∧ p.value? (.row 0) = some 0 ∧ ∀ c ∈ b.cells, p.Prices costs c := by
  obtain ⟨hm, es, full⟩ := h.settle_of_ofBasis e
  have start : (Line.row 0).Within m n := hm
  have grows := h.grows_search start
  rw [List.filter_eq_self.mpr (Potentials.fresh_of_settle es)] at grows
  obtain ⟨keep, settled⟩ := Potentials.settled_of_settle grows es
  refine ⟨(Potentials.sized_start m n).of_settle es,
    by rw [keep _ List.mem_cons_self, Potentials.value?_start hm], fun c hcell => ?_⟩
  have connected := (h.length_reached_iff start).mp full (.row c.row) (h.within hcell).1
  obtain ⟨s, hs, rfl⟩ := h.exists_step start hcell connected
  exact (settled s hs).prices (grows.marked s hs).2

/-- Finite costs have finite potentials. -/
theorem finite_of_ofBasis [Scalar.Exact α] (h : b.Fits m n)
    (hf : ∀ c ∈ Cell.grid m n, Scalar.isFinite (costs.entry c) = true)
    {p : Potentials α} (e : Potentials.ofBasis b costs = .ok p) : p.Finite := by
  obtain ⟨hm, es, -⟩ := h.settle_of_ofBasis e
  have first : (Line.row 0).Within m n := hm
  have marked := (h.frontier_search first).marked
  have start : (Potentials.start m n : Potentials α).Finite := fun l x hx =>
    Potentials.eq_zero_of_value?_start hx ▸ Scalar.Lawful.isFinite_zero
  exact start.settle (fun s hs => hf s.cell (h.mem_grid (marked s hs).1)) es

/-- A basis of another size than a tree has is refused for that. -/
theorem ofBasis_of_size_ne (h : b.Fits m n) (ne : b.size ≠ m + n - 1) :
    Potentials.ofBasis b costs = .error (.basisSize (m + n - 1) b.size) := by
  rw [Potentials.ofBasis, h.treeSize_eq, if_pos ne]

/-- A basis of the right size. If the search from row zero takes a step that is not fresh, such a step
is named; otherwise the number of lines that it reaches decides. -/
theorem ofBasis_cases (h : b.Fits m n) (hm : 0 < m) (hc : costs.Fits m n)
    (size : b.size = m + n - 1) :
    ((∀ s ∈ b.search (.row 0), s.fresh = true) ∧
        ((m + n ≤ (b.reached (.row 0)).length ∧ ∃ p, Potentials.ofBasis b costs = .ok p) ∨
          (b.reached (.row 0)).length < m + n ∧
            Potentials.ofBasis b costs =
              .error (.disconnected (b.reached (.row 0)).length (m + n)))) ∨
      ∃ s ∈ b.search (.row 0), s.fresh = false ∧
        Potentials.ofBasis b costs = .error (.cyclic s.cell) := by
  have first : (Line.row 0).Within m n := hm
  have settled := (Potentials.sized_start m n).settle_cases h hc (h.grows_search first)
    fun k hk => List.mem_singleton.mp hk ▸ first
  have length : (b.reached (.row 0)).length =
      ((b.search (.row 0)).filter Step.fresh).length + 1 := by
    rw [reached, List.length_cons, List.length_map]
  rw [Potentials.ofBasis, h.treeSize_eq, if_neg (not_not.mpr size), h.rows_eq, h.cols_eq,
    h.lines_eq, if_neg (Nat.pos_iff_ne_zero.mp hm), length]
  rcases settled with ⟨p, e, fresh⟩ | ⟨s, hs, stale, e⟩
  · refine .inl ⟨fresh, ?_⟩
    simp only [e, bind, Except.bind]
    split
    · next less => exact .inr ⟨less, rfl⟩
    · next full => exact .inl ⟨Nat.not_lt.mp full, p, rfl⟩
  · refine .inr ⟨s, hs, stale, ?_⟩
    simp only [e, bind, Except.bind]

/-- A spanning tree has potentials. -/
theorem exists_potentials (h : b.Fits m n) (hm : 0 < m) (ht : b.IsTree) (hc : costs.Fits m n) :
    ∃ p, Potentials.ofBasis b costs = .ok p ∧ p.Sized m n ∧ p.value? (.row 0) = some 0 ∧
      ∀ c ∈ b.cells, p.Prices costs c := by
  have first : (Line.row 0).Within m n := hm
  have size : b.size = m + n - 1 := by
    have := h.size_of_isTree (by omega) ht
    omega
  have full : m + n ≤ (b.reached (.row 0)).length :=
    (h.length_reached_iff first).mpr fun l => h.connected ht first
  rcases h.ofBasis_cases hm hc size with ⟨-, ⟨-, p, e⟩ | ⟨less, -⟩⟩ | ⟨s, hs, stale, -⟩
  · exact ⟨p, e, h.prices_of_ofBasis e⟩
  · exact absurd full (Nat.not_le.mpr less)
  · rw [h.fresh_of_acyclic first ht.acyclic s hs] at stale
    cases stale

theorem exists_offers? (h : b.Fits m n) {p : Potentials α} (hp : p.Sized m n)
    (hc : costs.Fits m n) : ∃ offers, b.offers? costs p = some offers := by
  refine exists_mapM fun c hcell => ?_
  obtain ⟨d, hd⟩ := hp.exists_opportunityCost? hc (h.mem_vacant.mp hcell).1
  exact ⟨⟨c, d⟩, by rw [hd]; rfl⟩

/-- Pricing a spanning tree returns it as it stands, with the best of the offers. -/
theorem price (h : b.Fits m n) (hm : 0 < m) (ht : b.IsTree) (hc : costs.Fits m n) (tol : α) :
    ∃ p offers, Potentials.ofBasis b costs = .ok p ∧ b.offers? costs p = some offers ∧
      b.price costs tol = .ok (b, bestOffer? tol offers) := by
  obtain ⟨p, e, hp, -, -⟩ := h.exists_potentials hm ht hc
  obtain ⟨offers, eo⟩ := h.exists_offers? hp hc
  refine ⟨p, offers, e, eo, ?_⟩
  unfold Basis.price
  rw [h.repair_of_isTree hm ht]
  simp only [Except.mapError, bind, Except.bind, e, eo, Freight.within, pure, Except.pure]

end Basis.Fits

/-- Pricing fills a basis up first, so filling it up before makes no difference. -/
theorem Basis.price_of_repair {b' : Basis} {added : Nat} (e : b.repair = .ok (b', added))
    (full : b'.repair = .ok (b', 0)) : b.price costs tol = b'.price costs tol := by
  unfold Basis.price
  rw [e, full]
  rfl

/-- The vacant cells make the offers, each at its opportunity cost. -/
theorem Basis.mem_offers {p : Potentials α} (h : b.offers? costs p = some offers) :
    o ∈ offers ↔ o.cell ∈ b.vacant ∧ p.opportunityCost? costs o.cell = some o.opportunityCost := by
  have all := forall₂_of_mapM h
  constructor
  · intro ho
    obtain ⟨c, hc, e⟩ := exists_of_mem_right all o ho
    obtain ⟨d, hd, rfl⟩ := Option.map_eq_some_iff.mp e
    exact ⟨hc, hd⟩
  · rintro ⟨hc, hd⟩
    obtain ⟨o', ho', e⟩ := exists_of_mem_left all o.cell hc
    rw [hd] at e
    cases e
    exact ho'

theorem mem_of_bestOffer?_eq_some (h : bestOffer? tol offers = some o) : o ∈ offers := by
  unfold bestOffer? at h
  split at h
  · cases h
  · split at h
    · cases h
    · exact List.mem_of_find?_eq_some h

/-- No offer is made only if none lies below minus the tolerance. -/
theorem neg_le_of_bestOffer?_eq_none [Scalar.Lawful α] (ht : Scalar.isFinite tol = true)
    (hpos : 0 ≤ tol) (hf : ∀ o ∈ offers, Scalar.isFinite o.opportunityCost = true)
    (h : bestOffer? tol offers = none) : ∀ o ∈ offers, -tol ≤ o.opportunityCost := by
  intro o ho
  have finite : ∀ d ∈ offers.map Entering.opportunityCost, Scalar.isFinite d = true := by
    simpa using hf
  obtain ⟨low, e, hlow, least⟩ :=
    Scalar.exists_minimum? finite (List.map_eq_nil_iff.not.mpr (List.ne_nil_of_mem ho))
  unfold bestOffer? at h
  rw [e] at h
  dsimp only at h
  split at h
  · next hle => exact Scalar.Lawful.le_trans hle (least _ (List.mem_map_of_mem ho))
  · -- The lowest offer is within the tolerance of itself, so one would have been found.
    obtain ⟨o', ho', rfl⟩ := List.mem_map.mp hlow
    have := List.find?_eq_none.mp h o' ho'
    simp only [decide_eq_true_eq] at this
    exact absurd (Scalar.Lawful.le_add (hf o' ho') ht hpos) this

end Pricing

end Freight
