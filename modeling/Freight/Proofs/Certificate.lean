import Freight.Proofs.Run
import Freight.Proofs.Sum
import Mathlib.Algebra.Order.BigOperators.Group.Finset

/-!
# Certificates of optimality

Weak duality: values of lines that make up the costs of the cells in use, and do not exceed the costs
of those that a rival uses, bound what the rival saves (`cost_le_of_values`). Values *certify* a basis
if they make up the costs of its cells and nowhere exceed a cost by more than the tolerance
(`Certifies`). Quantities on the basic cells then cost no more than any other shipment with the same
totals, up to the tolerance on each unit (`Certifies.cost_le`).

Where pricing has nothing to offer, the potentials of the basis are such values
(`Fits.exists_certifies`). On integer costs they are integers, so a tolerance below one is none at
all (`Certifies.of_integer`).
-/

namespace Freight

open Finset Scalar

variable {m n : Nat} {b : Basis} {costs : Table Rat} {tol : Rat} {w : Line → Rat}

/-- Values of lines that certify a basis. -/
structure Certifies (w : Line → Rat) (b : Basis) (costs : Table Rat) (m n : Nat) (tol : Rat) :
    Prop where
  tight : ∀ c ∈ b.cells, costs.entry c = w (.row c.row) + w (.column c.col)
  slack : ∀ c ∈ Cell.grid m n, w (.row c.row) + w (.column c.col) ≤ costs.entry c + tol

/-- Equal totals of lines weigh the same. -/
theorem sum_mul_lines_congr {f g : Cell → Rat} (w : Line → Rat)
    (h : ∀ l : Line, l.Within m n → Line.total m n f l = Line.total m n g l) :
    ∑ c ∈ Cell.rectangle m n, f c * (w (.row c.row) + w (.column c.col)) =
      ∑ c ∈ Cell.rectangle m n, g c * (w (.row c.row) + w (.column c.col)) := by
  rw [sum_mul_lines, sum_mul_lines]
  refine congrArg₂ (· + ·) (sum_congr rfl fun i hi => ?_) (sum_congr rfl fun j hj => ?_)
  · rw [h (.row i) (mem_range.mp hi)]
  · rw [h (.column j) (mem_range.mp hj)]

/-- Weak duality. Let the values make up the cost of each cell that `x` uses, and exceed that of no
cell that `y` uses by more than the tolerance. If the totals agree, `x` costs no more than `y`, up to
the tolerance on each unit. -/
theorem cost_le_of_values {x y : Cell → Rat}
    (tight : ∀ c ∈ Cell.grid m n, x c ≠ 0 → costs.entry c = w (.row c.row) + w (.column c.col))
    (slack : ∀ c ∈ Cell.grid m n, y c ≠ 0 →
      w (.row c.row) + w (.column c.col) ≤ costs.entry c + tol)
    (hy : ∀ c ∈ Cell.grid m n, 0 ≤ y c)
    (totals : ∀ l : Line, l.Within m n → Line.total m n x l = Line.total m n y l) :
    ∑ c ∈ Cell.rectangle m n, x c * costs.entry c ≤
      ∑ c ∈ Cell.rectangle m n, y c * costs.entry c + tol * ∑ c ∈ Cell.rectangle m n, y c := by
  calc ∑ c ∈ Cell.rectangle m n, x c * costs.entry c
      = ∑ c ∈ Cell.rectangle m n, x c * (w (.row c.row) + w (.column c.col)) := by
        refine sum_congr rfl fun c hc => ?_
        by_cases hx : x c = 0
        · rw [hx, zero_mul, zero_mul]
        · rw [tight c (Cell.mem_rectangle.mp hc) hx]
    _ = ∑ c ∈ Cell.rectangle m n, y c * (w (.row c.row) + w (.column c.col)) :=
        sum_mul_lines_congr w totals
    _ ≤ ∑ c ∈ Cell.rectangle m n, y c * (costs.entry c + tol) := by
        refine sum_le_sum fun c hc => ?_
        have hg := Cell.mem_rectangle.mp hc
        by_cases h0 : y c = 0
        · rw [h0, zero_mul, zero_mul]
        · exact mul_le_mul_of_nonneg_left (slack c hg h0) (hy c hg)
    _ = ∑ c ∈ Cell.rectangle m n, y c * costs.entry c + tol * ∑ c ∈ Cell.rectangle m n, y c := by
        rw [mul_sum, ← sum_add_distrib]
        exact sum_congr rfl fun c _ => by ring

/-- Quantities on certified cells cost no more than any other shipment with the same totals, up to
the tolerance on each unit of that. -/
theorem Certifies.cost_le (h : Certifies w b costs m n tol) {x y : Cell → Rat}
    (idle : ∀ c ∈ Cell.grid m n, c ∉ b.cells → x c = 0) (hy : ∀ c ∈ Cell.grid m n, 0 ≤ y c)
    (totals : ∀ l : Line, l.Within m n → Line.total m n x l = Line.total m n y l) :
    ∑ c ∈ Cell.rectangle m n, x c * costs.entry c ≤
      ∑ c ∈ Cell.rectangle m n, y c * costs.entry c + tol * ∑ c ∈ Cell.rectangle m n, y c :=
  cost_le_of_values (fun c hg used => h.tight c (by_contra fun out => used (idle c hg out)))
    (fun c hg _ => h.slack c hg) hy totals

/-! ## Potentials as certificates -/

/-- The value of a line; a line outside the tableau has the value zero. -/
def Potentials.value (p : Potentials Rat) (l : Line) : Rat := (p.value? l).getD 0

theorem Potentials.Prices.entry_eq {p : Potentials Rat} {c : Cell} (h : p.Prices costs c) :
    costs.entry c = p.value (.row c.row) + p.value (.column c.col) := by
  obtain ⟨x, u, v, hx, hu, hv, e⟩ := h
  rw [Table.entry, value, value, hx, hu, hv]
  simp only [Option.getD_some]
  rcases e with rfl | rfl <;> ring

/-- What a cell costs beyond the values of its lines is its opportunity cost. -/
theorem Potentials.opportunityCost_eq {p : Potentials Rat} {c : Cell} {d : Rat}
    (h : p.opportunityCost? costs c = some d) :
    d = costs.entry c - (p.value (.row c.row) + p.value (.column c.col)) := by
  obtain ⟨x, u, v, hx, hu, hv, rfl⟩ := opportunityCost?_eq_some h
  rw [Table.entry, value, value, hx, hu, hv]
  exact sub_sub x u v

namespace Basis.Fits

/-- The potentials of a basis certify it, if no vacant cell has an opportunity cost below minus the
tolerance. -/
theorem certifies_of_ofBasis (h : b.Fits m n) (hc : costs.Fits m n) (hpos : 0 ≤ tol)
    {p : Potentials Rat} (e : Potentials.ofBasis b costs = .ok p)
    (vacant : ∀ c ∈ b.vacant, ∀ d, p.opportunityCost? costs c = some d → -tol ≤ d) :
    Certifies p.value b costs m n tol := by
  obtain ⟨sized, -, prices⟩ := h.prices_of_ofBasis e
  refine ⟨fun c hb => (prices c hb).entry_eq, fun c hg => ?_⟩
  by_cases hb : c ∈ b.cells
  · rw [(prices c hb).entry_eq]
    linarith
  · obtain ⟨d, hd⟩ := sized.exists_opportunityCost? hc hg
    have low := vacant c (h.mem_vacant.mpr ⟨hg, hb⟩) d hd
    have := Potentials.opportunityCost_eq hd
    linarith

/-- If pricing has nothing to offer for a spanning tree, its potentials certify it; row zero has the
value zero. -/
theorem exists_certifies (h : b.Fits m n) (hm : 0 < m) (ht : b.IsTree) (hc : costs.Fits m n)
    (hpos : 0 ≤ tol) (none' : b.NoOffer costs tol) :
    ∃ w : Line → Rat, Certifies w b costs m n tol ∧ w (.row 0) = 0 := by
  obtain ⟨p, offers, e, eo, best⟩ := none'
  obtain ⟨p', e', -, start, -⟩ := h.exists_potentials hm ht hc
  rw [e] at e'
  cases e'
  refine ⟨p.value, h.certifies_of_ofBasis hc hpos e fun c hcell d hd => ?_, ?_⟩
  · have offer : (⟨c, d⟩ : Entering Rat) ∈ offers := (mem_offers eo).mpr ⟨hcell, hd⟩
    exact neg_le_of_bestOffer?_eq_none rfl hpos (fun _ _ => rfl) best _ offer
  · rw [Potentials.value, start]
    rfl

end Basis.Fits

/-! ## Integer costs -/

namespace Certifies

/-- On integer costs a tree's values are integers: they spread from row zero along the cells. -/
theorem isInteger (h : Certifies w b costs m n tol) (hb : b.Fits m n) (hm : 0 < m)
    (ht : b.IsTree) (start : w (.row 0) = 0)
    (integer : ∀ c ∈ Cell.grid m n, IsInteger (costs.entry c)) {l : Line} (hl : l.Within m n) :
    IsInteger (w l) := by
  have connected : Line.Connected b.cells (.row 0) l := hb.connected ht hm hl
  clear hl
  induction connected with
  | refl => exact start ▸ IsInteger.zero
  | @change l c _ hc through ih =>
    have cost := integer c (hb.mem_grid hc)
    rw [h.tight c hc] at cost
    obtain rfl | rfl := through.eq_or
    · have := cost.sub ih
      rwa [add_sub_cancel_left] at this
    · have := cost.sub ih
      rwa [add_sub_cancel_right] at this

/-- On integer costs a tolerance below one certifies as much as none. -/
theorem of_integer (h : Certifies w b costs m n tol) (hb : b.Fits m n) (hm : 0 < m)
    (ht : b.IsTree) (start : w (.row 0) = 0) (small : tol < 1)
    (integer : ∀ c ∈ Cell.grid m n, IsInteger (costs.entry c)) :
    Certifies w b costs m n 0 := by
  refine ⟨h.tight, fun c hc => ?_⟩
  have rest : IsInteger (costs.entry c - (w (.row c.row) + w (.column c.col))) :=
    (integer c hc).sub ((h.isInteger hb hm ht start integer (Line.row_within hc)).add
      (h.isInteger hb hm ht start integer (Line.column_within hc)))
  have slack := h.slack c hc
  have := rest.nonneg (by linarith)
  linarith

end Certifies

end Freight
