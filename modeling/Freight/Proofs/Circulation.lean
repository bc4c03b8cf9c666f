import Freight.Proofs.Pivot
import Freight.Proofs.Sum

/-!
# Quantities around a loop

What goes around a loop is gained at its even positions and lost at its odd ones (`gain`), so it
changes no line's total (`Closes.total_gain`). A pivot adds it to the entries and drops what is left
on losing cells within the tolerance, the *residue* (`Pivots.entry_eq`). Quantities stay amounts, and
cells outside the basis stay empty (`Pivots.feasible`). Integers leave no residue below one, so with
them a pivot keeps integers and every total (`Pivots.ships`).
-/

namespace Freight

open Finset Scalar

variable {m n : Nat} {b : Basis} {c d leaving : Cell} {path loop : List Cell} {l : Line}

/-! ## Gains -/

/-- What a cell gains for each unit that goes around a loop. -/
def gain : List Cell → Cell → Rat
  | [], _ => 0
  | c :: cs, d => (if d = c then 1 else 0) - gain cs d

/-- In a loop of different cells the losing ones lose, and the others gain. -/
theorem gain_eq (hn : loop.Nodup) :
    gain loop d = if d ∈ losing loop then -1 else if d ∈ loop then 1 else 0 := by
  fun_induction losing loop with
  | case1 c e rest ih =>
    simp only [List.nodup_cons, List.mem_cons, not_or] at hn
    obtain ⟨⟨hce, hc⟩, he, hn⟩ := hn
    have sub : ∀ f ∈ losing rest, f ∈ rest := fun f hf => (losing_sublist rest).subset hf
    rw [gain, gain, ih hn]
    by_cases hdc : d = c
    · subst hdc
      have : d ∉ losing rest := fun h => hc (sub d h)
      simp [hce, hc, this]
    · by_cases hde : d = e
      · subst hde
        have : d ∉ losing rest := fun h => he (sub d h)
        simp [hdc, he, this]
      · simp [hdc, hde]
  | case2 loop h =>
    obtain rfl | ⟨c, rfl⟩ := eq_nil_or_singleton h <;> simp [gain]

/-- Gains around a loop, weighed, are the weights at even positions less those at odd ones. -/
theorem sum_gain (f : Cell → Rat) (hs : ∀ c ∈ loop, c ∈ Cell.grid m n) :
    ∑ c ∈ Cell.rectangle m n, gain loop c * f c = alternating (loop.map f) := by
  induction loop with
  | nil => exact sum_eq_zero fun c _ => zero_mul _
  | cons c cs ih =>
    have hc := Cell.mem_rectangle.mpr (hs c List.mem_cons_self)
    rw [List.map_cons, alternating_cons, ← ih fun d hd => hs d (List.mem_cons_of_mem c hd)]
    have single : f c = ∑ d ∈ Cell.rectangle m n, if d = c then f d else 0 := by
      rw [sum_ite_eq' (Cell.rectangle m n) c f, if_pos hc]
    rw [single, ← sum_sub_distrib]
    refine sum_congr rfl fun d _ => ?_
    rw [gain, sub_mul, ite_mul, one_mul, zero_mul]

/-- No line's total changes when something goes around a loop. -/
theorem Basis.Closes.total_gain (h : b.Closes c path) (hs : ∀ d ∈ c :: path, d ∈ Cell.grid m n)
    (hl : l.Within m n) : Line.total m n (gain (c :: path)) l = 0 := by
  rw [total_eq_sum _ hl, sum_gain _ hs]
  exact h.alternating_eq_zero fun k => if k = l then 1 else 0

/-! ## Entries after a pivot -/

/-- What is dropped on a cell: the rest on a losing cell, if it is within the tolerance. -/
def residue (quantity tol : Rat) (loop : List Cell) (d : Cell) (held : Rat) : Rat :=
  if d ∈ losing loop ∧ held - quantity ≤ tol then held - quantity else 0

/-- What is dropped is within the tolerance. -/
theorem residue_le {quantity tol held : Rat} (hpos : 0 ≤ tol) :
    residue quantity tol loop d held ≤ tol := by
  unfold residue
  split
  · next hd => exact hd.2
  · exact hpos

theorem residue_of_not_mem {quantity tol held : Rat} (hd : d ∉ losing loop) :
    residue quantity tol loop d held = 0 := if_neg fun h => hd h.1

theorem circulated_eq {quantity tol held : Rat} (hn : loop.Nodup) :
    circulated quantity tol loop d held =
      held + quantity * gain loop d - residue quantity tol loop d held := by
  rw [circulated, drained, gain_eq hn]
  by_cases hd : d ∈ losing loop
  · rw [if_pos hd, if_pos hd, residue]
    by_cases hle : held - quantity ≤ tol
    · rw [if_pos (by rwa [← sub_eq_add_neg]), if_pos ⟨hd, hle⟩]
      ring
    · rw [if_neg (by rwa [← sub_eq_add_neg]), if_neg fun h => hle h.2]
      ring
  · rw [if_neg hd, if_neg hd, residue_of_not_mem hd]
    split <;> ring

namespace Position

variable {p next : Position Rat} {tol low : Rat} {supply demand : List Rat}

/-- The quantities are amounts, and only basic cells carry any. -/
structure Feasible (p : Position Rat) (m n : Nat) : Prop where
  nonneg : ∀ c ∈ Cell.grid m n, 0 ≤ p.allocation.entry c
  idle : ∀ c ∈ Cell.grid m n, c ∉ p.basis.cells → p.allocation.entry c = 0

namespace Pivots

variable (h : p.Pivots next tol c path low leaving) (hp : p.Sound m n)

include h hp

theorem mem_grid_of_losing (hd : d ∈ losing (c :: path)) : d ∈ Cell.grid m n :=
  hp.mem_grid_of_loop h.vacant h.closes d ((losing_sublist _).subset hd)

/-- The entries after a pivot. -/
theorem entry_eq (hd : d ∈ Cell.grid m n) : next.allocation.entry d =
    p.allocation.entry d + positivePart low * gain (c :: path) d -
      residue (positivePart low) tol (c :: path) d (p.allocation.entry d) := by
  have nodup := h.closes.nodup_cons (hp.basis.mem_vacant.mp h.vacant).2
  have e := h.entries d (hp.allocation.cells_eq ▸ hd)
  rw [hp.allocation.get?_eq hd, Option.map_some, circulated_eq nodup] at e
  rw [Table.entry, e]
  rfl

/-- A losing cell holds what it loses, or it owes something and nothing is sent. -/
theorem positivePart_le_max (hd : d ∈ losing (c :: path)) :
    positivePart low ≤ max (p.allocation.entry d) 0 := by
  have grid := h.mem_grid_of_losing hp hd
  rw [positivePart_rat]
  exact max_le_max_right 0 (h.low_le d hd _ (hp.allocation.get?_eq grid))

section Nonneg

variable (hn : ∀ c ∈ Cell.grid m n, 0 ≤ p.allocation.entry c)

include hn

/-- A losing cell of amounts holds what it loses. -/
theorem positivePart_le (hd : d ∈ losing (c :: path)) :
    positivePart low ≤ p.allocation.entry d := by
  have held := h.positivePart_le_max hp hd
  rwa [max_eq_left (hn d (h.mem_grid_of_losing hp hd))] at held

/-- The quantity that is sent is held by a losing cell. -/
theorem exists_positivePart_eq :
    ∃ d ∈ losing (c :: path), positivePart low = p.allocation.entry d := by
  obtain ⟨d, hd, e⟩ := h.low_mem
  have grid := h.mem_grid_of_losing hp hd
  rw [hp.allocation.get?_eq grid] at e
  refine ⟨d, hd, ?_⟩
  rw [← Option.some.inj e, positivePart_rat, max_eq_left (hn d grid)]

theorem residue_nonneg (d : Cell) :
    0 ≤ residue (positivePart low) tol (c :: path) d (p.allocation.entry d) := by
  unfold residue
  split
  · next hd => exact sub_nonneg.mpr (h.positivePart_le hp hn hd.1)
  · exact le_refl 0

/-- A pivot keeps amounts. -/
theorem nonneg : ∀ d ∈ Cell.grid m n, 0 ≤ next.allocation.entry d := by
  intro d hd
  have nodup := h.closes.nodup_cons (hp.basis.mem_vacant.mp h.vacant).2
  have held := hn d hd
  rw [h.entry_eq hp hd, gain_eq nodup]
  by_cases hl : d ∈ losing (c :: path)
  · have := h.positivePart_le hp hn hl
    rw [if_pos hl, residue]
    split <;> linarith
  · have low_nonneg := positivePart_nonneg low
    rw [if_neg hl, residue_of_not_mem hl]
    split <;> linarith

end Nonneg

/-- A pivot keeps amounts on basic cells. The leaving cell ends empty. -/
theorem feasible (hf : p.Feasible m n) : next.Feasible m n := by
  refine ⟨h.nonneg hp hf.nonneg, fun d hd hout => ?_⟩
  by_cases hleaving : d = leaving
  · rw [Table.entry, hleaving, hp.get?_leaving rfl h]
    rfl
  · obtain ⟨vacant, same⟩ := h.get?_eq_of_not_mem (hp.allocation.cells_eq ▸ hd) hout hleaving
    rw [Table.entry, same]
    exact hf.idle d hd vacant

/-- A line's total loses what is dropped on its cells. -/
theorem total_eq (hl : l.Within m n) : Line.total m n next.allocation.entry l =
    Line.total m n p.allocation.entry l - Line.total m n
      (fun d => residue (positivePart low) tol (c :: path) d (p.allocation.entry d)) l := by
  have loopGrid := hp.mem_grid_of_loop h.vacant h.closes
  rw [total_congr (fun d hd => h.entry_eq hp hd) hl, total_sub, total_add, total_mul,
    h.closes.total_gain loopGrid hl]
  ring

end Pivots

/-- Integer amounts on basic cells that serve supplies and demands exactly. -/
structure Ships (p : Position Rat) (supply demand : List Rat) (m n : Nat) : Prop
    extends p.Feasible m n where
  integer : ∀ c ∈ Cell.grid m n, IsInteger (p.allocation.entry c)
  total : ∀ l q, (Remaining.mk supply demand).left? l = some q →
    Line.total m n p.allocation.entry l = q

/-- With integers and a tolerance below one nothing is dropped: a pivot keeps integers, and it keeps
every total. -/
theorem Pivots.ships (h : p.Pivots next tol c path low leaving) (hp : p.Sound m n)
    (hm : supply.length = m) (hn : demand.length = n) (hpos : 0 ≤ tol) (small : tol < 1)
    (hs : p.Ships supply demand m n) : next.Ships supply demand m n := by
  have feasible := h.feasible hp hs.toFeasible
  obtain ⟨e, he, quantity⟩ := h.exists_positivePart_eq hp hs.nonneg
  have integerQuantity : IsInteger (positivePart low) :=
    quantity ▸ hs.integer e (h.mem_grid_of_losing hp he)
  have nothing : ∀ d ∈ Cell.grid m n,
      residue (positivePart low) tol (c :: path) d (p.allocation.entry d) = 0 := by
    intro d hd
    have nonneg := h.residue_nonneg hp hs.nonneg d
    have within : residue (positivePart low) tol (c :: path) d (p.allocation.entry d) ≤ tol :=
      residue_le hpos
    have integer : IsInteger (residue (positivePart low) tol (c :: path) d
        (p.allocation.entry d)) := by
      unfold residue
      split
      · exact (hs.integer d hd).sub integerQuantity
      · exact IsInteger.zero
    exact integer.eq_zero nonneg (by linarith)
  refine ⟨feasible, fun d hd => ?_, fun l q hq => ?_⟩
  · have nodup := h.closes.nodup_cons (hp.basis.mem_vacant.mp h.vacant).2
    rw [h.entry_eq hp hd, nothing d hd, gain_eq nodup, sub_zero]
    refine (hs.integer d hd).add ?_
    split
    · rw [mul_neg_one]
      exact integerQuantity.neg
    · split
      · rwa [mul_one]
      · rw [mul_zero]
        exact IsInteger.zero
  · have hl := Remaining.exists_left?_iff.mp ⟨q, hq⟩
    rw [hm, hn] at hl
    rw [h.total_eq hp hl, hs.total l q hq, total_congr nothing hl]
    cases l <;> simp [Line.total]

end Position

end Freight
