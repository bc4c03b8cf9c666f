import Freight.Proofs.Loop
import Freight.Proofs.Potentials

/-!
# Pivots keep a spanning tree

A pivot on a vacant cell with connected lines succeeds, if the quantities are finite
(`exists_pivot`). What it does is said by `Position.Pivots`: around the loop every entry is as
`circulated` says, and a cell that ran empty leaves the basis for the vacant one.

A position is *sound* (`Position.Sound`) if its quantities are finite and its basis is a spanning
tree of the tableau. There all lines are connected, so no pivot fails, and it ends in a sound position
(`Sound.pivot`).
-/

namespace Freight

variable {α : Type} [Scalar α] {m n : Nat} {tol quantity low x : α} {c d leaving : Cell}
  {path loop : List Cell}

/-! ## Sending a quantity around a loop -/

/-- What a losing cell keeps. -/
def drained (quantity tol held : α) : α :=
  if held + -quantity ≤ tol then 0 else held + -quantity

/-- What a cell holds after a quantity was sent around a loop. -/
def circulated (quantity tol : α) (loop : List Cell) (d : Cell) (held : α) : α :=
  if d ∈ losing loop then drained quantity tol held
  else if d ∈ loop then held + quantity else held

theorem circulated_eq_id (quantity tol : α) (hd : d ∉ loop) :
    circulated quantity tol loop d = id := by
  funext x
  rw [circulated, if_neg fun h => hd ((losing_sublist loop).subset h), if_neg hd, id]

/-- The first two cells of a loop: one gains, the other loses, and the rest is as without them. -/
theorem circulated_cons_cons (quantity tol x : α) {rest : List Cell} {e : Cell}
    (hn : (c :: d :: rest).Nodup) : circulated quantity tol (c :: d :: rest) e x =
      if e = c then x + quantity
      else if e = d then drained quantity tol x
      else circulated quantity tol rest e x := by
  simp only [List.nodup_cons, List.mem_cons, not_or] at hn
  have out : ∀ f ∈ losing rest, f ∈ rest := fun f hf => (losing_sublist rest).subset hf
  unfold circulated
  rw [losing]
  by_cases hc : e = c
  · subst hc
    have : e ∉ losing rest := fun h => hn.1.2 (out e h)
    simp [this, hn.1.1]
  · by_cases hd : e = d
    · subst hd
      simp [hc]
    · simp [hc, hd]

/-- Sending a quantity around a loop of different cells of a table succeeds. -/
theorem Table.Fits.exists_shift? (quantity tol : α) {t : Table α} (ht : t.Fits m n)
    (hs : ∀ c ∈ loop, c ∈ Cell.grid m n) (hn : loop.Nodup) :
    ∃ u, t.shift? quantity tol true loop = some u ∧ u.Fits m n ∧
      ∀ d ∈ Cell.grid m n, u.get? d = (t.get? d).map (circulated quantity tol loop d) := by
  fun_induction losing loop generalizing t with
  | case1 c d rest ih =>
    have hc := hs c List.mem_cons_self
    have hd := hs d (List.mem_cons_of_mem c List.mem_cons_self)
    obtain ⟨t₁, e₁, ht₁, get₁⟩ := ht.exists_modify? hc (· + quantity)
    obtain ⟨t₂, e₂, ht₂, get₂⟩ := ht₁.exists_modify? hd (drained quantity tol)
    obtain ⟨u, e, hu, get⟩ := ih ht₂
      (fun e he => hs e (List.mem_cons_of_mem c (List.mem_cons_of_mem d he)))
      (List.nodup_cons.mp (List.nodup_cons.mp hn).2).2
    refine ⟨u, ?_, hu, fun f hf => ?_⟩
    · have e₂' : t₁.modify? d (fun q => if q + -quantity ≤ tol then 0 else q + -quantity) =
          some t₂ := e₂
      simp only [shift?, e₁, e₂', Option.bind_eq_bind, Option.bind_some, e]
    · rw [get f hf, get₂ f hf, get₁ d hd, get₁ f hf]
      have step := fun x => circulated_cons_cons quantity tol x hn (e := f)
      simp only [List.nodup_cons, List.mem_cons, not_or] at hn
      obtain ⟨⟨hcd, hc'⟩, hd', -⟩ := hn
      rw [if_neg (Ne.symm hcd)]
      by_cases hfd : f = d
      · subst hfd
        rw [if_pos rfl, Option.map_map]
        refine Option.map_congr fun x _ => ?_
        rw [step, if_neg (Ne.symm hcd), if_pos rfl, Function.comp, circulated_eq_id _ _ hd', id]
      · rw [if_neg hfd]
        by_cases hfc : f = c
        · subst hfc
          rw [if_pos rfl, Option.map_map]
          refine Option.map_congr fun x _ => ?_
          rw [step, if_pos rfl, Function.comp, circulated_eq_id _ _ hc', id]
        · rw [if_neg hfc]
          refine Option.map_congr fun x _ => ?_
          rw [step, if_neg hfc, if_neg hfd]
  | case2 loop h =>
    obtain rfl | ⟨c, rfl⟩ := eq_nil_or_singleton h
    · refine ⟨t, rfl, ht, fun d _ => ?_⟩
      rw [circulated_eq_id _ _ List.not_mem_nil, Option.map_id, id]
    · obtain ⟨u, e, hu, get⟩ := ht.exists_modify? (hs c List.mem_cons_self) (· + quantity)
      refine ⟨u, ?_, hu, fun d hd => ?_⟩
      · simp only [shift?, e, Option.bind_eq_bind, Option.bind_some]
      · rw [get d hd]
        by_cases h : d = c
        · subst h
          rw [if_pos rfl]
          refine Option.map_congr fun x _ => ?_
          simp [circulated, losing]
        · rw [if_neg h, circulated_eq_id _ _ (by simpa using h), Option.map_id, id]

/-! ## The exchange -/

theorem foldl_firstCell : ∀ (cs : List Cell) (c : Cell), ∃ first ∈ c :: cs,
    cs.foldl (fun best c => if c.before best then c else best) c = first ∧
      ∀ d ∈ c :: cs, d = first ∨ first.before d = true
  | [], c => ⟨c, List.mem_cons_self, rfl, fun _ hd => .inl (List.mem_singleton.mp hd)⟩
  | d :: cs, c => by
    rw [List.foldl_cons]
    split
    · next before =>
      obtain ⟨first, hm, e, all⟩ := foldl_firstCell cs d
      refine ⟨first, List.mem_cons_of_mem c hm, e, List.forall_mem_cons.mpr ⟨.inr ?_, all⟩⟩
      rcases all d List.mem_cons_self with rfl | h
      · exact before
      · exact Cell.before_trans h before
    · next after =>
      obtain ⟨first, hm, e, all⟩ := foldl_firstCell cs c
      obtain ⟨start, all⟩ := List.forall_mem_cons.mp all
      have second : d = first ∨ first.before d = true := by
        rcases Cell.eq_or_before after with rfl | h
        · exact start
        · rcases start with rfl | h'
          · exact .inr h
          · exact .inr (Cell.before_trans h' h)
      refine ⟨first, ?_, e, List.forall_mem_cons.mpr ⟨start, List.forall_mem_cons.mpr ⟨second, all⟩⟩⟩
      rcases List.mem_cons.mp hm with rfl | hm
      · exact List.mem_cons_self
      · exact List.mem_cons_of_mem c (List.mem_cons_of_mem d hm)

/-- Of some cells one comes first in row-major order. -/
theorem exists_firstCell? {cs : List Cell} (h : cs ≠ []) :
    ∃ c ∈ cs, firstCell? cs = some c ∧ ∀ d ∈ cs, d = c ∨ c.before d = true := by
  cases cs with
  | nil => exact absurd rfl h
  | cons c cs =>
    obtain ⟨first, hm, e, all⟩ := foldl_firstCell cs c
    exact ⟨first, hm, congrArg some e, all⟩

namespace Position

variable {p next : Position α} {costs : Table α} {losses : List (Cell × α)}

/-- Among losing cells with finite quantities there is always one to leave. What is sent is the
smallest of the quantities where it is positive, and of the cells that hold at most that, up to the
tolerance, the first one leaves. -/
theorem exists_exchange? [Scalar.Lawful α] (hf : ∀ l ∈ losses, Scalar.isFinite l.2 = true)
    (hne : losses ≠ []) (slack : ∀ x : α, Scalar.isFinite x = true → x ≤ x + tol) :
    ∃ low leaving, exchange? tol losses = some (Scalar.positivePart low, leaving) ∧
      (∃ c, (c, low) ∈ losses) ∧ (∀ l ∈ losses, low ≤ l.2) ∧
      (∃ q, (leaving, q) ∈ losses ∧ q ≤ Scalar.positivePart low + tol) ∧
      ∀ l ∈ losses, l.2 ≤ Scalar.positivePart low + tol →
        l.1 = leaving ∨ leaving.before l.1 = true := by
  have finite : ∀ x ∈ losses.map Prod.snd, Scalar.isFinite x = true :=
    List.forall_mem_map.mpr hf
  obtain ⟨low, e, hlow, least⟩ :=
    Scalar.exists_minimum? finite (List.map_eq_nil_iff.not.mpr hne)
  obtain ⟨⟨c, low'⟩, hc, rfl⟩ := List.mem_map.mp hlow
  have emptied : (losses.filter fun l =>
      decide (l.2 ≤ Scalar.positivePart low' + tol)).map Prod.fst ≠ [] := by
    refine List.map_eq_nil_iff.not.mpr (List.ne_nil_of_mem (List.mem_filter.mpr ⟨hc, ?_⟩))
    exact decide_eq_true (Scalar.le_positivePart_add (hf _ hc) slack)
  obtain ⟨leaving, hleaving, first, before⟩ := exists_firstCell? emptied
  obtain ⟨⟨d, q⟩, hd, rfl⟩ := List.mem_map.mp hleaving
  obtain ⟨hd, hq⟩ := List.mem_filter.mp hd
  refine ⟨low', d, ?_, ⟨c, hc⟩, fun l hl => least _ (List.mem_map_of_mem hl),
    ⟨q, hd, of_decide_eq_true hq⟩, fun l hl empty => before l.1 (List.mem_map_of_mem ?_)⟩
  · unfold exchange?
    simp only [e, Option.bind_eq_bind, Option.bind_some, first]
    rfl
  · exact List.mem_filter.mpr ⟨hl, decide_eq_true empty⟩

/-! ## Sound positions -/

/-- A position that can be improved: finite quantities on a spanning tree of the tableau. -/
structure Sound (p : Position α) (m n : Nat) : Prop where
  allocation : p.allocation.Fits m n
  basis : p.basis.Fits m n
  isTree : p.basis.IsTree
  finite : ∀ c ∈ Cell.grid m n, ∀ q, p.allocation.get? c = some q → Scalar.isFinite q = true

/-- What a pivot on a vacant cell `c` does. It goes around the loop of that cell, `low` is the
smallest quantity on the losing cells, and `leaving` is one of those that run empty. -/
structure Pivots (p next : Position α) (tol : α) (c : Cell) (path : List Cell) (low : α)
    (leaving : Cell) : Prop where
  vacant : c ∈ p.basis.vacant
  traced : (p.basis.loop c : Except (Cause α) (List Cell)) = .ok (c :: path)
  closes : p.basis.Closes c path
  low_mem : ∃ d ∈ losing (c :: path), p.allocation.get? d = some low
  low_le : ∀ d ∈ losing (c :: path), ∀ q, p.allocation.get? d = some q → low ≤ q
  leaving_mem : leaving ∈ losing (c :: path)
  /-- The leaving cell runs empty. -/
  emptied : ∃ q, p.allocation.get? leaving = some q ∧ q ≤ Scalar.positivePart low + tol
  basis : ∀ d, d ∈ next.basis.cells ↔ d = c ∨ d ∈ p.basis.cells ∧ d ≠ leaving
  entries : ∀ d ∈ p.allocation.cells, next.allocation.get? d =
    (p.allocation.get? d).map (circulated (Scalar.positivePart low) tol (c :: path) d)

theorem Pivots.leaving_mem_path (h : p.Pivots next tol c path low leaving) :
    leaving ∈ path := (losing_cons_sublist c path).subset h.leaving_mem

/-- A cell that is vacant after a pivot is the leaving one, or was vacant before and holds what it
held. -/
theorem Pivots.get?_eq_of_not_mem (h : p.Pivots next tol c path low leaving)
    (hd : d ∈ p.allocation.cells) (hout : d ∉ next.basis.cells) (hne : d ≠ leaving) :
    d ∉ p.basis.cells ∧ next.allocation.get? d = p.allocation.get? d := by
  rw [h.basis, not_or, not_and_not_right] at hout
  have vacant : d ∉ p.basis.cells := fun hm => hne (hout.2 hm)
  have off : d ∉ c :: path := by
    rw [List.mem_cons, not_or]
    exact ⟨hout.1, fun hm => vacant (h.closes.marked d hm)⟩
  refine ⟨vacant, ?_⟩
  rw [h.entries d hd, circulated_eq_id _ _ off, Option.map_id, id]

/-! ## Pivots -/

omit [Scalar α] in
theorem exists_losingQuantities? (h : p.allocation.Fits m n)
    (hs : ∀ c ∈ loop, c ∈ Cell.grid m n) : ∃ losses, p.losingQuantities? loop = some losses ∧
      ∀ c q, (c, q) ∈ losses ↔ c ∈ losing loop ∧ p.allocation.get? c = some q := by
  have each : ∀ c ∈ losing loop, ∃ l, (p.allocation.get? c).map (c, ·) = some l := by
    intro c hc
    obtain ⟨x, hx⟩ := h.exists_get? (hs c ((losing_sublist loop).subset hc))
    exact ⟨(c, x), by rw [hx]; rfl⟩
  obtain ⟨losses, e⟩ := exists_mapM each
  have all := forall₂_of_mapM e
  refine ⟨losses, e, fun c q => ⟨fun hl => ?_, fun ⟨hc, hq⟩ => ?_⟩⟩
  · obtain ⟨c', hc', hl⟩ := exists_of_mem_right all _ hl
    obtain ⟨x, hx, e⟩ := Option.map_eq_some_iff.mp hl
    cases e
    exact ⟨hc', hx⟩
  · obtain ⟨l, hl, e⟩ := exists_of_mem_left all c hc
    rw [hq] at e
    cases e
    exact hl

/-- A pivot on a vacant cell with connected lines succeeds, whatever else is marked, if the quantities
are finite and the tolerance loses no ground. Of the losing cells that run empty the first one
leaves. -/
theorem exists_pivot [Scalar.Lawful α] (ha : p.allocation.Fits m n) (hb : p.basis.Fits m n)
    (hf : ∀ c ∈ Cell.grid m n, ∀ q, p.allocation.get? c = some q → Scalar.isFinite q = true)
    (slack : ∀ x : α, Scalar.isFinite x = true → x ≤ x + tol) {entering : Entering α}
    (hc : entering.cell ∈ p.basis.vacant)
    (hcon : Line.Connected p.basis.cells (.row entering.cell.row) (.column entering.cell.col)) :
    ∃ path low leaving next, p.pivot tol entering = .ok (next,
        ⟨entering.cell, entering.opportunityCost, leaving, Scalar.positivePart low⟩) ∧
      p.Pivots next tol entering.cell path low leaving ∧ next.allocation.Fits m n ∧
      next.basis.Fits m n ∧
      ∀ d ∈ losing (entering.cell :: path), ∀ q, p.allocation.get? d = some q →
        q ≤ Scalar.positivePart low + tol → d = leaving ∨ leaving.before d = true := by
  obtain ⟨grid, vacant⟩ := hb.mem_vacant.mp hc
  obtain ⟨path, eloop, closes⟩ := hb.exists_loop (α := α) hc hcon
  have loopGrid := hb.mem_grid_of_closes grid closes
  obtain ⟨losses, elosses, mem⟩ := exists_losingQuantities? ha loopGrid
  have finite : ∀ l ∈ losses, Scalar.isFinite l.2 = true := fun l hl =>
    hf l.1 (loopGrid _ ((losing_sublist _).subset ((mem _ _).mp hl).1)) l.2 ((mem _ _).mp hl).2
  have nonempty : losses ≠ [] := by
    have odd := closes.length_mod_two
    have : path ≠ [] := fun e => by
      rw [e] at odd
      cases odd
    obtain ⟨d, hd⟩ := List.exists_mem_of_ne_nil (losing (entering.cell :: path))
      (losing_cons_ne_nil this)
    obtain ⟨q, hq⟩ := ha.exists_get? (loopGrid d ((losing_sublist _).subset hd))
    exact List.ne_nil_of_mem ((mem d q).mpr ⟨hd, hq⟩)
  obtain ⟨low, leaving, eexchange, ⟨d, hlow⟩, least, ⟨q, hq, empty⟩, first⟩ :=
    exists_exchange? finite nonempty slack
  obtain ⟨allocation, eshift, hallocation, entries⟩ :=
    ha.exists_shift? (Scalar.positivePart low) tol loopGrid (closes.nodup_cons vacant)
  have leavingLoses := ((mem _ _).mp hq).1
  obtain ⟨b₁, e₁, hb₁, mem₁⟩ :=
    hb.erase? (loopGrid leaving ((losing_sublist _).subset leavingLoses))
  obtain ⟨b₂, e₂, hb₂, mem₂⟩ := hb₁.insert? grid
  have pivots : p.Pivots ⟨allocation, b₂⟩ tol entering.cell path low leaving :=
    { vacant := hc
      traced := eloop
      closes := closes
      low_mem := ⟨d, (mem _ _).mp hlow⟩
      low_le := fun d hd q hq => least (d, q) ((mem d q).mpr ⟨hd, hq⟩)
      leaving_mem := leavingLoses
      emptied := ⟨q, ((mem _ _).mp hq).2, empty⟩
      basis := fun d => by rw [mem₂, mem₁]
      entries := fun d hd => entries d (ha.cells_eq ▸ hd) }
  refine ⟨path, low, leaving, ⟨allocation, b₂⟩, ?_, pivots, hallocation, hb₂,
    fun d hd q hq => first (d, q) ((mem d q).mpr ⟨hd, hq⟩)⟩
  unfold Position.pivot
  simp only [eloop, elosses, eexchange, eshift, e₁, e₂, within, bind, Except.bind, pure,
    Except.pure]

namespace Sound

/-- The lines of any cell of the tableau are connected. -/
theorem connected (h : p.Sound m n) (hc : c ∈ Cell.grid m n) :
    Line.Connected p.basis.cells (.row c.row) (.column c.col) :=
  h.basis.connected h.isTree (Line.row_within hc) (Line.column_within hc)

theorem mem_grid_of_loop (h : p.Sound m n) (hc : c ∈ p.basis.vacant)
    (hp : p.basis.Closes c path) : ∀ d ∈ c :: path, d ∈ Cell.grid m n :=
  h.basis.mem_grid_of_closes (h.basis.mem_vacant.mp hc).1 hp

/-- A pivot leaves a spanning tree. -/
theorem isTree_of_pivots (h : p.Sound m n) (hp : p.Pivots next tol c path low leaving)
    (hb : next.basis.Fits m n) : next.basis.IsTree :=
  hp.closes.isTree h.isTree hp.leaving_mem_path (hb.rows_eq.trans h.basis.rows_eq.symm)
    (hb.cols_eq.trans h.basis.cols_eq.symm) (h.connected (h.basis.mem_vacant.mp hp.vacant).1)
    hp.basis

section Exact

variable [Scalar.Exact α]

theorem isFinite_circulated (hq : Scalar.isFinite quantity = true) (hx : Scalar.isFinite x = true) :
    Scalar.isFinite (circulated quantity tol loop d x) = true := by
  unfold circulated drained
  split
  · split
    · exact Scalar.Lawful.isFinite_zero
    · exact Scalar.Exact.isFinite_add hx (Scalar.Exact.isFinite_neg hq)
  · split
    · exact Scalar.Exact.isFinite_add hx hq
    · exact hx

/-- The leaving cell holds nothing in the end. -/
theorem get?_leaving (h : p.Sound m n) (ht : Scalar.isFinite tol = true)
    (hp : p.Pivots next tol c path low leaving) : next.allocation.get? leaving = some 0 := by
  have inside := fun d hd =>
    h.mem_grid_of_loop hp.vacant hp.closes d ((losing_sublist _).subset hd)
  obtain ⟨e, he, hlow⟩ := hp.low_mem
  obtain ⟨q, hq, empty⟩ := hp.emptied
  have low := Scalar.isFinite_positivePart (h.finite e (inside e he) _ hlow)
  have rest := Scalar.Exact.add_neg_le (h.finite leaving (inside _ hp.leaving_mem) q hq) low ht empty
  rw [hp.entries leaving (h.allocation.cells_eq ▸ inside _ hp.leaving_mem), hq, Option.map_some,
    circulated, if_pos hp.leaving_mem, drained, if_pos rest]

/-- A pivot ends in a sound position. -/
theorem of_pivots (h : p.Sound m n) (hp : p.Pivots next tol c path low leaving)
    (ha : next.allocation.Fits m n) (hb : next.basis.Fits m n) : next.Sound m n where
  allocation := ha
  basis := hb
  isTree := h.isTree_of_pivots hp hb
  finite d hd q hq := by
    obtain ⟨e, he, hlow⟩ := hp.low_mem
    have grid := h.mem_grid_of_loop hp.vacant hp.closes e ((losing_sublist _).subset he)
    rw [hp.entries d (h.allocation.cells_eq ▸ hd)] at hq
    obtain ⟨x, hx, rfl⟩ := Option.map_eq_some_iff.mp hq
    exact isFinite_circulated (Scalar.isFinite_positivePart (h.finite e grid low hlow))
      (h.finite d hd x hx)

/-- A pivot on a vacant cell of a sound position succeeds, and the next position is sound. -/
theorem pivot (h : p.Sound m n) (ht : Scalar.isFinite tol = true) (hpos : 0 ≤ tol)
    {entering : Entering α} (hc : entering.cell ∈ p.basis.vacant) :
    ∃ path low leaving next, p.pivot tol entering = .ok (next,
        ⟨entering.cell, entering.opportunityCost, leaving, Scalar.positivePart low⟩) ∧
      p.Pivots next tol entering.cell path low leaving ∧ next.Sound m n := by
  obtain ⟨path, low, leaving, next, e, pivots, hallocation, hbasis, -⟩ :=
    exists_pivot h.allocation h.basis h.finite (fun _ hx => Scalar.Lawful.le_add hx ht hpos) hc
      (h.connected (h.basis.mem_vacant.mp hc).1)
  exact ⟨path, low, leaving, next, e, pivots, h.of_pivots pivots hallocation hbasis⟩

end Exact

end Sound

end Position

end Freight
