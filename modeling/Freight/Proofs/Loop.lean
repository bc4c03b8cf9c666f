import Freight.Proofs.Scalar
import Freight.Proofs.Search
import Mathlib.Tactic.Ring
import Mathlib.Algebra.Group.Nat.Even
import Mathlib.Algebra.Ring.Parity

/-!
# Loops in a spanning tree

The way back from a line of a growing tree leads to where the tree grew from (`Grows.path_wayBack`).
So a vacant cell whose lines are connected has a loop (`Fits.exists_loop`): the cell itself, and a
chain of different marked cells from its column to its row (`Basis.Closes`). Other cells are refused
one (`Fits.loop_eq_noLoop`).

A cell of that chain can be exchanged for the vacant one: in a tree the chain is the only way, so
what is left falls apart without it and is joined again (`Closes.isTree`). The chain comes through no
line twice, so no line has two losing cells (`Closes.eq_of_losing`). Around a loop, values that
belong to lines cancel (`Closes.alternating_eq_zero`), so the costs around it come to what its first
cell costs beyond the values of its lines (`Closes.alternating_costs`).
-/

namespace Freight

variable {b b' : Basis} {m n : Nat} {c d e : Cell} {k l : Line} {known : List Line}
  {steps : List Step} {path : List Cell}

/-! ## The way back -/

theorem Step.wayBack_sublist (l : Line) (steps : List Step) :
    (wayBack l steps).Sublist (steps.map Step.cell) := by
  induction steps generalizing l with
  | nil => exact List.Sublist.slnil
  | cons s earlier ih =>
    unfold wayBack
    split
    · exact (ih s.source).cons_cons _
    · exact (ih l).cons _

namespace Basis

/-- The way back from a line of a growing tree: a chain to one of the lines that it grew from. The
last step comes first, and the steps before it grow a tree of their own. -/
theorem Grows.path_wayBack : ∀ {steps : List Step}, b.Grows known steps.reverse →
    ∀ l ∈ known ++ steps.map Step.target, ∃ k ∈ known, Line.Path l (Step.wayBack l steps) k
  | [], _, l, hl => ⟨l, by simpa using hl, rfl⟩
  | s :: earlier, h, l, hl => by
    rw [List.reverse_cons, grows_append] at h
    obtain ⟨grown, ⟨source, -, -, through⟩, -⟩ := h
    unfold Step.wayBack
    split
    · next arrived =>
      obtain ⟨k, hk, path⟩ := grown.path_wayBack s.source (by simpa using source)
      refine ⟨k, hk, ?_, ?_⟩
      · exact arrived ▸ Line.through_crossing s.source s.cell
      · rwa [← arrived, Step.target, through.crossing_crossing]
    · next passed =>
      refine grown.path_wayBack l ?_
      simp only [List.map_cons, List.mem_append, List.mem_cons] at hl ⊢
      rcases hl with hl | rfl | hl
      · exact .inl hl
      · exact absurd rfl passed
      · exact .inr hl

/-! ## Loops -/

/-- What a loop has beside its first cell: a chain of different marked cells from the column of that
cell back to its row. -/
structure Closes (b : Basis) (c : Cell) (path : List Cell) : Prop where
  leads : Line.Path (.column c.col) path (.row c.row)
  nodup : path.Nodup
  marked : ∀ d ∈ path, d ∈ b.cells

/-- A cell of the tableau and the rest of its loop lie in it. -/
theorem Fits.mem_grid_of_closes (h : b.Fits m n) (hc : c ∈ Cell.grid m n) (hp : b.Closes c path) :
    ∀ d ∈ c :: path, d ∈ Cell.grid m n :=
  List.forall_mem_cons.mpr ⟨hc, fun d hd => h.mem_grid (hp.marked d hd)⟩

/-- The way back from the column of a cell, after a search from its row that reached it. -/
theorem Fits.closes_wayBack (h : b.Fits m n) (hc : c ∈ Cell.grid m n)
    (hr : .column c.col ∈ ((b.search (.row c.row)).filter Step.fresh).map Step.target) :
    b.Closes c
      (Step.wayBack (.column c.col) ((b.search (.row c.row)).filter Step.fresh).reverse) := by
  have start : (Line.row c.row).Within m n := Line.row_within hc
  have grows := h.grows_search start
  generalize (b.search (.row c.row)).filter Step.fresh = steps at grows hr ⊢
  have sub := Step.wayBack_sublist (.column c.col) steps.reverse
  rw [List.map_reverse] at sub
  refine ⟨?_, sub.nodup (List.nodup_reverse.mpr grows.nodup_cells.1), fun d hd => ?_⟩
  · rw [← steps.reverse_reverse] at grows
    obtain ⟨k, hk, path⟩ := grows.path_wayBack (.column c.col) (by
      rw [List.map_reverse, List.mem_append, List.mem_reverse]
      exact .inr hr)
    rwa [List.mem_singleton.mp hk] at path
  · obtain ⟨s, hs, rfl⟩ := List.mem_map.mp (List.mem_reverse.mp (sub.subset hd))
    exact (grows.marked s hs).1

/-- The search from the row of a cell reaches its column if they are connected. -/
theorem Fits.column_reached (h : b.Fits m n) (hc : c ∈ Cell.grid m n)
    (hcon : Line.Connected b.cells (.row c.row) (.column c.col)) :
    .column c.col ∈ ((b.search (.row c.row)).filter Step.fresh).map Step.target := by
  rcases List.mem_cons.mp ((h.mem_reached_iff (Line.row_within hc)).mpr hcon) with e | hm
  · cases e
  · exact hm

/-- The loop of a vacant cell whose lines are connected: the cell, and the way back from its column. -/
theorem Fits.loop_eq {α : Type} (h : b.Fits m n) (hc : c ∈ b.vacant)
    (hcon : Line.Connected b.cells (.row c.row) (.column c.col)) :
    (b.loop c : Except (Cause α) (List Cell)) = .ok (c ::
      Step.wayBack (.column c.col) ((b.search (.row c.row)).filter Step.fresh).reverse) := by
  obtain ⟨grid, vacant⟩ := h.mem_vacant.mp hc
  have unmarked : b.contains c = false :=
    Bool.eq_false_iff.mpr fun hm => vacant ((h.contains_iff grid).mp hm)
  have inside : ¬ b.cols ≤ c.col := by
    rw [h.cols_eq]
    exact Nat.not_le.mpr (Cell.mem_grid.mp grid).2
  unfold loop
  rw [h.contains?_eq grid, unmarked]
  simp only [Freight.within, bind, Except.bind, Bool.false_eq_true, if_false, if_neg inside]
  rw [if_pos]
  simpa only [List.any_eq_true, decide_eq_true_eq] using
    List.mem_map.mp (h.column_reached grid hcon)

/-- A vacant cell whose lines are connected has a loop. -/
theorem Fits.exists_loop {α : Type} (h : b.Fits m n) (hc : c ∈ b.vacant)
    (hcon : Line.Connected b.cells (.row c.row) (.column c.col)) :
    ∃ path, (b.loop c : Except (Cause α) (List Cell)) = .ok (c :: path) ∧ b.Closes c path := by
  have grid := (h.mem_vacant.mp hc).1
  exact ⟨_, h.loop_eq hc hcon, h.closes_wayBack grid (h.column_reached grid hcon)⟩

/-- Every vacant cell of a spanning tree has a loop. -/
theorem Fits.exists_loop_of_isTree {α : Type} (h : b.Fits m n) (ht : b.IsTree) (hc : c ∈ b.vacant) :
    ∃ path, (b.loop c : Except (Cause α) (List Cell)) = .ok (c :: path) ∧ b.Closes c path := by
  have grid := (h.mem_vacant.mp hc).1
  exact h.exists_loop hc (h.connected ht (Line.row_within grid) (Line.column_within grid))

/-- Without a way from its row to its column by marked cells, and for a marked cell, no loop is
traced. -/
theorem Fits.loop_eq_noLoop {α : Type} (h : b.Fits m n) (hc : c ∈ Cell.grid m n)
    (hno : ¬ (c ∉ b.cells ∧ Line.Connected b.cells (.row c.row) (.column c.col))) :
    (b.loop c : Except (Cause α) (List Cell)) = .error (.noLoop c) := by
  have inside : ¬ b.cols ≤ c.col := by
    rw [h.cols_eq]
    exact Nat.not_le.mpr (Cell.mem_grid.mp hc).2
  unfold loop
  rw [h.contains?_eq hc]
  simp only [Freight.within, bind, Except.bind, if_neg inside]
  split
  · rfl
  · next vacant =>
    rw [if_neg]
    rw [List.any_eq_true]
    rintro ⟨s, hs, arrived⟩
    refine hno ⟨fun hm => vacant (h.contains_of_mem hm), ?_⟩
    refine (h.mem_reached_iff (Line.row_within hc)).mp (List.mem_cons_of_mem _ ?_)
    exact List.mem_map.mpr ⟨s, hs, of_decide_eq_true arrived⟩

namespace Closes

theorem nodup_cons (h : b.Closes c path) (hc : c ∉ b.cells) : (c :: path).Nodup :=
  List.nodup_cons.mpr ⟨fun hm => hc (h.marked c hm), h.nodup⟩

/-- A loop has as many gaining cells as losing ones. -/
theorem length_mod_two (h : b.Closes c path) : path.length % 2 = 1 :=
  h.leads.length_mod_two

/-- In a forest the chain of a loop is the only way between the lines of its first cell. -/
theorem apart (h : b.Closes c path) (ha : Acyclic b.cells) (he : e ∈ path) :
    ¬ Line.Connected (b.cells.filter (· ≠ e)) (.row c.row) (.column c.col) := by
  intro hcon
  obtain ⟨before, after, rfl⟩ := List.append_of_mem he
  obtain ⟨l, first, through, last⟩ := Line.path_append.mp h.leads
  have others : ∀ d ∈ before ++ after, d ∈ b.cells.filter (· ≠ e) := by
    intro d hd
    have nodup := List.nodup_cons.mp (List.nodup_middle.mp h.nodup)
    have ne : d ≠ e := ne_of_mem_of_not_mem hd nodup.1
    refine List.mem_filter.mpr ⟨h.marked d ?_, by simpa using ne⟩
    rcases List.mem_append.mp hd with hd | hd
    · exact List.mem_append_left _ hd
    · exact List.mem_append_right _ (List.mem_cons_of_mem e hd)
  -- Around the loop without `e`, from one of its lines to the other.
  have around : Line.Connected (b.cells.filter (· ≠ e)) l (l.crossing e) :=
    (first.connected fun d hd => others d (List.mem_append_left _ hd)).symm.trans
      (hcon.symm.trans (last.connected fun d hd => others d (List.mem_append_right _ hd)).symm)
  refine ha.apart (h.marked e he) ?_
  obtain rfl | rfl := through.eq_or
  · exact around
  · exact around.symm

/-- A tree stays a tree when the vacant cell takes the place of a cell of its loop. -/
theorem isTree (h : b.Closes c path) (ht : b.IsTree) (he : e ∈ path) (hr : b'.rows = b.rows)
    (hcols : b'.cols = b.cols) (hcon : Line.Connected b.cells (.row c.row) (.column c.col))
    (hmem : ∀ d, d ∈ b'.cells ↔ d = c ∨ d ∈ b.cells ∧ d ≠ e) : b'.IsTree := by
  have hmem' : ∀ d, d ∈ b'.cells ↔ d ∈ c :: b.cells.filter (· ≠ e) := by
    intro d
    rw [hmem, List.mem_cons, List.mem_filter]
    simp
  obtain ⟨acyclic, connected⟩ :=
    ht.acyclic.exchange (h.marked e he) hcon (h.apart ht.acyclic he)
  refine ⟨acyclic.mono fun d hd => (hmem' d).mp hd, fun k l hk hl => ?_⟩
  rw [hr, hcols] at hk hl
  exact (connected k l (ht.connected k l hk hl)).mono fun d hd => (hmem' d).mpr hd

end Closes

end Basis

/-! ## Losing cells -/

section Losing

variable {β : Type}

theorem losing_sublist (xs : List β) : (losing xs).Sublist xs := by
  fun_induction losing xs with
  | case1 x y rest ih => exact (ih.cons_cons y).cons x
  | case2 xs h => exact List.nil_sublist xs

/-- The first cell of a loop gains. -/
theorem losing_cons_sublist (x : β) (xs : List β) : (losing (x :: xs)).Sublist xs := by
  cases xs with
  | nil => exact List.Sublist.slnil
  | cons y rest => exact (losing_sublist rest).cons_cons y

theorem losing_cons_ne_nil {x : β} {xs : List β} (h : xs ≠ []) : losing (x :: xs) ≠ [] := by
  cases xs with
  | nil => exact absurd rfl h
  | cons y rest => exact List.cons_ne_nil y _

/-- Where the recursion of `losing` ends. -/
theorem eq_nil_or_singleton {xs : List β} (h : ∀ x y rest, xs = x :: y :: rest → False) :
    xs = [] ∨ ∃ x, xs = [x] := by
  cases xs with
  | nil => exact .inl rfl
  | cons x rest =>
    cases rest with
    | nil => exact .inr ⟨x, rfl⟩
    | cons y rest => exact (h x y rest rfl).elim

end Losing

/-- Along a chain that comes through no line twice, no line passes through two losing cells. -/
theorem Line.Path.pairwise_losing (c : Cell) : ∀ {path : List Cell} {k : Line}, Path k path l →
    (along k path).Nodup →
      (losing (c :: path)).Pairwise fun d e => ∀ m : Line, m.Through d → ¬ m.Through e
  | [], _, _, _ => .nil
  | [_], _, _, _ => List.pairwise_singleton _ _
  | d :: e :: rest, k, h, hn => by
    obtain ⟨through, -, h⟩ := h
    obtain ⟨first, hn⟩ := List.nodup_cons.mp hn
    obtain ⟨second, hn⟩ := List.nodup_cons.mp hn
    refine List.pairwise_cons.mpr ⟨fun f hf m hd he => ?_, pairwise_losing e h hn⟩
    have later := h.mem_along ((losing_cons_sublist e rest).subset hf) he
    rcases through.eq_or_crossing hd with rfl | rfl
    · exact first (List.mem_cons_of_mem _ later)
    · exact second later

/-- In a forest a line passes through at most one losing cell of a loop. -/
theorem Basis.Closes.eq_of_losing (h : b.Closes c path) (ha : Acyclic b.cells)
    (hd : d ∈ losing (c :: path)) (he : e ∈ losing (c :: path)) (hld : l.Through d)
    (hle : l.Through e) : d = e := by
  have apart := h.leads.pairwise_losing c (h.leads.nodup_along ha h.nodup h.marked)
  have : Std.Symm fun d e : Cell => ∀ m : Line, m.Through d → ¬ m.Through e :=
    ⟨fun _ _ hs m hd he => hs m he hd⟩
  by_contra hne
  exact apart.forall hd he hne l hld hle

/-! ## Values that belong to lines -/

section Alternating

theorem alternating_cons : ∀ (x : Rat) (xs : List Rat),
    alternating (x :: xs) = x - alternating xs
  | x, [] => (sub_zero x).symm
  | x, [y] => by
    show x - y + 0 = x - y
    exact add_zero _
  | x, y :: z :: zs => by
    show x - y + alternating (z :: zs) = x - alternating (y :: z :: zs)
    rw [alternating_cons y (z :: zs)]
    ring

/-- Along a chain, sums of the values of crossing lines telescope. -/
theorem Line.Path.alternating_eq (w : Line → Rat) (h : Line.Path k path l) :
    alternating (path.map fun c => w (.row c.row) + w (.column c.col)) =
      w k - (-1) ^ path.length * w l := by
  induction path generalizing k with
  | nil =>
    obtain rfl : k = l := h
    show (0 : Rat) = w k - (-1) ^ 0 * w k
    ring
  | cons c cs ih =>
    obtain ⟨through, h⟩ := h
    have pair : w (.row c.row) + w (.column c.col) = w k + w (k.crossing c) := by
      obtain rfl | rfl := through.eq_or
      · rfl
      · exact add_comm _ _
    rw [List.map_cons, alternating_cons, ih h, pair, List.length_cons, pow_succ]
    ring

/-- Around a loop, sums of the values of crossing lines cancel. -/
theorem Basis.Closes.alternating_eq_zero (h : b.Closes c path) (w : Line → Rat) :
    alternating ((c :: path).map fun c => w (.row c.row) + w (.column c.col)) = 0 := by
  have odd : (-1 : Rat) ^ path.length = -1 :=
    Odd.neg_one_pow (Nat.odd_iff.mpr h.length_mod_two)
  rw [List.map_cons, alternating_cons, h.leads.alternating_eq w, odd]
  ring

/-- If the marked cells cost what the values of their lines come to, the costs around a loop come to
what its first cell costs beyond that. -/
theorem Basis.Closes.alternating_costs (h : b.Closes c path) (w : Line → Rat) {f : Cell → Rat}
    (tight : ∀ d ∈ b.cells, f d = w (.row d.row) + w (.column d.col)) :
    alternating ((c :: path).map f) = f c - (w (.row c.row) + w (.column c.col)) := by
  have around := h.alternating_eq_zero w
  have same : path.map f = path.map fun d => w (.row d.row) + w (.column d.col) :=
    List.map_congr_left fun d hd => tight d (h.marked d hd)
  rw [List.map_cons, alternating_cons] at around
  rw [List.map_cons, alternating_cons, same]
  linarith

end Alternating

end Freight
