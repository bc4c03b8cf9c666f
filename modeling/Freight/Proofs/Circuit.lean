import Freight.Proofs.Loop
import Mathlib.Data.List.Rotate

/-!
# Loops as circuits

The cells of a chain and the lines that it leads through stand side by side: each cell changes from
one line to the next (`Path.exists_along`), and rows and columns take turns (`isRow_of_along`). A
chain of different cells from a cell's column back to its row therefore makes up a closed loop with
it (`Path.isLoop`), and a closed loop that begins with the cell comes from such a chain
(`IsLoop.path_row`).

The tree that a search grows has only one way back from each line, so the chain of a traced loop comes
through no line twice, whatever else is marked (`Grows.nodup_along_wayBack`), and every line that the
loop touches passes through two of its cells (`Path.meetsTwice`). In a forest there is only
one chain between two lines (`Path.eq_of_acyclic`).

Main statement: for which cells a loop is traced, what it looks like, and that a spanning tree with
the cell has no other (`Basis.loop_traces`).
-/

namespace Freight

variable {b : Basis} {m n i : Nat} {c d x : Cell} {k l r : Line} {known : List Line}
  {steps : List Step} {cs ds path loop : List Cell}

namespace Line

/-- A line meets a list of cells just twice, in one cell at an even position and in one at an odd
position. -/
def MeetsTwice (l : Line) (cells : List Cell) : Prop :=
  ∃ i j c d, i % 2 = 0 ∧ j % 2 = 1 ∧ cells[i]? = some c ∧ cells[j]? = some d ∧ l.Through c ∧
    l.Through d ∧ ∀ k e, cells[k]? = some e → l.Through e → k = i ∨ k = j

/-! ## The lines of a chain -/

theorem length_along (k : Line) (cs : List Cell) : (along k cs).length = cs.length + 1 := by
  induction cs generalizing k with
  | nil => rfl
  | cons c cs ih => rw [along, List.length_cons, ih, List.length_cons]

theorem along_zero (k : Line) (cs : List Cell) : (along k cs)[0]? = some k := by
  cases cs <;> rfl

/-- Each cell of a chain changes from one of its lines to the next. -/
theorem Path.exists_along (h : Path k cs l) (hc : cs[i]? = some c) :
    ∃ r, (along k cs)[i]? = some r ∧ r.Through c ∧ (along k cs)[i + 1]? = some (r.crossing c) := by
  induction cs generalizing k i with
  | nil => cases hc
  | cons d cs ih =>
    obtain ⟨through, h⟩ := h
    cases i with
    | zero =>
      cases hc
      exact ⟨k, rfl, through, along_zero _ cs⟩
    | succ i => exact ih h hc

theorem Path.along_length (h : Path k cs l) : (along k cs)[cs.length]? = some l := by
  induction cs generalizing k with
  | nil => exact congrArg some h
  | cons c cs ih => exact ih h.2

/-- Rows and columns take turns along a chain. -/
theorem isRow_of_along (h : (along k cs)[i]? = some r) :
    r.isRow = if i % 2 = 0 then k.isRow else !k.isRow := by
  induction cs generalizing k i with
  | nil =>
    cases i with
    | zero =>
      cases h
      rfl
    | succ i => cases h
  | cons c cs ih =>
    cases i with
    | zero =>
      cases h
      rfl
    | succ i =>
      rw [ih h, isRow_crossing, Bool.not_not]
      rcases Nat.mod_two_eq_zero_or_one i with e | e <;> simp [e, Nat.add_mod]

/-- A chain taken backwards. -/
theorem Path.reverse (h : Path k cs l) : Path l cs.reverse k := by
  induction cs generalizing k with
  | nil => exact Eq.symm h
  | cons c cs ih =>
    obtain ⟨through, h⟩ := h
    rw [List.reverse_cons]
    exact path_append.mpr
      ⟨k.crossing c, ih h, through_crossing k c, through.crossing_crossing⟩

/-- In a forest there is only one chain of different cells between two lines. -/
theorem Path.eq_of_acyclic (ha : Acyclic ds) : ∀ {cs cs' : List Cell} {k : Line}, Path k cs l →
    Path k cs' l → cs.Nodup → cs'.Nodup → (∀ c ∈ cs, c ∈ ds) → (∀ c ∈ cs', c ∈ ds) → cs = cs'
  | [], [], _, _, _, _, _, _, _ => rfl
  | [], c :: cs', k, h, h', _, hn', _, hs' => by
    have simple := h'.nodup_along ha hn' hs'
    have back := List.mem_of_getElem? h'.2.along_length
    rw [← show k = l from h] at back
    exact absurd back (List.nodup_cons.mp simple).1
  | c :: cs, [], k, h, h', hn, _, hs, _ => by
    have simple := h.nodup_along ha hn hs
    have back := List.mem_of_getElem? h.2.along_length
    rw [← show k = l from h'] at back
    exact absurd back (List.nodup_cons.mp simple).1
  | c :: cs, d :: cs', k, h, h', hn, hn', hs, hs' => by
    obtain ⟨hc, hn⟩ := List.nodup_cons.mp hn
    by_cases e : c = d
    · subst e
      rw [eq_of_acyclic ha h.2 h'.2 hn (List.nodup_cons.mp hn').2
        (fun x hx => hs x (List.mem_cons_of_mem c hx))
        fun x hx => hs' x (List.mem_cons_of_mem c hx)]
    · -- Both chains lead on from `k`, so without `c` there is still a way around it.
      exfalso
      have simple := h'.nodup_along ha hn' hs'
      have hc' : c ∉ d :: cs' := by
        intro hm
        rcases List.mem_cons.mp hm with hm | hm
        · exact e hm
        · exact (List.nodup_cons.mp simple).1 (h'.2.mem_along hm h.1)
      have others : ∀ x ∈ ds, x ≠ c → x ∈ ds.filter (· ≠ c) := fun x hx hne =>
        List.mem_filter.mpr ⟨hx, by simpa using hne⟩
      have first : Connected (ds.filter (· ≠ c)) k l := h'.connected fun x hx =>
        others x (hs' x hx) (ne_of_mem_of_not_mem hx hc')
      have second : Connected (ds.filter (· ≠ c)) (k.crossing c) l := h.2.connected fun x hx =>
        others x (hs x (List.mem_cons_of_mem c hx)) (ne_of_mem_of_not_mem hx hc)
      have around := first.trans second.symm
      refine ha.apart (hs c List.mem_cons_self) ?_
      obtain rfl | rfl := h.1.eq_or
      · exact around
      · exact around.symm

/-! ## Around a loop -/

section Around

variable (h : Path (column c.col) path (row c.row))

include h

/-- The line that a loop comes to after so many cells passes through the cell there and the next
one, and after the last cell comes the first. -/
theorem Path.through_of_along (hr : (along (column c.col) path)[i]? = some r) :
    (∀ x, (c :: path)[i]? = some x → r.Through x) ∧
      ∀ x, (c :: path)[(i + 1) % (c :: path).length]? = some x → r.Through x := by
  have short : i < path.length + 1 := by
    rw [← length_along]
    exact (List.getElem?_eq_some_iff.mp hr).1
  constructor
  · intro x hx
    cases i with
    | zero =>
      cases hx
      rw [along_zero] at hr
      cases hr
      exact through_column c
    | succ i =>
      obtain ⟨r', -, -, next⟩ := h.exists_along hx
      rw [hr] at next
      cases next
      exact through_crossing r' x
  · intro x hx
    rw [List.length_cons] at hx
    rcases Nat.lt_succ_iff_lt_or_eq.mp short with inner | rfl
    · rw [Nat.mod_eq_of_lt (Nat.succ_lt_succ inner)] at hx
      obtain ⟨r', hr', through, -⟩ := h.exists_along hx
      rw [hr] at hr'
      cases hr'
      exact through
    · rw [Nat.mod_self] at hx
      cases hx
      rw [h.along_length] at hr
      cases hr
      exact through_row c

/-- A line through a cell of a loop is one that the loop comes to, before the cell or after it. -/
theorem Path.along_of_through (hx : (c :: path)[i]? = some x) (hr : r.Through x) :
    (along (column c.col) path)[i]? = some r ∨
      ∃ j, (along (column c.col) path)[j]? = some r ∧ i = (j + 1) % (c :: path).length := by
  cases i with
  | zero =>
    cases hx
    rcases hr.eq_or with rfl | rfl
    · exact .inr ⟨path.length, h.along_length, (Nat.mod_self _).symm⟩
    · exact .inl (along_zero _ path)
  | succ i =>
    have short : i + 1 < (c :: path).length := (List.getElem?_eq_some_iff.mp hx).1
    obtain ⟨r', hr', through, next⟩ := h.exists_along hx
    rcases through.eq_or_crossing hr with rfl | rfl
    · exact .inr ⟨i, hr', (Nat.mod_eq_of_lt short).symm⟩
    · exact .inl next

/-- A cell and a chain of different ones from its column to its row make up a closed loop. -/
theorem Path.isLoop (hn : (c :: path).Nodup) (long : 3 ≤ path.length) : IsLoop (c :: path) := by
  have odd : path.length % 2 = 1 := h.length_mod_two
  have exists_line : ∀ {k : Nat} {x : Cell}, (c :: path)[k]? = some x →
      ∃ r, (along (column c.col) path)[k]? = some r := by
    intro k x hx
    refine ⟨_, List.getElem?_eq_getElem (h := ?_)⟩
    rw [length_along]
    exact (List.getElem?_eq_some_iff.mp hx).1
  refine ⟨hn, Nat.succ_le_succ long, ?_, fun k x y even hx hy => ?_, fun k x y odd hx hy => ?_⟩
  · rw [List.length_cons]
    omega
  · obtain ⟨r, hr⟩ := exists_line hx
    have short := (List.getElem?_eq_some_iff.mp hy).1
    rw [← Nat.mod_eq_of_lt short] at hy
    have first := (h.through_of_along hr).1 x hx
    have second := (h.through_of_along hr).2 y hy
    have kind := isRow_of_along hr
    rw [if_pos even] at kind
    cases r with
    | row i => cases kind
    | column j => exact Eq.trans first (Eq.symm second)
  · obtain ⟨r, hr⟩ := exists_line hx
    have first := (h.through_of_along hr).1 x hx
    have second := (h.through_of_along hr).2 y hy
    have kind := isRow_of_along hr
    rw [if_neg (by omega)] at kind
    cases r with
    | row i => exact Eq.trans first (Eq.symm second)
    | column j => cases kind

/-- If no line comes twice, every line that the loop touches meets it just twice. -/
theorem Path.meetsTwice (hn : (along (column c.col) path).Nodup) (hx : x ∈ c :: path)
    (hr : r.Through x) : r.MeetsTwice (c :: path) := by
  have odd : path.length % 2 = 1 := h.length_mod_two
  -- The line comes after so many cells, between the cell there and the next one.
  obtain ⟨j, hj⟩ : ∃ j, (along (column c.col) path)[j]? = some r := by
    obtain ⟨i, hi⟩ := List.getElem?_of_mem hx
    rcases h.along_of_through hi hr with hj | ⟨j, hj, -⟩
    · exact ⟨i, hj⟩
    · exact ⟨j, hj⟩
  have short : j < path.length + 1 := by
    rw [← length_along]
    exact (List.getElem?_eq_some_iff.mp hj).1
  have same : ∀ {k : Nat}, (along (column c.col) path)[k]? = some r → k = j := fun hk =>
    (List.getElem?_inj (List.getElem?_eq_some_iff.mp hk).1 hn).mp (hk.trans hj.symm)
  have only : ∀ k z, (c :: path)[k]? = some z → r.Through z →
      k = j ∨ k = (j + 1) % (c :: path).length := by
    intro k z hz through
    rcases h.along_of_through hz through with hk | ⟨k', hk, rfl⟩
    · exact .inl (same hk)
    · exact .inr (by rw [same hk])
  have at_j := List.getElem?_eq_getElem (l := c :: path) (i := j) short
  have after_j := List.getElem?_eq_getElem (l := c :: path) (i := (j + 1) % (c :: path).length)
    (Nat.mod_lt _ (Nat.succ_pos _))
  have through := (h.through_of_along hj).1 _ at_j
  have through' := (h.through_of_along hj).2 _ after_j
  have parity : ((j + 1) % (c :: path).length) % 2 = (j + 1) % 2 := by
    refine Nat.mod_mod_of_dvd _ (Nat.dvd_of_mod_eq_zero ?_)
    rw [List.length_cons]
    omega
  rcases Nat.mod_two_eq_zero_or_one j with e | e
  · exact ⟨j, _, _, _, e, by omega, at_j, after_j, through, through', only⟩
  · exact ⟨_, j, _, _, by omega, e, after_j, at_j, through', through,
      fun k z hz hr => (only k z hz hr).symm⟩

end Around

/-! ## Closed loops as chains -/

/-- Cells that share columns and rows in turn, from a row on and an even number of them, lead to the
row of the last one. -/
theorem path_of_shared {i : Nat} (first : ∀ x, cs[0]? = some x → x.row = i)
    (columns : ∀ k x y, k % 2 = 0 → cs[k]? = some x → cs[k + 1]? = some y → x.col = y.col)
    (rows : ∀ k x y, k % 2 = 1 → cs[k]? = some x → cs[k + 1]? = some y → x.row = y.row)
    (even : cs.length % 2 = 0) : Path (row i) cs (row ((cs.getLast?.map Cell.row).getD i)) := by
  fun_induction losing cs generalizing i with
  | case1 c d rest ih =>
    have turn : c.col = d.col := columns 0 c d rfl rfl rfl
    have last : ((c :: d :: rest).getLast?.map Cell.row).getD i =
        (rest.getLast?.map Cell.row).getD d.row := by
      cases rest <;> simp [List.getLast?_cons]
    rw [last]
    refine ⟨first c rfl, turn.symm, ih (fun x hx => (rows 1 d x rfl rfl hx).symm)
      (fun k x y hk hx hy => ?_) (fun k x y hk hx hy => ?_) ?_⟩
    · exact columns (k + 2) x y (by omega) hx hy
    · exact rows (k + 2) x y (by omega) hx hy
    · simp only [List.length_cons] at even
      omega
  | case2 cs h =>
    obtain rfl | ⟨c, rfl⟩ := eq_nil_or_singleton h
    · rfl
    · cases even

end Line

/-- A closed loop is a chain that leads from the row of its first cell back to it. -/
theorem IsLoop.path_row (h : IsLoop loop) (hc : loop[0]? = some c) :
    Line.Path (.row c.row) loop (.row c.row) := by
  have chain := Line.path_of_shared (i := c.row)
    (fun x hx => by rw [hc] at hx; cases hx; rfl) h.column
    (fun k x y odd hx hy => h.row k x y odd hx (by
      rwa [Nat.mod_eq_of_lt (List.getElem?_eq_some_iff.mp hy).1])) h.even
  have long := h.four_le
  have even := h.even
  have last := List.getElem?_eq_getElem (l := loop) (i := loop.length - 1) (by omega)
  have back := h.row (loop.length - 1) _ c (by omega) last (by
    rwa [Nat.sub_add_cancel (by omega), Nat.mod_self])
  rwa [List.getLast?_eq_getElem?, last, Option.map_some, Option.getD_some, back] at chain

namespace Basis

/-! ## Traced loops -/

/-- The way back from a line of a growing tree comes through no line twice, and only through lines of
the tree: each step leads to a line that those before it had not reached. -/
theorem Grows.nodup_along_wayBack : ∀ {steps : List Step}, b.Grows known steps.reverse →
    ∀ l ∈ known ++ steps.map Step.target, (Line.along l (Step.wayBack l steps)).Nodup ∧
      ∀ r ∈ Line.along l (Step.wayBack l steps), r ∈ known ++ steps.map Step.target
  | [], _, l, hl => by
    refine ⟨List.nodup_singleton l, fun r hr => ?_⟩
    rwa [List.mem_singleton.mp hr]
  | s :: earlier, h, l, hl => by
    rw [List.reverse_cons, grows_append] at h
    obtain ⟨grown, ⟨source, target, -, through⟩, -⟩ := h
    rw [List.map_reverse, List.mem_append, List.mem_reverse, ← List.mem_append] at source target
    have wider : ∀ r ∈ known ++ earlier.map Step.target,
        r ∈ known ++ (s :: earlier).map Step.target := by
      intro r hr
      rw [List.map_cons]
      exact List.perm_middle.symm.subset (List.mem_cons_of_mem _ hr)
    unfold Step.wayBack
    split
    · next arrived =>
      obtain ⟨simple, inside⟩ := grown.nodup_along_wayBack s.source source
      have turn : l.crossing s.cell = s.source := by
        rw [← arrived, Step.target, through.crossing_crossing]
      rw [Line.along, turn]
      refine ⟨List.nodup_cons.mpr ⟨fun hm => ?_, simple⟩, fun r hr => ?_⟩
      · exact target (arrived ▸ inside l hm)
      · rcases List.mem_cons.mp hr with rfl | hr
        · exact hl
        · exact wider r (inside r hr)
    · next passed =>
      have old : l ∈ known ++ earlier.map Step.target := by
        rw [List.map_cons] at hl
        exact (List.mem_cons.mp (List.perm_middle.subset hl)).resolve_left (Ne.symm passed)
      obtain ⟨simple, inside⟩ := grown.nodup_along_wayBack l old
      exact ⟨simple, fun r hr => wider r (inside r hr)⟩

/-- A traced loop: its cell is vacant and the marked cells connect its lines, and the rest of it is a
chain of different marked cells that comes through no line twice. -/
theorem Fits.of_loop {α : Type} (h : b.Fits m n) (hc : c ∈ Cell.grid m n)
    (e : (b.loop c : Except (Cause α) (List Cell)) = .ok loop) :
    c ∉ b.cells ∧ Line.Connected b.cells (.row c.row) (.column c.col) ∧
      ∃ path, loop = c :: path ∧ b.Closes c path ∧ (Line.along (.column c.col) path).Nodup := by
  by_cases traced : c ∉ b.cells ∧ Line.Connected b.cells (.row c.row) (.column c.col)
  · obtain ⟨vacant, hcon⟩ := traced
    rw [h.loop_eq (h.mem_vacant.mpr ⟨hc, vacant⟩) hcon] at e
    have reached := h.column_reached hc hcon
    have grows := h.grows_search (Line.row_within hc)
    rw [← List.reverse_reverse ((b.search (.row c.row)).filter Step.fresh)] at grows
    refine ⟨vacant, hcon, _, (Except.ok.inj e).symm, h.closes_wayBack hc reached,
      (grows.nodup_along_wayBack _ ?_).1⟩
    rw [List.map_reverse, List.mem_append, List.mem_reverse]
    exact .inr reached
  · rw [h.loop_eq_noLoop hc traced] at e
    cases e

/-- A traced loop has two cells beside its own in the row and column of that, and so a fourth one. -/
theorem Closes.three_le (h : b.Closes c path) (hc : c ∉ b.cells) : 3 ≤ path.length := by
  have odd := h.length_mod_two
  by_contra short
  obtain ⟨d, rfl⟩ := List.length_eq_one_iff.mp (show path.length = 1 by omega)
  obtain ⟨through, turn⟩ := h.leads
  have row : d.row = c.row := Line.row.inj turn
  have column : d.col = c.col := through
  have same : d = c := congrArg₂ Cell.mk row column
  exact hc (same ▸ h.marked d List.mem_cons_self)

/-! ## The only loop -/

/-- A closed loop cannot consist of the cells of a forest. -/
theorem exists_not_mem_of_isLoop (ha : Acyclic ds) (h : IsLoop loop) : ∃ d ∈ loop, d ∉ ds := by
  by_contra none'
  simp only [not_exists, not_and, not_not] at none'
  cases loop with
  | nil => exact absurd h.four_le (by decide)
  | cons d rest =>
    have hd := (List.nodup_cons.mp h.nodup).1
    have chain := (h.path_row rfl).2
    refine ha.apart (none' d List.mem_cons_self) (chain.connected fun x hx => ?_).symm
    have ne : x ≠ d := ne_of_mem_of_not_mem hx hd
    exact List.mem_filter.mpr ⟨none' x (List.mem_cons_of_mem d hx), by simpa using ne⟩

/-- A closed chain from one of its cells on, in one direction or the other. -/
theorem path_of_rotated {left right : List Cell}
    (h : Line.Path l (left ++ c :: right) l) :
    Line.Path (.column c.col) (right ++ left) (.row c.row) ∨
      Line.Path (.column c.col) (right ++ left).reverse (.row c.row) := by
  obtain ⟨k, first, through, last⟩ := Line.path_append.mp h
  have around := Line.path_append.mpr ⟨l, last, first⟩
  obtain rfl | rfl := through.eq_or
  · exact .inl around
  · exact .inr around.reverse

/-- In a forest with one more cell there is only one closed loop, up to the cell where it begins and
the direction. -/
theorem Closes.isRotated (h : b.Closes c path) (ha : Acyclic b.cells) (hloop : IsLoop loop)
    (hs : ∀ d ∈ loop, d = c ∨ d ∈ b.cells) :
    loop.IsRotated (c :: path) ∨ loop.reverse.IsRotated (c :: path) := by
  obtain ⟨d, hd, out⟩ := exists_not_mem_of_isLoop ha hloop
  obtain rfl := (hs d hd).resolve_right out
  have first := List.getElem?_eq_getElem (l := loop) (i := 0)
    (Nat.lt_of_lt_of_le (by decide) hloop.four_le)
  have closed := hloop.path_row first
  have nodup := hloop.nodup
  obtain ⟨left, right, rfl⟩ := List.append_of_mem hd
  have perm : (left ++ d :: right).Perm (d :: (right ++ left)) :=
    List.perm_middle.trans (List.perm_append_comm.cons d)
  obtain ⟨new, nodup⟩ := List.nodup_cons.mp (perm.nodup_iff.mp nodup)
  have marked : ∀ x ∈ right ++ left, x ∈ b.cells := fun x hx =>
    (hs x (perm.mem_iff.mpr (List.mem_cons_of_mem d hx))).resolve_left
      (ne_of_mem_of_not_mem hx new)
  rcases path_of_rotated closed with around | around
  · left
    rw [← around.eq_of_acyclic ha h.leads nodup h.nodup marked h.marked]
    exact List.isRotated_append
  · right
    rw [← around.eq_of_acyclic ha h.leads (List.nodup_reverse.mpr nodup) h.nodup
      (fun x hx => marked x (List.mem_reverse.mp hx)) h.marked]
    simp only [List.reverse_append, List.reverse_cons, List.append_assoc, List.singleton_append]
    exact List.isRotated_append

/-- For which cells of a tableau a loop is traced, and what it looks like. There is one exactly for a
vacant cell whose row and column the marked cells connect; any other cell is refused. It begins with
the cell, and marked cells follow. It is a closed loop, whatever else is marked, and every line that it
touches passes through two of its cells, one at an even and one at an odd position. On a spanning tree
it is the only closed loop of marked cells and this one, up to where it begins and the direction. -/
theorem loop_traces {α : Type} {m n : Nat} (b : Basis) (c : Cell) (hb : b.Fits m n)
    (hc : c ∈ Cell.grid m n) :
    ((∃ loop, (b.loop c : Except (Cause α) (List Cell)) = .ok loop) ↔
        c ∉ b.cells ∧ Line.Connected b.cells (.row c.row) (.column c.col)) ∧
      (∀ e, (b.loop c : Except (Cause α) (List Cell)) = .error e → e = .noLoop c) ∧
      ∀ loop, (b.loop c : Except (Cause α) (List Cell)) = .ok loop →
        (∃ path, loop = c :: path ∧ ∀ d ∈ path, d ∈ b.cells) ∧ IsLoop loop ∧
        (∀ d ∈ loop, ∀ l : Line, l.Through d → l.MeetsTwice loop) ∧
        (b.IsTree → ∀ other, IsLoop other → (∀ d ∈ other, d = c ∨ d ∈ b.cells) →
          other.IsRotated loop ∨ other.reverse.IsRotated loop) := by
  have traced : c ∉ b.cells ∧ Line.Connected b.cells (.row c.row) (.column c.col) →
      ∃ loop, (b.loop c : Except (Cause α) (List Cell)) = .ok loop := fun ⟨vacant, hcon⟩ =>
    ⟨_, hb.loop_eq (hb.mem_vacant.mpr ⟨hc, vacant⟩) hcon⟩
  refine ⟨⟨fun ⟨loop, e⟩ => ?_, traced⟩, fun cause e => ?_, fun loop e => ?_⟩
  · obtain ⟨vacant, hcon, -⟩ := hb.of_loop hc e
    exact ⟨vacant, hcon⟩
  · by_cases closes : c ∉ b.cells ∧ Line.Connected b.cells (.row c.row) (.column c.col)
    · obtain ⟨loop, e'⟩ := traced closes
      rw [e] at e'
      cases e'
    · rw [hb.loop_eq_noLoop hc closes] at e
      exact (Except.error.inj e).symm
  · obtain ⟨vacant, -, path, rfl, closes, simple⟩ := hb.of_loop hc e
    refine ⟨⟨path, rfl, closes.marked⟩, ?_, fun d hd l hl => ?_, fun tree other hother hs => ?_⟩
    · exact closes.leads.isLoop (closes.nodup_cons vacant) (closes.three_le vacant)
    · exact closes.leads.meetsTwice simple hd hl
    · exact closes.isRotated tree.acyclic hother hs

/-- A staircase through three rows and three columns. -/
def staircase : Basis :=
  ⟨⟨3, 3, #[true, true, false, false, true, true, false, false, true]⟩, 5⟩

theorem fits_staircase : staircase.Fits 3 3 := ⟨⟨rfl, rfl⟩, rfl, rfl⟩

theorem isTree_staircase : staircase.IsTree :=
  (fits_staircase.isSpanningTree_iff (by decide)).mp rfl

/-- The staircase with its first cell moved to the opposite corner. -/
def movedStaircase : Basis :=
  ⟨⟨3, 3, #[false, true, false, false, true, true, true, false, true]⟩, 5⟩

/-- The opposite corner closes a loop with the whole staircase. Moving the first cell there makes it
close the same loop, in the other direction. -/
theorem loop_traces_staircase :
    staircase.Fits 3 3 ∧ Cell.mk 2 0 ∈ Cell.grid 3 3 ∧ staircase.IsTree ∧
      ∃ loop other, (staircase.loop ⟨2, 0⟩ : Except (Cause Rat) (List Cell)) = .ok loop ∧
        loop = [⟨2, 0⟩, ⟨0, 0⟩, ⟨0, 1⟩, ⟨1, 1⟩, ⟨1, 2⟩, ⟨2, 2⟩] ∧ IsLoop loop ∧
        (Line.row 1).MeetsTwice loop ∧
        (movedStaircase.loop ⟨0, 0⟩ : Except (Cause Rat) (List Cell)) = .ok other ∧
        other = [⟨0, 0⟩, ⟨2, 0⟩, ⟨2, 2⟩, ⟨1, 2⟩, ⟨1, 1⟩, ⟨0, 1⟩] ∧ IsLoop other ∧
        (other.IsRotated loop ∨ other.reverse.IsRotated loop) := by
  have hb' : movedStaircase.Fits 3 3 := ⟨⟨rfl, rfl⟩, rfl, rfl⟩
  have hc : Cell.mk 2 0 ∈ Cell.grid 3 3 := by decide
  have e : (staircase.loop ⟨2, 0⟩ : Except (Cause Rat) (List Cell)) =
      .ok [⟨2, 0⟩, ⟨0, 0⟩, ⟨0, 1⟩, ⟨1, 1⟩, ⟨1, 2⟩, ⟨2, 2⟩] := rfl
  have e' : (movedStaircase.loop ⟨0, 0⟩ : Except (Cause Rat) (List Cell)) =
      .ok [⟨0, 0⟩, ⟨2, 0⟩, ⟨2, 2⟩, ⟨1, 2⟩, ⟨1, 1⟩, ⟨0, 1⟩] := rfl
  obtain ⟨-, hloop, twice, only⟩ := (loop_traces staircase ⟨2, 0⟩ fits_staircase hc).2.2 _ e
  obtain ⟨-, hother, -⟩ := (loop_traces movedStaircase ⟨0, 0⟩ hb' (by decide)).2.2 _ e'
  exact ⟨fits_staircase, hc, isTree_staircase, _, _, e, rfl, hloop,
    twice ⟨1, 1⟩ (by decide) (.row 1) rfl, e', rfl, hother,
    only isTree_staircase _ hother (by decide)⟩

end Basis

end Freight
