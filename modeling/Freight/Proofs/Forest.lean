import Freight.Basis.Graph
import Freight.Table.Lemmas

/-!
# Forests of cells

Lines as nodes and cells as edges, without any algorithm. A line is connected with the lines that
chains of cells lead to (`Line.Connected`); the relation is an equivalence, and `connected_cons`
says what one more cell changes. Cells without a cycle stay so when a cell joins two lines that were
apart (`acyclic_cons`), and a cell may take the place of another one through which its own lines are
connected (`Acyclic.exchange`).

`Line.Path` is a chain of cells as a list. It splits where its list does (`Line.path_append`), and
its length tells whether it leads from rows to columns (`Path.length_mod_two`). In a forest a chain
of different cells comes through no line twice (`Path.nodup_along`).
-/

namespace Freight

namespace Line

variable {cs ds : List Cell} {c : Cell} {k l m : Line}

/-! ## Crossing -/

theorem through_row (c : Cell) : (row c.row).Through c := rfl

theorem through_column (c : Cell) : (column c.col).Through c := rfl

/-- A line that passes through a cell is the cell's row or its column. -/
theorem Through.eq_or (h : l.Through c) : l = row c.row ∨ l = column c.col := by
  cases l with
  | row i => exact .inl (congrArg row (show c.row = i from h).symm)
  | column j => exact .inr (congrArg column (show c.col = j from h).symm)

/-- The crossing line passes through the cell as well. -/
theorem through_crossing (l : Line) (c : Cell) : (l.crossing c).Through c := by
  cases l <;> rfl

/-- Crossing twice leads back. -/
theorem Through.crossing_crossing (h : l.Through c) : (l.crossing c).crossing c = l := by
  obtain rfl | rfl := h.eq_or <;> rfl

theorem crossing_ne (l : Line) (c : Cell) : l.crossing c ≠ l := by
  cases l <;> simp [crossing]

/-- Two cells of a line with the same crossing line are the same. -/
theorem Through.eq_of_crossing_eq {d : Cell} (hc : l.Through c) (hd : l.Through d)
    (h : l.crossing c = l.crossing d) : c = d := by
  cases c with
  | mk i j =>
    cases d with
    | mk i' j' =>
      cases l <;> simp_all [Through, crossing]

/-- Only two lines pass through a cell. -/
theorem Through.eq_or_crossing (hk : k.Through c) (hl : l.Through c) :
    l = k ∨ l = k.crossing c := by
  obtain rfl | rfl := hk.eq_or <;> obtain rfl | rfl := hl.eq_or <;> simp [Line.crossing]

theorem Within.crossing {rows cols : Nat} (hr : c.row < rows) (hc : c.col < cols) (l : Line) :
    (l.crossing c).Within rows cols := by
  cases l
  · exact hc
  · exact hr

/-! ## Connected lines -/

namespace Connected

theorem mono (h : Connected cs k l) (hs : ∀ c ∈ cs, c ∈ ds) : Connected ds k l := by
  induction h with
  | refl => exact .refl
  | change _ hc ht ih => exact .change ih (hs _ hc) ht

theorem trans (h₁ : Connected cs k l) (h₂ : Connected cs l m) : Connected cs k m := by
  induction h₂ with
  | refl => exact h₁
  | change _ hc ht ih => exact .change ih hc ht

/-- One change of lines. -/
theorem single (hc : c ∈ cs) (ht : l.Through c) : Connected cs l (l.crossing c) :=
  .change .refl hc ht

theorem symm (h : Connected cs k l) : Connected cs l k := by
  induction h with
  | refl => exact .refl
  | @change l c _ hc ht ih =>
    have back := single hc (through_crossing l c)
    rw [ht.crossing_crossing] at back
    exact back.trans ih

/-- A cell connects its row with its column. -/
theorem cell (hc : c ∈ cs) : Connected cs (row c.row) (column c.col) :=
  single hc (through_row c)

/-- What connects both ways across a cell: the line's ends are the cell's lines in some order. -/
theorem of_through (h : Connected cs (row c.row) (column c.col)) (ht : l.Through c) :
    Connected cs l (l.crossing c) := by
  obtain rfl | rfl := ht.eq_or
  · exact h
  · exact h.symm

end Connected

/-- Without cells no line is connected with another one. -/
theorem connected_nil : Connected [] k l ↔ k = l := by
  constructor
  · intro h
    cases h with
    | refl => rfl
    | change _ hc _ => cases hc
  · rintro rfl
    exact .refl

/-- What one more cell connects: lines that were connected before, or the parts in which its own
two lines lie. -/
theorem connected_cons : Connected (c :: cs) k l ↔ Connected cs k l ∨
    (Connected cs k (row c.row) ∧ Connected cs (column c.col) l) ∨
    (Connected cs k (column c.col) ∧ Connected cs (row c.row) l) := by
  have sub : ∀ d ∈ cs, d ∈ c :: cs := fun d hd => List.mem_cons_of_mem c hd
  have new : Connected (c :: cs) (row c.row) (column c.col) := .cell List.mem_cons_self
  constructor
  · intro h
    induction h with
    | refl => exact .inl .refl
    | @change l d _ hd ht ih =>
      rcases List.mem_cons.mp hd with rfl | hd
      · -- The last change goes through the new cell, so `l` is one of its lines.
        obtain rfl | rfl := ht.eq_or
        · rcases ih with h | ⟨h, _⟩ | ⟨h, _⟩
          · exact .inr (.inl ⟨h, .refl⟩)
          · exact .inr (.inl ⟨h, .refl⟩)
          · exact .inl h
        · rcases ih with h | ⟨h, _⟩ | ⟨h, _⟩
          · exact .inr (.inr ⟨h, .refl⟩)
          · exact .inl h
          · exact .inr (.inr ⟨h, .refl⟩)
      · rcases ih with h | ⟨h, h'⟩ | ⟨h, h'⟩
        · exact .inl (.change h hd ht)
        · exact .inr (.inl ⟨h, .change h' hd ht⟩)
        · exact .inr (.inr ⟨h, .change h' hd ht⟩)
  · rintro (h | ⟨h, h'⟩ | ⟨h, h'⟩)
    · exact h.mono sub
    · exact (h.mono sub).trans (new.trans (h'.mono sub))
    · exact (h.mono sub).trans (new.symm.trans (h'.mono sub))

/-- A line that no cell lies on is connected with itself alone. -/
theorem Connected.eq_of_isolated (h : Connected cs k l) (hk : ∀ c ∈ cs, ¬ k.Through c) :
    l = k := by
  induction h with
  | refl => rfl
  | @change l c _ hc ht ih =>
    subst ih
    exact absurd ht (hk c hc)

end Line

/-! ## Cells without a cycle -/

section Acyclic

variable {cs ds : List Cell} {c e : Cell}

theorem acyclic_nil : Acyclic [] := fun _ hc => absurd hc List.not_mem_nil

theorem Acyclic.mono (h : Acyclic ds) (hs : ∀ c ∈ cs, c ∈ ds) : Acyclic cs := by
  intro c hc hcon
  refine h c (hs c hc) (hcon.mono fun d hd => ?_)
  obtain ⟨hd, hne⟩ := List.mem_filter.mp hd
  exact List.mem_filter.mpr ⟨hs d hd, hne⟩

/-- One more cell closes no cycle exactly when its lines were not connected. -/
theorem acyclic_cons (hc : c ∉ cs) : Acyclic (c :: cs) ↔
    Acyclic cs ∧ ¬ Line.Connected cs (.row c.row) (.column c.col) := by
  have other : (c :: cs).filter (· ≠ c) = cs := by
    rw [List.filter_cons_of_neg (by simp)]
    exact List.filter_eq_self.mpr fun d hd => by
      simpa using ne_of_mem_of_not_mem hd hc
  constructor
  · intro h
    refine ⟨h.mono fun d hd => List.mem_cons_of_mem c hd, fun hcon => ?_⟩
    exact h c List.mem_cons_self (by rwa [other])
  · rintro ⟨h, apart⟩ d hd hcon
    rcases List.mem_cons.mp hd with rfl | hd
    · rw [other] at hcon
      exact apart hcon
    -- The cycle through `d` runs through the new cell; taking `d` instead connects its lines.
    have ne : c ≠ d := fun e => hc (e ▸ hd)
    rw [List.filter_cons_of_pos (by simpa using ne), Line.connected_cons] at hcon
    have sub : ∀ f ∈ cs.filter (· ≠ d), f ∈ cs := fun f hf => (List.mem_filter.mp hf).1
    rcases hcon with hcon | ⟨h₁, h₂⟩ | ⟨h₁, h₂⟩
    · exact h d hd hcon
    · exact apart ((h₁.mono sub).symm.trans ((Line.Connected.cell hd).trans (h₂.mono sub).symm))
    · exact apart ((h₂.mono sub).trans ((Line.Connected.cell hd).symm.trans (h₁.mono sub)))

/-- In a forest a cell's lines fall apart when it is taken out. -/
theorem Acyclic.apart (h : Acyclic cs) (he : e ∈ cs) :
    ¬ Line.Connected (cs.filter (· ≠ e)) (.row e.row) (.column e.col) := h e he

/-- Taking a cell out and putting it back: the same cells. -/
theorem mem_cons_filter_ne (he : e ∈ cs) {d : Cell} : d ∈ e :: cs.filter (· ≠ e) ↔ d ∈ cs := by
  rw [List.mem_cons, List.mem_filter]
  constructor
  · rintro (rfl | ⟨h, -⟩)
    · exact he
    · exact h
  · intro h
    by_cases hd : d = e
    · exact .inl hd
    · exact .inr ⟨h, by simpa using hd⟩

/-- A cell whose lines are connected through `e` only takes the place of `e`: there is still no
cycle, and the same lines are connected. -/
theorem Acyclic.exchange (h : Acyclic cs) (he : e ∈ cs)
    (hcon : Line.Connected cs (.row c.row) (.column c.col))
    (hapart : ¬ Line.Connected (cs.filter (· ≠ e)) (.row c.row) (.column c.col)) :
    Acyclic (c :: cs.filter (· ≠ e)) ∧
      ∀ k l, Line.Connected cs k l → Line.Connected (c :: cs.filter (· ≠ e)) k l := by
  have hc : c ∉ cs.filter (· ≠ e) := fun hc => hapart (.cell hc)
  have rest : Acyclic (cs.filter (· ≠ e)) := h.mono fun d hd => (List.mem_filter.mp hd).1
  have sub : ∀ d ∈ cs.filter (· ≠ e), d ∈ c :: cs.filter (· ≠ e) :=
    fun d hd => List.mem_cons_of_mem c hd
  have new : Line.Connected (c :: cs.filter (· ≠ e)) (.row c.row) (.column c.col) :=
    .cell List.mem_cons_self
  -- The way from `c`'s row to its column uses `e`, so `e`'s lines are joined through `c`.
  have bridge : Line.Connected (c :: cs.filter (· ≠ e)) (.row e.row) (.column e.col) := by
    have split := hcon.mono fun d hd => (mem_cons_filter_ne he).mpr hd
    rw [Line.connected_cons] at split
    rcases split with hcon | ⟨h₁, h₂⟩ | ⟨h₁, h₂⟩
    · exact absurd hcon hapart
    · exact (h₁.mono sub).symm.trans (new.trans (h₂.mono sub).symm)
    · exact (h₂.mono sub).trans (new.symm.trans (h₁.mono sub))
  refine ⟨(acyclic_cons hc).mpr ⟨rest, hapart⟩, fun k l hkl => ?_⟩
  have split := hkl.mono fun d hd => (mem_cons_filter_ne he).mpr hd
  rw [Line.connected_cons] at split
  rcases split with hkl | ⟨h₁, h₂⟩ | ⟨h₁, h₂⟩
  · exact hkl.mono sub
  · exact (h₁.mono sub).trans (bridge.trans (h₂.mono sub))
  · exact (h₁.mono sub).trans (bridge.symm.trans (h₂.mono sub))

end Acyclic

/-! ## Chains of cells -/

namespace Line

variable {cs ds : List Cell} {c : Cell} {k l m : Line}

/-- The cells lead from a line to another, one change of lines after the other. -/
def Path : Line → List Cell → Line → Prop
  | l, [], m => l = m
  | l, c :: cs, m => l.Through c ∧ Path (l.crossing c) cs m

/-- A chain splits where its list does. -/
theorem path_append : ∀ {k : Line} {ds : List Cell}, Path k (ds ++ cs) m ↔
    ∃ l, Path k ds l ∧ Path l cs m
  | k, [] => ⟨fun h => ⟨k, rfl, h⟩, fun ⟨_, h, h'⟩ => h ▸ h'⟩
  | k, c :: ds => by
    constructor
    · rintro ⟨ht, h⟩
      obtain ⟨l, h₁, h₂⟩ := path_append.mp h
      exact ⟨l, ⟨ht, h₁⟩, h₂⟩
    · rintro ⟨l, ⟨ht, h₁⟩, h₂⟩
      exact ⟨ht, path_append.mpr ⟨l, h₁, h₂⟩⟩

theorem Path.connected (h : Path k cs l) (hs : ∀ c ∈ cs, c ∈ ds) : Connected ds k l := by
  induction cs generalizing k with
  | nil => exact h ▸ .refl
  | cons c cs ih =>
    obtain ⟨ht, h⟩ := h
    exact (Connected.single (hs c List.mem_cons_self) ht).trans
      (ih h fun d hd => hs d (List.mem_cons_of_mem c hd))

/-- The lines that a chain of cells leads through, the first one included. -/
def along : Line → List Cell → List Line
  | l, [] => [l]
  | l, c :: cs => l :: along (l.crossing c) cs

/-- A line that a chain leads through is where a part of the chain leads. -/
theorem exists_path_of_mem_along (h : Path k cs l) (hm : m ∈ along k cs) :
    ∃ es, Path k es m ∧ ∀ c ∈ es, c ∈ cs := by
  induction cs generalizing k with
  | nil =>
    rw [along, List.mem_singleton] at hm
    exact ⟨[], hm.symm, fun c hc => hc⟩
  | cons c cs ih =>
    obtain ⟨through, h⟩ := h
    rcases List.mem_cons.mp hm with rfl | hm
    · exact ⟨[], rfl, fun c hc => absurd hc List.not_mem_nil⟩
    · obtain ⟨es, path, sub⟩ := ih h hm
      refine ⟨c :: es, ⟨through, path⟩, fun d hd => ?_⟩
      rcases List.mem_cons.mp hd with rfl | hd
      · exact List.mem_cons_self
      · exact List.mem_cons_of_mem c (sub d hd)

theorem mem_along_self (k : Line) (cs : List Cell) : k ∈ along k cs := by
  cases cs <;> exact List.mem_cons_self

/-- A chain leads through the lines of its cells. -/
theorem Path.mem_along (h : Path k cs l) (hc : c ∈ cs) (hm : m.Through c) : m ∈ along k cs := by
  induction cs generalizing k with
  | nil => cases hc
  | cons d cs ih =>
    obtain ⟨through, h⟩ := h
    rcases List.mem_cons.mp hc with rfl | hc
    · rcases through.eq_or_crossing hm with rfl | rfl
      · exact List.mem_cons_self
      · exact List.mem_cons_of_mem k (mem_along_self _ cs)
    · exact List.mem_cons_of_mem k (ih h hc)

/-- In a forest a chain of different cells comes through no line twice: between two passages it would
close a cycle. -/
theorem Path.nodup_along (ha : Acyclic ds) (h : Path k cs l) (hn : cs.Nodup)
    (hs : ∀ c ∈ cs, c ∈ ds) : (along k cs).Nodup := by
  induction cs generalizing k with
  | nil => exact List.nodup_cons.mpr ⟨List.not_mem_nil, List.nodup_nil⟩
  | cons c cs ih =>
    obtain ⟨through, h⟩ := h
    obtain ⟨new, hn⟩ := List.nodup_cons.mp hn
    refine List.nodup_cons.mpr ⟨fun again => ?_,
      ih h hn fun d hd => hs d (List.mem_cons_of_mem c hd)⟩
    obtain ⟨es, back, sub⟩ := exists_path_of_mem_along h again
    have others : Connected (ds.filter (· ≠ c)) (k.crossing c) k := by
      refine back.connected fun d hd => List.mem_filter.mpr ⟨?_, ?_⟩
      · exact hs d (List.mem_cons_of_mem c (sub d hd))
      · have : d ≠ c := ne_of_mem_of_not_mem (sub d hd) new
        simpa using this
    refine ha.apart (hs c List.mem_cons_self) ?_
    obtain rfl | rfl := through.eq_or
    · exact others.symm
    · exact others

/-- The type of a line: chains of odd length lead from rows to columns and back. -/
def isRow : Line → Bool
  | row _ => true
  | column _ => false

theorem isRow_crossing (l : Line) (c : Cell) : (l.crossing c).isRow = !l.isRow := by
  cases l <;> rfl

theorem Path.length_mod_two (h : Path k cs l) :
    cs.length % 2 = if k.isRow = l.isRow then 0 else 1 := by
  induction cs generalizing k with
  | nil => simp [show k = l from h]
  | cons c cs ih =>
    have := ih h.2
    rw [isRow_crossing] at this
    rw [List.length_cons]
    cases hk : k.isRow <;> cases hl : l.isRow <;> simp [hk, hl] at this ⊢ <;> omega

end Line

end Freight
