import Freight.Proofs.Corner

/-!
# The choices of a start

The search for the cheapest of some cells keeps its candidate against cells that cost as much, so it
finds the first of the cheapest (`Table.FirstCheapest`). Among cells in row-major order that is the
first one by cost, row and column (`FirstCheapest.precedes`).

Each shipment of a rule is on the cell that the rule chooses where the shipments before it have led
(`Remaining.chosen_of_shipUpTo?`). On an open cell the smaller of what its lines have left is shipped
(`Sound.load_eq`).
-/

namespace Freight

variable {α : Type} [Scalar α] {costs : Table α} {cs ds : List Cell} {b c d : Cell} {tol : α}
  {m n : Nat} {r : Remaining α} {ss : List (Shipment α)}

/-! ## The first of the cheapest cells -/

namespace Table

/-- The order of cells by cost, then by row, then by column. -/
def Precedes (costs : Table α) (c d : Cell) : Prop :=
  costs.entry c < costs.entry d ∨
    (costs.entry c ≤ costs.entry d ∧ costs.entry d ≤ costs.entry c) ∧ c.before d = true

/-- The cells ahead of this one are dearer, and those behind it are not cheaper. -/
def FirstCheapest (costs : Table α) (cs : List Cell) (c : Cell) : Prop :=
  ∃ ahead behind, cs = ahead ++ c :: behind ∧ (∀ d ∈ ahead, costs.entry c < costs.entry d) ∧
    ∀ d ∈ behind, costs.entry c ≤ costs.entry d

theorem entry_eq_of_get? {x : α} (h : costs.get? c = some x) : costs.entry c = x := by
  rw [entry, h]
  rfl

theorem firstCheapest_singleton (c : Cell) : costs.FirstCheapest [c] c :=
  ⟨[], [], rfl, fun _ hd => absurd hd List.not_mem_nil, fun _ hd => absurd hd List.not_mem_nil⟩

namespace FirstCheapest

theorem mem (h : costs.FirstCheapest cs c) : c ∈ cs := by
  obtain ⟨ahead, behind, rfl, -⟩ := h
  exact List.mem_append_right _ List.mem_cons_self

/-- A cell that is not cheaper leaves the candidate in place. -/
theorem keep (h : costs.FirstCheapest cs b) (hd : costs.entry b ≤ costs.entry d) :
    costs.FirstCheapest (cs ++ [d]) b := by
  obtain ⟨ahead, behind, rfl, dearer, least⟩ := h
  refine ⟨ahead, behind ++ [d], by simp, dearer, fun e he => ?_⟩
  rcases List.mem_append.mp he with he | he
  · exact least e he
  · rwa [List.mem_singleton.mp he]

section Lawful

variable [Scalar.Lawful α] (finite : ∀ c, Scalar.isFinite (costs.entry c) = true)

include finite

theorem least (h : costs.FirstCheapest cs c) : ∀ d ∈ cs, costs.entry c ≤ costs.entry d := by
  obtain ⟨ahead, behind, rfl, dearer, least⟩ := h
  intro d hd
  rcases List.mem_append.mp hd with hd | hd
  · exact Scalar.Lawful.le_of_lt (finite c) (finite d) (dearer d hd)
  · rcases List.mem_cons.mp hd with rfl | hd
    · exact Scalar.Lawful.le_refl (finite d)
    · exact least d hd

/-- A cheaper cell takes the place of the candidate. -/
theorem replace (h : costs.FirstCheapest cs b) (hd : ¬ costs.entry b ≤ costs.entry d) :
    costs.FirstCheapest (cs ++ [d]) d := by
  refine ⟨cs, [], rfl, fun e he => ?_, fun _ he => absurd he List.not_mem_nil⟩
  have lt : costs.entry d < costs.entry b :=
    (Scalar.Lawful.lt_iff_not_le (finite d) (finite b)).mpr hd
  exact Scalar.Lawful.lt_of_lt_of_le (finite d) (finite b) (finite e) lt (h.least finite e he)

/-- The search through more cells, with the first of the cheapest so far as candidate. -/
theorem of_foldlM {o : Option (Cell × α)} (h : costs.FirstCheapest cs b)
    (e : ds.foldlM costs.cheaper? (some (b, costs.entry b)) = some o) :
    ∃ c, o = some (c, costs.entry c) ∧ costs.FirstCheapest (cs ++ ds) c := by
  induction ds generalizing cs b with
  | nil =>
    cases e
    exact ⟨b, rfl, by rwa [List.append_nil]⟩
  | cons d ds ih =>
    rw [List.foldlM_cons] at e
    obtain ⟨next, enext, e⟩ := Option.bind_eq_some_iff.mp e
    obtain ⟨x, hx, enext⟩ := Option.bind_eq_some_iff.mp enext
    cases entry_eq_of_get? hx
    dsimp only at enext
    rw [List.append_cons]
    split at enext
    · next hle =>
      cases enext
      exact ih (h.keep hle) e
    · next hlt =>
      cases enext
      exact ih (h.replace finite hlt) e

/-- Among cells in row-major order it is the first one by cost, row and column. -/
theorem precedes (h : costs.FirstCheapest cs c)
    (sorted : cs.Pairwise fun a b => a.before b = true) :
    ∀ d ∈ cs, d = c ∨ costs.Precedes c d := by
  obtain ⟨ahead, behind, rfl, dearer, least⟩ := h
  intro d hd
  rcases List.mem_append.mp hd with hd | hd
  · exact .inr (.inl (dearer d hd))
  rcases List.mem_cons.mp hd with rfl | hd
  · exact .inl rfl
  have before : c.before d = true :=
    (List.pairwise_cons.mp (List.pairwise_append.mp sorted).2.1).1 d hd
  by_cases tie : costs.entry d ≤ costs.entry c
  · exact .inr (.inr ⟨⟨least d hd, tie⟩, before⟩)
  · exact .inr (.inl ((Scalar.Lawful.lt_iff_not_le (finite c) (finite d)).mpr tie))

end Lawful

end FirstCheapest

section Lawful

variable [Scalar.Lawful α]

/-- The search finds the first of the cheapest cells. -/
theorem firstCheapest_of_cheapest? (finite : ∀ c, Scalar.isFinite (costs.entry c) = true)
    (h : costs.cheapest? cs = some (some c)) : costs.FirstCheapest cs c := by
  obtain ⟨best, e, hc⟩ := Option.map_eq_some_iff.mp h
  cases cs with
  | nil =>
    cases e
    cases hc
  | cons d ds =>
    rw [List.foldlM_cons] at e
    obtain ⟨next, enext, e⟩ := Option.bind_eq_some_iff.mp e
    obtain ⟨x, hx, enext⟩ := Option.bind_eq_some_iff.mp enext
    cases entry_eq_of_get? hx
    cases enext
    obtain ⟨c', rfl, first⟩ := (firstCheapest_singleton d).of_foldlM finite e
    cases hc
    exact first

/-- No two cells precede each other. -/
theorem Precedes.asymm (finite : ∀ c, Scalar.isFinite (costs.entry c) = true)
    (h : costs.Precedes c d) : ¬ costs.Precedes d c := by
  have lt_iff := fun c d => Scalar.Lawful.lt_iff_not_le (finite c) (finite d)
  intro h'
  rcases h with lt | ⟨⟨le, -⟩, before⟩
  · rcases h' with lt' | ⟨⟨le', -⟩, -⟩
    · exact (lt_iff c d).mp lt (Scalar.Lawful.le_of_lt (finite d) (finite c) lt')
    · exact (lt_iff c d).mp lt le'
  · rcases h' with lt' | ⟨-, before'⟩
    · exact (lt_iff d c).mp lt' le
    · exact Cell.not_before_self c (Cell.before_trans before before')

end Lawful

end Table

/-! ## Shipments of a rule -/

namespace Remaining

/-- A run ends with what its shipments leave. -/
theorem Run.eq_after {last : Remaining α} (h : Run tol r ss last) : last = r.after ss := by
  induction h with
  | done _ => rfl
  | ship _ _ ih => exact ih

/-- Each shipment is on the cell that the rule chooses after those before it. -/
theorem chosen_of_shipUpTo? {choose : Remaining α → Option (Option Cell)} {limit : Nat}
    (h : shipUpTo? choose limit r = some ss) {k : Nat} {s : Shipment α} (hs : ss[k]? = some s) :
    choose (r.after (ss.take k)) = some (some s.cell) ∧
      s.quantity = (r.after (ss.take k)).capacity s.cell := by
  induction limit generalizing r ss k with
  | zero =>
    cases h
    cases hs
  | succ limit ih =>
    obtain ⟨-, rfl⟩ | ⟨c, rest, -, chosen, erest, rfl⟩ := shipUpTo?_cases h
    · cases hs
    · cases k with
      | zero =>
        cases hs
        exact ⟨chosen, rfl⟩
      | succ k => exact ih erest hs

/-- An open cell takes the smaller of what its lines have left. -/
theorem Sound.load_eq [Scalar.Lawful α] (h : r.Sound m n) (ht : Scalar.isFinite tol = true)
    (hpos : 0 ≤ tol) (hc : c ∈ r.openCells tol) : r.load c = ⟨c, r.capacity c⟩ := by
  obtain ⟨finite, lt, -⟩ := h.capacity_spec ht hpos hc
  have pos : 0 < r.capacity c :=
    Scalar.Lawful.lt_of_le_of_lt Scalar.Lawful.isFinite_zero ht finite hpos lt
  unfold capacity Scalar.positivePart at pos
  rw [load, capacity, Scalar.positivePart]
  split at pos
  · next hpos => rw [if_pos hpos]
  · exact absurd (Scalar.Lawful.le_refl Scalar.Lawful.isFinite_zero)
      ((Scalar.Lawful.lt_iff_not_le Scalar.Lawful.isFinite_zero Scalar.Lawful.isFinite_zero).mp pos)

end Remaining

end Freight
