import Freight.Proofs.Partition

/-!
# Classes after a sequence of calls

A sequence of calls establishes the least equivalence that holds for the pairs it joins. What carries
this from call to call is said of the roots alone (`Connects`): the two elements of a pair have one
root, and every element is joined with its root. A lookup keeps the roots, and joining two elements
merges their classes (`Represents.call`), so roots and pairs agree after any number of calls
(`exists_represents`).

Main statement: lookups end at roots, and both they and joins tell which elements the pairs connect,
from each partition on the way (`after_settles`).
-/

namespace Freight.Partition

variable {p : Partition} {n : Nat} {rep : Nat → Nat} {a b : Nat} {pairs : List (Nat × Nat)}

/-- What a partition of `n` elements answers, if it keeps the classes of an equivalence. -/
structure Settles (p : Partition) (n : Nat) (same : Nat → Nat → Prop) : Prop where
  /-- A lookup is a walk to an element that is its own parent in the partition that is left. It has
  at most half as many rounds as there are elements. -/
  ends : ∀ x, x < n → ∃ k, 2 * k ≤ n ∧ Walk p x k (p.find x).2 (p.find x).1 ∧
    (p.find x).2.parent[(p.find x).1]? = some (p.find x).1
  /-- Two elements looked up one after the other have one root exactly if they are the same. -/
  find_eq_iff : ∀ a b, a < n → b < n → ((p.find a).1 = ((p.find a).2.find b).1 ↔ same a b)
  /-- Joining two elements finds nothing to join exactly if they are the same. -/
  union_eq_false_iff : ∀ a b, a < n → b < n → ((p.union a b).1 = false ↔ same a b)

/-! ## Joined elements -/

theorem Joined.append (h : Joined pairs a b) (more : List (Nat × Nat)) :
    Joined (pairs ++ more) a b :=
  Relation.EqvGen.mono (fun _ _ => List.mem_append_left more) a b h

/-- What is equal for both elements of each pair is equal for joined elements. -/
theorem Joined.congr {f : Nat → Nat} (h : Joined pairs a b)
    (hf : ∀ a b, (a, b) ∈ pairs → f a = f b) : f a = f b :=
  (eq_equivalence.comap f).eqvGen_iff.mp (Relation.EqvGen.mono hf a b h)

/-- The elements with one root are those that the pairs connect. -/
structure Connects (rep : Nat → Nat) (n : Nat) (pairs : List (Nat × Nat)) : Prop where
  rep_eq : ∀ a b, (a, b) ∈ pairs → rep a = rep b
  joined_rep : ∀ x, x < n → Joined pairs x (rep x)

namespace Connects

theorem rep_eq_iff (h : Connects rep n pairs) (ha : a < n) (hb : b < n) :
    rep a = rep b ↔ Joined pairs a b := by
  constructor
  · intro e
    have hb := h.joined_rep b hb
    rw [← e] at hb
    exact .trans _ _ _ (h.joined_rep a ha) (.symm _ _ hb)
  · exact fun joined => joined.congr h.rep_eq

/-- A pair with one root changes nothing. -/
theorem append (h : Connects rep n pairs) (e : rep a = rep b) :
    Connects rep n (pairs ++ [(a, b)]) where
  rep_eq c d hm := by
    rcases List.mem_append.mp hm with hm | hm
    · exact h.rep_eq c d hm
    · cases List.mem_singleton.mp hm
      exact e
  joined_rep x hx := (h.joined_rep x hx).append _

/-- A pair with two roots merges their classes. -/
theorem merge (h : Connects rep n pairs) (ha : a < n) (hb : b < n) :
    Connects (merge rep a b) n (pairs ++ [(a, b)]) where
  rep_eq c d hm := by
    unfold Partition.merge
    rcases List.mem_append.mp hm with hm | hm
    · rw [h.rep_eq c d hm]
    · cases List.mem_singleton.mp hm
      rw [if_pos rfl]
      exact ite_self _
  joined_rep x hx := by
    have old : ∀ y, y < n → Joined (pairs ++ [(a, b)]) y (rep y) := fun y hy =>
      (h.joined_rep y hy).append _
    unfold Partition.merge
    split
    · next e =>
      -- From the old root over `b` and `a` to the root of the merged class.
      have toB : Joined (pairs ++ [(a, b)]) (rep b) b := .symm _ _ (old b hb)
      have toA : Joined (pairs ++ [(a, b)]) b a := .symm _ _ (.rel _ _ (by simp))
      have hx := old x hx
      rw [e] at hx
      exact .trans _ _ _ hx (.trans _ _ _ toB (.trans _ _ _ toA (old a ha)))
    · exact old x hx

end Connects

/-! ## Calls -/

theorem joinedPairs_cons (c : Call) (calls : List Call) :
    joinedPairs (c :: calls) = joinedPairs [c] ++ joinedPairs calls :=
  List.filterMap_append (l := [c])

namespace Represents

/-- A call connects the pair that it joins, if any. -/
theorem call (h : Represents p n rep) (hc : Connects rep n pairs) (c : Call) (below : c.Below n) :
    ∃ rep', Represents (p.call c) n rep' ∧ Connects rep' n (pairs ++ joinedPairs [c]) := by
  cases c with
  | find x =>
    rw [show joinedPairs [.find x] = [] from rfl, List.append_nil]
    exact ⟨rep, (h.find below).2, hc⟩
  | union a b =>
    obtain ⟨ha, hb⟩ := below
    by_cases e : rep a = rep b
    · exact ⟨rep, (h.union_of_eq ha hb e).2, hc.append e⟩
    · exact ⟨_, (h.union_of_ne ha hb e).2, hc.merge ha hb⟩

/-- What a partition with known roots answers. -/
theorem settles {same : Nat → Nat → Prop} (h : Represents p n rep)
    (hsame : ∀ a b, a < n → b < n → (rep a = rep b ↔ same a b)) : p.Settles n same where
  ends x hx := by
    obtain ⟨k, bound, walk, found, root⟩ := h.find_walk hx
    rw [found]
    exact ⟨k, bound, walk, root⟩
  find_eq_iff a b ha hb := by
    obtain ⟨found, h'⟩ := h.find ha
    rw [found, (h'.find hb).1]
    exact hsame a b ha hb
  union_eq_false_iff a b ha hb := by
    rw [← hsame a b ha hb]
    by_cases e : rep a = rep b
    · simp [(h.union_of_eq ha hb e).1, e]
    · simp [(h.union_of_ne ha hb e).1, e]

end Represents

/-- After a sequence of calls the roots connect all the pairs that were joined. -/
theorem exists_represents (calls : List Call) (below : ∀ c ∈ calls, c.Below n)
    (h : Represents p n rep) (hc : Connects rep n pairs) :
    ∃ rep', Represents (calls.foldl Partition.call p) n rep' ∧
      Connects rep' n (pairs ++ joinedPairs calls) := by
  induction calls generalizing p rep pairs with
  | nil =>
    rw [show joinedPairs [] = [] from rfl, List.append_nil]
    exact ⟨rep, h, hc⟩
  | cons c calls ih =>
    obtain ⟨rep', h', hc'⟩ := h.call hc c (below c List.mem_cons_self)
    rw [joinedPairs_cons, ← List.append_assoc]
    exact ih (fun d hd => below d (List.mem_cons_of_mem c hd)) h' hc'

/-- After any calls on elements of a discrete partition, every lookup ends at an element that is its
own parent. Two elements have one root exactly if the joined pairs connect them, and joining them
answers that they were together exactly in this case. The same holds of every partition that a walk
leaves on its way, the one after a lookup included, and there each element has the root it had
before. -/
theorem after_settles (n : Nat) (calls : List Call) (below : ∀ c ∈ calls, c.Below n) :
    (after n calls).Settles n (Joined (joinedPairs calls)) ∧
      ∀ x k q y, x < n → Walk (after n calls) x k q y →
        q.Settles n (Joined (joinedPairs calls)) ∧
          ∀ a, a < n → (q.find a).1 = ((after n calls).find a).1 := by
  have start : Connects id n [] := 
    ⟨fun _ _ hm => absurd hm List.not_mem_nil, fun x _ => .refl x⟩
  obtain ⟨rep, h, hc⟩ := exists_represents calls below (represents_discrete n) start
  rw [List.nil_append] at hc
  have same := fun a b (ha : a < n) (hb : b < n) => hc.rep_eq_iff ha hb
  refine ⟨h.settles same, fun x k q y hx walk => ?_⟩
  obtain ⟨hq, -, -⟩ := h.of_walk hx walk
  exact ⟨hq.settles same, fun a ha => (hq.find ha).1.trans (h.find ha).1.symm⟩

/-- Four joins leave one long path. The first lookup on it takes two rounds for four generations, and
the join of two elements on it finds them together; the last element stays apart. -/
theorem after_settles_chain :
    let calls : List Call := [.union 1 0, .union 2 1, .union 3 2, .union 4 3]
    let p := after 6 calls
    (∀ c ∈ calls, c.Below 6) ∧ p.parent = #[1, 2, 3, 4, 4, 5] ∧
      p.find 0 = (4, ⟨#[2, 2, 4, 4, 4, 5]⟩) ∧ Walk p 0 1 ⟨#[2, 2, 3, 4, 4, 5]⟩ 2 ∧
      (Partition.mk #[2, 2, 3, 4, 4, 5]).Settles 6 (Joined (joinedPairs calls)) ∧
      Joined (joinedPairs calls) 0 3 ∧ ¬ Joined (joinedPairs calls) 0 5 ∧
      (p.union 3 0).1 = false ∧ (p.union 5 0).1 = true := by
  intro calls p
  have below : ∀ c ∈ calls, c.Below 6 := by simp [calls, Call.Below]
  have path : p = ⟨#[1, 2, 3, 4, 4, 5]⟩ := by decide +kernel
  have round : Walk p 0 1 ⟨#[2, 2, 3, 4, 4, 5]⟩ 2 := by
    rw [path]
    exact .round rfl (by decide) rfl (.stay _ _)
  obtain ⟨settles, midway⟩ := after_settles 6 calls below
  refine ⟨below, by rw [path], by decide +kernel, round, (midway 0 1 _ 2 (by decide) round).1,
    (settles.find_eq_iff 0 3 (by decide) (by decide)).mp (by decide +kernel), fun joined => ?_,
    by decide +kernel, by decide +kernel⟩
  have together := (settles.union_eq_false_iff 0 5 (by decide) (by decide)).mpr joined
  exact absurd together (by decide +kernel)

end Freight.Partition
