import Mathlib

/-!
# Circular doubly linked lists

A ring is kept in two functions, `next` and `prev`, as an array of records with two links keeps it.
`IsRing next prev x l` says that following `next` from `x` visits the elements of `l` in order and
comes back to `x`, and that `prev` goes the other way round.

**Main results:**
- `IsRing.walk_eq`: the walk along `next` finds the list
- `IsRing.rotate`: the same ring, seen from the next element
- `IsRing.unlink`: taking an element out of a ring
- `IsRing.insert`: putting a new element after the first
-/

namespace Ring

open List Function

variable {α : Type*} [DecidableEq α]

/-- `b` comes right after `a`. -/
def Step (next prev : α → α) (a b : α) : Prop := next a = b ∧ prev b = a

/-- The ring of `x` and the elements of `l`. -/
structure IsRing (next prev : α → α) (x : α) (l : List α) : Prop where
  chain : List.IsChain (Step next prev) (x :: (l ++ [x]))
  nodup : (x :: l).Nodup

/-- The elements visited from `i` on before the walk comes back to `x`. -/
def walk (next : α → α) (x : α) : ℕ → α → Option (List α)
  | 0, _ => none
  | fuel + 1, i => if i = x then some [] else (walk next x fuel (next i)).map (i :: ·)

/-- `next` after the element `y` has been taken out. -/
def unlinkNext (next prev : α → α) (y : α) : α → α := update next (prev y) (next y)

/-- `prev` after the element `y` has been taken out. -/
def unlinkPrev (next prev : α → α) (y : α) : α → α := update prev (next y) (prev y)

variable {next prev next' prev' : α → α} {x y : α} {l : List α}

omit [DecidableEq α] in
lemma chain_congr {l : List α} (h : List.IsChain (Step next prev) l)
    (hnext : ∀ a ∈ l.dropLast, next' a = next a) (hprev : ∀ b ∈ l.tail, prev' b = prev b) :
    List.IsChain (Step next' prev') l := by
  induction l with
  | nil => exact isChain_nil
  | cons a l ih =>
    cases l with
    | nil => exact isChain_singleton a
    | cons b l =>
      obtain ⟨⟨hn, hp⟩, htail⟩ := isChain_cons_cons.mp h
      refine isChain_cons_cons.mpr ⟨⟨?_, ?_⟩, ih htail ?_ ?_⟩
      · rw [hnext a (by simp), hn]
      · rw [hprev b (by simp), hp]
      · intro c hc
        exact hnext c (by rw [dropLast_cons_cons]; exact mem_cons_of_mem _ hc)
      · intro c hc
        exact hprev c (mem_cons_of_mem _ hc)

lemma walk_chain {l : List α} (hx : x ∉ l) (i : α) (fuel : ℕ)
    (h : List.IsChain (Step next prev) (i :: (l ++ [x]))) (hfuel : l.length < fuel) :
    walk next x fuel (next i) = some l := by
  induction l generalizing i fuel with
  | nil =>
    obtain ⟨n, rfl⟩ : ∃ n, fuel = n + 1 := ⟨fuel - 1, by simp at hfuel; omega⟩
    rw [walk, (isChain_pair.mp h).1, if_pos rfl]
  | cons a l ih =>
    obtain ⟨n, rfl⟩ : ∃ n, fuel = n + 1 := ⟨fuel - 1, by simp at hfuel; omega⟩
    obtain ⟨⟨hn, _⟩, htail⟩ := isChain_cons_cons.mp h
    simp only [mem_cons, not_or] at hx
    rw [walk, hn, if_neg (Ne.symm hx.1), ih hx.2 a n htail (by simpa using hfuel)]
    rfl

/-- The walk from the element after `x` visits the rest of the ring. -/
theorem IsRing.walk_eq (h : IsRing next prev x l) {fuel : ℕ} (hfuel : l.length < fuel) :
    walk next x fuel (next x) = some l :=
  walk_chain (nodup_cons.mp h.nodup).1 x fuel h.chain hfuel

/-- The links determine the ring. -/
lemma IsRing.unique {m : List α} (h : IsRing next prev x l) (h' : IsRing next prev x m) :
    l = m := by
  have h1 := h.walk_eq (show l.length < l.length + m.length + 1 by omega)
  have h2 := h'.walk_eq (show m.length < l.length + m.length + 1 by omega)
  exact Option.some.inj (h1.symm.trans h2)

/-- The ring seen from its second element. -/
theorem IsRing.rotate (h : IsRing next prev x (y :: l)) : IsRing next prev y (l ++ [x]) := by
  obtain ⟨hstep, htail⟩ := isChain_cons_cons.mp h.chain
  refine ⟨?_, ?_⟩
  · have : y :: (l ++ [x] ++ [y]) = (y :: l) ++ x :: [y] := by simp
    rw [this]
    refine isChain_split.mpr ⟨by simpa using htail, ?_⟩
    exact isChain_pair.mpr hstep
  · have := h.nodup
    grind

omit [DecidableEq α] in
lemma IsRing.congr (h : IsRing next prev x l) (hnext : ∀ a ∈ x :: l, next' a = next a)
    (hprev : ∀ a ∈ x :: l, prev' a = prev a) : IsRing next' prev' x l := by
  refine ⟨chain_congr h.chain (fun a ha => hnext a ?_) (fun b hb => hprev b ?_), h.nodup⟩
  · rw [← cons_append, dropLast_concat] at ha
    exact ha
  simp only [tail_cons, mem_append, mem_singleton] at hb
  rcases hb with hb | rfl
  · exact mem_cons_of_mem _ hb
  · exact mem_cons_self

/-- **Taking out an element** other than the one the ring is seen from. -/
theorem IsRing.unlink {A B : List α} (h : IsRing next prev x (A ++ y :: B)) :
    IsRing (unlinkNext next prev y) (unlinkPrev next prev y) x (A ++ B) := by
  have hnd := h.nodup
  refine ⟨?_, by grind⟩
  have hchain := h.chain
  rw [append_assoc, cons_append, ← cons_append] at hchain
  obtain ⟨hleft, hright⟩ := isChain_split.mp hchain
  obtain ⟨P, a, hP⟩ : ∃ P a, x :: A = P ++ [a] :=
    ⟨(x :: A).dropLast, (x :: A).getLast (by simp), (dropLast_append_getLast _).symm⟩
  obtain ⟨b, Q, hQ⟩ : ∃ b Q, B ++ [x] = b :: Q := by
    cases B with
    | nil => exact ⟨x, [], rfl⟩
    | cons b B => exact ⟨b, B ++ [x], rfl⟩
  rw [hP, append_assoc] at hleft
  rw [hQ] at hright
  obtain ⟨hP', hay⟩ := isChain_split.mp hleft
  obtain ⟨hyb, hQ'⟩ := isChain_cons_cons.mp hright
  have ha : prev y = a := (isChain_pair.mp hay).2
  have hb : next y = b := hyb.1
  have haP : a ∉ P := by
    have : (P ++ [a]).Nodup := hP ▸ (by grind)
    grind
  have hbQ : b ∉ Q := by
    have : (b :: Q).Nodup := hQ ▸ (by grind)
    grind
  have haB : a ∉ B := by
    have : a ∈ x :: A := hP ▸ (by simp)
    grind
  have hbA : b ∉ A := by
    have : b ∈ B ++ [x] := hQ ▸ (by simp)
    grind
  have hsplit : x :: (A ++ B ++ [x]) = (P ++ [a]) ++ b :: Q := by
    rw [← hP, ← hQ]
    simp
  rw [hsplit, append_assoc, singleton_append]
  refine isChain_append_cons_cons.mpr ⟨?_, ⟨?_, ?_⟩, ?_⟩
  · refine chain_congr hP' (fun c hc => ?_) (fun c hc => ?_)
    · rw [dropLast_concat] at hc
      exact update_of_ne (by rw [ha]; rintro rfl; exact haP hc) ..
    · rw [← hP, tail_cons] at hc
      exact update_of_ne (by rw [hb]; rintro rfl; exact hbA hc) ..
  · rw [unlinkNext, ha, update_self, hb]
  · rw [unlinkPrev, hb, update_self, ha]
  · refine chain_congr hQ' (fun c hc => ?_) (fun c hc => ?_)
    · rw [← hQ, dropLast_concat] at hc
      exact update_of_ne (by rw [ha]; rintro rfl; exact haB hc) ..
    · exact update_of_ne (by rw [hb]; rintro rfl; exact hbQ hc) ..

/-- `next` after the new element `y` has been put after `x`. -/
def insertNext (next : α → α) (x y : α) : α → α :=
  update (update next y (next x)) x y

/-- `prev` after the new element `y` has been put after `x`. -/
def insertPrev (next prev : α → α) (x y : α) : α → α :=
  update (update prev y x) (next x) y

/-- **Putting in an element** after the one the ring is seen from. -/
theorem IsRing.insert (h : IsRing next prev x l) (hy : y ∉ x :: l) :
    IsRing (insertNext next x y) (insertPrev next prev x y) x (y :: l) := by
  have hnd := h.nodup
  refine ⟨?_, by grind⟩
  obtain ⟨b, Q, hQ⟩ : ∃ b Q, l ++ [x] = b :: Q := by
    cases l with
    | nil => exact ⟨x, [], rfl⟩
    | cons b B => exact ⟨b, B ++ [x], rfl⟩
  have hchain := h.chain
  rw [hQ] at hchain
  obtain ⟨⟨hxb, hbx⟩, hQ'⟩ := isChain_cons_cons.mp hchain
  have hyx : y ≠ x := by grind
  have hbmem : b ∈ x :: l := by
    have : b ∈ l ++ [x] := hQ ▸ (by simp)
    grind
  have hyb : y ≠ b := by grind
  have hbQ : b ∉ Q := by
    have : (b :: Q).Nodup := hQ ▸ (by grind)
    grind
  rw [cons_append, hQ]
  refine isChain_cons_cons.mpr ⟨⟨?_, ?_⟩, isChain_cons_cons.mpr ⟨⟨?_, ?_⟩, ?_⟩⟩
  · exact update_self ..
  · rw [insertPrev, hxb, update_of_ne hyb, update_self]
  · rw [insertNext, update_of_ne hyx, update_self, hxb]
  · rw [insertPrev, hxb, update_self]
  · refine chain_congr hQ' (fun c hc => ?_) (fun c hc => ?_)
    · rw [← hQ, dropLast_concat] at hc
      rw [insertNext, update_of_ne (by grind), update_of_ne (by grind)]
    · have hcmem : c ∈ l ++ [x] := hQ ▸ mem_cons_of_mem _ hc
      rw [insertPrev, hxb, update_of_ne (by rintro rfl; exact hbQ hc), update_of_ne (by grind)]

omit [DecidableEq α] in
/-- The neighbours of an element of a chain, but for its ends. -/
lemma chain_neighbours {l : List α} {a : α} (h : List.IsChain (Step next prev) l) :
    (a ∈ l.dropLast → next a ∈ l.tail) ∧ (a ∈ l.tail → prev a ∈ l.dropLast) := by
  induction l with
  | nil => simp
  | cons b l ih =>
    cases l with
    | nil => simp
    | cons c l =>
      obtain ⟨⟨hn, hp⟩, htail⟩ := isChain_cons_cons.mp h
      obtain ⟨ihn, ihp⟩ := ih htail
      rw [dropLast_cons_cons, tail_cons]
      refine ⟨fun ha => ?_, fun ha => ?_⟩
      · rcases mem_cons.mp ha with rfl | ha
        · rw [hn]
          exact mem_cons_self
        · exact mem_cons_of_mem _ (ihn ha)
      · rcases mem_cons.mp ha with rfl | ha
        · rw [hp]
          exact mem_cons_self
        · exact mem_cons_of_mem _ (ihp ha)

omit [DecidableEq α] in
lemma IsRing.links_mem (h : IsRing next prev x l) {a : α} (ha : a ∈ x :: l) :
    next a ∈ x :: l ∧ prev a ∈ x :: l := by
  obtain ⟨hn, hp⟩ := chain_neighbours (a := a) h.chain
  rw [← cons_append, dropLast_concat] at hn hp
  simp only [cons_append, tail_cons, mem_append, mem_singleton] at hn hp
  refine ⟨?_, hp ?_⟩
  · rcases hn ha with h | h <;> simp [h]
  · rcases mem_cons.mp ha with h | h <;> simp [h]

omit [DecidableEq α] in
lemma IsRing.singleton (hnext : next x = x) (hprev : prev x = x) : IsRing next prev x [] :=
  ⟨List.isChain_pair.mpr ⟨hnext, hprev⟩, by simp⟩

omit [DecidableEq α] in
/-- A ring comes back at once exactly if it has one element. -/
lemma IsRing.next_eq_self_iff (h : IsRing next prev x l) : next x = x ↔ l = [] := by
  cases l with
  | nil => exact ⟨fun _ => rfl, fun _ => (isChain_pair.mp h.chain).1⟩
  | cons a l =>
    have hn := (isChain_cons_cons.mp h.chain).1.1
    have hnd := h.nodup
    rw [hn]
    grind

end Ring
