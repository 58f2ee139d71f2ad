import Mathlib

/-!
# Ordered lists of half-open ranges

A list of objects, each standing for a half-open range of integers between `lo` and `hi`, is
`Ordered` when no range is empty and each one ends before the next begins.  An integer is then
covered by at most one element, so looking for the first element that covers it
(`Ordered.find_eq`) finds the only one.

`owner` is the other way to look at a list of ranges: the ranges may overlap, and the first of
the list that covers a point owns it.
-/

namespace Ranges

open List

variable {ρ : Type*} (lo hi : ρ → ℤ)

/-- The range of `r` contains the point `a`. -/
def Covers (r : ρ) (a : ℤ) : Prop := lo r ≤ a ∧ a < hi r

instance (r : ρ) (a : ℤ) : Decidable (Covers lo hi r a) :=
  inferInstanceAs (Decidable (_ ∧ _))

/-- Non-empty ranges, in order of their start, no two of which share a point. -/
structure Ordered (l : List ρ) : Prop where
  nonempty : ∀ r ∈ l, lo r < hi r
  apart : l.Pairwise fun r s => hi r ≤ lo s

variable {lo hi}

lemma Ordered.nil : Ordered lo hi [] := ⟨by simp, List.Pairwise.nil⟩

variable {l : List ρ} {r : ρ} {a : ℤ} {k : ℕ}

lemma Ordered.cons_iff :
    Ordered lo hi (r :: l) ↔ lo r < hi r ∧ (∀ s ∈ l, hi r ≤ lo s) ∧ Ordered lo hi l := by
  constructor
  · intro h
    have hap := pairwise_cons.mp h.apart
    exact ⟨h.nonempty r (by simp), hap.1, ⟨fun s hs => h.nonempty s (by simp [hs]), hap.2⟩⟩
  · rintro ⟨hr, hl, hord⟩
    refine ⟨fun s hs => ?_, pairwise_cons.mpr ⟨hl, hord.apart⟩⟩
    rcases mem_cons.mp hs with rfl | hs
    · exact hr
    · exact hord.nonempty s hs

lemma Ordered.tail (h : Ordered lo hi (r :: l)) : Ordered lo hi l :=
  (Ordered.cons_iff.mp h).2.2

/-- In an ordered list only neighbours have to be compared. -/
lemma Ordered.cons_cons_iff {s : ρ} :
    Ordered lo hi (r :: s :: l) ↔ lo r < hi r ∧ hi r ≤ lo s ∧ Ordered lo hi (s :: l) := by
  rw [Ordered.cons_iff]
  constructor
  · rintro ⟨hr, hl, hord⟩
    exact ⟨hr, hl s (by simp), hord⟩
  rintro ⟨hr, hrs, hord⟩
  obtain ⟨hs, hsl, _⟩ := Ordered.cons_iff.mp hord
  refine ⟨hr, ?_, hord⟩
  simp only [mem_cons, forall_eq_or_imp]
  exact ⟨hrs, fun t ht => by have := hsl t ht; omega⟩

/-- Two elements of an ordered list that share a point are the same. -/
lemma Ordered.eq_of_covers (h : Ordered lo hi l) {s : ρ} (hr : r ∈ l) (hs : s ∈ l)
    (har : Covers lo hi r a) (has : Covers lo hi s a) : r = s := by
  induction l with
  | nil => simp at hr
  | cons x l ih =>
    obtain ⟨_, hx, hl⟩ := Ordered.cons_iff.mp h
    rcases mem_cons.mp hr with rfl | hr'
    · rcases mem_cons.mp hs with rfl | hs'
      · rfl
      · have := hx s hs'
        unfold Covers at har has
        omega
    · rcases mem_cons.mp hs with rfl | hs'
      · have := hx r hr'
        unfold Covers at har has
        omega
      · exact ih hl hr' hs'

/-- The element covering a point is the one a search finds. -/
lemma Ordered.find_eq (h : Ordered lo hi l) (hr : r ∈ l) (har : Covers lo hi r a) :
    l.find? (fun s => decide (Covers lo hi s a)) = some r := by
  cases hf : l.find? (fun s => decide (Covers lo hi s a)) with
  | none =>
    have := find?_eq_none.mp hf r hr
    simp [har] at this
  | some s =>
    have hs := mem_of_find?_eq_some hf
    have has : Covers lo hi s a := by simpa using find?_some hf
    rw [h.eq_of_covers hs hr has har]

/-! ## Lists that may overlap: the first range owns the point -/

variable (lo hi) in
/-- Position of the first range of the list that covers `a`. -/
def owner (l : List ρ) (a : ℤ) : Option ℕ :=
  l.findIdx? fun r => decide (Covers lo hi r a)

lemma owner_append_singleton (l : List ρ) (r : ρ) (a : ℤ) : owner lo hi (l ++ [r]) a
      = (owner lo hi l a).or (if Covers lo hi r a then some l.length else none) := by
  unfold owner
  rw [findIdx?_append]
  by_cases h : Covers lo hi r a <;> simp [h]

lemma owner_lt (h : owner lo hi l a = some k) : k < l.length := by
  have := findIdx?_eq_some_iff_getElem.mp h
  exact this.1

lemma owner_append_of_some {m : List ρ} (h : owner lo hi l a = some k) :
    owner lo hi (l ++ m) a = some k := by
  unfold owner at h ⊢
  rw [findIdx?_append, h]
  rfl

/-- The owner is the range that a search for the point finds. -/
lemma find_of_owner (h : owner lo hi l a = some k) :
    l.find? (fun r => decide (Covers lo hi r a)) = l[k]? := by
  obtain ⟨hk, hc, hlt⟩ := findIdx?_eq_some_iff_getElem.mp h
  rw [getElem?_eq_getElem hk, find?_eq_some_iff_getElem]
  exact ⟨hc, k, hk, rfl, fun j hj => by simpa using hlt j hj⟩

lemma find_of_owner_none (h : owner lo hi l a = none) :
    l.find? (fun r => decide (Covers lo hi r a)) = none := by
  rw [find?_eq_none]
  simpa using findIdx?_eq_none_iff.mp h

end Ranges
