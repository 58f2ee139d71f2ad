import Mathlib

/-!
# Singly linked lists threaded through their elements

A *place* holds a pointer: the head of a list (`none`) or the link inside the element `a` (`some
a`).  A list is a function from places to pointers, and `Links ptr i xs e` says that following them
from `i` visits `xs` and then finds `e`: nothing, or the first element again in a circular list.

`locate` is the walk of a pointer to a pointer, `remove` the removal that such a walk makes.
`Table` is a family of lists with one head each that share the links of their elements, as the
buckets of a hash table do.

**Main results:**
- `Links.unlink`: taking an element out by redirecting the place that points to it
- `Table.remove_eq`, `Table.remove_null`: a removal from one list of a family, and one that does
  not find its element
- `Table.push`: putting an element at the head of one of the lists
-/

namespace Chain

open List Function

/-- How a walk can fail: it reads through a null pointer, or it does not end in time. -/
inductive Lost where
  | null
  | fuel
  deriving DecidableEq, Repr

variable {α ι : Type*}

/-- Following `ptr` from the place `i` visits `xs` and then finds `e`. -/
def Links (ptr : Option α → Option α) : Option α → List α → Option α → Prop
  | i, [], e => ptr i = e
  | i, x :: xs, e => ptr i = some x ∧ Links ptr (some x) xs e

/-- The last place on the way from `i` through `xs`. -/
def lastPlace : Option α → List α → Option α
  | i, [] => i
  | _, x :: xs => lastPlace (some x) xs

/-- The place, from `i` on, of the first pointer to an element with `p`. -/
def locate (ptr : Option α → Option α) (p : α → Bool) : ℕ → Option α → Except Lost (Option α × α)
  | 0, _ => .error .fuel
  | fuel + 1, i =>
    match ptr i with
    | none => .error .null
    | some a => if p a then .ok (i, a) else locate ptr p fuel (some a)

variable {ptr ptr' : Option α → Option α} {p : α → Bool} {i j e : Option α} {x y : α}
  {xs ys : List α}

/-! ## Following pointers -/

lemma links_append : Links ptr i (xs ++ y :: ys) e ↔ Links ptr i xs (some y) ∧ Links ptr
    (some y) ys e := by
  induction xs generalizing i with
  | nil => rfl
  | cons x xs ih => simp only [cons_append, Links, ih, and_assoc]

/-- A pointer on the way leads to an element of the list. -/
lemma Links.mem_of_ptr (h : Links ptr i xs none) (hj : j = i ∨ ∃ x ∈ xs, j = some x)
    (hy : ptr j = some y) :
    y ∈ xs := by
  induction xs generalizing i with
  | nil =>
    obtain rfl : j = i := by simpa using hj
    rw [Links] at h
    simp [h] at hy
  | cons x xs ih =>
    obtain rfl | ⟨x', hx', rfl⟩ := hj
    · rw [← Option.some.inj (h.1.symm.trans hy)]
      exact mem_cons_self
    · rw [mem_cons] at hx'
      exact mem_cons_of_mem _ (ih h.2 (hx'.imp (congrArg some) fun h => ⟨x', h, rfl⟩))

lemma lastPlace_append : lastPlace i (xs ++ y :: ys) = lastPlace (some y) ys := by
  induction xs generalizing i with
  | nil => rfl
  | cons x xs ih => exact ih

lemma lastPlace_cases (i : Option α) (xs : List α) :
    (xs = [] ∧ lastPlace i xs = i) ∨ ∃ x ∈ xs, lastPlace i xs = some x := by
  induction xs generalizing i with
  | nil => exact .inl ⟨rfl, rfl⟩
  | cons x xs ih =>
    refine .inr ?_
    rcases ih (some x) with ⟨-, h⟩ | ⟨y, hy, h⟩
    · exact ⟨x, mem_cons_self, h⟩
    · exact ⟨y, mem_cons_of_mem _ hy, h⟩

lemma eq_append_of_lastPlace (h : lastPlace none xs = some x) : ∃ zs, xs = zs ++ [x] := by
  rcases eq_nil_or_concat' xs with rfl | ⟨zs, z, rfl⟩
  · simp [lastPlace] at h
  · rw [lastPlace_append] at h
    exact ⟨zs, by rw [Option.some.inj h]⟩

lemma Links.congr (h : Links ptr i xs e) (hj : ptr' j = ptr i)
    (hxs : ∀ x ∈ xs, ptr' (some x) = ptr (some x)) : Links ptr' j xs e := by
  induction xs generalizing i j with
  | nil => exact hj.trans h
  | cons x xs ih =>
    exact ⟨hj.trans h.1, ih h.2 (hxs x mem_cons_self)
      fun y hy => hxs y (mem_cons_of_mem _ hy)⟩

/-- The pointers determine the list. -/
lemma Links.unique (h : Links ptr i xs none) (h' : Links ptr i ys none) : xs = ys := by
  induction xs generalizing i ys with
  | nil =>
    cases ys with
    | nil => rfl
    | cons y ys => exact absurd (h.symm.trans h'.1) (by simp)
  | cons x xs ih =>
    cases ys with
    | nil => exact absurd (h'.symm.trans h.1) (by simp)
    | cons y ys =>
      obtain rfl : x = y := Option.some.inj (h.1.symm.trans h'.1)
      rw [ih h.2 h'.2]

/-- A circular list seen from another of its elements. -/
lemma Links.rotate (h : Links ptr (some x) (xs ++ y :: ys) (some x)) :
    Links ptr (some y) (ys ++ x :: xs) (some y) := by
  obtain ⟨h1, h2⟩ := links_append.mp h
  exact links_append.mpr ⟨h2, h1⟩

/-! ## The walk -/

lemma Links.lastPlace_eq (h : Links ptr i xs e) : ptr (lastPlace i xs) = e := by
  induction xs generalizing i with
  | nil => exact h
  | cons x xs ih => exact ih h.2

lemma locate_skip (h : Links ptr i xs e) (hxs : ∀ x ∈ xs, p x = false) (fuel : ℕ) :
    locate ptr p (xs.length + fuel) i = locate ptr p fuel (lastPlace i xs) := by
  induction xs generalizing i with
  | nil => rw [length_nil, Nat.zero_add, lastPlace]
  | cons x xs ih =>
    rw [length_cons, Nat.add_right_comm, locate, h.1, lastPlace]
    simp only [hxs x mem_cons_self, Bool.false_eq_true, if_false]
    exact ih h.2 fun z hz => hxs z (mem_cons_of_mem _ hz)

lemma locate_end (h : Links ptr i xs (some y)) (hxs : ∀ x ∈ xs, p x = false) (hy : p y = true)
    {fuel : ℕ} (hfuel : xs.length < fuel) : locate ptr p fuel i = .ok (lastPlace i xs, y) := by
  obtain ⟨n, rfl⟩ := Nat.exists_eq_add_of_lt hfuel
  rw [Nat.add_assoc, locate_skip h hxs, locate, h.lastPlace_eq]
  exact if_pos hy

lemma locate_null (h : Links ptr i xs none) (hxs : ∀ x ∈ xs, p x = false) {fuel : ℕ}
    (hfuel : xs.length < fuel) : locate ptr p fuel i = .error .null := by
  obtain ⟨n, rfl⟩ := Nat.exists_eq_add_of_lt hfuel
  rw [Nat.add_assoc, locate_skip h hxs, locate, h.lastPlace_eq]

/-! ## Taking an element out -/

variable [DecidableEq α] [DecidableEq ι]

/-- **Unlinking.**  The place that points to `y` gets the link of `y`. -/
theorem Links.unlink (h : Links ptr i (xs ++ y :: ys) e) (hnd : (xs ++ y :: ys).Nodup)
    (hi : ∀ x ∈ xs ++ y :: ys, i ≠ some x) :
    Links (update ptr (lastPlace i xs) (ptr (some y))) i (xs ++ ys) e := by
  induction xs generalizing i with
  | nil =>
    refine h.2.congr (update_self ..) fun z hz => update_of_ne ?_ ..
    exact fun hzi => hi z (mem_cons_of_mem _ hz) hzi.symm
  | cons x xs ih =>
    have hx : x ∉ xs ++ y :: ys := (nodup_cons.mp hnd).1
    refine ⟨?_, ih h.2 (nodup_cons.mp hnd).2 fun z hz hzx => hx ?_⟩
    · rw [update_of_ne, h.1]
      intro hlast
      rcases lastPlace_cases (some x) xs with ⟨-, h'⟩ | ⟨z, hz, h'⟩
      · exact hi x (by simp) (hlast.trans h')
      · exact hi z (by simp [hz]) (hlast.trans h')
    · rwa [Option.some.inj hzx]

/-! ## Families of lists -/

def places (head : Option α) (next : α → Option α) : Option α → Option α
  | none => head
  | some a => next a

/-- Lists with one head each that share the links of their elements. -/
structure Table (heads : ι → Option α) (next : α → Option α) (lists : ι → List α) : Prop where
  links : ∀ k, Links (places (heads k) next) none (lists k) none
  nodup : ∀ k, (lists k).Nodup
  disjoint : ∀ k l, k ≠ l → (lists k).Disjoint (lists l)

/-- The heads and the links after `v` has been written to a place of the list `k`. -/
def setPlace (heads : ι → Option α) (next : α → Option α) (k : ι) :
    Option α → Option α → (ι → Option α) × (α → Option α)
  | none, v => (update heads k v, next)
  | some a, v => (heads, update next a v)

/-- Take the first element with `p` out of the list `k`. -/
def remove (heads : ι → Option α) (next : α → Option α) (k : ι) (p : α → Bool) (fuel : ℕ) :
    Except Lost (α × (ι → Option α) × (α → Option α)) :=
  (locate (places (heads k) next) p fuel none).map fun (i, y) =>
    (y, setPlace heads next k i (next y))

/-- Put `a` at the head of the list `k`. -/
def push (heads : ι → Option α) (next : α → Option α) (k : ι) (a : α) :
    (ι → Option α) × (α → Option α) :=
  (update heads k (some a), update next a (heads k))

variable {heads : ι → Option α} {next : α → Option α} {lists : ι → List α} {k : ι}

lemma places_setPlace (i v : Option α) :
    places ((setPlace heads next k i v).1 k) (setPlace heads next k i v).2 =
      update (places (heads k) next) i v := by
  funext j
  cases i with
  | none => cases j <;> simp [setPlace, places]
  | some a =>
    cases j with
    | none => simp [setPlace, places]
    | some b => by_cases h : b = a <;> simp [setPlace, places, h]

lemma setPlace_next {i v : Option α} {a : α} (h : i ≠ some a) :
    (setPlace heads next k i v).2 a = next a := by
  cases i with
  | none => rfl
  | some b => exact update_of_ne (fun hab => h (by rw [hab])) ..

lemma setPlace_heads {i v : Option α} {l : ι} (h : l ≠ k) :
    (setPlace heads next k i v).1 l = heads l := by
  cases i with
  | none => exact update_of_ne h ..
  | some b => rfl

/-- Taking `y` out of its list is taking it out of all of them. -/
lemma Table.update_eq_filter (T : Table heads next lists) (hk : lists k = xs ++ y :: ys) :
    update lists k (xs ++ ys) = fun l => (lists l).filter (· ≠ y) := by
  have hnd := T.nodup k
  funext l
  by_cases hl : l = k
  · subst hl
    rw [hk] at hnd
    rw [update_self, hk, filter_append, filter_cons_of_neg (by simp), ← filter_append,
      filter_eq_self.mpr]
    intro a ha
    have : a ≠ y := by grind
    simpa using this
  · rw [update_of_ne hl, filter_eq_self.mpr]
    intro a ha
    refine decide_eq_true ?_
    rintro rfl
    exact T.disjoint l k hl ha (by rw [hk]; simp)

/-- **A removal** takes the element out of its list, and changes only the link that pointed to
it. -/
theorem Table.remove_eq (T : Table heads next lists) (hk : lists k = xs ++ y :: ys)
    (hxs : ∀ x ∈ xs, p x = false) (hy : p y = true) {fuel : ℕ} (hfuel : (lists k).length < fuel) :
    ∃ heads' next', remove heads next k p fuel = .ok (y, heads', next') ∧
      Table heads' next' (fun l => (lists l).filter (· ≠ y)) ∧
      ∀ a, lastPlace none xs ≠ some a → next' a = next a := by
  have hlinks := T.links k
  have hnd := T.nodup k
  rw [hk] at hlinks hnd
  have hloc : locate (places (heads k) next) p fuel none = .ok (lastPlace none xs, y) :=
    locate_end (links_append.mp hlinks).1 hxs hy (by rw [hk] at hfuel; simp at hfuel; omega)
  refine ⟨(setPlace heads next k (lastPlace none xs) (next y)).1,
    (setPlace heads next k (lastPlace none xs) (next y)).2, by rw [remove, hloc]; rfl,
    ⟨fun l => ?_, fun l => (T.nodup l).filter _, fun l m hlm => ?_⟩, fun a ha => setPlace_next ha⟩
  · rw [← congrFun (T.update_eq_filter hk) l]
    by_cases hl : l = k
    · subst hl
      rw [update_self, places_setPlace]
      exact hlinks.unlink hnd (by simp)
    rw [update_of_ne hl]
    refine (T.links l).congr (setPlace_heads hl) fun a ha => setPlace_next fun hlast => ?_
    rcases lastPlace_cases none xs with ⟨-, h⟩ | ⟨z, hz, h⟩
    · simp [h] at hlast
    · obtain rfl : z = a := Option.some.inj (h.symm.trans hlast)
      exact T.disjoint l k hl ha (by rw [hk]; simp [hz])
  · exact fun a ha ha' => T.disjoint l m hlm (mem_of_mem_filter ha) (mem_of_mem_filter ha')

/-- A removal that finds no element of the kind reads through a null pointer. -/
theorem Table.remove_null (T : Table heads next lists) (hp : ∀ x ∈ lists k, p x = false)
    {fuel : ℕ} (hfuel : (lists k).length < fuel) : remove heads next k p fuel = .error .null := by
  rw [remove, locate_null (T.links k) hp hfuel]
  rfl

/-- **A new element** at the head of one of the lists. -/
theorem Table.push (T : Table heads next lists) {a : α} (ha : ∀ l, a ∉ lists l) :
    Table (push heads next k a).1 (push heads next k a).2 (update lists k (a :: lists k)) := by
  have hnext : ∀ l, ∀ x ∈ lists l, (Chain.push heads next k a).2 x = next x :=
    fun l x hx => update_of_ne (by rintro rfl; exact ha l hx) ..
  refine ⟨fun l => ?_, fun l => ?_, fun l m hlm => ?_⟩
  · by_cases hl : l = k
    · subst hl
      rw [update_self]
      refine ⟨update_self .., (T.links l).congr (update_self ..) (hnext l)⟩
    · rw [update_of_ne hl]
      exact (T.links l).congr (update_of_ne hl ..) (hnext l)
  · by_cases hl : l = k
    · subst hl
      rw [update_self]
      exact nodup_cons.mpr ⟨ha l, T.nodup l⟩
    · rw [update_of_ne hl]
      exact T.nodup l
  · by_cases hl : l = k
    · subst hl
      rw [update_self, update_of_ne (Ne.symm hlm), disjoint_cons_left]
      exact ⟨ha m, T.disjoint l m hlm⟩
    rw [update_of_ne hl]
    by_cases hm : m = k
    · subst hm
      rw [update_self, disjoint_cons_right]
      exact ⟨ha l, T.disjoint l m hlm⟩
    · rw [update_of_ne hm]
      exact T.disjoint l m hlm

end Chain
