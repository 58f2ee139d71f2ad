import Mathlib
import Qemu.Lib.Ranges

/-!
# Flat views

A `FlatView` is the flattened map of an address space: the array of ranges that
`generate_memory_topology` of `memory.c` returns, here a list.  An `Int128` of the source is an
integer; `int128Get64` keeps the assertion of `int128_get64`.

**Main results:**
- `flatviewSimplify_ordered_iff`: merging adjacent ranges neither makes nor loses order
- `lookup_flatviewSimplify`: the merged view maps every address as the view did
- `flatviewSimplify_merges`: nothing is left to merge
-/

namespace Qemu.Memory

/-- `MemoryRegion *`. -/
abbrev RegionId := ℕ

/-- `int128_2_64`, the size of an address space. -/
abbrev int128_2_64 : ℤ := 2 ^ 64

/-- `int128_get64`: the assertion `!a.hi` fails outside the unsigned 64-bit range. -/
def int128Get64 (a : ℤ) : Option ℕ :=
  if 0 ≤ a ∧ a < int128_2_64 then some a.toNat else none

/-- The value of a `target_phys_addr_t` after an addition. -/
def addrAdd (a b : ℕ) : ℕ := (a + b) % 2 ^ 64

structure AddrRange where
  start : ℤ
  size : ℤ
  deriving DecidableEq, Repr

namespace AddrRange

/-- `addrrange_end`. -/
def stop (r : AddrRange) : ℤ := r.start + r.size

/-- `addrrange_contains`. -/
def contains (r : AddrRange) (addr : ℤ) : Bool := decide (r.start ≤ addr ∧ addr < r.stop)

/-- `addrrange_intersects`. -/
def intersects (r1 r2 : AddrRange) : Bool := r1.contains r2.start || r2.contains r1.start

/-- `addrrange_intersection`. -/
def intersection (r1 r2 : AddrRange) : AddrRange :=
  let start := max r1.start r2.start
  let stop := min r1.stop r2.stop
  ⟨start, stop - start⟩

lemma contains_iff {r : AddrRange} {a : ℤ} : r.contains a = true ↔ r.start ≤ a ∧ a < r.stop := by
  simp [contains]

lemma contains_intersection (r1 r2 : AddrRange) (a : ℤ) :
    (r1.intersection r2).contains a = (r1.contains a && r2.contains a) := by
  rw [Bool.eq_iff_iff, Bool.and_eq_true, contains_iff, contains_iff, contains_iff]
  simp only [intersection, stop]
  omega

lemma not_contains_of_not_intersects {r1 r2 : AddrRange} (h : r1.intersects r2 = false) (a : ℤ) :
    (r1.contains a && r2.contains a) = false := by
  rw [intersects, Bool.or_eq_false_iff, Bool.eq_false_iff, Bool.eq_false_iff] at h
  rw [Bool.eq_false_iff]
  simp only [ne_eq, Bool.and_eq_true, contains_iff, stop] at h ⊢
  omega

end AddrRange

/-- One range of the map, at absolute addresses. -/
structure FlatRange where
  mr : RegionId
  offsetInRegion : ℕ
  addr : AddrRange
  dirtyLogMask : BitVec 8
  readable : Bool
  readonly : Bool
  deriving DecidableEq, Repr

/-- The ranges of a `struct FlatView`, in the order of the array. -/
abbrev FlatView := List FlatRange

namespace FlatRange

abbrev lo (r : FlatRange) : ℤ := r.addr.start

abbrev hi (r : FlatRange) : ℤ := r.addr.stop

end FlatRange

/-- A view with non-empty ranges, sorted by start and pairwise disjoint. -/
abbrev FlatView.Ordered (view : FlatView) : Prop := Ranges.Ordered FlatRange.lo FlatRange.hi view

def FlatView.InSpace (view : FlatView) : Prop := ∀ r ∈ view, 0 ≤ r.lo ∧ r.hi ≤ 2 ^ 64

/-- What the map says about an address: the region, the offset into it, and the attributes. -/
structure Target where
  mr : RegionId
  offset : ℤ
  dirtyLogMask : BitVec 8
  readable : Bool
  readonly : Bool
  deriving DecidableEq, Repr

/-- What a range says about an address inside it. -/
def FlatRange.target (r : FlatRange) (a : ℤ) : Target where
  mr := r.mr
  offset := r.offsetInRegion + (a - r.addr.start)
  dirtyLogMask := r.dirtyLogMask
  readable := r.readable
  readonly := r.readonly

/-- What the view says about an address: the answer of the range containing it, if any. -/
def FlatView.lookup (view : FlatView) (a : ℤ) : Option Target :=
  (view.find? fun r => decide (Ranges.Covers FlatRange.lo FlatRange.hi r a)).map (·.target a)

/-- `can_merge`. -/
def canMerge (r1 r2 : FlatRange) : Bool :=
  decide (r1.addr.stop = r2.addr.start) && decide (r1.mr = r2.mr)
    && decide ((r1.offsetInRegion : ℤ) + r1.addr.size = r2.offsetInRegion)
    && decide (r1.dirtyLogMask = r2.dirtyLogMask)
    && decide (r1.readable = r2.readable)
    && decide (r1.readonly = r2.readonly)

/-- The two loops of `flatview_simplify`: `acc` is `ranges[i]` with the sizes merged so far, `last`
is `ranges[j-1]`, and the list starts at `j`. -/
def simplifyFrom (acc last : FlatRange) : List FlatRange → FlatView
  | [] => [acc]
  | r :: rs =>
    if canMerge last r then
      simplifyFrom { acc with addr := ⟨acc.addr.start, acc.addr.size + r.addr.size⟩ } r rs
    else
      acc :: simplifyFrom r r rs

/-- `flatview_simplify`. -/
def flatviewSimplify : FlatView → FlatView
  | [] => []
  | r :: rs => simplifyFrom r r rs

/-! ## Merging keeps the map -/

/-- The accumulator `acc` of the merge stands for a run of ranges that ends with `last`. -/
structure MergedInto (acc last : FlatRange) : Prop where
  mr : acc.mr = last.mr
  offset : (acc.offsetInRegion : ℤ) + (last.addr.start - acc.addr.start) = last.offsetInRegion
  dirtyLogMask : acc.dirtyLogMask = last.dirtyLogMask
  readable : acc.readable = last.readable
  readonly : acc.readonly = last.readonly
  stop : acc.addr.stop = last.addr.stop

lemma MergedInto.refl (r : FlatRange) : MergedInto r r := by
  constructor <;> simp

variable {acc last r : FlatRange} {rs : FlatView}

lemma MergedInto.target_eq (h : MergedInto acc last) (a : ℤ) : acc.target a = last.target a := by
  have hoff := h.offset
  simp only [FlatRange.target, h.mr, h.dirtyLogMask, h.readable, h.readonly, Target.mk.injEq,
    true_and, and_true]
  omega

lemma canMerge_iff {r1 r2 : FlatRange} :
    canMerge r1 r2 = true ↔ r1.addr.stop = r2.addr.start ∧ r1.mr = r2.mr
      ∧ (r1.offsetInRegion : ℤ) + r1.addr.size = r2.offsetInRegion
      ∧ r1.dirtyLogMask = r2.dirtyLogMask ∧ r1.readable = r2.readable
      ∧ r1.readonly = r2.readonly := by
  simp [canMerge, and_assoc]

lemma MergedInto.step (h : MergedInto acc last) (hm : canMerge last r = true) :
    MergedInto { acc with addr := ⟨acc.addr.start, acc.addr.size + r.addr.size⟩ } r := by
  obtain ⟨hend, hmr, hoff, hd, hrd, hro⟩ := canMerge_iff.mp hm
  have hstop := h.stop
  have hoff' := h.offset
  simp only [AddrRange.stop] at hend hstop
  refine ⟨h.mr.trans hmr, ?_, h.dirtyLogMask.trans hd, h.readable.trans hrd,
    h.readonly.trans hro, ?_⟩
  · show (acc.offsetInRegion : ℤ) + (r.addr.start - acc.addr.start) = r.offsetInRegion
    omega
  · show acc.addr.start + (acc.addr.size + r.addr.size) = r.addr.start + r.addr.size
    omega

lemma ordered_merge_iff (hacc : acc.lo < acc.hi) (hr : r.lo < r.hi) (hadj : acc.hi = r.lo) :
    FlatView.Ordered ({ acc with addr := ⟨acc.addr.start, acc.addr.size + r.addr.size⟩ } :: rs)
      ↔ FlatView.Ordered (acc :: r :: rs) := by
  simp only [FlatView.Ordered, Ranges.Ordered.cons_iff, List.mem_cons, forall_eq_or_imp]
  simp only [FlatRange.hi, FlatRange.lo, AddrRange.stop] at hacc hr hadj ⊢
  constructor
  · rintro ⟨_, hrs, hord⟩
    exact ⟨hacc, ⟨by omega, fun s hs => by have := hrs s hs; omega⟩, hr,
      fun s hs => by have := hrs s hs; omega, hord⟩
  · rintro ⟨_, _, _, hrs, hord⟩
    exact ⟨by omega, fun s hs => by have := hrs s hs; omega, hord⟩

/-- The merged view begins where the view did. -/
lemma simplifyFrom_eq_cons (acc last : FlatRange) (rs : FlatView) :
    ∃ r rs', simplifyFrom acc last rs = r :: rs' ∧ r.lo = acc.lo := by
  induction rs generalizing acc last with
  | nil => exact ⟨acc, [], rfl, rfl⟩
  | cons r rs ih =>
    rw [simplifyFrom]
    split
    · exact ih _ r
    · exact ⟨acc, _, rfl, rfl⟩

lemma FlatView.lookup_cons (r : FlatRange) (rs : FlatView) (a : ℤ) : FlatView.lookup (r :: rs) a
      = if Ranges.Covers FlatRange.lo FlatRange.hi r a then some (r.target a)
        else FlatView.lookup rs a := by
  rw [FlatView.lookup, List.find?_cons]
  split <;> simp_all [FlatView.lookup]

lemma lookup_merge (rs : FlatView) (h : MergedInto acc last) (hm : canMerge last r = true)
    (hacc : acc.lo < acc.hi) (hr : r.lo < r.hi) (a : ℤ) : FlatView.lookup
        ({ acc with addr := ⟨acc.addr.start, acc.addr.size + r.addr.size⟩ } :: rs) a
      = FlatView.lookup (acc :: r :: rs) a := by
  have hadj : acc.hi = r.lo := h.stop.trans (canMerge_iff.mp hm).1
  have htarget := (h.step hm).target_eq a
  have hold : acc.target a = r.target a := by rw [← htarget]; rfl
  have hcov : Ranges.Covers FlatRange.lo FlatRange.hi
      { acc with addr := ⟨acc.addr.start, acc.addr.size + r.addr.size⟩ } a
      ↔ Ranges.Covers FlatRange.lo FlatRange.hi acc a ∨
      Ranges.Covers FlatRange.lo FlatRange.hi r a := by
    simp only [Ranges.Covers, FlatRange.hi, FlatRange.lo, AddrRange.stop] at hacc hr hadj ⊢
    omega
  simp only [FlatView.lookup_cons, hcov, htarget, hold]
  by_cases h1 : Ranges.Covers FlatRange.lo FlatRange.hi acc a
  · simp only [h1, true_or, if_true]
  · simp only [h1, false_or, if_false]

/-- The merged view is ordered exactly when the view was, and maps every address as before. -/
lemma simplifyFrom_spec (h : MergedInto acc last) (hne : ∀ r ∈ acc :: rs, r.lo < r.hi) :
    ((simplifyFrom acc last rs).Ordered ↔ FlatView.Ordered (acc :: rs)) ∧
      ∀ a, (simplifyFrom acc last rs).lookup a = FlatView.lookup (acc :: rs) a := by
  induction rs generalizing acc last with
  | nil => exact ⟨Iff.rfl, fun _ => rfl⟩
  | cons r rs ih =>
    obtain ⟨hacc, hr, hrs⟩ : acc.lo < acc.hi ∧ r.lo < r.hi ∧ ∀ s ∈ rs, s.lo < s.hi := by
      simpa using hne
    rw [simplifyFrom]
    split
    next hm =>
      have hadj : acc.hi = r.lo := h.stop.trans (canMerge_iff.mp hm).1
      obtain ⟨hiff, hlookup⟩ := ih (h.step hm) (by
        simp only [List.mem_cons, forall_eq_or_imp]
        refine ⟨?_, hrs⟩
        simp only [FlatRange.hi, FlatRange.lo, AddrRange.stop] at hacc hr ⊢
        omega)
      exact ⟨hiff.trans (ordered_merge_iff hacc hr hadj),
        fun a => (hlookup a).trans (lookup_merge rs h hm hacc hr a)⟩
    next =>
      obtain ⟨hiff, hlookup⟩ := ih (MergedInto.refl r) (by simpa using ⟨hr, hrs⟩)
      refine ⟨?_, fun a => by rw [FlatView.lookup_cons, FlatView.lookup_cons, hlookup]⟩
      obtain ⟨x, xs, hx, hlo⟩ := simplifyFrom_eq_cons r r rs
      rw [hx] at hiff ⊢
      simp only [FlatView.Ordered, Ranges.Ordered.cons_cons_iff] at hiff ⊢
      rw [hiff, hlo]

/-- **Merging keeps the order**: the simplified view is ordered exactly when the view was. -/
theorem flatviewSimplify_ordered_iff {view : FlatView} (hne : ∀ r ∈ view, r.lo < r.hi) :
    (flatviewSimplify view).Ordered ↔ view.Ordered := by
  cases view with
  | nil => rfl
  | cons r rs => exact (simplifyFrom_spec (MergedInto.refl r) hne).1

/-- **Merging keeps the map**: every address is mapped as before. -/
theorem lookup_flatviewSimplify {view : FlatView} (hne : ∀ r ∈ view, r.lo < r.hi) (a : ℤ) :
    (flatviewSimplify view).lookup a = view.lookup a := by
  cases view with
  | nil => rfl
  | cons r rs => exact (simplifyFrom_spec (MergedInto.refl r) hne).2 a

/-! ## Nothing is left to merge -/

/-- A merged range can be merged with what its last range can be merged with. -/
lemma MergedInto.canMerge_eq (h : MergedInto acc last) : canMerge acc r = canMerge last r := by
  have hoffset : (acc.offsetInRegion : ℤ) + acc.addr.size =
      last.offsetInRegion + last.addr.size := by
    have := h.offset
    have := h.stop
    simp only [AddrRange.stop] at *
    omega
  rw [canMerge, canMerge, h.stop, h.mr, hoffset, h.dirtyLogMask, h.readable, h.readonly]

abbrev FlatView.Merged (view : FlatView) : Prop := view.IsChain fun a b => canMerge a b = false

lemma simplifyFrom_merged (h : MergedInto acc last) : (simplifyFrom acc last rs).Merged ∧
    ∀ a, canMerge a acc = false → ∀ b ∈ (simplifyFrom acc last rs).head?, canMerge a b = false := by
  induction rs generalizing acc last with
  | nil => simp [simplifyFrom]
  | cons r rs ih =>
    rw [simplifyFrom]
    split_ifs with hm
    · exact ih (h.step hm)
    · obtain ⟨hchain, hhead⟩ := ih (MergedInto.refl r)
      exact ⟨List.isChain_cons.mpr ⟨hhead acc (by rw [h.canMerge_eq]; simpa using hm),
        hchain⟩, by simp⟩

lemma FlatView.Merged.simplify_eq {view : FlatView} (h : view.Merged) :
    flatviewSimplify view = view := by
  induction view with
  | nil => rfl
  | cons r rs ih =>
    rw [FlatView.Merged, List.isChain_cons] at h
    cases rs with
    | nil => rfl
    | cons r' rs =>
      rw [flatviewSimplify, simplifyFrom, if_neg (by simp [h.1 r' rfl])]
      exact congrArg (r :: ·) (ih h.2)

/-- **`flatview_simplify` merges all that can be merged** and keeps what the view says. -/
theorem flatviewSimplify_merges {view : FlatView} (hne : ∀ r ∈ view, r.lo < r.hi) :
    ((flatviewSimplify view).Ordered ↔ view.Ordered) ∧
      (∀ a, (flatviewSimplify view).lookup a = view.lookup a) ∧ (flatviewSimplify view).Merged ∧
      flatviewSimplify (flatviewSimplify view) = flatviewSimplify view := by
  have hmerged : (flatviewSimplify view).Merged := by
    cases view with
    | nil => exact .nil
    | cons r rs => exact (simplifyFrom_merged (MergedInto.refl r)).1
  exact ⟨flatviewSimplify_ordered_iff hne, lookup_flatviewSimplify hne, hmerged,
    hmerged.simplify_eq⟩

theorem twoRanges_merged :
    (flatviewSimplify [⟨1, 0, ⟨0, 8⟩, 0, true, false⟩, ⟨1, 8, ⟨8, 8⟩, 0, true, false⟩]).Merged :=
  (flatviewSimplify_merges (by decide)).2.2.1

end Qemu.Memory
