import Mathlib
import Qemu.Memory.FlatView

/-!
# Rendering a tree of memory regions

The memory regions of a machine live in a heap that maps a `MemoryRegion *` to the region;
`renderMemoryRegion` and `generateMemoryTopology` are the functions of `memory.c` over it.  A
failed assertion is `none`.

The source recurses along subregions and aliases without a bound, so the model takes fuel; a
`RegionTree` is a heap in which these links are well founded, and gives enough of it.

**Main results:**
- `renderMemoryRegion_eq_foldlM`: rendering is a fold of `renderSelf` over the terminating regions
  reached, each with the clip it is reached with
- `resolve_eq_findSome`: the pointwise rule picks the first of these that covers the address
-/

namespace Qemu.Memory

open List AddrRange

/-- The fields of `struct MemoryRegion` for rendering.  Addresses and offsets are
`target_phys_addr_t`; `memory_region_init` makes no size above `2^64`. -/
structure MemoryRegion where
  parent : Option RegionId
  size : ℕ
  addr : ℕ
  terminates : Bool
  readable : Bool
  readonly : Bool
  enabled : Bool
  aliasOf : Option RegionId
  aliasOffset : ℕ
  priority : ℕ
  mayOverlap : Bool
  subregions : List RegionId
  dirtyLogMask : BitVec 8
  size_le : size ≤ 2 ^ 64

/-- `memory_region_init`, where the size `UINT64_MAX` stands for `2^64`. -/
def memoryRegionInit (size : BitVec 64) : MemoryRegion where
  parent := none
  size := if size = BitVec.allOnes 64 then 2 ^ 64 else size.toNat
  addr := 0
  terminates := false
  readable := true
  readonly := false
  enabled := true
  aliasOf := none
  aliasOffset := 0
  priority := 0
  mayOverlap := false
  subregions := []
  dirtyLogMask := 0
  size_le := by
    have := size.isLt
    split <;> omega

abbrev RegionHeap := RegionId → MemoryRegion

/-- The local variables `base`, `offset_in_region` and `remain` of the gap-filling loop. -/
structure Cursor where
  base : ℤ
  offset : ℕ
  remain : ℤ
  deriving DecidableEq, Repr

/-- Move the loop's variables past `now` bytes. -/
def Cursor.advance (c : Cursor) (now : ℤ) : Option Cursor :=
  (int128Get64 now).map fun n => ⟨c.base + now, addrAdd c.offset n, c.remain - now⟩

/-- The part of the region that lies before `ranges[i]`, inserted there. -/
def fillGap (fr r : FlatRange) (c : Cursor) : Option (FlatView × Cursor) :=
  if c.base < r.addr.start then
    let now := min c.remain (r.addr.start - c.base)
    (c.advance now).map fun c' =>
      ([{ fr with offsetInRegion := c.offset, addr := ⟨c.base, now⟩ }], c')
  else
    some ([], c)

/-- The part of the region that `ranges[i]` obscures, skipped. -/
def skipOver (r : FlatRange) (c : Cursor) : Option Cursor :=
  if c.base = r.addr.start then c.advance (min c.remain r.addr.size) else some c

/-- The loop over `view->ranges` at the end of `render_memory_region`, from index `i` on.  `fr` has
the fields that all new ranges share. -/
def renderGaps (fr : FlatRange) : FlatView → Cursor → Option FlatView
  | [], c =>
    if c.remain = 0 then some []
    else some [{ fr with offsetInRegion := c.offset, addr := ⟨c.base, c.remain⟩ }]
  | r :: rs, c =>
    if c.remain = 0 then some (r :: rs)
    else if r.addr.stop ≤ c.base then (renderGaps fr rs c).map (r :: ·)
    else
      (fillGap fr r c).bind fun (piece, c1) =>
        (skipOver r c1).bind fun c2 =>
          (renderGaps fr rs c2).map fun rs' => piece ++ r :: rs'

/-- A terminating region reached by the recursion, with the arguments it is rendered with. -/
structure Visit where
  mr : RegionId
  base : ℤ
  clip : AddrRange
  readonly : Bool
  deriving DecidableEq, Repr

/-- Rendering of the region itself into the gaps left by the current view. -/
def renderSelf (h : RegionHeap) (view : FlatView) (v : Visit) : Option FlatView :=
  (int128Get64 (v.clip.start - v.base)).bind fun offset =>
    renderGaps
      { mr := v.mr, offsetInRegion := offset, addr := v.clip,
        dirtyLogMask := (h v.mr).dirtyLogMask, readable := (h v.mr).readable,
        readonly := v.readonly }
      view ⟨v.clip.start, offset, v.clip.size⟩

/-- `render_memory_region`. -/
def renderMemoryRegion (h : RegionHeap) :
    ℕ → FlatView → RegionId → ℤ → AddrRange → Bool → Option FlatView
  | 0, _, _, _, _, _ => none
  | fuel + 1, view, mr, base, clip, readonly =>
    if !(h mr).enabled then some view
    else
      let base := base + (h mr).addr
      let readonly := readonly || (h mr).readonly
      let tmp : AddrRange := ⟨base, (h mr).size⟩
      if !tmp.intersects clip then some view
      else
        let clip := tmp.intersection clip
        match (h mr).aliasOf with
        | some orig =>
          renderMemoryRegion h fuel view orig
            (base - (h orig).addr - (h mr).aliasOffset) clip readonly
        | none =>
          ((h mr).subregions.foldlM
              (fun view subregion => renderMemoryRegion h fuel view subregion base clip readonly)
              view).bind fun view =>
            if !(h mr).terminates then some view
            else renderSelf h view ⟨mr, base, clip, readonly⟩

def wholeSpace : AddrRange := ⟨0, int128_2_64⟩

/-- `generate_memory_topology`. -/
def generateMemoryTopology (h : RegionHeap) (fuel : ℕ) (mr : RegionId) : Option FlatView :=
  (renderMemoryRegion h fuel [] mr 0 wholeSpace false).map flatviewSimplify

/-- The region that answers at `a` under `mr`.  A disabled region and one without `a` answer
nowhere, an alias answers as its target does, and otherwise the subregions are asked in order before
the region itself. -/
def resolve (h : RegionHeap) : ℕ → RegionId → ℤ → Bool → ℤ → Option Target
  | 0, _, _, _, _ => none
  | fuel + 1, mr, base, readonly, a =>
    let base := base + (h mr).addr
    let readonly := readonly || (h mr).readonly
    if !(h mr).enabled || !(contains ⟨base, (h mr).size⟩ a) then none
    else
      match (h mr).aliasOf with
      | some orig =>
        resolve h fuel orig (base - (h orig).addr - (h mr).aliasOffset) readonly a
      | none =>
        ((h mr).subregions.findSome? fun subregion => resolve h fuel subregion base readonly a).or
          (if (h mr).terminates then
            some ⟨mr, a - base, (h mr).dirtyLogMask, (h mr).readable, readonly⟩
          else none)

/-- The terminating regions that `render_memory_region` reaches, in its order. -/
def visits (h : RegionHeap) : ℕ → RegionId → ℤ → AddrRange → Bool → List Visit
  | 0, _, _, _, _ => []
  | fuel + 1, mr, base, clip, readonly =>
    let base := base + (h mr).addr
    let readonly := readonly || (h mr).readonly
    let tmp : AddrRange := ⟨base, (h mr).size⟩
    if !(h mr).enabled || !tmp.intersects clip then []
    else
      let clip := tmp.intersection clip
      match (h mr).aliasOf with
      | some orig => visits h fuel orig (base - (h orig).addr - (h mr).aliasOffset) clip readonly
      | none =>
        ((h mr).subregions.flatMap fun subregion => visits h fuel subregion base clip readonly)
          ++ (if (h mr).terminates then [⟨mr, base, clip, readonly⟩] else [])

/-- A region and everything reachable from it along subregions and aliases, without a cycle. -/
structure RegionTree where
  heap : RegionHeap
  root : RegionId
  depth : RegionId → ℕ
  subregion_lt : ∀ mr, ∀ subregion ∈ (heap mr).subregions, depth subregion < depth mr
  alias_lt : ∀ mr orig, (heap mr).aliasOf = some orig → depth orig < depth mr

namespace RegionTree

variable (T : RegionTree)

/-- `generate_memory_topology` of the root. -/
def topology : Option FlatView := generateMemoryTopology T.heap (T.depth T.root + 1) T.root

/-- The pointwise rule at the root. -/
def resolveAt (a : ℤ) : Option Target := resolve T.heap (T.depth T.root + 1) T.root 0 false a

/-- The regions in the order in which they are rendered. -/
def visited : List Visit := visits T.heap (T.depth T.root + 1) T.root 0 wholeSpace false

end RegionTree

/-! ## Rendering is a fold over the visited regions -/

lemma foldlM_flatMap {α β γ : Type*} (f : γ → β → Option γ) (g : α → List β) (l : List α) (c : γ) :
    (l.flatMap g).foldlM f c = l.foldlM (fun c a => (g a).foldlM f c) c := by
  induction l generalizing c with
  | nil => rfl
  | cons a l ih => simp only [flatMap_cons, foldlM_append, foldlM_cons, ih]

lemma foldlM_congr_mem {β γ : Type*} {f g : γ → β → Option γ} {l : List β} {c : γ}
    (h : ∀ c, ∀ b ∈ l, f c b = g c b) : l.foldlM f c = l.foldlM g c := by
  induction l generalizing c with
  | nil => rfl
  | cons b l ih =>
    rw [foldlM_cons, foldlM_cons, h c b (by simp)]
    exact bind_congr fun c' => ih fun c'' b' hb' => h c'' b' (by simp [hb'])

/-- **Rendering as a fold**: with fuel for the depth, the terminating regions are rendered one after
the other. -/
theorem renderMemoryRegion_eq_foldlM (T : RegionTree) (fuel : ℕ) (view : FlatView) (mr : RegionId)
    (base : ℤ) (clip : AddrRange) (readonly : Bool) (hfuel : T.depth mr < fuel) :
    renderMemoryRegion T.heap fuel view mr base clip readonly
      = (visits T.heap fuel mr base clip readonly).foldlM (renderSelf T.heap) view := by
  induction fuel generalizing view mr base clip readonly with
  | zero => omega
  | succ fuel ih =>
    simp only [renderMemoryRegion, visits]
    cases hen : (T.heap mr).enabled with
    | false => rfl
    | true =>
      cases hin : intersects ⟨base + (T.heap mr).addr, (T.heap mr).size⟩ clip with
      | false => rfl
      | true =>
        simp only [Bool.not_true, Bool.false_eq_true, if_false, Bool.or_self]
        cases hal : (T.heap mr).aliasOf with
        | some orig =>
          have := T.alias_lt mr orig hal
          exact ih _ _ _ _ _ (by omega)
        | none =>
          simp only [foldlM_append, foldlM_flatMap]
          rw [foldlM_congr_mem fun view' subregion hs => ih view' subregion _ _ _ (by
            have := T.subregion_lt mr subregion hs
            omega)]
          cases (T.heap mr).terminates <;> simp

/-! ## The pointwise rule asks the visited regions in order -/

namespace Visit

/-- First address the visit may map. -/
abbrev lo (v : Visit) : ℤ := v.clip.start

/-- First address after those the visit may map. -/
abbrev hi (v : Visit) : ℤ := v.clip.stop

def target (h : RegionHeap) (v : Visit) (a : ℤ) : Target :=
  ⟨v.mr, a - v.base, (h v.mr).dirtyLogMask, (h v.mr).readable, v.readonly⟩

/-- The visited region's answer inside its clip. -/
def answer (h : RegionHeap) (a : ℤ) (v : Visit) : Option Target :=
  if Ranges.Covers lo hi v a then some (v.target h a) else none

/-- A visit with a clip inside `clip`, and offsets into its region that are 64-bit numbers. -/
structure Within (clip : AddrRange) (v : Visit) : Prop where
  start_le : clip.start ≤ v.clip.start
  le_stop : v.clip.stop ≤ clip.stop
  size_nonneg : 0 ≤ v.clip.size
  base_le : v.base ≤ v.clip.start
  stop_le : v.clip.stop ≤ v.base + 2 ^ 64
  offset_lt : v.clip.start < v.base + 2 ^ 64

end Visit

/-- The clip of a region that intersects the clip of its parent. -/
lemma intersection_within {r clip : AddrRange} (hr : 0 ≤ r.size) (hclip : 0 ≤ clip.size)
    (h : r.intersects clip = true) :
    0 ≤ (r.intersection clip).size ∧ clip.start ≤ (r.intersection clip).start
      ∧ (r.intersection clip).stop ≤ clip.stop := by
  simp only [intersects, Bool.or_eq_true, contains_iff] at h
  simp only [intersection, stop] at h ⊢
  omega

/-- If what is rendered below stays inside its clip, everything rendered here lies inside the region
too. -/
lemma visits_succ_within {h : RegionHeap} {fuel : ℕ} {mr : RegionId} {base : ℤ} {clip : AddrRange}
    {readonly : Bool} (hclip : 0 ≤ clip.size)
    (ih : ∀ mr base clip readonly, 0 ≤ clip.size →
      ∀ v ∈ visits h fuel mr base clip readonly, Visit.Within clip v) :
    ∀ v ∈ visits h (fuel + 1) mr base clip readonly,
      Visit.Within (intersection ⟨base + (h mr).addr, (h mr).size⟩ clip) v
        ∧ intersects ⟨base + (h mr).addr, (h mr).size⟩ clip = true := by
  intro v hv
  simp only [visits] at hv
  split at hv
  next => simp at hv
  next hcond =>
    have hin : intersects ⟨base + (h mr).addr, (h mr).size⟩ clip = true := by
      simp only [Bool.or_eq_true, Bool.not_eq_true', not_or, Bool.not_eq_false] at hcond
      exact hcond.2
    have hsize := (h mr).size_le
    obtain ⟨hnn, _, _⟩ := intersection_within (by simp) hclip hin
    refine ⟨?_, hin⟩
    split at hv
    next => exact ih _ _ _ _ hnn v hv
    next =>
      rcases mem_append.mp hv with hv | hv
      · obtain ⟨subregion, _, hv⟩ := mem_flatMap.mp hv
        exact ih _ _ _ _ hnn v hv
      split at hv
      next =>
        obtain rfl := mem_singleton.mp hv
        simp only [intersects, Bool.or_eq_true, contains_iff] at hin
        refine ⟨le_rfl, le_rfl, hnn, ?_, ?_, ?_⟩ <;>
          simp only [intersection, stop] at hin ⊢ <;> omega
      next => simp at hv

lemma visits_within (h : RegionHeap) (fuel : ℕ) (mr : RegionId) (base : ℤ) (clip : AddrRange)
    (readonly : Bool) (hclip : 0 ≤ clip.size) :
    ∀ v ∈ visits h fuel mr base clip readonly, Visit.Within clip v := by
  induction fuel generalizing mr base clip readonly with
  | zero => simp [visits]
  | succ fuel ih =>
    intro v hv
    obtain ⟨hw, hin⟩ := visits_succ_within hclip ih v hv
    obtain ⟨_, hlo, hhi⟩ := intersection_within (by simp) hclip hin
    exact ⟨hlo.trans hw.start_le, hw.le_stop.trans hhi, hw.size_nonneg, hw.base_le, hw.stop_le,
      hw.offset_lt⟩

/-- Outside the range of a region nothing rendered below it answers. -/
lemma answer_eq_none {h : RegionHeap} {fuel : ℕ} {mr : RegionId} {base : ℤ} {clip : AddrRange}
    {readonly : Bool} (hclip : 0 ≤ clip.size) {a : ℤ}
    (ha : contains ⟨base + (h mr).addr, (h mr).size⟩ a = false) :
    (visits h (fuel + 1) mr base clip readonly).findSome? (Visit.answer h a) = none := by
  rw [findSome?_eq_none_iff]
  intro v hv
  obtain ⟨hw, _⟩ := visits_succ_within hclip (visits_within h fuel) v hv
  refine if_neg fun hcov => ?_
  have hin : (intersection ⟨base + (h mr).addr, (h mr).size⟩ clip).contains a = true :=
    contains_iff.mpr ⟨hw.start_le.trans hcov.1, hcov.2.trans_le hw.le_stop⟩
  rw [contains_intersection, ha] at hin
  simp at hin

lemma findSome_flatMap {α β γ : Type*} (f : β → Option γ) (g : α → List β) (l : List α) :
    (l.flatMap g).findSome? f = l.findSome? fun a => (g a).findSome? f := by
  induction l with
  | nil => rfl
  | cons a l ih =>
    rw [flatMap_cons, findSome?_append, findSome?_cons, ih]
    cases (g a).findSome? f <;> rfl

/-- **The pointwise rule**, read off the visits: the first one that covers the address answers. -/
theorem resolve_eq_findSome (h : RegionHeap) (fuel : ℕ) (mr : RegionId) (base : ℤ)
    (clip : AddrRange) (readonly : Bool) (hclip : 0 ≤ clip.size) (a : ℤ)
    (ha : clip.contains a = true) :
    resolve h fuel mr base readonly a
      = (visits h fuel mr base clip readonly).findSome? (Visit.answer h a) := by
  induction fuel generalizing mr base clip readonly with
  | zero => rfl
  | succ fuel ih =>
    cases hat : contains ⟨base + (h mr).addr, (h mr).size⟩ a with
    | false =>
      rw [answer_eq_none hclip hat]
      simp [resolve, hat]
    | true =>
      have hin : intersects ⟨base + (h mr).addr, (h mr).size⟩ clip = true := by
        by_contra hno
        have := not_contains_of_not_intersects (Bool.eq_false_iff.mpr hno) a
        simp [ha, hat] at this
      have hnn := (intersection_within (by simp) hclip hin).1
      have ha' : (intersection ⟨base + (h mr).addr, (h mr).size⟩ clip).contains a = true := by
        rw [contains_intersection, hat, ha, Bool.and_self]
      simp only [resolve, visits, hat, hin, Bool.not_true, Bool.or_false]
      cases hen : (h mr).enabled with
      | false => rfl
      | true =>
        simp only [Bool.not_true, Bool.false_eq_true, if_false]
        cases hal : (h mr).aliasOf with
        | some orig => exact ih _ _ _ _ hnn ha'
        | none =>
          simp only [findSome?_append, findSome_flatMap, ih _ _ _ _ hnn ha']
          congr 1
          cases (h mr).terminates with
          | false => rfl
          | true =>
            have hcov := contains_iff.mp ha'
            simp [Visit.answer, Ranges.Covers, Visit.lo, Visit.hi, hcov, Visit.target]

end Qemu.Memory
