import Mathlib
import Qemu.Memory.Render

/-!
# When the rendered map is right

The loop at the end of `render_memory_region` fills the gaps that the ranges of the view leave.  It
handles a region that starts before, at or after an existing range, but not one that starts strictly
inside: then neither of its two branches moves the cursor, and the next piece it inserts overlaps
the range.  It also cannot skip a range that spans the whole address space, whose size is no 64-bit
number.

**Main results:**
- `renderGaps_spec`: otherwise the loop fills exactly the gaps
- `renderGaps_overlap`: a cursor inside a range makes the view overlap
- `Painted.step`: rendering one region on top of those before it
- `topology_correct_iff`: the map is sorted, disjoint and agrees with the pointwise rule exactly for
  the trees in which no region starts inside what an earlier one has taken
-/

namespace Qemu.Memory

open AddrRange Cursor FlatRange List Option

/-! ## Filling the gaps of a view -/

/-- Cursors of the loop: the bytes still to place lie in the address space, at 64-bit offsets. -/
structure Cursor.Valid (c : Cursor) : Prop where
  base_nonneg : 0 ≤ c.base
  remain_nonneg : 0 ≤ c.remain
  stop_le : c.base + c.remain ≤ 2 ^ 64
  offset_le : (c.offset : ℤ) + c.remain ≤ 2 ^ 64

/-- Moving past `k` bytes and then past `l` bytes. -/
lemma addrAdd_addrAdd (off k l : ℕ) : addrAdd (addrAdd off k) l = addrAdd off (k + l) := by
  simp only [addrAdd]
  omega

/-- The piece of a region that one turn of the loop inserts before `r`. -/
def gapPiece (fr r : FlatRange) (c : Cursor) : FlatView :=
  if c.base < r.lo then
    [{ fr with offsetInRegion := c.offset, addr := ⟨c.base, min c.remain (r.lo - c.base)⟩ }]
  else []

/-- The cursor after moving past `k` bytes. -/
def Cursor.moved (c : Cursor) (k : ℤ) : Cursor :=
  ⟨c.base + k, addrAdd c.offset k.toNat, c.remain - k⟩

variable {c c' : Cursor} {k : ℤ} {r fr : FlatRange} {rs w : FlatView} {post : List Visit}

lemma Cursor.moved_moved {l : ℤ} (hk : 0 ≤ k) (hl : 0 ≤ l) :
    (c.moved k).moved l = c.moved (k + l) := by
  simp only [moved, addrAdd_addrAdd, Int.toNat_add hk hl, Cursor.mk.injEq, true_and]
  omega

lemma Cursor.advance_eq {now : ℤ} (h0 : 0 ≤ now) (hlt : now < 2 ^ 64) :
    c.advance now = some (c.moved now) := by
  rw [advance, int128Get64, if_pos ⟨h0, hlt⟩]
  rfl

/-- The offset does not wrap while bytes remain. -/
lemma Cursor.moved_offset (hc : c.Valid) (hk : 0 ≤ k) (hlt : k < c.remain) :
    ((c.moved k).offset : ℤ) = c.offset + k := by
  have hoff := hc.offset_le
  simp only [moved, addrAdd]
  rw [Nat.mod_eq_of_lt (by omega)]
  omega

lemma Cursor.Valid.moved (hc : c.Valid) (hk : 0 ≤ k) (hle : k ≤ c.remain) : (c.moved k).Valid := by
  obtain ⟨hb, hn, hstop, hoff⟩ := hc
  have hmod : addrAdd c.offset k.toNat ≤ c.offset + k.toNat := Nat.mod_le _ _
  refine ⟨?_, ?_, ?_, ?_⟩ <;> simp only [Cursor.moved] <;> omega

/-- A turn that starts in the gap before `r` or at `r` moves past both, as far as bytes remain. -/
lemma gap_step (fr : FlatRange) (hc : c.Valid) (hr : r.lo < r.hi) (hspace : r.hi ≤ 2 ^ 64)
    (hle : c.base ≤ r.lo) (hwhole : ¬ (r.addr.size = 2 ^ 64 ∧ c.remain = 2 ^ 64)) :
    ∃ c1, fillGap fr r c = some (gapPiece fr r c, c1)
      ∧ skipOver r c1 = some (c.moved (min c.remain (r.hi - c.base))) := by
  obtain ⟨hb, hn, hstop, hoff⟩ := hc
  simp only [lo, hi, stop, gapPiece] at hr hspace hle hwhole ⊢
  rcases hle.lt_or_eq with hlt | heq
  · refine ⟨c.moved (min c.remain (r.addr.start - c.base)), ?_, ?_⟩
    · rw [fillGap, if_pos hlt, if_pos hlt]
      simp only []
      rw [advance_eq (by omega) (by omega)]
      rfl
    rcases lt_or_ge c.remain (r.addr.start - c.base) with hshort | hlong
    · rw [min_eq_left hshort.le, min_eq_left (by omega), skipOver, if_neg]
      simp only [moved]
      omega
    rw [min_eq_right hlong, skipOver, if_pos (by simp [moved]),
      advance_eq (by simp only [moved]; omega)
        (by simp only [moved]; omega),
      moved_moved (by omega) (by simp only [moved]; omega)]
    congr 2
    simp only [moved]
    omega
  · refine ⟨c, ?_, ?_⟩
    · rw [fillGap, if_neg (by omega), if_neg (by omega)]
    · rw [skipOver, if_pos heq, advance_eq (by omega) (by omega), heq]
      congr 2
      omega

/-- A piece of the region `fr` stands for, placed by the loop started at `c`. -/
structure Piece (fr : FlatRange) (c : Cursor) (view : FlatView) (r : FlatRange) : Prop where
  eq : r = { fr with offsetInRegion := r.offsetInRegion, addr := r.addr }
  base_le : c.base ≤ r.lo
  le_stop : r.hi ≤ c.base + c.remain
  offset_eq : (r.offsetInRegion : ℤ) = c.offset + (r.lo - c.base)
  maximal : r.lo = c.base ∨ ∃ s ∈ view, s.hi = r.lo

/-- The view `w` is `view` with all its gaps inside the cursor's bytes filled. -/
structure Filled (fr : FlatRange) (c : Cursor) (view w : FlatView) : Prop where
  ordered : w.Ordered
  sublist : view.Sublist w
  mem : ∀ r ∈ w, r ∈ view ∨ Piece fr c view r
  covers : ∀ a, c.base ≤ a → a < c.base + c.remain →
    ∃ r ∈ w, Ranges.Covers lo hi r a

/-- The bytes of the cursor do not start inside a range of the view, and no range is the whole
address space if they are. -/
structure Fits (c : Cursor) (view : FlatView) : Prop where
  not_inside : ∀ r ∈ view, ¬ (r.lo < c.base ∧ c.base < r.hi)
  not_whole : ∀ r ∈ view, ¬ (r.addr.size = 2 ^ 64 ∧ c.remain = 2 ^ 64)

variable {view : FlatView} {h : RegionHeap} {pre : List Visit}

lemma Filled.of_remain_zero (hord : view.Ordered) (h0 : c.remain = 0) : Filled fr c view view :=
  ⟨hord, List.Sublist.refl view, fun _ hr => .inl hr, fun a _ _ => by omega⟩

lemma Filled.nil (hc : c.Valid) (hne : c.remain ≠ 0) :
    Filled fr c [] [{ fr with offsetInRegion := c.offset, addr := ⟨c.base, c.remain⟩ }] := by
  have hn := hc.remain_nonneg
  refine ⟨?_, nil_sublist _, ?_, ?_⟩
  · simp only [FlatView.Ordered, Ranges.Ordered.cons_iff]
    refine ⟨?_, by simp, Ranges.Ordered.nil⟩
    simp only [lo, hi, stop]
    omega
  · intro r hr
    obtain rfl := mem_singleton.mp hr
    exact .inr ⟨rfl, le_rfl, le_rfl, by simp, .inl rfl⟩
  · exact fun a h1 h2 => ⟨_, mem_singleton_self _, h1, h2⟩

lemma Filled.cons (hord : FlatView.Ordered (r :: rs)) (hle : r.hi ≤ c.base)
    (hw : Filled fr c rs w) :
    Filled fr c (r :: rs) (r :: w) := by
  obtain ⟨hr, hrs, _⟩ := Ranges.Ordered.cons_iff.mp hord
  refine ⟨Ranges.Ordered.cons_iff.mpr ⟨hr, ?_, hw.ordered⟩, hw.sublist.cons_cons r, ?_, ?_⟩
  · intro s hs
    rcases hw.mem s hs with hs | hp
    · exact hrs s hs
    · exact hle.trans hp.base_le
  · intro s hs
    rcases mem_cons.mp hs with rfl | hs
    · exact .inl (by simp)
    rcases hw.mem s hs with hs | hp
    · exact .inl (by simp [hs])
    refine .inr ⟨hp.eq, hp.base_le, hp.le_stop, hp.offset_eq, ?_⟩
    rcases hp.maximal with h | ⟨t, ht, h⟩
    · exact .inl h
    · exact .inr ⟨t, by simp [ht], h⟩
  · intro a h1 h2
    obtain ⟨s, hs, hcov⟩ := hw.covers a h1 h2
    exact ⟨s, by simp [hs], hcov⟩

lemma Piece.after {s : FlatRange} (hc : c.Valid) (hr : r.lo < r.hi) (hle : c.base ≤ r.lo)
    (hs : s.lo < s.hi) (hp : Piece fr (c.moved (min c.remain (r.hi - c.base))) rs s) :
    r.hi ≤ s.lo ∧ Piece fr c (r :: rs) s := by
  obtain ⟨heq, hbase, hstop, hoff, hmax⟩ := hp
  have hk : r.hi - c.base < c.remain := by
    by_contra hno
    simp only [moved] at hbase hstop
    omega
  rw [min_eq_right hk.le] at hbase hstop hoff hmax
  rw [moved_offset hc (by omega) hk] at hoff
  simp only [moved] at hbase hstop hoff hmax
  refine ⟨by omega, heq, by omega, by omega, by omega, .inr ?_⟩
  rcases hmax with h | ⟨t, ht, h⟩
  · exact ⟨r, by simp, by omega⟩
  · exact ⟨t, by simp [ht], h⟩

lemma Filled.gap (hc : c.Valid) (hne : c.remain ≠ 0) (hord : FlatView.Ordered (r :: rs))
    (hle : c.base ≤ r.lo) (hw : Filled fr (c.moved (min c.remain (r.hi - c.base))) rs w) :
    Filled fr c (r :: rs) (gapPiece fr r c ++ r :: w) := by
  obtain ⟨hr, hrs, _⟩ := Ranges.Ordered.cons_iff.mp hord
  have hn := hc.remain_nonneg
  have hafter : ∀ s ∈ w, r.hi ≤ s.lo ∧ (s ∈ rs ∨ Piece fr c (r :: rs) s) := by
    intro s hs
    rcases hw.mem s hs with hs' | hp
    · exact ⟨hrs s hs', .inl hs'⟩
    · obtain ⟨hhi, hp⟩ := hp.after hc hr hle (hw.ordered.nonempty s hs)
      exact ⟨hhi, .inr hp⟩
  have htail : FlatView.Ordered (r :: w) :=
    Ranges.Ordered.cons_iff.mpr ⟨hr, fun s hs => (hafter s hs).1, hw.ordered⟩
  refine ⟨?_, (hw.sublist.cons_cons r).trans (sublist_append_right _ _), ?_, ?_⟩
  · rw [gapPiece]
    split
    next hlt =>
      refine Ranges.Ordered.cons_cons_iff.mpr ⟨?_, ?_, htail⟩ <;>
        simp only [lo, hi, stop] at hlt ⊢ <;> omega
    next => exact htail
  · intro s hs
    rcases mem_append.mp hs with hs | hs
    · rw [gapPiece] at hs
      split at hs
      next hlt =>
        obtain rfl := mem_singleton.mp hs
        refine .inr ⟨rfl, le_rfl, ?_, by simp, .inl rfl⟩
        simp only [hi, stop]
        omega
      next => simp at hs
    · rcases mem_cons.mp hs with rfl | hs
      · exact .inl (by simp)
      · rcases (hafter s hs).2 with hs | hp
        · exact .inl (by simp [hs])
        · exact .inr hp
  · intro a h1 h2
    rcases lt_or_ge a r.lo with hlo | hlo
    · rw [gapPiece, if_pos (show c.base < r.lo by omega)]
      refine ⟨_, mem_cons_self, h1, ?_⟩
      simp only [lo, hi, stop] at hlo ⊢
      omega
    · rcases lt_or_ge a r.hi with hhi | hhi
      · exact ⟨r, by simp, hlo, hhi⟩
      · obtain ⟨s, hs, hcov⟩ := hw.covers a (by simp only [moved]; omega)
          (by simp only [moved]; omega)
        exact ⟨s, by simp [hs], hcov⟩

/-- **The loop fills the gaps** of an ordered view that its bytes fit into. -/
theorem renderGaps_spec (hc : c.Valid) (hord : view.Ordered) (hspace : view.InSpace)
    (hfit : c.remain ≠ 0 → Fits c view) :
    ∃ w, renderGaps fr view c = some w ∧ Filled fr c view w := by
  induction view generalizing c with
  | nil =>
    rw [renderGaps]
    split
    next h0 => exact ⟨[], rfl, Filled.of_remain_zero hord h0⟩
    next hne => exact ⟨_, rfl, Filled.nil hc hne⟩
  | cons r rs ih =>
    rw [renderGaps]
    split
    next h0 => exact ⟨_, rfl, Filled.of_remain_zero hord h0⟩
    next hne =>
      have hfits := hfit hne
      obtain ⟨hr, hrs, hordrs⟩ := Ranges.Ordered.cons_iff.mp hord
      have hspacers : FlatView.InSpace rs := fun s hs => hspace s (by simp [hs])
      have hspacer := hspace r (by simp)
      split
      next hpast =>
        have hrest : Fits c rs := ⟨fun s hs => hfits.not_inside s (by simp [hs]),
          fun s hs => hfits.not_whole s (by simp [hs])⟩
        obtain ⟨w, hw, hfilled⟩ := ih hc hordrs hspacers fun _ => hrest
        exact ⟨r :: w, by rw [hw]; rfl, hfilled.cons hord hpast⟩
      next hpast =>
        have hinside := hfits.not_inside r (by simp)
        have hle : c.base ≤ r.lo := by
          simp only [lo, hi] at hinside ⊢
          omega
        obtain ⟨c1, hfill, hskip⟩ := gap_step fr hc hr hspacer.2 hle (hfits.not_whole r (by simp))
        have hn := hc.remain_nonneg
        have hvalid : (c.moved (min c.remain (r.hi - c.base))).Valid :=
          hc.moved (by omega) (by omega)
        obtain ⟨w, hw, hfilled⟩ := ih hvalid hordrs hspacers fun hne' => by
          refine ⟨fun s hs hins => ?_, fun s hs hwh => ?_⟩
          · have := hrs s hs
            simp only [moved] at hins
            omega
          · simp only [moved] at hwh
            have := hc.stop_le
            omega
        refine ⟨gapPiece fr r c ++ r :: w, ?_, hfilled.gap hc hne hord hle⟩
        simp only [hfill, bind_some, hskip, hw, map_some]

/-! ## A cursor inside a range -/

/-- The loop with no range at or before the cursor places its first piece at the cursor. -/
lemma renderGaps_head (hpos : 0 < c.remain) (hlater : ∀ r ∈ view, c.base < r.lo ∧ r.lo < r.hi)
    (hw : renderGaps fr view c = some w) : ∃ s ∈ w, Ranges.Covers lo hi s c.base := by
  cases view with
  | nil =>
    rw [renderGaps, if_neg hpos.ne', Option.some.injEq] at hw
    subst hw
    refine ⟨_, mem_cons_self, le_rfl, ?_⟩
    simp only [hi, stop]
    omega
  | cons r rs =>
    obtain ⟨hlt, hr⟩ := hlater r (by simp)
    simp only [lo, hi] at hlt hr
    rw [renderGaps, if_neg hpos.ne', if_neg (by omega), fillGap, if_pos hlt] at hw
    simp only [bind_eq_some_iff, map_eq_some_iff] at hw
    obtain ⟨⟨piece, c1⟩, ⟨c', _, hpc⟩, _, _, rs', _, rfl⟩ := hw
    cases hpc
    refine ⟨_, mem_cons_self, le_rfl, ?_⟩
    simp only [hi, stop]
    omega

/-- **The defect of the loop**: bytes that start strictly inside a range make the view overlap. -/
theorem renderGaps_overlap (hpos : 0 < c.remain) (hord : view.Ordered)
    (hin : ∃ r ∈ view, r.lo < c.base ∧ c.base < r.hi) (hw : renderGaps fr view c = some w) :
    ¬ w.Ordered := by
  induction view generalizing w with
  | nil => simp at hin
  | cons r rs ih =>
    obtain ⟨hr, hrs, hordrs⟩ := Ranges.Ordered.cons_iff.mp hord
    obtain ⟨x, hx, hxlo, hxhi⟩ := hin
    rcases mem_cons.mp hx with rfl | hx
    · simp only [lo, hi] at hxlo hxhi
      rw [renderGaps, if_neg hpos.ne', if_neg (by omega), fillGap, if_neg (by omega)] at hw
      simp only [bind_some, skipOver, if_neg hxlo.ne', map_eq_some_iff] at hw
      obtain ⟨w', hw', rfl⟩ := hw
      obtain ⟨s, hs, hcov⟩ := renderGaps_head hpos (fun t ht =>
        ⟨hxhi.trans_le (hrs t ht), hordrs.nonempty t ht⟩) hw'
      intro hbad
      have := (Ranges.Ordered.cons_iff.mp hbad).2.1 s hs
      simp only [Ranges.Covers, lo, hi] at hcov this
      omega
    · have hpast : r.hi ≤ c.base := (hrs x hx).trans hxlo.le
      rw [renderGaps, if_neg hpos.ne', if_pos hpast, map_eq_some_iff] at hw
      obtain ⟨w', hw', rfl⟩ := hw
      exact fun hbad => ih hordrs ⟨x, hx, hxlo, hxhi⟩ hw' hbad.tail

/-- The loop cannot skip a range that spans the address space. -/
lemma renderGaps_whole (hbase : c.base = r.lo) (hsize : r.addr.size = 2 ^ 64)
    (hremain : c.remain = 2 ^ 64) :
    renderGaps fr (r :: rs) c = none := by
  simp only [lo] at hbase
  rw [renderGaps, if_neg (by omega), if_neg (by simp only [stop]; omega), fillGap,
    if_neg (by omega)]
  simp [skipOver, hbase, advance, int128Get64, int128_2_64, hsize, hremain]

lemma Cursor.advance_remain {now : ℤ} (h : c.advance now = some c') :
    c'.remain = c.remain - now := by
  obtain ⟨n, _, rfl⟩ := map_eq_some_iff.mp h
  rfl

lemma fillGap_inv {piece : FlatView} (hpos : 0 < c.remain) (h : fillGap fr r c = some (piece, c')) :
    0 ≤ c'.remain ∧ ∀ s ∈ piece, s.lo < s.hi := by
  rw [fillGap] at h
  split at h
  next hlt =>
    obtain ⟨c1, hadv, heq⟩ := map_eq_some_iff.mp h
    cases heq
    have := advance_remain hadv
    simp only [mem_singleton, forall_eq, lo, hi, stop]
    omega
  next =>
    cases h
    exact ⟨hpos.le, by simp⟩

lemma skipOver_inv (hn : 0 ≤ c.remain) (h : skipOver r c = some c') : 0 ≤ c'.remain := by
  rw [skipOver] at h
  split at h
  next =>
    have := advance_remain h
    omega
  next =>
    cases h
    exact hn

lemma renderGaps_sublist (hn : 0 ≤ c.remain) (hne : ∀ r ∈ view, r.lo < r.hi)
    (hw : renderGaps fr view c = some w) : view.Sublist w ∧ ∀ r ∈ w, r.lo < r.hi := by
  induction view generalizing w c with
  | nil =>
    rw [renderGaps] at hw
    split at hw
    · simp_all
    · cases hw
      simp only [nil_sublist, mem_singleton, forall_eq, true_and, lo, hi, stop]
      omega
  | cons r rs ih =>
    obtain ⟨hr, hners⟩ : r.lo < r.hi ∧ ∀ s ∈ rs, s.lo < s.hi := by simpa using hne
    rw [renderGaps] at hw
    split at hw
    next =>
      cases hw
      exact ⟨List.Sublist.refl _, hne⟩
    next h0 =>
      split at hw
      next =>
        obtain ⟨w', hw', rfl⟩ := map_eq_some_iff.mp hw
        obtain ⟨hsub, hnew⟩ := ih hn hners hw'
        exact ⟨hsub.cons_cons r, by simpa using ⟨hr, hnew⟩⟩
      next =>
        simp only [bind_eq_some_iff, map_eq_some_iff] at hw
        obtain ⟨⟨piece, c1⟩, hfill, c2, hskip, w', hw', rfl⟩ := hw
        obtain ⟨hn1, hpiece⟩ := fillGap_inv (by omega) hfill
        obtain ⟨hsub, hnew⟩ := ih (skipOver_inv hn1 hskip) hners hw'
        refine ⟨(hsub.cons_cons r).trans (sublist_append_right _ _), fun s hs => ?_⟩
        rcases mem_append.mp hs with hs | hs
        · exact hpiece s hs
        · rcases mem_cons.mp hs with rfl | hs
          · exact hr
          · exact hnew s hs

/-! ## What the view owes to each visited region -/

abbrev ownerOf (pre : List Visit) (a : ℤ) : Option ℕ := Ranges.owner Visit.lo Visit.hi pre a

lemma ownerOf_append (pre : List Visit) (v : Visit) (a : ℤ) :
    ownerOf (pre ++ [v]) a = (ownerOf pre a).or
      (if Ranges.Covers Visit.lo Visit.hi v a then some pre.length else none) :=
  Ranges.owner_append_singleton pre v a

/-- A range that shows the visit `v`, number `k` of `pre`: it owns all its addresses and not the one
before it. -/
structure Shows (h : RegionHeap) (pre : List Visit) (r : FlatRange) (k : ℕ) (v : Visit) : Prop where
  visit : pre[k]? = some v
  owner : ∀ a, Ranges.Covers lo hi r a → ownerOf pre a = some k
  target : ∀ a, r.target a = v.target h a
  maximal : ownerOf pre (r.lo - 1) ≠ some k

/-- The view after the visits `pre`: each range shows one of them, and together they cover all that
is owned. -/
structure Painted (h : RegionHeap) (pre : List Visit) (view : FlatView) : Prop where
  ordered : view.Ordered
  inSpace : view.InSpace
  shows : ∀ r ∈ view, ∃ k v, Shows h pre r k v
  covered : ∀ a k, ownerOf pre a = some k →
    ∃ r ∈ view, Ranges.Covers lo hi r a

/-- The visit `v` starts inside what one of the visits `pre` owns, and not at the first address of a
run. -/
def StartsInside (pre : List Visit) (v : Visit) : Prop :=
  ∃ k, ownerOf pre (v.lo - 1) = some k ∧ ownerOf pre v.lo = some k

/-- The visit `v` spans the address space, and one of the visits `pre` owns all of it. -/
def WholeOverWhole (pre : List Visit) (v : Visit) : Prop :=
  v.clip = wholeSpace ∧ ∃ k, ∀ a, 0 ≤ a → a < 2 ^ 64 → ownerOf pre a = some k

/-- The visit `v` can be rendered over the visits `pre`. -/
def CleanAt (pre : List Visit) (v : Visit) : Prop :=
  0 < v.clip.size → ¬ StartsInside pre v ∧ ¬ WholeOverWhole pre v

def CleanVisits (vs : List Visit) : Prop :=
  ∀ pre v post, vs = pre ++ v :: post → CleanAt pre v

section Step

variable {v : Visit}

/-- The cursor that `renderSelf` starts with. -/
def Visit.cursor (v : Visit) : Cursor := ⟨v.clip.start, (v.clip.start - v.base).toNat, v.clip.size⟩

def Visit.fields (h : RegionHeap) (v : Visit) : FlatRange :=
  { mr := v.mr, offsetInRegion := (v.clip.start - v.base).toNat, addr := v.clip,
    dirtyLogMask := (h v.mr).dirtyLogMask, readable := (h v.mr).readable, readonly := v.readonly }

lemma renderSelf_eq (hv : v.Within wholeSpace) :
    renderSelf h view v = renderGaps (v.fields h) view v.cursor := by
  have h1 := hv.base_le
  have h2 := hv.offset_lt
  rw [renderSelf, int128Get64, if_pos ⟨by omega, by simp only [int128_2_64]; omega⟩]
  rfl

lemma Visit.Within.cursor_valid (hv : v.Within wholeSpace) : v.cursor.Valid := by
  obtain ⟨h1, h2, h3, h4, h5, _⟩ := hv
  simp only [wholeSpace, int128_2_64, stop] at h1 h2 h5
  refine ⟨h1, h3, ?_, ?_⟩ <;> simp only [Visit.cursor] <;> omega

lemma Painted.fits (hp : Painted h pre view) (hv : v.Within wholeSpace) (hclean : CleanAt pre v)
    (hne : v.cursor.remain ≠ 0) : Fits v.cursor view := by
  have hpos : 0 < v.clip.size := lt_of_le_of_ne hv.size_nonneg (Ne.symm hne)
  obtain ⟨hinside, hwhole⟩ := hclean hpos
  refine ⟨fun r hr hin => hinside ?_, fun r hr hfull => hwhole ?_⟩
  · obtain ⟨k, u, hs⟩ := hp.shows r hr
    simp only [Visit.cursor] at hin
    refine ⟨k, hs.owner _ ?_, hs.owner _ ?_⟩ <;> simp only [Ranges.Covers, Visit.lo] <;> omega
  obtain ⟨k, u, hs⟩ := hp.shows r hr
  obtain ⟨hlo, hhi⟩ := hp.inSpace r hr
  obtain ⟨h1, h2, _, _, _, _⟩ := hv
  simp only [Visit.cursor, wholeSpace, int128_2_64, stop, lo, hi] at hfull hlo hhi h1 h2
  refine ⟨?_, k, fun a ha0 ha1 => hs.owner a ⟨?_, ?_⟩⟩
  · show v.clip = ⟨0, 2 ^ 64⟩
    rw [show v.clip = ⟨v.clip.start, v.clip.size⟩ from rfl, AddrRange.mk.injEq]
    omega
  · show r.addr.start ≤ a
    omega
  · show a < r.addr.start + r.addr.size
    omega

lemma Shows.append {k : ℕ} {u : Visit} (hs : Shows h pre r k u) : Shows h (pre ++ [v]) r k u := by
  have hk : k < pre.length := (List.getElem?_eq_some_iff.mp hs.visit).1
  refine ⟨by rw [getElem?_append_left hk, hs.visit],
    fun a ha => Ranges.owner_append_of_some (hs.owner a ha), hs.target, ?_⟩
  have hmax := hs.maximal
  rw [ownerOf_append]
  cases ho : ownerOf pre (r.lo - 1) with
  | some j =>
    rw [ho] at hmax
    rw [some_or]
    exact hmax
  | none =>
    rw [none_or]
    split
    · simp only [ne_eq, some.injEq]
      omega
    · simp

lemma Painted.shows_new (hp : Painted h pre view) (hv : v.Within wholeSpace)
    (hw : Filled (v.fields h) v.cursor view w) (hr : r ∈ w) (hnew : r ∉ view)
    (hpiece : Piece (v.fields h) v.cursor view r) : Shows h (pre ++ [v]) r pre.length v := by
  have hfree : ∀ a, Ranges.Covers lo hi r a → ownerOf pre a = none := by
    intro a ha
    cases ho : ownerOf pre a with
    | none => rfl
    | some k =>
      obtain ⟨s, hs, hcov⟩ := hp.covered a k ho
      rw [hw.ordered.eq_of_covers hr (hw.sublist.subset hs) ha hcov] at hnew
      exact absurd hs hnew
  obtain ⟨heq, hbase, hstop, hoff, hmax⟩ := hpiece
  simp only [Visit.cursor] at hbase hstop hoff hmax
  refine ⟨by simp, fun a ha => ?_, fun a => ?_, ?_⟩
  · rw [ownerOf_append, hfree a ha, none_or, if_pos]
    exact ⟨hbase.trans ha.1, ha.2.trans_le hstop⟩
  · have hle := hv.base_le
    rw [heq]
    simp only [target, Visit.fields, Visit.target, Target.mk.injEq, true_and, and_true]
    simp only [lo] at hoff
    clear hmax
    omega
  · rw [ownerOf_append]
    cases ho : ownerOf pre (r.lo - 1) with
    | some j =>
      have := Ranges.owner_lt ho
      rw [some_or]
      simp only [ne_eq, some.injEq]
      omega
    | none =>
      rw [none_or]
      rcases hmax with hlo | ⟨s, hs, hhi⟩
      · rw [if_neg]
        · simp
        · simp only [Ranges.Covers, Visit.lo]
          omega
      · obtain ⟨k, u, hsh⟩ := hp.shows s hs
        have hne := hp.ordered.nonempty s hs
        have := hsh.owner (r.lo - 1) ⟨by omega, by omega⟩
        rw [ho] at this
        simp at this

/-- **Rendering one region**: a clean visit paints exactly the addresses no earlier visit owns. -/
theorem Painted.step (hp : Painted h pre view) (hv : v.Within wholeSpace) (hclean : CleanAt pre v) :
    ∃ w, renderSelf h view v = some w ∧ Painted h (pre ++ [v]) w := by
  obtain ⟨w, hrender, hw⟩ := renderGaps_spec hv.cursor_valid hp.ordered hp.inSpace
    (hp.fits hv hclean)
  refine ⟨w, by rw [renderSelf_eq hv, hrender], hw.ordered, ?_, ?_, ?_⟩
  · intro r hr
    rcases hw.mem r hr with hr' | hpiece
    · exact hp.inSpace r hr'
    obtain ⟨h1, h2, _, _, _, _⟩ := hv
    have h3 := hpiece.base_le
    have h4 := hpiece.le_stop
    simp only [Visit.cursor, wholeSpace, int128_2_64, stop, lo, hi] at h1 h2 h3 h4 ⊢
    omega
  · intro r hr
    by_cases hold : r ∈ view
    · obtain ⟨k, u, hs⟩ := hp.shows r hold
      exact ⟨k, u, hs.append⟩
    · rcases hw.mem r hr with hr' | hpiece
      · exact absurd hr' hold
      · exact ⟨_, _, hp.shows_new hv hw hr hold hpiece⟩
  · intro a k ho
    rw [ownerOf_append] at ho
    cases hpre : ownerOf pre a with
    | some j =>
      obtain ⟨r, hr, hcov⟩ := hp.covered a j hpre
      exact ⟨r, hw.sublist.subset hr, hcov⟩
    | none =>
      rw [hpre, none_or] at ho
      split at ho
      next hcov => exact hw.covers a hcov.1 hcov.2
      next => simp at ho

/-- A visit that is not clean is rendered over a range or not at all. -/
theorem Painted.step_unclean (hp : Painted h pre view) (hv : v.Within wholeSpace)
    (hunclean : ¬ CleanAt pre v) (hw : renderSelf h view v = some w) : ¬ w.Ordered := by
  simp only [CleanAt, Classical.not_imp, not_and_or, not_not] at hunclean
  obtain ⟨hpos, ⟨k, hprev, hfirst⟩ | ⟨hclip, k, hk⟩⟩ := hunclean
  · obtain ⟨r, hr, hcov⟩ := hp.covered _ _ hfirst
    obtain ⟨j, u, hs⟩ := hp.shows r hr
    have hkj : k = j := by
      have := hs.owner _ hcov
      rw [hfirst] at this
      exact Option.some.inj this
    have hlt : r.lo < v.lo := by
      refine lt_of_le_of_ne hcov.1 fun heq => hs.maximal ?_
      rw [heq, hprev, hkj]
    rw [renderSelf_eq hv] at hw
    exact renderGaps_overlap hpos hp.ordered ⟨r, hr, hlt, hcov.2⟩ hw
  obtain ⟨r, hr, hcov⟩ := hp.covered 0 k (hk 0 le_rfl (by norm_num))
  obtain ⟨hlo, hhi⟩ := hp.inSpace r hr
  have hlo0 : r.lo = 0 := le_antisymm hcov.1 hlo
  have hfull : r.hi = 2 ^ 64 := by
    by_contra hne
    have hlt : r.hi < 2 ^ 64 := lt_of_le_of_ne hhi hne
    have hnonempty := hp.ordered.nonempty r hr
    obtain ⟨s, hsm, hcov'⟩ := hp.covered r.hi k (hk r.hi (by omega) hlt)
    obtain ⟨i, u', hs'⟩ := hp.shows s hsm
    have hki : k = i :=
      Option.some.inj ((hk r.hi (by omega) hlt).symm.trans (hs'.owner _ hcov'))
    have hslo : s.lo = r.hi := by
      by_contra hne'
      have hle := hcov'.1
      have hhi' := hcov'.2
      have heq := hp.ordered.eq_of_covers hr hsm
        (show Ranges.Covers _ _ r (r.hi - 1) from ⟨by omega, by omega⟩) ⟨by omega, by omega⟩
      rw [← heq] at hhi'
      exact lt_irrefl _ hhi'
    exact hs'.maximal (by rw [hslo, hk _ (by omega) (by omega), hki])
  have hsize : r.addr.size = 2 ^ 64 := by
    simp only [lo, hi, stop] at hlo0 hfull
    omega
  obtain ⟨rs, rfl⟩ : ∃ rs, view = r :: rs := by
    cases view with
    | nil => simp at hr
    | cons x rs =>
      have hx := hp.ordered.nonempty x (by simp)
      obtain ⟨hxlo, hxhi⟩ := hp.inSpace x (by simp)
      exact ⟨rs, by rw [hp.ordered.eq_of_covers (a := x.lo) (by simp) hr ⟨le_rfl, hx⟩
        ⟨by omega, by omega⟩]⟩
  rw [renderSelf_eq hv, renderGaps_whole _ hsize] at hw
  · simp at hw
  · simp [Visit.cursor, hclip, wholeSpace, int128_2_64]
  · simp [Visit.cursor, hclip, wholeSpace, hlo0]

end Step

/-! ## Whole runs of the rendering -/

/-- **Rendering all visits** of a clean list. -/
theorem Painted.run (hp : Painted h pre view) (hv : ∀ v ∈ post, Visit.Within wholeSpace v)
    (hclean : ∀ pre' v post', post = pre' ++ v :: post' → CleanAt (pre ++ pre') v) :
    ∃ w, post.foldlM (renderSelf h) view = some w ∧ Painted h (pre ++ post) w := by
  induction post generalizing pre view with
  | nil => exact ⟨view, rfl, by rwa [append_nil]⟩
  | cons v post ih =>
    obtain ⟨w, hw, hp'⟩ := hp.step (hv v (by simp)) (by simpa using hclean [] v post rfl)
    obtain ⟨w', hw', hp''⟩ := ih hp' (fun u hu => hv u (by simp [hu])) fun pre' u post' heq => by
      have := hclean (v :: pre') u post' (by rw [heq]; rfl)
      rwa [append_cons] at this
    refine ⟨w', ?_, by rwa [append_cons]⟩
    rw [foldlM_cons, hw]
    exact hw'

lemma foldlM_renderSelf_sublist (hv : ∀ v ∈ post, Visit.Within wholeSpace v)
    (hne : ∀ r ∈ view, r.lo < r.hi) (hw : post.foldlM (renderSelf h) view = some w) :
    view.Sublist w ∧ ∀ r ∈ w, r.lo < r.hi := by
  induction post generalizing view with
  | nil =>
    cases hw
    exact ⟨List.Sublist.refl _, hne⟩
  | cons v post ih =>
    obtain ⟨view', hview', hw'⟩ := bind_eq_some_iff.mp hw
    have hwithin := hv v (by simp)
    rw [renderSelf_eq hwithin] at hview'
    obtain ⟨hsub, hne'⟩ := renderGaps_sublist hwithin.size_nonneg hne hview'
    obtain ⟨hsub', hnew⟩ := ih (fun u hu => hv u (by simp [hu])) hne' hw'
    exact ⟨hsub.trans hsub', hnew⟩

/-- If the rendered view is ordered, every visit was clean. -/
lemma Painted.clean_of_ordered (hp : Painted h pre view)
    (hv : ∀ v ∈ post, Visit.Within wholeSpace v) (hw : post.foldlM (renderSelf h) view = some w)
    (hord : w.Ordered) :
    ∀ pre' v post', post = pre' ++ v :: post' → CleanAt (pre ++ pre') v := by
  induction post generalizing pre view with
  | nil =>
    intro pre' v post' heq
    simp at heq
  | cons u post ih =>
    obtain ⟨view', hview', hw'⟩ := bind_eq_some_iff.mp hw
    have hvu := hv u (by simp)
    have hvpost : ∀ v ∈ post, Visit.Within wholeSpace v := fun v hm => hv v (by simp [hm])
    have hclean : CleanAt pre u := by
      by_contra hunclean
      have hview := hview'
      rw [renderSelf_eq hvu] at hview
      have hne := (renderGaps_sublist hvu.size_nonneg hp.ordered.nonempty hview).2
      have hsub := (foldlM_renderSelf_sublist hvpost hne hw').1
      exact hp.step_unclean hvu hunclean hview' ⟨hne, hord.apart.sublist hsub⟩
    obtain ⟨view'', hview'', hp'⟩ := hp.step hvu hclean
    obtain rfl : view'' = view' := Option.some.inj (hview''.symm.trans hview')
    intro pre' v post' heq
    cases pre' with
    | nil =>
      cases heq
      rwa [append_nil]
    | cons x pre' =>
      obtain ⟨rfl, htail⟩ := cons.inj heq
      have := ih hp' hvpost hw' pre' v post' htail
      rwa [append_assoc] at this

lemma painted_nil (h : RegionHeap) : Painted h [] [] :=
  ⟨Ranges.Ordered.nil, fun r hr => by simp at hr, fun r hr => by simp at hr,
    fun a k ho => by simp [ownerOf, Ranges.owner] at ho⟩

lemma findSome_answer (h : RegionHeap) (pre : List Visit) (a : ℤ) : pre.findSome? (Visit.answer h a)
      = (pre.find? fun v => decide (Ranges.Covers Visit.lo Visit.hi v a)).map (·.target h a) := by
  induction pre with
  | nil => rfl
  | cons v pre ih =>
    rw [findSome?_cons, find?_cons, ih, Visit.answer]
    by_cases hc : Ranges.Covers Visit.lo Visit.hi v a <;> simp [hc]

lemma Painted.lookup_eq (hp : Painted h pre view) (a : ℤ) :
    view.lookup a = pre.findSome? (Visit.answer h a) := by
  rw [findSome_answer, FlatView.lookup]
  cases ho : ownerOf pre a with
  | some k =>
    obtain ⟨r, hr, hcov⟩ := hp.covered a k ho
    obtain ⟨j, v, hs⟩ := hp.shows r hr
    obtain rfl : k = j := some.inj (ho.symm.trans (hs.owner a hcov))
    rw [hp.ordered.find_eq hr hcov, Ranges.find_of_owner ho, hs.visit, map_some,
      map_some, hs.target]
  | none =>
    have hnone : view.find? (fun r => decide (Ranges.Covers lo hi r a)) = none := by
      rw [find?_eq_none]
      intro r hr
      obtain ⟨k, v, hs⟩ := hp.shows r hr
      simp only [decide_eq_true_eq]
      intro hcov
      rw [hs.owner a hcov] at ho
      simp at ho
    rw [hnone, Ranges.find_of_owner_none ho]
    rfl

namespace RegionTree

variable (T : RegionTree)

/-- The flattened map is ordered, and agrees with the pointwise rule at every address. -/
def TopologyCorrect : Prop :=
  ∃ view, T.topology = some view ∧ view.Ordered
    ∧ ∀ a : ℤ, 0 ≤ a → a < 2 ^ 64 → view.lookup a = T.resolveAt a

lemma topology_eq : T.topology =
    (T.visited.foldlM (renderSelf T.heap) []).map flatviewSimplify := by
  rw [topology, generateMemoryTopology, renderMemoryRegion_eq_foldlM T _ _ _ _ _ _ (by omega)]
  rfl

lemma visited_within : ∀ v ∈ T.visited, Visit.Within wholeSpace v :=
  visits_within T.heap _ T.root 0 wholeSpace false (by norm_num [wholeSpace])

lemma resolveAt_eq {a : ℤ} (h0 : 0 ≤ a) (h1 : a < 2 ^ 64) :
    T.resolveAt a = T.visited.findSome? (Visit.answer T.heap a) :=
  resolve_eq_findSome T.heap _ T.root 0 wholeSpace false (by norm_num [wholeSpace]) a
    (AddrRange.contains_iff.mpr ⟨h0, by simpa [wholeSpace, int128_2_64, stop] using h1⟩)

lemma correct_of_clean (hclean : CleanVisits T.visited) : T.TopologyCorrect := by
  obtain ⟨w, hw, hp⟩ := (painted_nil T.heap).run T.visited_within
    (by simpa [CleanVisits] using hclean)
  refine ⟨flatviewSimplify w, by rw [topology_eq, hw]; rfl, ?_, fun a h0 h1 => ?_⟩
  · exact (flatviewSimplify_ordered_iff hp.ordered.nonempty).mpr hp.ordered
  · rw [lookup_flatviewSimplify hp.ordered.nonempty, hp.lookup_eq, T.resolveAt_eq h0 h1, nil_append]

lemma clean_of_ordered (hview : T.topology = some view) (hord : view.Ordered) :
    CleanVisits T.visited := by
  rw [topology_eq] at hview
  obtain ⟨w, hw, rfl⟩ := map_eq_some_iff.mp hview
  have hne := (foldlM_renderSelf_sublist T.visited_within (by simp) hw).2
  have := (painted_nil T.heap).clean_of_ordered T.visited_within hw
    ((flatviewSimplify_ordered_iff hne).mp hord)
  simpa [CleanVisits] using this

/-- **When the flattened map is right**: exactly when no terminating region is reached with a clip
that starts inside what an earlier one has taken, and none spans the address space after another
that owns all of it. -/
theorem topology_correct_iff : T.TopologyCorrect ↔ CleanVisits T.visited := by
  constructor
  · rintro ⟨view, hview, hord, _⟩
    exact T.clean_of_ordered hview hord
  · exact T.correct_of_clean

/-- A container with a region at `[0, 0x2000)` in front of a region at `[0x1000, 0x3000)`. -/
def straddling : RegionTree where
  heap
    | 0 => { memoryRegionInit (BitVec.allOnes 64) with subregions := [1, 2] }
    | 1 => { memoryRegionInit 0x2000 with
              parent := some 0, terminates := true, priority := 1, mayOverlap := true }
    | 2 => { memoryRegionInit 0x2000 with
              parent := some 0, addr := 0x1000, terminates := true, mayOverlap := true }
    | _ => memoryRegionInit 0
  root := 0
  depth mr := if mr = 0 then 1 else 0
  subregion_lt mr subregion h := by
    match mr with
    | 0 => fin_cases h <;> decide
    | 1 | 2 | _ + 3 => simp [memoryRegionInit] at h
  alias_lt mr orig h := by
    match mr with
    | 0 | 1 | 2 | _ + 3 => simp [memoryRegionInit] at h

lemma visited_straddling :
    straddling.visited = [⟨1, 0, ⟨0, 0x2000⟩, false⟩, ⟨2, 0x1000, ⟨0x1000, 0x2000⟩, false⟩] := by
  decide

/-- Not every tree is rendered as the pointwise rule says: in `straddling` the second region starts
inside the first. -/
theorem straddling_not_correct : ¬ ∀ T : RegionTree, T.TopologyCorrect := by
  intro hall
  obtain ⟨view, hview, hord, _⟩ := hall straddling
  have hclean := straddling.clean_of_ordered hview hord
  rw [visited_straddling] at hclean
  refine (hclean [_] _ [] rfl (by norm_num)).1 ⟨0, ?_, ?_⟩ <;> decide

end RegionTree

end Qemu.Memory
