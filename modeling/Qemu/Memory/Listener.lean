import Mathlib
import Qemu.Memory.FlatView
import Qemu.Memory.Render

/-!
# Telling the listeners about a new map

`address_space_update_topology` walks the old and the new flat view twice, with
`address_space_update_topology_pass`: first to delete what is gone, then to add what is new.  The
model is the sequence of callbacks that one listener of the address space receives.  Each callback
carries a `MemoryRegionSection`, whose size is a 64-bit number; a range that spans the whole address
space has none, and fails the assertion of `int128_get64`.

**Main results:**
- `pass_deleting`, `pass_adding`: the callbacks of the two passes, as functions of the two views
- `update_topology_tracked`: a listener that follows the callbacks goes from the sections of the old
  view to those of the new one, and never holds two sections that overlap
-/

namespace Qemu.Memory

open AddrRange FlatRange List Multiset

/-- What a callback is told about a range. -/
structure MemoryRegionSection where
  mr : RegionId
  addressSpace : RegionId
  offsetWithinRegion : ℕ
  size : ℕ
  offsetWithinAddressSpace : ℕ
  readonly : Bool
  deriving DecidableEq, Repr

/-- The callbacks of a listener. -/
inductive ListenerEvent where
  | regionDel (s : MemoryRegionSection)
  | regionAdd (s : MemoryRegionSection)
  | regionNop (s : MemoryRegionSection)
  | logStart (s : MemoryRegionSection)
  | logStop (s : MemoryRegionSection)
  deriving DecidableEq, Repr

open ListenerEvent

/-- The section that `MEMORY_LISTENER_UPDATE_REGION` builds. -/
def FlatRange.section (root : RegionId) (fr : FlatRange) : Option MemoryRegionSection :=
  (int128Get64 fr.addr.size).bind fun size =>
    (int128Get64 fr.addr.start).map fun start =>
      { mr := fr.mr, addressSpace := root, offsetWithinRegion := fr.offsetInRegion, size := size,
        offsetWithinAddressSpace := start, readonly := fr.readonly }

/-- `flatrange_equal`, which leaves the dirty log mask out. -/
def flatrangeEqual (a b : FlatRange) : Bool :=
  decide (a.mr = b.mr) && decide (a.addr = b.addr) && decide (a.offsetInRegion = b.offsetInRegion)
    && decide (a.readable = b.readable)
    && decide (a.readonly = b.readonly)

/-- The log callbacks for a range that is in both views. -/
def logEvents (frold frnew : FlatRange) (s : MemoryRegionSection) : List ListenerEvent :=
  if frold.dirtyLogMask ≠ 0#8 ∧ frnew.dirtyLogMask = 0#8 then [logStop s]
  else if frnew.dirtyLogMask ≠ 0#8 ∧ frold.dirtyLogMask = 0#8 then [logStart s]
  else []

/-- A range that is in the old view only. -/
def goneEvents (root : RegionId) (adding : Bool) (frold : FlatRange) :
    Option (List ListenerEvent) :=
  if adding then some [] else (frold.section root).map fun s => [regionDel s]

/-- A range that is in the new view only. -/
def newEvents (root : RegionId) (adding : Bool) (frnew : FlatRange) : Option (List ListenerEvent) :=
  if adding then (frnew.section root).map fun s => [regionAdd s] else some []

/-- A range that is in both views, perhaps with another mask for logging. -/
def bothEvents (root : RegionId) (adding : Bool) (frold frnew : FlatRange) :
    Option (List ListenerEvent) :=
  if adding then (frnew.section root).map fun s => regionNop s :: logEvents frold frnew s
  else some []

/-- `address_space_update_topology_pass`: the lists are the ranges from `iold` and `inew` on. -/
def updateTopologyPass (root : RegionId) (adding : Bool) :
    FlatView → FlatView → Option (List ListenerEvent)
  | [], [] => some []
  | frold :: old, [] =>
    (goneEvents root adding frold).bind fun es =>
      (updateTopologyPass root adding old []).map (es ++ ·)
  | [], frnew :: new =>
    (newEvents root adding frnew).bind fun es =>
      (updateTopologyPass root adding [] new).map (es ++ ·)
  | frold :: old, frnew :: new =>
    if frold.addr.start < frnew.addr.start
        ∨ (frold.addr.start = frnew.addr.start ∧ flatrangeEqual frold frnew = false) then
      (goneEvents root adding frold).bind fun es =>
        (updateTopologyPass root adding old (frnew :: new)).map (es ++ ·)
    else if flatrangeEqual frold frnew then
      (bothEvents root adding frold frnew).bind fun es =>
        (updateTopologyPass root adding old new).map (es ++ ·)
    else
      (newEvents root adding frnew).bind fun es =>
        (updateTopologyPass root adding (frold :: old) new).map (es ++ ·)
  termination_by old new => old.length + new.length

/-- The two passes of `address_space_update_topology`. -/
def updateTopology (root : RegionId) (old new : FlatView) : Option (List ListenerEvent) :=
  (updateTopologyPass root false old new).bind fun dels =>
    (updateTopologyPass root true old new).map (dels ++ ·)

/-! ## A listener -/

/-- The sections held after a callback.  What is deleted or kept must be held. -/
def listenerStep (held : Multiset MemoryRegionSection) :
    ListenerEvent → Option (Multiset MemoryRegionSection)
  | regionDel s => if s ∈ held then some (held.erase s) else none
  | regionAdd s => some (s ::ₘ held)
  | regionNop s => if s ∈ held then some held else none
  | logStart _ | logStop _ => some held

/-- The address is in the section. -/
def MemoryRegionSection.Covers (s : MemoryRegionSection) (a : ℕ) : Prop :=
  s.offsetWithinAddressSpace ≤ a ∧ a < s.offsetWithinAddressSpace + s.size

instance (s : MemoryRegionSection) (a : ℕ) : Decidable (s.Covers a) :=
  inferInstanceAs (Decidable (_ ∧ _))

/-- No address lies in two of the sections. -/
def NoOverlap (held : Multiset MemoryRegionSection) : Prop :=
  ∀ a, held.countP (·.Covers a) ≤ 1

/-- The listener can follow the callbacks, and never holds two sections that overlap. -/
inductive Follows : Multiset MemoryRegionSection → List ListenerEvent →
    Multiset MemoryRegionSection → Prop
  | nil {held} : NoOverlap held → Follows held [] held
  | cons {held held' held'' e es} : NoOverlap held → listenerStep held e = some held' →
      Follows held' es held'' → Follows held (e :: es) held''

variable {held : Multiset MemoryRegionSection} {r a b : FlatRange} {rs : FlatView}

/-- Events are followed one after the other. -/
lemma Follows.append {held' held'' : Multiset MemoryRegionSection} {es es' : List ListenerEvent}
    (h : Follows held es held') (h' : Follows held' es' held'') :
    Follows held (es ++ es') held'' := by
  induction h with
  | nil _ => exact h'
  | cons hno hstep _ ih => exact Follows.cons hno hstep (ih h')

/-- Fewer sections do not overlap either. -/
lemma NoOverlap.mono {held' : Multiset MemoryRegionSection} (h : NoOverlap held')
    (hle : held ≤ held') :
    NoOverlap held := fun a =>
  (countP_le_of_le _ hle).trans (h a)

/-! ## Sections of a view -/

/-- The sections of a view. -/
def sections (root : RegionId) (view : FlatView) : List MemoryRegionSection :=
  view.filterMap (·.section root)

/-- Every range has a section: the view lies in the address space, and no range is all of it. -/
structure FlatView.Presentable (view : FlatView) : Prop where
  ordered : view.Ordered
  inSpace : view.InSpace
  small : ∀ r ∈ view, r.addr.size < 2 ^ 64

lemma FlatView.Presentable.tail (h : FlatView.Presentable (r :: rs)) : FlatView.Presentable rs :=
  ⟨h.ordered.tail, fun s hs => h.inSpace s (by simp [hs]), fun s hs => h.small s (by simp [hs])⟩

lemma int128Get64_eq {a : ℤ} (h0 : 0 ≤ a) (h1 : a < 2 ^ 64) : int128Get64 a = some a.toNat :=
  if_pos ⟨h0, h1⟩

/-- The section of a range that is not the whole address space. -/
lemma FlatView.Presentable.section_eq (h : FlatView.Presentable (r :: rs)) (root : RegionId) :
    r.section root = some
      { mr := r.mr, addressSpace := root, offsetWithinRegion := r.offsetInRegion,
        size := r.addr.size.toNat, offsetWithinAddressSpace := r.addr.start.toNat,
        readonly := r.readonly } := by
  have hne := h.ordered.nonempty r (by simp)
  have hspace := h.inSpace r (by simp)
  have hsmall := h.small r (by simp)
  simp only [lo, hi, stop] at hne hspace
  rw [FlatRange.section, int128Get64_eq (by omega) hsmall, int128Get64_eq (by omega) (by omega)]
  rfl

lemma sections_cons {root : RegionId} {s : MemoryRegionSection} (h : r.section root = some s) :
    sections root (r :: rs) = s :: sections root rs := by
  rw [sections, List.filterMap_cons, h]
  rfl

lemma FlatView.Presentable.sections_cons (h : FlatView.Presentable (r :: rs)) (root : RegionId) :
    ∃ s, r.section root = some s ∧ sections root (r :: rs) = s :: sections root rs :=
  ⟨_, h.section_eq root, Memory.sections_cons (h.section_eq root)⟩

lemma add_cons_coe (base : Multiset MemoryRegionSection) (s : MemoryRegionSection)
    (l : List MemoryRegionSection) : base + (s :: l : List _) = s ::ₘ base + l := by
  rw [← cons_coe, add_cons, cons_add]

lemma int128Get64_inv {a : ℤ} {n : ℕ} (h : int128Get64 a = some n) : (n : ℤ) = a := by
  rw [int128Get64] at h
  split at h
  · cases h
    omega
  · simp at h

/-- A section has the addresses of its range. -/
lemma section_covers {root : RegionId} {s : MemoryRegionSection}
    (h : r.section root = some s) (a : ℕ) :
    s.Covers a ↔ Ranges.Covers lo hi r a := by
  obtain ⟨size, hsize, h⟩ := Option.bind_eq_some_iff.mp h
  obtain ⟨start, hstart, rfl⟩ := Option.map_eq_some_iff.mp h
  have h1 := int128Get64_inv hsize
  have h2 := int128Get64_inv hstart
  simp only [MemoryRegionSection.Covers, Ranges.Covers, lo, hi, stop]
  omega

/-- Sections of ranges in order do not overlap. -/
lemma FlatView.Presentable.noOverlap {view : FlatView} (h : view.Presentable) (root : RegionId) :
    NoOverlap (sections root view : Multiset MemoryRegionSection) := by
  intro a
  induction view with
  | nil => simp [sections]
  | cons r rs ih =>
    obtain ⟨s, hs, heq⟩ := h.sections_cons root
    obtain ⟨_, hrs, _⟩ := Ranges.Ordered.cons_iff.mp h.ordered
    rw [heq, coe_countP, List.countP_cons]
    by_cases hcov : s.Covers a
    · have hzero : (sections root rs).countP (fun t => decide (t.Covers a)) = 0 := by
        rw [List.countP_eq_zero]
        intro t ht
        obtain ⟨x, hx, hxt⟩ := List.mem_filterMap.mp ht
        have hlater := hrs x hx
        rw [section_covers hs] at hcov
        rw [decide_eq_true_eq, section_covers hxt]
        simp only [Ranges.Covers, lo, hi] at hcov hlater ⊢
        omega
      rw [hzero]
      split <;> omega
    · simpa [hcov] using ih h.tail

/-! ## The two passes -/

/-- The ranges of the new view that are in the old one too. -/
def unchanged (old new : FlatView) : FlatView := new.filter fun n => old.any (flatrangeEqual · n)

lemma flatrangeEqual_iff : flatrangeEqual a b = true ↔ a.mr = b.mr ∧ a.addr = b.addr
      ∧ a.offsetInRegion = b.offsetInRegion ∧ a.readable = b.readable
      ∧ a.readonly = b.readonly := by
  simp [flatrangeEqual, and_assoc]

/-- Equal ranges have one section. -/
lemma section_eq_of_flatrangeEqual (h : flatrangeEqual a b = true) (root : RegionId) :
    a.section root = b.section root := by
  obtain ⟨hmr, haddr, hoff, _, hro⟩ := flatrangeEqual_iff.mp h
  rw [FlatRange.section, FlatRange.section, hmr, haddr, hoff, hro]

lemma flatrangeEqual_of_start_ne (h : a.lo ≠ b.lo) : flatrangeEqual a b = false := by
  rw [Bool.eq_false_iff]
  intro heq
  exact h (congrArg start (flatrangeEqual_iff.mp heq).2.1)

/-- Later ranges of an ordered view start later. -/
lemma FlatView.Ordered.lt_of_mem (h : FlatView.Ordered (r :: rs)) :
    ∀ s ∈ rs, r.lo < s.lo := fun s hs =>
  have hcons := Ranges.Ordered.cons_iff.mp h
  hcons.1.trans_le (hcons.2.1 s hs)

section Pass

variable {root : RegionId}

variable {new old : FlatView} {o n : FlatRange} {p : FlatRange → Bool}

/-- The passes over two views begin with these callbacks, and go on with `old` and `new`. -/
def Begins (root : RegionId) (events : Bool → Option (List ListenerEvent))
    (old' new' old new : FlatView) :
    Prop :=
  ∀ adding, updateTopologyPass root adding old' new' =
    (events adding).bind fun es => (updateTopologyPass root adding old new).map (es ++ ·)

/-- A turn of the walk over two ordered views has a range that is gone, one in both views, or a new
one. -/
theorem pass_induction (root : RegionId) {P : FlatView → FlatView → Prop} (nil : P [] [])
    (gone : ∀ o old new, FlatView.Presentable (o :: old) → (∀ n ∈ new, flatrangeEqual o n = false) →
      Begins root (goneEvents root · o) (o :: old) new old new → P old new → P (o :: old) new)
    (both : ∀ o old n new, FlatView.Presentable (n :: new) → flatrangeEqual o n = true →
      (∀ n' ∈ new, flatrangeEqual o n' = false) → (∀ o' ∈ old, flatrangeEqual o' n = false) →
      Begins root (bothEvents root · o n) (o :: old) (n :: new) old new → P old new → P
        (o :: old) (n :: new))
    (added : ∀ old n new, FlatView.Presentable (n :: new) →
      (∀ o ∈ old, flatrangeEqual o n = false) →
      Begins root (newEvents root · n) old (n :: new) old new → P old new → P old (n :: new))
    (hold : old.Presentable) (hnew : new.Presentable) : P old new := by
  induction hlen : old.length + new.length using Nat.strongRecOn generalizing old new with
  | ind len ih =>
    match old, new with
    | [], [] => exact nil
    | o :: old, [] =>
      refine gone o old [] hold (by simp) (fun adding => by rw [updateTopologyPass]) ?_
      exact ih _ (by grind) hold.tail hnew rfl
    | [], n :: new =>
      refine added [] n new hnew (by simp) (fun adding => by rw [updateTopologyPass]) ?_
      exact ih _ (by grind) hold hnew.tail rfl
    | o :: old, n :: new =>
      have holt := hold.ordered.lt_of_mem
      have hnlt := hnew.ordered.lt_of_mem
      by_cases hgone : o.addr.start < n.addr.start
          ∨ (o.addr.start = n.addr.start ∧ flatrangeEqual o n = false)
      · refine gone o old (n :: new) hold ?_
          (fun adding => by rw [updateTopologyPass, if_pos hgone]) ?_
        · intro n' hn'
          rcases List.mem_cons.mp hn' with rfl | hn'
          · rcases hgone with hlt | ⟨_, hne⟩
            · exact flatrangeEqual_of_start_ne hlt.ne
            · exact hne
          · have := hnlt n' hn'
            refine flatrangeEqual_of_start_ne ?_
            simp only [lo] at this ⊢
            omega
        · exact ih _ (by grind) hold.tail hnew rfl
      · by_cases heq : flatrangeEqual o n = true
        · have hlo : o.lo = n.lo := congrArg start (flatrangeEqual_iff.mp heq).2.1
          refine both o old n new hnew heq ?_ ?_
            (fun adding => by rw [updateTopologyPass, if_neg hgone, if_pos heq]) ?_
          · exact fun n' hn' => flatrangeEqual_of_start_ne (by have := hnlt n' hn'; omega)
          · exact fun o' ho' => flatrangeEqual_of_start_ne (by have := holt o' ho'; omega)
          · exact ih _ (by grind) hold.tail hnew.tail rfl
        · have hlt : n.lo < o.lo := by
            simp only [not_or, not_and, not_lt, Bool.not_eq_false] at hgone
            exact lt_of_le_of_ne hgone.1 fun h => heq (hgone.2 h.symm)
          refine added (o :: old) n new hnew ?_
            (fun adding => by rw [updateTopologyPass, if_neg hgone, if_neg heq]) ?_
          · intro o' ho'
            rcases List.mem_cons.mp ho' with rfl | ho'
            · exact flatrangeEqual_of_start_ne hlt.ne'
            · exact flatrangeEqual_of_start_ne (by have := holt o' ho'; omega)
          · exact ih _ (by grind) hold hnew.tail rfl

/-! ## What the listener sees -/

def ListenerEvent.isDel : ListenerEvent → Bool
  | regionDel _ => true
  | _ => false

def ListenerEvent.isAdd : ListenerEvent → Bool
  | regionAdd _ => true
  | _ => false

def ListenerEvent.presents : ListenerEvent → Option MemoryRegionSection
  | regionAdd s | regionNop s => some s
  | _ => none

def ListenerEvent.startsLog : ListenerEvent → Option MemoryRegionSection
  | logStart s => some s
  | _ => none

def ListenerEvent.stopsLog : ListenerEvent → Option MemoryRegionSection
  | logStop s => some s
  | _ => none

/-- Logging begins. -/
def maskSet (o n : FlatRange) : Bool := decide (o.dirtyLogMask = 0#8 ∧ n.dirtyLogMask ≠ 0#8)

/-- Logging ends. -/
def maskCleared (o n : FlatRange) : Bool := decide (o.dirtyLogMask ≠ 0#8 ∧ n.dirtyLogMask = 0#8)

/-- The range is unchanged from one of the old view, and its dirty log mask became non-zero. -/
def becameLogged (old : FlatView) (n : FlatRange) : Bool :=
  old.any fun o => flatrangeEqual o n && maskSet o n

/-- The range is unchanged from one of the old view, and its dirty log mask became zero. -/
def becameUnlogged (old : FlatView) (n : FlatRange) : Bool :=
  old.any fun o => flatrangeEqual o n && maskCleared o n

lemma unchanged_gone (h : ∀ n ∈ new, flatrangeEqual o n = false) :
    unchanged (o :: old) new = unchanged old new :=
  List.filter_congr fun n hn => by simp [h n hn]

lemma unchanged_both (heq : flatrangeEqual o n = true)
    (h : ∀ n' ∈ new, flatrangeEqual o n' = false) :
    unchanged (o :: old) (n :: new) = n :: unchanged old new := by
  rw [unchanged, List.filter_cons_of_pos (by simp [heq])]
  exact congrArg (n :: ·) (unchanged_gone h)

lemma unchanged_added (h : ∀ o ∈ old, flatrangeEqual o n = false) :
    unchanged old (n :: new) = unchanged old new := by
  refine List.filter_cons_of_neg ?_
  simpa using h

/-- Only deletions, which take a listener that holds the old view to what is still in the new
one. -/
def Deletes (root : RegionId) (old new : FlatView) : Prop :=
  ∃ es, updateTopologyPass root false old new = some es ∧ (∀ e ∈ es, e.isDel = true)
    ∧ ∀ base : Multiset MemoryRegionSection, NoOverlap (base + sections root old) →
      Follows (base + sections root old) es (base + sections root (unchanged old new))

/-- No deletion; callbacks that present the new view in its order and take a listener that holds its
unchanged part to all of it; and a log callback for exactly the unchanged ranges whose dirty log
mask became non-zero, or zero. -/
def Adds (root : RegionId) (old new : FlatView) : Prop :=
  ∃ es, updateTopologyPass root true old new = some es ∧ (∀ e ∈ es, e.isDel = false)
    ∧ es.filterMap presents = sections root new
    ∧ es.filterMap startsLog = sections root (new.filter (becameLogged old))
    ∧ es.filterMap stopsLog = sections root (new.filter (becameUnlogged old))
    ∧ ∀ base : Multiset MemoryRegionSection, NoOverlap (base + sections root new) →
      Follows (base + sections root (unchanged old new)) es (base + sections root new)

/-- **The deleting pass** over two ordered views. -/
theorem pass_deleting (root : RegionId) (hold : old.Presentable) (hnew : new.Presentable) :
    Deletes root old new := by
  refine pass_induction root ?_ ?_ ?_ ?_ hold hnew
  · exact ⟨[], by rw [updateTopologyPass], by simp, fun base hno => Follows.nil hno⟩
  · rintro o old new ho hne heq ⟨es, hes, hdel, hfollow⟩
    obtain ⟨s, hs, hsec⟩ := ho.sections_cons root
    refine ⟨regionDel s :: es, ?_, by simpa [isDel] using hdel, fun base hno => ?_⟩
    · rw [heq, hes]
      simp [goneEvents, hs]
    rw [hsec, ← cons_coe, add_cons] at hno ⊢
    rw [unchanged_gone hne]
    refine Follows.cons hno ?_ (hfollow base (hno.mono (le_cons_self _ _)))
    rw [listenerStep, if_pos (Multiset.mem_cons_self _ _), Multiset.erase_cons_head]
  · rintro o old n new hn hsame hne - heq ⟨es, hes, hdel, hfollow⟩
    obtain ⟨s, hs, -⟩ := hn.sections_cons root
    have hsec : sections root (o :: old) = s :: sections root old :=
      sections_cons ((section_eq_of_flatrangeEqual hsame root).trans hs)
    refine ⟨es, by rw [heq, hes]; rfl, hdel, fun base hno => ?_⟩
    rw [hsec, add_cons_coe] at hno ⊢
    rw [unchanged_both hsame hne, sections_cons hs, add_cons_coe]
    exact hfollow (s ::ₘ base) hno
  · rintro old n new - hne heq ⟨es, hes, hdel, hfollow⟩
    refine ⟨es, by rw [heq, hes]; rfl, hdel, ?_⟩
    rwa [unchanged_added hne]

lemma any_equal_gone (h : flatrangeEqual o n = false) :
    ((o :: old).any fun o => flatrangeEqual o n && p o)
      = old.any fun o => flatrangeEqual o n && p o := by
  simp [h]

lemma any_equal_none (h : ∀ o ∈ old, flatrangeEqual o n = false) :
    (old.any fun o => flatrangeEqual o n && p o) = false := by
  rw [any_eq_false]
  intro o ho
  simp [h o ho]

lemma any_equal_same (h : flatrangeEqual o n = true)
    (hne : ∀ o' ∈ old, flatrangeEqual o' n = false) :
    ((o :: old).any fun o => flatrangeEqual o n && p o) = p o := by
  rw [any_cons, any_equal_none hne, h, Bool.true_and, Bool.or_false]

lemma sections_filter_both {s : MemoryRegionSection} {p : FlatRange → FlatRange → Bool}
    (hs : n.section root = some s) (hsame : flatrangeEqual o n = true)
    (hne : ∀ n' ∈ new, flatrangeEqual o n' = false)
    (hne' : ∀ o' ∈ old, flatrangeEqual o' n = false) :
    sections root ((n :: new).filter fun n => (o :: old).any fun o => flatrangeEqual o n && p o n)
      = (if p o n then [s] else [])
        ++ sections root (new.filter fun n => old.any fun o => flatrangeEqual o n && p o n) := by
  have htail : (new.filter fun n => (o :: old).any fun o => flatrangeEqual o n && p o n)
      = new.filter fun n => old.any fun o => flatrangeEqual o n && p o n :=
    List.filter_congr fun n' hn' => any_equal_gone (p := fun o => p o n') (hne n' hn')
  rw [List.filter_cons, any_equal_same (p := fun o => p o n) hsame hne', htail]
  cases hp : p o n with
  | false => rfl
  | true =>
    rw [if_pos rfl, if_pos rfl, sections_cons hs]
    rfl

/-- Logging events leave what is held as it is. -/
lemma follows_logEvents (o n : FlatRange) (s : MemoryRegionSection) (hno : NoOverlap held) :
    Follows held (logEvents o n s) held := by
  rw [logEvents]
  split
  · exact Follows.cons hno rfl (Follows.nil hno)
  · split
    · exact Follows.cons hno rfl (Follows.nil hno)
    · exact Follows.nil hno

lemma logEvents_cases (o n : FlatRange) (s : MemoryRegionSection) :
    (∀ e ∈ logEvents o n s, e.isDel = false)
      ∧ (logEvents o n s).filterMap presents = []
      ∧ (logEvents o n s).filterMap startsLog = (if maskSet o n then [s] else [])
      ∧ (logEvents o n s).filterMap stopsLog = (if maskCleared o n then [s] else []) := by
  by_cases ho : o.dirtyLogMask = 0#8 <;> by_cases hn : n.dirtyLogMask = 0#8 <;>
    simp [logEvents, maskSet, maskCleared, ho, hn, isDel, presents, startsLog, stopsLog]

lemma sections_unchanged_le (old new : FlatView) :
    (sections root (unchanged old new) : Multiset MemoryRegionSection) ≤ sections root new :=
  coe_le.mpr ((filter_sublist.filterMap _).subperm)

/-- **The adding pass** over two ordered views. -/
theorem pass_adding (root : RegionId) (hold : old.Presentable) (hnew : new.Presentable) :
    Adds root old new := by
  refine pass_induction root ?_ ?_ ?_ ?_ hold hnew
  · exact ⟨[], by rw [updateTopologyPass], by simp, rfl, rfl, rfl, fun base hno => Follows.nil hno⟩
  · rintro o old new - hne heq ⟨es, hes, hdel, hpres, hstart, hstop, hfollow⟩
    refine ⟨es, by rw [heq, hes]; rfl, hdel, hpres, ?_, ?_, ?_⟩
    · rw [hstart]
      exact congrArg _ (List.filter_congr fun n hn => (any_equal_gone (hne n hn)).symm)
    · rw [hstop]
      exact congrArg _ (List.filter_congr fun n hn => (any_equal_gone (hne n hn)).symm)
    · rwa [unchanged_gone hne]
  · rintro o old n new hn hsame hne hne' heq ⟨es, hes, hdel, hpres, hstart, hstop, hfollow⟩
    obtain ⟨s, hs, hsec⟩ := hn.sections_cons root
    obtain ⟨hlogdel, hlogpres, hlogstart, hlogstop⟩ := logEvents_cases o n s
    refine ⟨regionNop s :: (logEvents o n s ++ es), ?_, ?_, ?_, ?_, ?_, fun base hno => ?_⟩
    · rw [heq, hes]
      simp [bothEvents, hs]
    · simp only [List.mem_cons, mem_append]
      rintro e (rfl | he | he)
      · rfl
      · exact hlogdel e he
      · exact hdel e he
    · rw [hsec, List.filterMap_cons, filterMap_append, hlogpres, hpres]
      rfl
    · rw [List.filterMap_cons, filterMap_append, hlogstart, hstart]
      exact (sections_filter_both (p := maskSet) hs hsame hne hne').symm
    · rw [List.filterMap_cons, filterMap_append, hlogstop, hstop]
      exact (sections_filter_both (p := maskCleared) hs hsame hne hne').symm
    · rw [hsec, add_cons_coe] at hno ⊢
      rw [unchanged_both hsame hne, sections_cons hs, add_cons_coe]
      have hno' := hno.mono (Multiset.add_le_add_left (sections_unchanged_le old new))
      refine Follows.cons hno' ?_ ((follows_logEvents o n s hno').append (hfollow (s ::ₘ base) hno))
      rw [listenerStep, if_pos (by simp)]
  · rintro old n new hn hne heq ⟨es, hes, hdel, hpres, hstart, hstop, hfollow⟩
    obtain ⟨s, hs, hsec⟩ := hn.sections_cons root
    refine ⟨regionAdd s :: es, ?_, by simpa [isDel] using hdel, ?_, ?_, ?_, ?_⟩
    · rw [heq, hes]
      simp [newEvents, hs]
    · rw [hsec, ← hpres]
      rfl
    · rw [List.filter_cons_of_neg (by simp [becameLogged, any_equal_none hne]), ← hstart]
      rfl
    · rw [List.filter_cons_of_neg (by simp [becameUnlogged, any_equal_none hne]), ← hstop]
      rfl
    · intro base hno
      rw [hsec, add_cons_coe] at hno ⊢
      rw [unchanged_added hne]
      refine Follows.cons (hno.mono ?_) rfl ?_
      · exact add_le_add (le_cons_self _ _) (sections_unchanged_le old new)
      · rw [← cons_add]
        exact hfollow (s ::ₘ base) hno

end Pass

/-- **What a listener sees of an update**: for two ordered views without a range that spans the
address space, a listener that holds the sections of the old view can follow all callbacks, never
holds two that overlap, and ends with those of the new view.  All deletions come first, the
additions and the kept sections are the new view in order, and logging starts and stops for exactly
the unchanged ranges whose dirty log mask became non-zero or zero. -/
theorem update_topology_tracked (root : RegionId) (old new : FlatView) (hold : old.Presentable)
    (hnew : new.Presentable) :
    ∃ es, updateTopology root old new = some es ∧ Follows (sections root old) es (sections root new)
      ∧ es.Pairwise (fun e f => ¬ (e.isAdd = true ∧ f.isDel = true))
      ∧ es.filterMap presents = sections root new
      ∧ es.filterMap startsLog = sections root (new.filter (becameLogged old))
      ∧ es.filterMap stopsLog = sections root (new.filter (becameUnlogged old)) := by
  obtain ⟨dels, hdels, hisdel, hfollow⟩ := pass_deleting root hold hnew
  obtain ⟨adds, hadds, hnodel, hpres, hstart, hstop, hfollow'⟩ := pass_adding root hold hnew
  have hno := hold.noOverlap root
  have hno' := hnew.noOverlap root
  have hquiet : ∀ f : ListenerEvent → Option MemoryRegionSection,
      (∀ s, f (regionDel s) = none) → dels.filterMap f = [] := by
    intro f hf
    rw [filterMap_eq_nil_iff]
    intro e he
    have := hisdel e he
    cases e with
    | regionDel s => exact hf s
    | _ => simp [isDel] at this
  refine ⟨dels ++ adds, by rw [updateTopology, hdels, hadds]; rfl, ?_, ?_, ?_, ?_, ?_⟩
  · have h1 := hfollow 0 (by rwa [zero_add])
    have h2 := hfollow' 0 (by rwa [zero_add])
    exact h1.append h2
  · rw [pairwise_append]
    refine ⟨?_, ?_, ?_⟩
    · refine pairwise_of_forall_mem_list fun e he f hf hbad => ?_
      have := hisdel e he
      cases e <;> simp_all [isDel, isAdd]
    · refine pairwise_of_forall_mem_list fun e he f hf hbad => ?_
      rw [hnodel f hf] at hbad
      simp at hbad
    · intro e he f hf hbad
      rw [hnodel f hf] at hbad
      simp at hbad
  · rw [filterMap_append, hquiet _ (fun _ => rfl), hpres, nil_append]
  · rw [filterMap_append, hquiet _ (fun _ => rfl), hstart, nil_append]
  · rw [filterMap_append, hquiet _ (fun _ => rfl), hstop, nil_append]

/-- A view with one page. -/
def pageView : FlatView := [⟨1, 0, ⟨0, 0x1000⟩, 0#8, true, false⟩]

/-- The same page with logging, and a second one. -/
def loggedPagesView : FlatView :=
  [⟨1, 0, ⟨0, 0x1000⟩, 1#8, true, false⟩, ⟨2, 0, ⟨0x1000, 0x1000⟩, 0#8, true, false⟩]

theorem page_update_tracked : pageView.Presentable ∧ loggedPagesView.Presentable
      ∧ ∃ es, updateTopology 0 pageView loggedPagesView = some es
        ∧ Follows (sections 0 pageView) es (sections 0 loggedPagesView) := by
  have hold : pageView.Presentable := by
    refine ⟨⟨?_, ?_⟩, ?_, ?_⟩ <;> simp [pageView, FlatView.InSpace, stop]
  have hnew : loggedPagesView.Presentable := by
    refine ⟨⟨?_, ?_⟩, ?_, ?_⟩ <;> simp [loggedPagesView, FlatView.InSpace, stop]
  obtain ⟨es, hes, hfollow, _⟩ := update_topology_tracked 0 pageView loggedPagesView hold hnew
  exact ⟨hold, hnew, es, hes, hfollow⟩

/-- A range that spans the address space cannot be presented: the update fails an assertion. -/
theorem whole_range_not_presented :
    ¬ ∀ (root : RegionId) (old new : FlatView), old.Ordered → old.InSpace → new.Ordered →
      new.InSpace → ∃ es, updateTopology root old new = some es
        ∧ Follows (sections root old) es (sections root new) := by
  intro hall
  obtain ⟨es, hes, _⟩ := hall 0 [] [⟨1, 0, wholeSpace, 0#8, true, false⟩] Ranges.Ordered.nil
    (fun r hr => by simp at hr)
    ⟨by simp [wholeSpace, int128_2_64, stop], by simp⟩
    (by simp [FlatView.InSpace, wholeSpace, int128_2_64, stop])
  simp [updateTopology, updateTopologyPass, newEvents, FlatRange.section, int128Get64,
    wholeSpace] at hes

end Qemu.Memory
