import Mathlib
import Qemu.Memory.Render
import Qemu.Memory.Listener

/-!
# Keeping the maps current

The calls of the memory API that change the region tree, as steps on the state of `memory.c`: the
regions, the two address spaces with their maps, the depth of the open transactions and the pending
flag.  A failed assertion is `none`, and `fuel` bounds the depth of `render_memory_region`.

A call skips the update when the region it was made on is disabled, and two of them also when the
region has no parent.  A disabled region is not rendered, but a region without a parent is when it
is the root of an address space, or the target of an alias.

**Main results:**
- `generateMemoryTopology_congr`: what the rendered map depends on
- `Fresh.step`: a careful call keeps the maps current, or the update pending
- `current_of_carefulRun`: after careful calls, the maps are current whenever no transaction is open
-/

namespace Qemu.Memory

open Function MemoryRegion

/-- An address space: its root and its current map. -/
structure AddressSpace where
  root : Option RegionId
  currentMap : FlatView

/-- The state of `memory.c`. -/
structure MemState where
  heap : RegionHeap
  memory : AddressSpace
  io : AddressSpace
  transactionDepth : ℕ
  updatePending : Bool

/-- A region changes. -/
def RegionHeap.modify (h : RegionHeap) (mr : RegionId) (f : MemoryRegion → MemoryRegion) :
    RegionHeap :=
  update h mr (f (h mr))

/-- `address_space_update_topology`, for an address space that has a root. -/
def addressSpaceUpdateTopology (fuel : ℕ) (h : RegionHeap) (as : AddressSpace) :
    Option AddressSpace :=
  match as.root with
  | none => some as
  | some root =>
    (generateMemoryTopology h fuel root).bind fun newView =>
      (updateTopology root as.currentMap newView).map fun _ => { as with currentMap := newView }

/-- The argument of `memory_region_update_topology` is `NULL` or an enabled region. -/
def asksUpdate (h : RegionHeap) : Option RegionId → Bool
  | none => true
  | some mr => (h mr).enabled

/-- `memory_region_update_topology`. -/
def memoryRegionUpdateTopology (fuel : ℕ) (s : MemState) (mr : Option RegionId) : Option MemState :=
  if s.transactionDepth ≠ 0 then
    some { s with updatePending := s.updatePending || asksUpdate s.heap mr }
  else if !asksUpdate s.heap mr then some s
  else
    (addressSpaceUpdateTopology fuel s.heap s.memory).bind fun memory =>
      (addressSpaceUpdateTopology fuel s.heap s.io).map fun io =>
        { s with memory := memory, io := io, updatePending := false }

/-- `memory_region_transaction_begin`. -/
def memoryRegionTransactionBegin (s : MemState) : MemState :=
  { s with transactionDepth := s.transactionDepth + 1 }

/-- `memory_region_transaction_commit`. -/
def memoryRegionTransactionCommit (fuel : ℕ) (s : MemState) : Option MemState :=
  if s.transactionDepth = 0 then none
  else
    let s := { s with transactionDepth := s.transactionDepth - 1 }
    if s.transactionDepth = 0 ∧ s.updatePending = true then memoryRegionUpdateTopology fuel s none
    else some s

/-- Insertion in front of the first region of no higher priority. -/
def insertSubregion (h : RegionHeap) (subregion : RegionId) : List RegionId → List RegionId
  | [] => [subregion]
  | other :: rest =>
    if (h other).priority ≤ (h subregion).priority then subregion :: other :: rest
    else other :: insertSubregion h subregion rest

/-- `memory_region_add_subregion_common`. -/
def memoryRegionAddSubregionCommon (fuel : ℕ) (s : MemState) (mr : RegionId) (offset : ℕ)
    (subregion : RegionId) : Option MemState :=
  if (s.heap subregion).parent ≠ none then none
  else
    let h := s.heap.modify subregion fun r => { r with parent := some mr, addr := offset }
    let h := h.modify mr fun r => { r with subregions := insertSubregion h subregion r.subregions }
    memoryRegionUpdateTopology fuel { s with heap := h } (some mr)

/-- `memory_region_add_subregion`. -/
def memoryRegionAddSubregion (fuel : ℕ) (s : MemState) (mr : RegionId) (offset : ℕ)
    (subregion : RegionId) : Option MemState :=
  let h := s.heap.modify subregion fun r => { r with mayOverlap := false, priority := 0 }
  memoryRegionAddSubregionCommon fuel { s with heap := h } mr offset subregion

/-- `memory_region_add_subregion_overlap`. -/
def memoryRegionAddSubregionOverlap (fuel : ℕ) (s : MemState) (mr : RegionId) (offset : ℕ)
    (subregion : RegionId) (priority : ℕ) : Option MemState :=
  let h := s.heap.modify subregion fun r => { r with mayOverlap := true, priority := priority }
  memoryRegionAddSubregionCommon fuel { s with heap := h } mr offset subregion

/-- `memory_region_del_subregion`. -/
def memoryRegionDelSubregion (fuel : ℕ) (s : MemState) (mr subregion : RegionId) :
    Option MemState :=
  if (s.heap subregion).parent ≠ some mr then none
  else
    let h := s.heap.modify subregion fun r => { r with parent := none }
    let h := h.modify mr fun r => { r with subregions := r.subregions.erase subregion }
    memoryRegionUpdateTopology fuel { s with heap := h } (some mr)

/-- `memory_region_set_enabled`. -/
def memoryRegionSetEnabled (fuel : ℕ) (s : MemState) (mr : RegionId) (enabled : Bool) :
    Option MemState :=
  if enabled = (s.heap mr).enabled then some s
  else
    let h := s.heap.modify mr fun r => { r with enabled := enabled }
    memoryRegionUpdateTopology fuel { s with heap := h } none

/-- `memory_region_set_address`. -/
def memoryRegionSetAddress (fuel : ℕ) (s : MemState) (mr : RegionId) (addr : ℕ) : Option MemState :=
  match (s.heap mr).parent with
  | none => some { s with heap := s.heap.modify mr fun r => { r with addr := addr } }
  | some parent =>
    if addr = (s.heap mr).addr then
      some { s with heap := s.heap.modify mr fun r => { r with addr := addr } }
    else
      let priority := (s.heap mr).priority
      let mayOverlap := (s.heap mr).mayOverlap
      (memoryRegionDelSubregion fuel (memoryRegionTransactionBegin s) parent mr).bind fun s =>
        (if mayOverlap then memoryRegionAddSubregionOverlap fuel s parent addr mr priority
          else memoryRegionAddSubregion fuel s parent addr mr).bind fun s =>
          memoryRegionTransactionCommit fuel s

/-- `memory_region_set_alias_offset`. -/
def memoryRegionSetAliasOffset (fuel : ℕ) (s : MemState) (mr : RegionId) (offset : ℕ) :
    Option MemState :=
  if (s.heap mr).aliasOf = none then none
  else
    let oldOffset := (s.heap mr).aliasOffset
    let h := s.heap.modify mr fun r => { r with aliasOffset := offset }
    if offset = oldOffset ∨ (s.heap mr).parent = none then some { s with heap := h }
    else memoryRegionUpdateTopology fuel { s with heap := h } (some mr)

/-- `memory_region_set_readonly`. -/
def memoryRegionSetReadonly (fuel : ℕ) (s : MemState) (mr : RegionId) (readonly : Bool) :
    Option MemState :=
  if (s.heap mr).readonly = readonly then some s
  else
    let h := s.heap.modify mr fun r => { r with readonly := readonly }
    memoryRegionUpdateTopology fuel { s with heap := h } (some mr)

/-- `memory_region_rom_device_set_readable`. -/
def memoryRegionRomDeviceSetReadable (fuel : ℕ) (s : MemState) (mr : RegionId) (readable : Bool) :
    Option MemState :=
  if (s.heap mr).readable = readable then some s
  else
    let h := s.heap.modify mr fun r => { r with readable := readable }
    memoryRegionUpdateTopology fuel { s with heap := h } (some mr)

/-- `memory_region_set_log`. -/
def memoryRegionSetLog (fuel : ℕ) (s : MemState) (mr : RegionId) (log : Bool) (client : ℕ) :
    Option MemState :=
  let mask : BitVec 8 := 1#8 <<< client
  let h := s.heap.modify mr fun r =>
    { r with dirtyLogMask := (r.dirtyLogMask &&& ~~~mask) ||| (if log then mask else 0#8) }
  memoryRegionUpdateTopology fuel { s with heap := h } (some mr)

/-- The calls that change the tree, and the transactions around them. -/
inductive Call where
  | addSubregion (mr : RegionId) (offset : ℕ) (subregion : RegionId)
  | addSubregionOverlap (mr : RegionId) (offset : ℕ) (subregion : RegionId) (priority : ℕ)
  | delSubregion (mr subregion : RegionId)
  | setEnabled (mr : RegionId) (enabled : Bool)
  | setAddress (mr : RegionId) (addr : ℕ)
  | setAliasOffset (mr : RegionId) (offset : ℕ)
  | setReadonly (mr : RegionId) (readonly : Bool)
  | romDeviceSetReadable (mr : RegionId) (readable : Bool)
  | setLog (mr : RegionId) (log : Bool) (client : ℕ)
  | transactionBegin
  | transactionCommit

def Call.exec (fuel : ℕ) (s : MemState) : Call → Option MemState
  | addSubregion mr offset subregion => memoryRegionAddSubregion fuel s mr offset subregion
  | addSubregionOverlap mr offset subregion priority =>
    memoryRegionAddSubregionOverlap fuel s mr offset subregion priority
  | delSubregion mr subregion => memoryRegionDelSubregion fuel s mr subregion
  | setEnabled mr enabled => memoryRegionSetEnabled fuel s mr enabled
  | setAddress mr addr => memoryRegionSetAddress fuel s mr addr
  | setAliasOffset mr offset => memoryRegionSetAliasOffset fuel s mr offset
  | setReadonly mr readonly => memoryRegionSetReadonly fuel s mr readonly
  | romDeviceSetReadable mr readable => memoryRegionRomDeviceSetReadable fuel s mr readable
  | setLog mr log client => memoryRegionSetLog fuel s mr log client
  | transactionBegin => some (memoryRegionTransactionBegin s)
  | transactionCommit => memoryRegionTransactionCommit fuel s

def runCalls (fuel : ℕ) (s : MemState) (calls : List Call) : Option MemState :=
  calls.foldlM (Call.exec fuel) s

/-! ## What the rendered map depends on -/

/-- The recursion of `render_memory_region` goes from `mr` to `next`. -/
def RendersNext (h : RegionHeap) (mr next : RegionId) : Prop :=
  (h mr).enabled = true ∧ ((h mr).aliasOf = some next ∨
    ((h mr).aliasOf = none ∧ next ∈ (h mr).subregions))

/-- Rendering may reach `mr` from `root`. -/
def Rendered (h : RegionHeap) (root mr : RegionId) : Prop :=
  Relation.ReflTransGen (RendersNext h) root mr

/-- The two regions are rendered alike, up to their place in the parent. -/
structure MemoryRegion.SameLook (r r' : MemoryRegion) : Prop where
  size : r.size = r'.size
  terminates : r.terminates = r'.terminates
  readable : r.readable = r'.readable
  readonly : r.readonly = r'.readonly
  enabled : r.enabled = r'.enabled
  aliasOf : r.aliasOf = r'.aliasOf
  aliasOffset : r.aliasOffset = r'.aliasOffset
  subregions : r.subregions = r'.subregions
  dirtyLogMask : r.dirtyLogMask = r'.dirtyLogMask

lemma MemoryRegion.SameLook.refl (r : MemoryRegion) : r.SameLook r := by
  constructor <;> rfl

/-- The region is disabled in both heaps, or looks the same with its subregions at the same
addresses. -/
def AlikeAt (h h' : RegionHeap) (mr : RegionId) : Prop :=
  ((h mr).enabled = false ∧ (h' mr).enabled = false)
    ∨ ((h mr).SameLook (h' mr) ∧ ∀ c ∈ (h mr).subregions, (h c).addr = (h' c).addr)

variable {fuel : ℕ} {h : RegionHeap} {mr subregion : RegionId} {s s' : MemState}

lemma renderMemoryRegion_congr {h' : RegionHeap} {base base' : ℤ}
    (hbase : base + (h mr).addr = base' + (h' mr).addr)
    (halike : ∀ x, Rendered h mr x → AlikeAt h h' x) (view : FlatView) (clip : AddrRange)
    (readonly : Bool) :
    renderMemoryRegion h fuel view mr base clip readonly
      = renderMemoryRegion h' fuel view mr base' clip readonly := by
  induction fuel generalizing view mr base base' clip readonly with
  | zero => rfl
  | succ fuel ih =>
    rcases halike mr Relation.ReflTransGen.refl with ⟨hoff, hoff'⟩ | ⟨hlook, haddr⟩
    · simp [renderMemoryRegion, hoff, hoff']
    cases hen : (h mr).enabled with
    | false => simp [renderMemoryRegion, hen, ← hlook.enabled]
    | true =>
      have hnext : ∀ c, RendersNext h mr c → ∀ x, Rendered h c x → AlikeAt h h' x :=
        fun c hc x hx => halike x (Relation.ReflTransGen.head hc hx)
      simp only [renderMemoryRegion, ← hlook.enabled, hen, Bool.not_true, Bool.false_eq_true,
        if_false, ← hbase, ← hlook.readonly, ← hlook.size, ← hlook.aliasOf,
        ← hlook.aliasOffset, ← hlook.subregions, ← hlook.terminates]
      cases hin : AddrRange.intersects ⟨base + (h mr).addr, (h mr).size⟩ clip with
      | false => rfl
      | true =>
        simp only [Bool.not_true, Bool.false_eq_true, if_false]
        cases hal : (h mr).aliasOf with
        | some orig =>
          exact ih (by omega) (hnext orig ⟨hen, .inl hal⟩) _ _ _
        | none =>
          simp only [renderSelf, hlook.dirtyLogMask, hlook.readable]
          rw [foldlM_congr_mem fun view' c hc => ih
            (by rw [haddr c hc]) (hnext c ⟨hen, .inr ⟨hal, hc⟩⟩) view' _ _]

/-- **What the map depends on**: the address of the root, and the looks of the regions rendered. -/
theorem generateMemoryTopology_congr {h' : RegionHeap} {root : RegionId}
    (haddr : (h root).addr = (h' root).addr) (halike : ∀ x, Rendered h root x → AlikeAt h h' x) :
    generateMemoryTopology h fuel root = generateMemoryTopology h' fuel root := by
  rw [generateMemoryTopology, generateMemoryTopology,
    renderMemoryRegion_congr (by rw [haddr]) halike]

/-! ## The invariant -/

/-- The links of the heap: a region is in the list of its parent only, and once. -/
structure Linked (h : RegionHeap) : Prop where
  parent : ∀ p, ∀ c ∈ (h p).subregions, (h c).parent = some p
  nodup : ∀ p, (h p).subregions.Nodup

/-- The current map of the address space is the one that its root renders to. -/
def AddressSpace.Current (fuel : ℕ) (h : RegionHeap) (as : AddressSpace) : Prop :=
  ∀ root, as.root = some root → generateMemoryTopology h fuel root = some as.currentMap

/-- Both maps are current. -/
def MemState.Current (fuel : ℕ) (s : MemState) : Prop :=
  s.memory.Current fuel s.heap ∧ s.io.Current fuel s.heap

def MemState.IsRoot (s : MemState) (mr : RegionId) : Prop :=
  s.memory.root = some mr ∨ s.io.root = some mr

/-- An update will be made when the open transactions end. -/
def MemState.Pending (s : MemState) : Prop := s.transactionDepth ≠ 0 ∧ s.updatePending = true

/-- The maps are current, or an update is pending. -/
structure Fresh (fuel : ℕ) (s : MemState) : Prop where
  linked : Linked s.heap
  fresh : s.Pending ∨ s.Current fuel

/-- The address spaces are rendered from `h` as from the heap of the state. -/
def KeepsMaps (s : MemState) (h : RegionHeap) : Prop :=
  ∀ root, s.IsRoot root →
    (s.heap root).addr = (h root).addr ∧ ∀ x, Rendered s.heap root x → AlikeAt s.heap h x

lemma MemState.Current.congr (hcur : s.Current fuel) (hkeep : KeepsMaps s h) :
    MemState.Current fuel { s with heap := h } := by
  have hsame : ∀ root, s.IsRoot root →
      generateMemoryTopology h fuel root = generateMemoryTopology s.heap fuel root :=
    fun root hr => (generateMemoryTopology_congr (hkeep root hr).1 (hkeep root hr).2).symm
  exact ⟨fun root hroot => (hsame root (.inl hroot)).trans (hcur.1 root hroot),
    fun root hroot => (hsame root (.inr hroot)).trans (hcur.2 root hroot)⟩

lemma Fresh.withHeap (hs : Fresh fuel s) (hlinked : Linked h) (hkeep : s.Pending ∨ KeepsMaps s h) :
    Fresh fuel { s with heap := h } := by
  refine ⟨hlinked, ?_⟩
  rcases hs.fresh with hpend | hcur
  · exact .inl hpend
  · exact hkeep.imp id fun hkeep => hcur.congr hkeep

lemma addressSpaceUpdateTopology_spec {as as' : AddressSpace}
    (hup : addressSpaceUpdateTopology fuel h as = some as') :
    as'.root = as.root ∧ as'.Current fuel h := by
  rw [addressSpaceUpdateTopology] at hup
  split at hup
  next hroot =>
    cases hup
    exact ⟨rfl, fun root hr => by rw [hroot] at hr; simp at hr⟩
  next root hroot =>
    obtain ⟨view, hview, hup⟩ := Option.bind_eq_some_iff.mp hup
    obtain ⟨_, _, rfl⟩ := Option.map_eq_some_iff.mp hup
    refine ⟨rfl, fun root' hr => ?_⟩
    obtain rfl : root = root' := Option.some.inj (hroot.symm.trans hr)
    exact hview

/-- What `memory_region_update_topology` leaves alone. -/
structure SameBut (s s' : MemState) : Prop where
  heap : s'.heap = s.heap
  memoryRoot : s'.memory.root = s.memory.root
  ioRoot : s'.io.root = s.io.root
  depth : s'.transactionDepth = s.transactionDepth

lemma SameBut.isRoot (h : SameBut s s') (mr : RegionId) : s'.IsRoot mr ↔ s.IsRoot mr := by
  rw [MemState.IsRoot, MemState.IsRoot, h.memoryRoot, h.ioRoot]

/-- In a transaction the update is noted, for a disabled region nothing is done, and otherwise both
maps become current. -/
lemma memoryRegionUpdateTopology_spec {mr : Option RegionId}
    (hup : memoryRegionUpdateTopology fuel s mr = some s') : SameBut s s' ∧ (s.Pending → s'.Pending)
      ∧ ((asksUpdate s.heap mr = true ∧ (s'.Pending ∨ s'.Current fuel))
        ∨ (asksUpdate s.heap mr = false ∧ s'.memory = s.memory ∧ s'.io = s.io)) := by
  rw [memoryRegionUpdateTopology] at hup
  split at hup
  next hdepth =>
    cases hup
    refine ⟨⟨rfl, rfl, rfl, rfl⟩, fun hp => ⟨hdepth, by simp [hp.2]⟩, ?_⟩
    cases hask : asksUpdate s.heap mr with
    | true => exact .inl ⟨rfl, .inl ⟨hdepth, by simp⟩⟩
    | false => exact .inr ⟨rfl, rfl, rfl⟩
  next hdepth =>
    have hnot : ¬ s.Pending := fun hp => hdepth hp.1
    split at hup
    next hask =>
      cases hup
      exact ⟨⟨rfl, rfl, rfl, rfl⟩, id, .inr ⟨by simpa using hask, rfl, rfl⟩⟩
    next hask =>
      obtain ⟨memory, hmem, hup⟩ := Option.bind_eq_some_iff.mp hup
      obtain ⟨io, hio, rfl⟩ := Option.map_eq_some_iff.mp hup
      obtain ⟨hmroot, hmcur⟩ := addressSpaceUpdateTopology_spec hmem
      obtain ⟨hiroot, hicur⟩ := addressSpaceUpdateTopology_spec hio
      exact ⟨⟨rfl, hmroot, hiroot, rfl⟩, fun hp => absurd hp hnot,
        .inl ⟨by simpa using hask, .inr ⟨hmcur, hicur⟩⟩⟩

/-- **A change of the heap with its update**: enough that a skipped update was not needed. -/
theorem Fresh.update {mr : Option RegionId} (hs : Fresh fuel s) (hlinked : Linked h)
    (hkeep : asksUpdate h mr = false → s.Pending ∨ KeepsMaps s h)
    (hup : memoryRegionUpdateTopology fuel { s with heap := h } mr = some s') : Fresh fuel s' := by
  obtain ⟨hsame, hpend, hcases⟩ := memoryRegionUpdateTopology_spec hup
  refine ⟨by rw [hsame.heap]; exact hlinked, ?_⟩
  rcases hcases with ⟨_, hfresh⟩ | ⟨hask, hmem, hio⟩
  · exact hfresh
  rcases (hs.withHeap hlinked (hkeep hask)).fresh with hp | hcur
  · exact .inl (hpend hp)
  · refine .inr ?_
    rw [MemState.Current, hmem, hio, hsame.heap]
    exact hcur

/-! ## Changes of one region -/

section Modify

variable {x : RegionId} {f : MemoryRegion → MemoryRegion}

@[simp] lemma modify_same : h.modify mr f mr = f (h mr) := update_self ..

lemma modify_ne (hne : x ≠ mr) : h.modify mr f x = h x := update_of_ne hne ..

lemma modify_field {α : Type*} (g : MemoryRegion → α) (hf : ∀ r, g (f r) = g r) (x : RegionId) :
    g (h.modify mr f x) = g (h x) := by
  rcases eq_or_ne x mr with rfl | hne
  · rw [modify_same, hf]
  · rw [modify_ne hne]

lemma Linked.modify (hl : Linked h) (hsub : ∀ r, (f r).subregions = r.subregions)
    (hpar : ∀ r, (f r).parent = r.parent) : Linked (h.modify mr f) := by
  refine ⟨fun p c hc => ?_, fun p => ?_⟩
  · rw [modify_field MemoryRegion.subregions hsub] at hc
    rw [modify_field MemoryRegion.parent hpar]
    exact hl.parent p c hc
  · rw [modify_field MemoryRegion.subregions hsub]
    exact hl.nodup p

lemma sameLook_modify (hf : ∀ r : MemoryRegion, r.SameLook (f r)) (x : RegionId) :
    (h x).SameLook (h.modify mr f x) := by
  rcases eq_or_ne x mr with rfl | hne
  · rw [modify_same]
    exact hf _
  · rw [modify_ne hne]
    exact MemoryRegion.SameLook.refl _

lemma keepsMaps_of_disabled (hen : (s.heap mr).enabled = false)
    (hf : ∀ r, (f r).enabled = r.enabled) (haddr : ∀ r, (f r).addr = r.addr) :
    KeepsMaps s (s.heap.modify mr f) := by
  refine fun root _ => ⟨(modify_field addr haddr root).symm, fun x _ => ?_⟩
  rcases eq_or_ne x mr with rfl | hne
  · exact .inl ⟨hen, by rw [modify_same, hf, hen]⟩
  · refine .inr ⟨?_, fun c _ => (modify_field addr haddr c).symm⟩
    rw [modify_ne hne]
    exact MemoryRegion.SameLook.refl _

lemma keepsMaps_of_sameLook (hf : ∀ r : MemoryRegion, r.SameLook (f r))
    (haddr : ∀ r, (f r).addr = r.addr) :
    KeepsMaps s (s.heap.modify mr f) :=
  fun root _ => ⟨(modify_field addr haddr root).symm, fun x _ =>
    .inr ⟨sameLook_modify hf x, fun c _ => (modify_field addr haddr c).symm⟩⟩

end Modify

/-- A call that changes a region but for links, enabledness and address, and asks for the update. -/
lemma Fresh.modify_update {f : MemoryRegion → MemoryRegion} (hs : Fresh fuel s)
    (hup : memoryRegionUpdateTopology fuel { s with heap := s.heap.modify mr f }
      (some mr) = some s')
    (hsub : ∀ r, (f r).subregions = r.subregions) (hpar : ∀ r, (f r).parent = r.parent)
    (hen : ∀ r, (f r).enabled = r.enabled) (haddr : ∀ r, (f r).addr = r.addr) : Fresh fuel s' := by
  refine hs.update (hs.linked.modify hsub hpar) (fun hask => .inr ?_) hup
  refine keepsMaps_of_disabled ?_ hen haddr
  rw [asksUpdate, modify_same, hen] at hask
  exact hask

/-! ## Adding and deleting subregions -/

lemma insertSubregion_perm (l : List RegionId) :
    (insertSubregion h subregion l).Perm (subregion :: l) := by
  induction l with
  | nil => exact .refl _
  | cons other rest ih =>
    rw [insertSubregion]
    split
    · exact .refl _
    · exact (ih.cons other).trans (.swap ..)

section Subregion

variable {offset : ℕ}

/-- The heap after `memory_region_add_subregion_common`. -/
def addedHeap (h : RegionHeap) (mr : RegionId) (offset : ℕ) (subregion : RegionId) : RegionHeap :=
  let h := h.modify subregion fun r => { r with parent := some mr, addr := offset }
  h.modify mr fun r => { r with subregions := insertSubregion h subregion r.subregions }

/-- The heap after `memory_region_del_subregion`. -/
def deletedHeap (h : RegionHeap) (mr subregion : RegionId) : RegionHeap :=
  (h.modify subregion fun r => { r with parent := none }).modify mr
    fun r => { r with subregions := r.subregions.erase subregion }

lemma Linked.not_mem (hl : Linked h) (hpar : (h subregion).parent = none) (p : RegionId) :
    subregion ∉ (h p).subregions := by
  intro hmem
  rw [hl.parent p subregion hmem] at hpar
  simp at hpar

lemma addedHeap_apply (h : RegionHeap) (x : RegionId) :
    addedHeap h mr offset subregion x = { h x with
      parent := if x = subregion then some mr else (h x).parent
      addr := if x = subregion then offset else (h x).addr
      subregions := if x = mr then
          insertSubregion (h.modify subregion fun r => { r with parent := some mr, addr := offset })
            subregion (h x).subregions
        else (h x).subregions } := by
  simp only [addedHeap, RegionHeap.modify, update_apply]
  split_ifs <;> simp_all

lemma Linked.added (hl : Linked h) (hpar : (h subregion).parent = none) :
    Linked (addedHeap h mr offset subregion) := by
  have hnot := hl.not_mem hpar
  refine ⟨fun p c hc => ?_, fun p => ?_⟩
  · have hold : c ∈ (h p).subregions → (addedHeap h mr offset subregion c).parent = some p := by
      intro hmem
      rw [addedHeap_apply]
      exact (if_neg (by rintro rfl; exact hnot p hmem)).trans (hl.parent p c hmem)
    simp only [addedHeap_apply h p] at hc
    split at hc
    next hp =>
      rcases List.mem_cons.mp ((insertSubregion_perm _).mem_iff.mp hc) with rfl | hmem
      · rw [addedHeap_apply, hp]
        exact if_pos rfl
      · exact hold hmem
    next => exact hold hc
  · simp only [addedHeap_apply]
    split
    · exact (insertSubregion_perm _).nodup_iff.mpr (List.nodup_cons.mpr ⟨hnot p, hl.nodup p⟩)
    · exact hl.nodup p

lemma keepsMaps_added (hl : Linked s.heap) (hpar : (s.heap subregion).parent = none)
    (hen : (s.heap mr).enabled = false)
    (hroot : offset = (s.heap subregion).addr ∨ ¬ s.IsRoot subregion) :
    KeepsMaps s (addedHeap s.heap mr offset subregion) := by
  refine fun root hr => ⟨?_, fun x _ => ?_⟩
  · simp only [addedHeap_apply]
    split
    next heq =>
      subst heq
      rcases hroot with hsame | hnot
      · exact hsame.symm
      · exact absurd hr hnot
    next => rfl
  · rcases eq_or_ne x mr with rfl | hne
    · exact .inl ⟨hen, by rw [addedHeap_apply, hen]⟩
    · refine .inr ⟨by rw [addedHeap_apply, if_neg hne]; constructor <;> rfl, fun c hc => ?_⟩
      rw [addedHeap_apply]
      exact (if_neg (by rintro rfl; exact hl.not_mem hpar x hc)).symm

lemma deletedHeap_apply (h : RegionHeap) (x : RegionId) : deletedHeap h mr subregion x = { h x with
      parent := if x = subregion then none else (h x).parent
      subregions := if x = mr then (h x).subregions.erase subregion else (h x).subregions } := by
  simp only [deletedHeap, RegionHeap.modify, update_apply]
  split_ifs <;> simp_all

lemma Linked.deleted (hl : Linked h) (hpar : (h subregion).parent = some mr) :
    Linked (deletedHeap h mr subregion) := by
  refine ⟨fun p c hc => ?_, fun p => ?_⟩
  · simp only [deletedHeap_apply] at hc ⊢
    split at hc
    next hp =>
      obtain ⟨hne, hmem⟩ := (hl.nodup p).mem_erase_iff.mp hc
      exact (if_neg hne).trans (hl.parent p c hmem)
    next hp =>
      have hparent := hl.parent p c hc
      refine (if_neg ?_).trans hparent
      rintro rfl
      exact hp (Option.some.inj (hpar.symm.trans hparent)).symm
  · simp only [deletedHeap_apply]
    split
    · exact (hl.nodup p).erase _
    · exact hl.nodup p

lemma keepsMaps_deleted (hen : (s.heap mr).enabled = false) :
    KeepsMaps s (deletedHeap s.heap mr subregion) := by
  refine fun root _ => ⟨by rw [deletedHeap_apply], fun x _ => ?_⟩
  rcases eq_or_ne x mr with rfl | hne
  · exact .inl ⟨hen, by rw [deletedHeap_apply, hen]⟩
  · refine .inr ⟨?_, fun c _ => by rw [deletedHeap_apply]⟩
    rw [deletedHeap_apply, if_neg hne]
    constructor <;> rfl

end Subregion

/-! ## Careful calls keep the maps current -/

section Step

variable {offset addr : ℕ}

/-- A subregion is added without an update if the parent is disabled and the subregion is no root
that changes its address. -/
def AddSafe (s : MemState) (mr : RegionId) (offset : ℕ) (subregion : RegionId) : Prop :=
  s.Pending ∨ (s.heap mr).enabled = true ∨ offset = (s.heap subregion).addr ∨ ¬ s.IsRoot subregion

/-- The calls whose skipped update can leave a map stale, and when they do not. -/
def Careful (s : MemState) : Call → Prop
  | .addSubregion mr offset subregion => AddSafe s mr offset subregion
  | .addSubregionOverlap mr offset subregion _ => AddSafe s mr offset subregion
  | .setAddress mr addr =>
    s.Pending ∨ addr = (s.heap mr).addr ∨ ¬ s.IsRoot mr
      ∨ ∃ p, (s.heap mr).parent = some p ∧ (s.heap p).enabled = true
  | .setAliasOffset mr offset =>
    s.Pending ∨ offset = (s.heap mr).aliasOffset ∨ (s.heap mr).parent ≠ none
      ∨ (s.heap mr).enabled = false ∨ ∀ root, s.IsRoot root → ¬ Rendered s.heap root mr
  | _ => True

lemma Fresh.addCommon (hs : Fresh fuel s) (hsafe : AddSafe s mr offset subregion)
    (hup : memoryRegionAddSubregionCommon fuel s mr offset subregion = some s') :
    Fresh fuel s' := by
  rw [memoryRegionAddSubregionCommon] at hup
  split at hup
  next => simp at hup
  next hpar =>
    rw [not_not] at hpar
    refine hs.update (hs.linked.added hpar) (fun hask => ?_) hup
    have hoff : asksUpdate (addedHeap s.heap mr offset subregion) (some mr) = false := hask
    rw [asksUpdate, addedHeap_apply] at hoff
    rcases hsafe with hp | hen | hroot
    · exact .inl hp
    · rw [hoff] at hen
      simp at hen
    · exact .inr (keepsMaps_added hs.linked hpar hoff hroot)

lemma Fresh.setPriority (hs : Fresh fuel s) (subregion : RegionId) (mayOverlap : Bool)
    (priority : ℕ) :
    Fresh fuel { s with
      heap := s.heap.modify subregion fun r =>
        { r with mayOverlap := mayOverlap, priority := priority } } :=
  hs.withHeap (hs.linked.modify (fun _ => rfl) fun _ => rfl)
    (.inr (keepsMaps_of_sameLook (fun r => by constructor <;> rfl) fun _ => rfl))

lemma AddSafe.setPriority {mayOverlap : Bool} {priority : ℕ} (h : AddSafe s mr offset subregion) :
    AddSafe { s with
      heap := s.heap.modify subregion fun r =>
        { r with mayOverlap := mayOverlap, priority := priority } } mr offset subregion := by
  rcases h with hp | hen | haddr | hroot
  · exact .inl hp
  · refine .inr (.inl ?_)
    rw [← hen]
    exact modify_field enabled (by intro r; rfl) mr
  · refine .inr (.inr (.inl ?_))
    rw [haddr]
    exact (modify_field addr (by intro r; rfl) subregion).symm
  · exact .inr (.inr (.inr hroot))

lemma Fresh.add (hs : Fresh fuel s) (hsafe : AddSafe s mr offset subregion)
    (hup : memoryRegionAddSubregion fuel s mr offset subregion = some s') : Fresh fuel s' :=
  (hs.setPriority subregion false 0).addCommon hsafe.setPriority hup

lemma Fresh.addOverlap {priority : ℕ} (hs : Fresh fuel s) (hsafe : AddSafe s mr offset subregion)
    (hup : memoryRegionAddSubregionOverlap fuel s mr offset subregion priority = some s') :
    Fresh fuel s' :=
  (hs.setPriority subregion true priority).addCommon hsafe.setPriority hup

lemma memoryRegionDelSubregion_inv (hup : memoryRegionDelSubregion fuel s mr subregion = some s') :
    (s.heap subregion).parent = some mr
      ∧ memoryRegionUpdateTopology fuel { s with heap := deletedHeap s.heap mr subregion } (some mr)
        = some s' := by
  rw [memoryRegionDelSubregion] at hup
  split at hup
  next => simp at hup
  next hpar => exact ⟨not_not.mp hpar, hup⟩

lemma Fresh.del (hs : Fresh fuel s) (hup : memoryRegionDelSubregion fuel s mr subregion = some s') :
    Fresh fuel s' := by
  obtain ⟨hpar, hup⟩ := memoryRegionDelSubregion_inv hup
  refine hs.update (hs.linked.deleted hpar) (fun hask => .inr (keepsMaps_deleted ?_)) hup
  rw [asksUpdate, deletedHeap_apply] at hask
  exact hask

lemma Fresh.begin (hs : Fresh fuel s) : Fresh fuel (memoryRegionTransactionBegin s) := by
  refine ⟨hs.linked, ?_⟩
  rcases hs.fresh with hp | hcur
  · exact .inl ⟨Nat.succ_ne_zero _, hp.2⟩
  · exact .inr hcur

lemma Fresh.commit (hs : Fresh fuel s) (hup : memoryRegionTransactionCommit fuel s = some s') :
    Fresh fuel s' := by
  rw [memoryRegionTransactionCommit] at hup
  split at hup
  next => simp at hup
  next hdepth =>
    simp only at hup
    split at hup
    next hzero =>
      obtain ⟨hsame, _, hcases⟩ := memoryRegionUpdateTopology_spec hup
      refine ⟨by rw [hsame.heap]; exact hs.linked, ?_⟩
      rcases hcases with ⟨_, hfresh⟩ | ⟨hask, _⟩
      · exact hfresh
      · simp [asksUpdate] at hask
    next hzero =>
      cases hup
      refine ⟨hs.linked, ?_⟩
      rcases hs.fresh with hp | hcur
      · exact .inl ⟨fun h0 => hzero ⟨h0, hp.2⟩, hp.2⟩
      · exact .inr hcur

lemma Fresh.move {parent : RegionId} (addr : ℕ) (hs : Fresh fuel s)
    (hsafe : s.Pending ∨ (s.heap parent).enabled = true ∨ ¬ s.IsRoot mr) {s1 s2 : MemState}
    (hdel : memoryRegionDelSubregion fuel (memoryRegionTransactionBegin s) parent mr = some s1)
    (hadd : memoryRegionAddSubregion fuel s1 parent addr mr = some s2 ∨
      ∃ priority, memoryRegionAddSubregionOverlap fuel s1 parent addr mr priority = some s2)
    (hcommit : memoryRegionTransactionCommit fuel s2 = some s') : Fresh fuel s' := by
  have hs1 := hs.begin.del hdel
  obtain ⟨_, hup⟩ := memoryRegionDelSubregion_inv hdel
  obtain ⟨hsame, hpend, _⟩ := memoryRegionUpdateTopology_spec hup
  have hsafe1 : AddSafe s1 parent addr mr := by
    rcases hsafe with hp | hen | hroot
    · exact .inl (hpend ⟨Nat.succ_ne_zero _, hp.2⟩)
    · refine .inr (.inl ?_)
      rw [hsame.heap]
      exact (congrArg enabled (deletedHeap_apply s.heap parent)).trans hen
    · exact .inr (.inr (.inr fun h => hroot ((hsame.isRoot mr).mp h)))
  rcases hadd with hadd | ⟨priority, hadd⟩
  · exact (hs1.add hsafe1 hadd).commit hcommit
  · exact (hs1.addOverlap hsafe1 hadd).commit hcommit

/-- A parentless region that is no root can be anywhere. -/
lemma keepsMaps_addr (hl : Linked s.heap) (hpar : (s.heap mr).parent = none)
    (hroot : ¬ s.IsRoot mr) :
    KeepsMaps s (s.heap.modify mr fun r => { r with addr := addr }) := by
  refine fun root hr => ⟨?_, fun x _ => .inr ⟨?_, fun c hc => ?_⟩⟩
  · rw [modify_ne]
    rintro rfl
    exact hroot hr
  · exact sameLook_modify (fun r => by constructor <;> rfl) x
  · rw [modify_ne]
    rintro rfl
    exact hl.not_mem hpar x hc

lemma modify_addr_self (haddr : addr = (s.heap mr).addr) :
    (s.heap.modify mr fun r => { r with addr := addr }) = s.heap := by
  rw [RegionHeap.modify, haddr]
  exact update_eq_self mr s.heap

lemma Fresh.setAddress (hs : Fresh fuel s) (hsafe : Careful s (.setAddress mr addr))
    (hup : memoryRegionSetAddress fuel s mr addr = some s') : Fresh fuel s' := by
  by_cases haddr : addr = (s.heap mr).addr
  · have : some s = some s' := by
      rw [memoryRegionSetAddress, modify_addr_self haddr] at hup
      cases hpar : (s.heap mr).parent <;> simpa [hpar, haddr] using hup
    rwa [← Option.some.inj this]
  rw [memoryRegionSetAddress] at hup
  split at hup
  next hpar =>
    cases hup
    refine hs.withHeap (hs.linked.modify (fun _ => rfl) fun _ => rfl) ?_
    rcases hsafe with hp | hsame | hroot | ⟨p, hp, _⟩
    · exact .inl hp
    · exact absurd hsame haddr
    · exact .inr (keepsMaps_addr hs.linked hpar hroot)
    · rw [hpar] at hp
      simp at hp
  next parent hpar =>
    rw [if_neg haddr] at hup
    obtain ⟨s1, hdel, hup⟩ := Option.bind_eq_some_iff.mp hup
    obtain ⟨s2, hadd, hcommit⟩ := Option.bind_eq_some_iff.mp hup
    refine hs.move addr ?_ hdel ?_ hcommit
    · rcases hsafe with hp | hsame | hroot | ⟨p, hp, hen⟩
      · exact .inl hp
      · exact absurd hsame haddr
      · exact .inr (.inr hroot)
      · cases hpar.symm.trans hp
        exact .inr (.inl hen)
    · split at hadd
      · exact .inr ⟨_, hadd⟩
      · exact .inl hadd

/-- Changing the offset of an alias that rendering does not reach. -/
lemma keepsMaps_aliasOffset (hnot : ∀ root, s.IsRoot root → ¬ Rendered s.heap root mr) :
    KeepsMaps s (s.heap.modify mr fun r => { r with aliasOffset := offset }) := by
  refine fun root hr => ⟨(modify_field addr (by intro r; rfl) root).symm,
    fun x hx => .inr ⟨?_, fun c _ => (modify_field addr (by intro r; rfl) c).symm⟩⟩
  rw [modify_ne]
  · exact MemoryRegion.SameLook.refl _
  · rintro rfl
    exact hnot root hr hx

lemma modify_aliasOffset_self (hoff : offset = (s.heap mr).aliasOffset) :
    (s.heap.modify mr fun r => { r with aliasOffset := offset }) = s.heap := by
  rw [RegionHeap.modify, hoff]
  exact update_eq_self mr s.heap

lemma Fresh.setAliasOffset (hs : Fresh fuel s) (hsafe : Careful s (.setAliasOffset mr offset))
    (hup : memoryRegionSetAliasOffset fuel s mr offset = some s') : Fresh fuel s' := by
  rw [memoryRegionSetAliasOffset] at hup
  split at hup
  next => simp at hup
  next =>
    simp only at hup
    split at hup
    next hskip =>
      cases hup
      by_cases hsame : offset = (s.heap mr).aliasOffset
      · rwa [modify_aliasOffset_self hsame]
      refine hs.withHeap (hs.linked.modify (fun _ => rfl) fun _ => rfl) ?_
      rcases hsafe with hp | hsame' | hpar | hoff | hnot
      · exact .inl hp
      · exact absurd hsame' hsame
      · exact absurd (hskip.resolve_left hsame) hpar
      · exact .inr (keepsMaps_of_disabled hoff (fun _ => rfl) fun _ => rfl)
      · exact .inr (keepsMaps_aliasOffset hnot)
    next => exact hs.modify_update hup (fun _ => rfl) (fun _ => rfl) (fun _ => rfl) fun _ => rfl

lemma Fresh.setEnabled {enabled : Bool} (hs : Fresh fuel s)
    (hup : memoryRegionSetEnabled fuel s mr enabled = some s') : Fresh fuel s' := by
  rw [memoryRegionSetEnabled] at hup
  split at hup
  next =>
    cases hup
    exact hs
  next =>
    refine hs.update ?_ (fun hask => ?_) hup
    · exact hs.linked.modify (fun _ => rfl) fun _ => rfl
    · simp [asksUpdate] at hask

/-- **One call**: a careful call keeps the maps current, or the update pending. -/
theorem Fresh.step {call : Call} (hs : Fresh fuel s) (hcareful : Careful s call)
    (hexec : call.exec fuel s = some s') : Fresh fuel s' := by
  cases call with
  | addSubregion mr offset subregion => exact hs.add hcareful hexec
  | addSubregionOverlap mr offset subregion priority => exact hs.addOverlap hcareful hexec
  | delSubregion mr subregion => exact hs.del hexec
  | setEnabled mr enabled => exact hs.setEnabled hexec
  | setAddress mr addr => exact hs.setAddress hcareful hexec
  | setAliasOffset mr offset => exact hs.setAliasOffset hcareful hexec
  | setReadonly mr readonly | romDeviceSetReadable mr readable =>
    simp only [Call.exec, memoryRegionSetReadonly, memoryRegionRomDeviceSetReadable] at hexec
    split at hexec
    next =>
      cases hexec
      exact hs
    next => exact hs.modify_update hexec (fun _ => rfl) (fun _ => rfl) (fun _ => rfl) fun _ => rfl
  | setLog mr log client =>
    exact hs.modify_update hexec (fun _ => rfl) (fun _ => rfl) (fun _ => rfl) fun _ => rfl
  | transactionBegin =>
    cases hexec
    exact hs.begin
  | transactionCommit => exact hs.commit hexec

end Step

/-! ## Whole runs -/

def CarefulRun (fuel : ℕ) : MemState → List Call → Prop
  | _, [] => True
  | s, call :: calls => Careful s call ∧ ∀ s', call.exec fuel s = some s' → CarefulRun fuel s' calls

lemma Fresh.run {calls : List Call} (hs : Fresh fuel s) (hcareful : CarefulRun fuel s calls)
    (hrun : runCalls fuel s calls = some s') : Fresh fuel s' := by
  induction calls generalizing s with
  | nil =>
    cases hrun
    exact hs
  | cons call calls ih =>
    obtain ⟨s1, hexec, hrest⟩ := Option.bind_eq_some_iff.mp hrun
    exact ih (hs.step hcareful.1 hexec) (hcareful.2 s1 hexec) hrest

/-- A state to start from: links in order, no transaction open, and both maps current. -/
structure Settled (fuel : ℕ) (s : MemState) : Prop where
  linked : Linked s.heap
  idle : s.transactionDepth = 0
  current : s.Current fuel

/-- **The maps stay current**: after any sequence of careful calls, whenever no transaction is open
both maps are the ones their roots render to. -/
theorem current_of_carefulRun (fuel : ℕ) (s s' : MemState) (calls : List Call)
    (hs : Settled fuel s) (hcareful : CarefulRun fuel s calls)
    (hrun : runCalls fuel s calls = some s') (hidle : s'.transactionDepth = 0) :
    s'.Current fuel := by
  have hfresh : Fresh fuel s := ⟨hs.linked, .inr hs.current⟩
  rcases (hfresh.run hcareful hrun).fresh with hp | hcur
  · exact absurd hidle hp.1
  · exact hcur

/-- A container with an alias (1) of an alias (2) of memory (3); the inner alias has no parent. -/
def aliasChain : MemState where
  heap
    | 0 => { memoryRegionInit (BitVec.allOnes 64) with subregions := [1] }
    | 1 => { memoryRegionInit 0x1000 with parent := some 0, aliasOf := some 2 }
    | 2 => { memoryRegionInit 0x2000 with aliasOf := some 3 }
    | 3 => { memoryRegionInit 0x4000 with terminates := true }
    | _ => memoryRegionInit 0
  memory := ⟨some 0, [⟨3, 0, ⟨0, 0x1000⟩, 0#8, true, false⟩]⟩
  io := ⟨none, []⟩
  transactionDepth := 0
  updatePending := false

lemma settled_aliasChain : Settled 4 aliasChain := by
  refine ⟨⟨fun p c hc => ?_, fun p => ?_⟩, rfl, fun root hroot => ?_, fun root hroot => ?_⟩
  · rcases p with _ | _ | _ | _ | _
    · obtain rfl := List.mem_singleton.mp hc
      rfl
    all_goals simp [aliasChain, memoryRegionInit] at hc
  · rcases p with _ | _ | _ | _ | _
    · exact List.nodup_singleton 1
    all_goals exact List.nodup_nil
  · cases hroot
    decide
  · simp [aliasChain] at hroot

/-- Switching the outer alias off inside a transaction. -/
theorem aliasChain_switched_off : ∃ s', Settled 4 aliasChain
      ∧ CarefulRun 4 aliasChain [.transactionBegin, .setEnabled 1 false, .transactionCommit]
      ∧ runCalls 4 aliasChain [.transactionBegin, .setEnabled 1 false, .transactionCommit] = some s'
      ∧ s'.transactionDepth = 0 ∧ s'.Current 4 := by
  have hcareful : CarefulRun 4 aliasChain [.transactionBegin, .setEnabled 1 false,
      .transactionCommit] :=
    ⟨trivial, fun _ _ => ⟨trivial, fun _ _ => ⟨trivial, fun _ _ => trivial⟩⟩⟩
  have hview : generateMemoryTopology
      (aliasChain.heap.modify 1 fun r => { r with enabled := false }) 4 0 = some [] := by decide
  have hevents : updateTopology 0 aliasChain.memory.currentMap [] = some
      [.regionDel ⟨3, 0, 0, 0x1000, 0, false⟩] := by
    simp [aliasChain, updateTopology, updateTopologyPass, goneEvents, FlatRange.section,
      int128Get64, int128_2_64]
  have hmap : addressSpaceUpdateTopology 4
      (aliasChain.heap.modify 1 fun r => { r with enabled := false }) aliasChain.memory
      = some ⟨some 0, []⟩ := by
    simp only [addressSpaceUpdateTopology, show aliasChain.memory.root = some 0 from rfl, hview,
      Option.bind_some, hevents, Option.map_some]
  have hrun : runCalls 4 aliasChain [.transactionBegin, .setEnabled 1 false, .transactionCommit]
      = some { aliasChain with
          heap := aliasChain.heap.modify 1 fun r => { r with enabled := false },
          memory := ⟨some 0, []⟩ } := by
    simp [runCalls, Call.exec, memoryRegionTransactionBegin, memoryRegionSetEnabled,
      memoryRegionUpdateTopology, memoryRegionTransactionCommit, asksUpdate,
      show (aliasChain.heap 1).enabled = true from rfl,
      show aliasChain.transactionDepth = 0 from rfl, hmap]
    exact ⟨rfl, rfl⟩
  exact ⟨_, settled_aliasChain, hcareful, hrun, rfl,
    current_of_carefulRun 4 aliasChain _ _ settled_aliasChain hcareful hrun rfl⟩

/-- Not every sequence of calls keeps the maps current: changing the offset of the inner alias of
`aliasChain` moves what the container shows, without an update. -/
theorem aliasChain_goes_stale :
    ¬ ∀ (fuel : ℕ) (s s' : MemState) (calls : List Call), Settled fuel s →
      runCalls fuel s calls = some s' → s'.transactionDepth = 0 → s'.Current fuel := by
  intro hall
  have hcur := hall 4 aliasChain _ [.setAliasOffset 2 0x1000] settled_aliasChain rfl rfl
  have hstale := hcur.1 0 rfl
  revert hstale
  decide

end Qemu.Memory
