import Qemu.Exec.Tlb

/-!
# Dirty tracking through the TLB

A store to a page of RAM with a cleared dirty flag must not take the fast path, so the TLB entries
for such a page carry `TLB_NOTDIRTY`.  `tlb_set_page` looks at the flags of the physical page,
`tlb_reset_dirty_range` goes by host address through the TLBs of all CPUs, and `tlb_set_dirty` goes
by virtual address through all MMU modes of one CPU.  The last one is wrong if another MMU mode maps
the virtual page to another physical page.

**Main results:**
- `TlbSlots.run`: a `CarefulCall` keeps the marks
- `fastStores_dirty`: careful runs only let stores to dirty pages take the fast path
- `aliased_store_escapes`: without care they do not
-/

namespace Qemu.Exec

open List Nat Machine Option HighBits

variable {t : CpuTarget} {ram : RamBlocks t} {n : ℕ} {s s' : Machine t n} {e : TlbEntry t}

/-! ## Host addresses of pages -/

variable {p : BitVec t.hostBits} {c : Fin n} {q : ℕ}

section Blocks

variable {b : RamBlock t} {addr addr' : ℕ}

/-- An address of RAM has a pointer into its block. -/
lemma qemuGetRamPtr_of_has (hb : b ∈ ram.blocks) (h : b.Has addr) :
    ram.qemuGetRamPtr addr = some (b.ptr addr) := by
  rw [RamBlocks.qemuGetRamPtr, map_eq_some_iff]
  cases hfind : ram.blocks.find? fun b => decide (b.Has addr) with
  | none =>
    have hnone := find?_eq_none.mp hfind b hb
    exact absurd h (by simpa using hnone)
  | some b' =>
    have hhas := find?_some hfind
    rw [decide_eq_true_eq] at hhas
    rw [ram.disjoint b' (mem_of_find?_eq_some hfind) b hb addr hhas h]
    exact ⟨b, rfl, rfl⟩

/-- Pointers are only found for addresses of RAM. -/
lemma qemuGetRamPtr_eq_some (h : ram.qemuGetRamPtr addr = some p) :
    ∃ b ∈ ram.blocks, b.Has addr ∧ p = b.ptr addr := by
  rw [RamBlocks.qemuGetRamPtr, map_eq_some_iff] at h
  obtain ⟨b, hfind, rfl⟩ := h
  have hhas := find?_some hfind
  rw [decide_eq_true_eq] at hhas
  exact ⟨b, mem_of_find?_eq_some hfind, hhas, rfl⟩

/-- A block does not wrap around in the memory of the host. -/
lemma RamBlock.toNat_ptr (hb : b ∈ ram.blocks) (h : b.Has addr) :
    (b.ptr addr).toNat = b.host.toNat + (addr - b.offset) := by
  have hfits := ram.host_fits b hb
  obtain ⟨hle, hlt⟩ := h
  rw [RamBlock.ptr, BitVec.toNat_add, BitVec.toNat_ofNat,
    mod_eq_of_lt (a := addr - b.offset) (by omega)]
  exact mod_eq_of_lt (by omega)

/-- Blocks do not overlap in the memory of the host. -/
lemma qemuGetRamPtr_inj (h : ram.qemuGetRamPtr addr = some p)
    (h' : ram.qemuGetRamPtr addr' = some p) :
    addr = addr' := by
  obtain ⟨b, hb, hhas, hp⟩ := qemuGetRamPtr_eq_some h
  obtain ⟨b', hb', hhas', hp'⟩ := qemuGetRamPtr_eq_some h'
  have heq := congrArg BitVec.toNat (hp.symm.trans hp')
  rw [RamBlock.toNat_ptr hb hhas, RamBlock.toNat_ptr hb' hhas'] at heq
  obtain ⟨hle, hlt⟩ := hhas
  obtain ⟨hle', hlt'⟩ := hhas'
  rcases ram.host_disjoint b hb b' hb' with rfl | hdisj | hdisj
  · omega
  · omega
  · omega

/-- Stores through the entry go to the page. -/
def TlbEntry.Maps (ram : RamBlocks t) (e : TlbEntry t) (page : ℕ) : Prop :=
  ram.qemuGetRamPtr (page * t.pageSize) = some e.host

/-- An entry maps one page of RAM at most. -/
lemma TlbEntry.Maps.unique {page page' : ℕ} (h : e.Maps ram page) (h' : e.Maps ram page') :
    page = page' :=
  eq_of_mul_eq_mul_right t.pageSize_pos (qemuGetRamPtr_inj h h')

/-- Only the page in `addr_write` matters for where stores go to. -/
lemma TlbEntry.Maps.congr {e' : TlbEntry t} {page : ℕ} (h : e.Maps ram page)
    (haddend : e'.addend = e.addend)
    (hwrite : e'.addrWrite &&& t.pageMask = e.addrWrite &&& t.pageMask) :
    e'.Maps ram page := by
  rw [TlbEntry.Maps, TlbEntry.host, haddend, hwrite]
  exact h

end Blocks

/-! ## What is wanted -/

/-- Stores that take the fast path go to a page of RAM, and all of its dirty flags are set. -/
def FastStoresDirty (ram : RamBlocks t) (s : Machine t n) : Prop :=
  ∀ c mmuIdx i, ((s.cpus c).tlbTable mmuIdx i).tlbIsDirtyRam = true →
    (∃ page, ((s.cpus c).tlbTable mmuIdx i).Maps ram page) ∧
      ∀ page, ((s.cpus c).tlbTable mmuIdx i).Maps ram page → s.physDirty page = 0xff

/-- All MMU modes that are about to lose the mark for a virtual page map it to the page that is
stored to, or to a dirty one.  Dirty flags are only reset in ranges of one block. -/
def CarefulCall (s : Machine t n) : TlbCall t ram n → Prop
  | .slowStore c mmuIdx vaddr _ _ => ∀ mmuIdx' ramAddr,
      ((s.cpus c).tlbTable mmuIdx' (t.tlbIndex vaddr)).addrWrite =
          vaddr &&& t.pageMask ||| tlbNotdirty t.longBits →
        (s.cpus c).iotlb mmuIdx' (t.tlbIndex vaddr) = .notdirty ramAddr →
          (s.cpus c).iotlb mmuIdx (t.tlbIndex vaddr) = .notdirty ramAddr ∨
            s.physDirty (ramAddr / t.pageSize) = 0xff
  | .resetDirty start stop _ => ∀ b ∈ ram.blocks, b.Has (start.toNat / t.pageSize * t.pageSize) →
      t.pageAlign stop.toNat ≤ b.offset + b.length
  | _ => True

/-! ## Flags of an entry -/

section Flags

variable {x v : BitVec t.longBits}

/-- The bits of an address in the TLB with which a store takes the slow path, apart from the
mark. -/
def ioMask (t : CpuTarget) : BitVec t.longBits := tlbInvalidMask t.longBits ||| tlbMmio t.longBits

/-- A store takes the fast path if the entry is for RAM and not marked. -/
lemma tlbIsDirtyRam_iff : e.tlbIsDirtyRam = true ↔
    e.addrWrite &&& ioMask t = 0 ∧ e.addrWrite &&& tlbNotdirty t.longBits = 0 := by
  rw [TlbEntry.tlbIsDirtyRam, decide_eq_true_eq, BitVec.and_or_distrib_left]
  exact BitVec.or_eq_zero_iff

lemma twoPow_ne_zero {k : ℕ} (h : k < t.longBits) : BitVec.twoPow t.longBits k ≠ 0 := by
  intro h0
  have hbit := congrArg (fun y => y.getLsbD k) h0
  simp only [BitVec.getLsbD_twoPow, getLsbD_zero_eq, h, decide_true, Bool.and_self] at hbit
  cases hbit

/-- An entry with the I/O flag does not stand for RAM. -/
lemma or_mmio_and_ioMask_ne_zero : (x ||| tlbMmio t.longBits) &&& ioMask t ≠ 0 := by
  have hflags := t.flags_lt
  have hlt := t.pageBits_lt_longBits
  intro h
  rw [ioMask, BitVec.and_or_distrib_left] at h
  obtain ⟨-, h⟩ := BitVec.or_eq_zero_iff.mp h
  rw [BitVec.and_or_distrib_right, BitVec.and_self] at h
  exact twoPow_ne_zero (show 5 < t.longBits by omega) (BitVec.or_eq_zero_iff.mp h).2

lemma neg_one_and_ioMask_ne_zero : -1 &&& ioMask t ≠ 0 := by
  have h := or_mmio_and_ioMask_ne_zero (t := t) (x := -1)
  have hor : (-1 : BitVec t.longBits) ||| tlbMmio t.longBits = -1 := by
    rw [show (-1 : BitVec t.longBits) = BitVec.allOnes _ from BitVec.neg_one_eq_allOnes,
      BitVec.allOnes_or]
  rwa [hor] at h

lemma or_notdirty_and_notdirty_ne_zero :
    (x ||| tlbNotdirty t.longBits) &&& tlbNotdirty t.longBits ≠ 0 := by
  have hflags := t.flags_lt
  have hlt := t.pageBits_lt_longBits
  intro h
  rw [BitVec.and_or_distrib_right, BitVec.and_self] at h
  exact twoPow_ne_zero (show 4 < t.longBits by omega) (BitVec.or_eq_zero_iff.mp h).2

/-- The mark is not one of the other bits. -/
lemma or_notdirty_and_ioMask : (x ||| tlbNotdirty t.longBits) &&& ioMask t = x &&& ioMask t := by
  refine or_and_of_and_eq_zero ?_
  rw [ioMask, tlbNotdirty, tlbInvalidMask, tlbMmio, BitVec.and_or_distrib_left,
    twoPow_and_twoPow (by decide), twoPow_and_twoPow (by decide), BitVec.or_self]

/-- The mark is inside of the page. -/
lemma or_notdirty_and_pageMask :
    (x ||| tlbNotdirty t.longBits) &&& t.pageMask = x &&& t.pageMask := by
  have hflags := t.flags_lt
  exact or_and_of_and_eq_zero (pageMask_and_twoPow (by omega))

lemma toNat_pageOffset_lt (addr : BitVec t.longBits) :
    (addr &&& ~~~t.pageMask).toNat < t.pageSize := by
  have hpos := Nat.two_pow_pos t.pageBits
  have hle : (BitVec.ofNat t.longBits (2 ^ t.pageBits) - 1).toNat = 2 ^ t.pageBits - 1 :=
    toNat_ofNat_two_pow_sub_one t.pageBits_lt_longBits.le
  rw [CpuTarget.pageMask, highMask, BitVec.not_not, BitVec.toNat_and, hle]
  exact lt_of_le_of_lt and_le_right (sub_lt hpos Nat.one_pos)

end Flags

/-! ## The invariant -/

/-- An entry for RAM has the page in `iotlb`, and without the mark the page is dirty. -/
def TlbSlot (ram : RamBlocks t) (physDirty : ℕ → BitVec 8) (e : TlbEntry t) (io : Iotlb) : Prop :=
  e.addrWrite &&& ioMask t = 0 → ∃ page, io = .notdirty (page * t.pageSize) ∧ e.Maps ram page ∧
    (e.addrWrite &&& tlbNotdirty t.longBits = 0 → physDirty page = 0xff)

/-- All entries of all CPUs are like this. -/
def TlbSlots (ram : RamBlocks t) (s : Machine t n) : Prop :=
  ∀ c mmuIdx i, TlbSlot ram s.physDirty ((s.cpus c).tlbTable mmuIdx i) ((s.cpus c).iotlb mmuIdx i)

/-- The invariant of the slots is what the fast path needs. -/
lemma TlbSlots.fastStoresDirty (h : TlbSlots ram s) : FastStoresDirty ram s := by
  intro c mmuIdx i hfast
  obtain ⟨hio, hmark⟩ := tlbIsDirtyRam_iff.mp hfast
  obtain ⟨page, -, hmaps, hdirty⟩ := h c mmuIdx i hio
  exact ⟨⟨page, hmaps⟩, fun page' hmaps' => hmaps.unique hmaps' ▸ hdirty hmark⟩

/-- An empty entry maps nothing. -/
lemma tlbSlot_empty (physDirty : ℕ → BitVec 8) (io : Iotlb) :
    TlbSlot ram physDirty TlbEntry.empty io :=
  fun h => absurd h neg_one_and_ioMask_ne_zero

variable {physDirty physDirty' : ℕ → BitVec 8} {io : Iotlb}

/-- Setting dirty flags does no harm to an entry. -/
lemma TlbSlot.mono (h : TlbSlot ram physDirty e io)
    (hmono : ∀ p, physDirty p = 0xff → physDirty' p = 0xff) : TlbSlot ram physDirty' e io := by
  intro hio
  obtain ⟨page, hpage, hmaps, hdirty⟩ := h hio
  exact ⟨page, hpage, hmaps, fun hmark => hmono page (hdirty hmark)⟩

/-- Neither does a flush. -/
lemma tlbFlushEntry_slot (h : TlbSlot ram physDirty e io) (addr : BitVec t.longBits) :
    TlbSlot ram physDirty (Env.tlbFlushEntry e addr) io := by
  rw [Env.tlbFlushEntry]
  split_ifs
  · exact tlbSlot_empty _ _
  · exact h

/-! ### Setting a page -/

namespace SetPage

variable {a : SetPage t ram}

lemma ptr_of_ram (hram : a.sec.ram = true) (h : a.ptr = some p) :
    ram.qemuGetRamPtr (a.sec.ramAddr + a.sec.addr a.paddr) = some p := by
  obtain ⟨b, hb, hhas, hhas', hdvd, -⟩ := a.mapped (.inl hram)
  rw [SetPage.ptr, if_pos (.inl hram), Nat.div_mul_cancel hdvd, qemuGetRamPtr_of_has hb hhas,
    map_some, Option.some.injEq] at h
  have hsum : a.sec.ramAddr + a.sec.addr a.paddr - b.offset =
      a.sec.ramAddr - b.offset + a.sec.addr a.paddr := by
    have := hhas.1
    omega
  rw [qemuGetRamPtr_of_has hb hhas', ← h, RamBlock.ptr, RamBlock.ptr, hsum, BitVec.ofNat_add,
    BitVec.add_assoc]

/-- Without the other bits, the address is that of RAM or ROM. -/
lemma address_eq (h : a.address &&& ioMask t = 0) :
    a.address = a.vaddr ∧ a.watched = false ∧ (a.sec.ram = true ∨ a.sec.romd = true) := by
  rw [address] at h ⊢
  by_cases hw : a.watched = true
  · rw [if_pos hw] at h
    exact absurd h or_mmio_and_ioMask_ne_zero
  rw [if_neg hw, codeAddress] at h ⊢
  by_cases hmem : a.sec.ram = true ∨ a.sec.romd = true
  · rw [if_pos hmem]
    exact ⟨rfl, by simpa using hw, hmem⟩
  · rw [if_neg hmem] at h
    exact absurd h or_mmio_and_ioMask_ne_zero

/-- The address for stores is marked, unless the page is all dirty. -/
lemma addrWrite_eq (h : a.addrWrite physDirty &&& ioMask t = 0) :
    a.sec.ram = true ∧ a.iotlb = .notdirty (a.sec.ramAddr + a.sec.addr a.paddr) ∧
      (a.addrWrite physDirty = a.vaddr ||| tlbNotdirty t.longBits ∨
        a.addrWrite physDirty = a.vaddr ∧
        physDirty ((a.sec.ramAddr + a.sec.addr a.paddr) / t.pageSize) = 0xff) := by
  rw [addrWrite] at h ⊢
  by_cases hwrite : a.write = true
  · rw [if_pos hwrite] at h ⊢
    by_cases hro : a.sec.ram = true ∧ a.sec.readonly = true ∨ a.sec.romd = true
    · rw [if_pos hro] at h
      exact absurd h or_mmio_and_ioMask_ne_zero
    obtain ⟨hro, hromd⟩ := not_or.mp hro
    have key : a.address &&& ioMask t = 0 := by
      split_ifs at h
      · rw [or_notdirty_and_ioMask] at h
        exact h
      · exact h
    obtain ⟨haddr, hwatch, hmem⟩ := address_eq key
    have hram : a.sec.ram = true := hmem.resolve_right hromd
    have hnro : ¬ a.sec.readonly = true := fun hr => hro ⟨hram, hr⟩
    refine ⟨hram, ?_, ?_⟩
    · rw [iotlb, if_neg (by rw [hwatch]; decide), if_pos hram, if_neg hnro]
    rw [haddr]
    split_ifs with hclean
    · exact .inl rfl
    · exact .inr ⟨rfl, not_not.mp fun hne => hclean ⟨hram, hne⟩⟩
  · rw [if_neg hwrite] at h
    exact absurd h neg_one_and_ioMask_ne_zero

/-- `tlb_set_page` makes a sound entry. -/
lemma entry_slot (hptr : a.ptr = some p) : TlbSlot ram physDirty (a.entry physDirty p) a.iotlb := by
  intro hio
  obtain ⟨hram, hiotlb, hwrite⟩ := addrWrite_eq hio
  obtain ⟨b, hb, -, hhas, hdvd, hdvd'⟩ := a.mapped (.inl hram)
  obtain ⟨page, hpage⟩ := dvd_add hdvd hdvd'
  rw [mul_comm] at hpage
  refine ⟨page, by rw [hiotlb, hpage], ?_, fun hmark => ?_⟩
  · have hv : a.addrWrite physDirty &&& t.pageMask = a.vaddr := by
      rcases hwrite with h | ⟨h, -⟩
      · rw [h, or_notdirty_and_pageMask, a.aligned]
      · rw [h, a.aligned]
    rw [TlbEntry.Maps, ← hpage, ptr_of_ram hram hptr]
    simp only [TlbEntry.host, entry]
    rw [hv, BitVec.add_comm, BitVec.sub_add_cancel]
  · rcases hwrite with h | ⟨-, h⟩
    · simp only [entry] at hmark
      rw [h] at hmark
      exact absurd hmark or_notdirty_and_notdirty_ne_zero
    · rw [hpage, Nat.mul_div_cancel _ t.pageSize_pos] at h
      exact h

end SetPage

/-! ### Dirty marks -/

/-- The mark may be removed from an entry whose page is dirty. -/
lemma tlbSetDirty1_slot (h : TlbSlot ram physDirty e io) {v : BitVec t.longBits}
    (hdirty : ∀ page, e.addrWrite = v ||| tlbNotdirty t.longBits →
      io = .notdirty (page * t.pageSize) →
      physDirty page = 0xff) : TlbSlot ram physDirty (e.tlbSetDirty1 v) io := by
  rw [TlbEntry.tlbSetDirty1]
  split_ifs with hm
  · intro hio
    have hio' : e.addrWrite &&& ioMask t = 0 := by
      rw [hm, or_notdirty_and_ioMask]
      exact hio
    obtain ⟨page, hpage, hmaps, -⟩ := h hio'
    refine ⟨page, hpage, hmaps.congr rfl ?_, fun _ => hdirty page hm hpage⟩
    rw [hm, or_notdirty_and_pageMask]
  · exact h

/-- An entry for a page in the range is marked again. -/
lemma tlbResetDirtyRange_slot (h : TlbSlot ram physDirty e io) {start1 length : BitVec t.hostBits}
    (hclear : ∀ page, e.Maps ram page → physDirty page = 0xff → e.host - start1 < length ∨
      physDirty' page = 0xff) :
    TlbSlot ram physDirty' (e.tlbResetDirtyRange start1 length) io := by
  rw [TlbEntry.tlbResetDirtyRange]
  split_ifs with hm
  · intro hio
    rw [or_notdirty_and_ioMask] at hio
    obtain ⟨page, hpage, hmaps, -⟩ := h hio
    refine ⟨page, hpage, hmaps.congr rfl or_notdirty_and_pageMask, fun hmark => ?_⟩
    exact absurd hmark or_notdirty_and_notdirty_ne_zero
  · intro hio
    obtain ⟨page, hpage, hmaps, hdirty⟩ := h hio
    refine ⟨page, hpage, hmaps, fun hmark => ?_⟩
    have hfast := tlbIsDirtyRam_iff.mpr ⟨hio, hmark⟩
    rcases hclear page hmaps (hdirty hmark) with hin | hpd
    · exact absurd ⟨hfast, hin⟩ hm
    · exact hpd

/-! ### Stores and resets -/

lemma or_eq_ff {x : BitVec 8} (y : BitVec 8) (h : x = 0xff) : x ||| y = 0xff := by
  rw [h]
  exact BitVec.allOnes_or

/-- No dirty flag is taken away. -/
lemma setDirtyFlags_mono (addr : ℕ) (dirtyFlags : BitVec 8) (p : ℕ) (h : s.physDirty p = 0xff) :
    (s.setDirtyFlags addr dirtyFlags).physDirty p = 0xff := by
  simp only [setDirtyFlags]
  split_ifs
  · exact or_eq_ff _ h
  · exact h

lemma TlbSlots.setDirtyFlags (h : TlbSlots ram s) (addr : ℕ) (dirtyFlags : BitVec 8) :
    TlbSlots ram (s.setDirtyFlags addr dirtyFlags) :=
  fun c mmuIdx i => (h c mmuIdx i).mono (setDirtyFlags_mono addr dirtyFlags)

/-- A change to the TLB of one CPU. -/
lemma TlbSlots.setCpu (h : TlbSlots ram s) {env : Env t}
    (henv : ∀ mmuIdx i, TlbSlot ram s.physDirty (env.tlbTable mmuIdx i) (env.iotlb mmuIdx i)) :
    TlbSlots ram (s.setCpu c env) := by
  intro c' mmuIdx i
  simp only [Machine.setCpu]
  split_ifs
  · exact henv mmuIdx i
  · exact h c' mmuIdx i

/-- A change to the entries of all MMU modes for one virtual page. -/
lemma TlbSlots.mapEntries (h : TlbSlots ram s) {f : TlbEntry t → TlbEntry t}
    {vaddr : BitVec t.longBits}
    (hf : ∀ mmuIdx, TlbSlot ram s.physDirty (f ((s.cpus c).tlbTable mmuIdx (t.tlbIndex vaddr)))
      ((s.cpus c).iotlb mmuIdx (t.tlbIndex vaddr))) :
    TlbSlots ram (s.setCpu c ((s.cpus c).mapEntries f vaddr)) := by
  refine h.setCpu fun mmuIdx i => ?_
  simp only [Env.mapEntries]
  split_ifs with hi
  · rw [hi]
    exact hf mmuIdx
  · exact h c mmuIdx i

/-- A store through the slow path, which takes the mark from the entries for its virtual page. -/
lemma TlbSlots.notdirtyMemWrite (h : TlbSlots ram s) {ramAddr : ℕ} {vaddr : BitVec t.longBits}
    (unprotect resume : Bool)
    (hcareful : ∀ mmuIdx page,
      ((s.cpus c).tlbTable mmuIdx (t.tlbIndex vaddr)).addrWrite =
        vaddr &&& t.pageMask ||| tlbNotdirty t.longBits →
      (s.cpus c).iotlb mmuIdx (t.tlbIndex vaddr) = .notdirty (page * t.pageSize) →
      page = ramAddr / t.pageSize ∨ s.physDirty page = 0xff) :
    TlbSlots ram (s.notdirtyMemWrite c ramAddr vaddr unprotect resume) := by
  -- The flags that the translated code is protected by may be set first.
  obtain ⟨s₁, hs₁, hcpus, hmono, heq⟩ : ∃ s₁ : Machine t n, TlbSlots ram s₁ ∧ s₁.cpus = s.cpus ∧
      (∀ p, s.physDirty p = 0xff → s₁.physDirty p = 0xff) ∧
      (if decide (s.physDirty (ramAddr / t.pageSize) &&& codeDirtyFlag = 0) = true ∧
        unprotect = true
        then s.setDirtyFlags ramAddr codeDirtyFlag else s) = s₁ := by
    split_ifs
    · exact ⟨_, h.setDirtyFlags _ _, rfl, setDirtyFlags_mono _ _, rfl⟩
    · exact ⟨s, h, rfl, fun _ hp => hp, rfl⟩
  simp only [Machine.notdirtyMemWrite]
  rw [heq]
  split_ifs with hresume hff
  · exact hs₁
  · have hs₂ := hs₁.setDirtyFlags ramAddr
      (s₁.physDirty (ramAddr / t.pageSize) ||| (0xff &&& ~~~codeDirtyFlag))
    rw [Env.tlbSetDirty]
    refine hs₂.mapEntries fun mmuIdx => ?_
    refine tlbSetDirty1_slot (hs₂ c mmuIdx _) fun page hm hio => ?_
    rw [tlbIndex_and_pageMask] at hm hio
    rcases hcareful mmuIdx page (hcpus ▸ hm) (hcpus ▸ hio) with rfl | hp
    · simp only [Machine.setDirtyFlags, if_true]
      rw [hff]
      exact BitVec.or_allOnes
    · exact setDirtyFlags_mono _ _ _ (hmono page hp)
  · exact hs₁.setDirtyFlags _ _

/-- Pages outside of the range keep their flags. -/
lemma maskDirtyPages_of_lt (dirtyFlags : BitVec 8) (k page : ℕ) (physDirty : ℕ → BitVec 8) {p : ℕ}
    (h : p < page ∨ page + k ≤ p) :
    maskDirtyPages dirtyFlags k page physDirty p = physDirty p := by
  induction k generalizing page physDirty with
  | zero => rfl
  | succ k ih =>
    rw [maskDirtyPages, ih (page + 1) _ (by omega), if_neg (by omega)]

/-! ### Ranges of pages -/

section Ranges

variable {start stop : ℕ}

/-- The address space is a whole number of pages. -/
lemma CpuTarget.pages_mul_pageSize (t : CpuTarget) :
    2 * 2 ^ (63 - t.pageBits) * t.pageSize = 2 ^ 64 := by
  rw [mul_assoc, t.half_mul_pageSize]
  rfl

lemma pageAlign_mul (h : q * t.pageSize < 2 ^ 64) :
    t.pageAlign (q * t.pageSize) = q * t.pageSize := by
  have hpos := t.pageSize_pos
  have hlt : q < 2 * 2 ^ (63 - t.pageBits) := by
    refine lt_of_mul_lt_mul_right ?_ (Nat.zero_le t.pageSize)
    rw [t.pages_mul_pageSize]
    exact h
  have hle : (q + 1) * t.pageSize ≤ 2 ^ 64 := by
    rw [← t.pages_mul_pageSize]
    exact Nat.mul_le_mul_right _ hlt
  rw [add_mul, one_mul] at hle
  have hdiv : (q * t.pageSize + t.pageSize - 1) / t.pageSize = q := by
    rw [show q * t.pageSize + t.pageSize - 1 = t.pageSize - 1 + q * t.pageSize by omega,
      add_mul_div_right _ _ hpos, div_eq_of_lt (by omega), zero_add]
  rw [Target.pageAlign, mod_eq_of_lt (by omega), hdiv]

/-- The number of pages in a range of whole pages. -/
lemma rangePages_wrapSub {p : ℕ} (hp : p * t.pageSize < 2 ^ 64) (hq : q * t.pageSize < 2 ^ 64) :
    RamList.rangePages t.toTarget (p * t.pageSize)
      (wrapSub (q * t.pageSize) (p * t.pageSize)) = q - p := by
  have hsum : (p * t.pageSize + wrapSub (q * t.pageSize) (p * t.pageSize)) % 2 ^ 64 =
      q * t.pageSize := by
    rw [wrapSub, add_mod_mod,
      show p * t.pageSize + (q * t.pageSize + 2 ^ 64 - p * t.pageSize) =
        q * t.pageSize + 2 ^ 64 by omega,
      add_mod_right, mod_eq_of_lt hq]
  rw [RamList.rangePages, hsum, pageAlign_mul hq, Nat.mul_div_cancel _ t.pageSize_pos,
    Nat.mul_div_cancel _ t.pageSize_pos]

lemma wrapSub_of_le {a b : ℕ} (h : b ≤ a) (ha : a < 2 ^ 64) : wrapSub a b = a - b := by
  rw [wrapSub, show a + 2 ^ 64 - b = a - b + 2 ^ 64 by omega, add_mod_right,
    mod_eq_of_lt (by omega)]

/-- Addresses of one block that are in the range are so at the host. -/
lemma ptr_sub_lt {b : RamBlock t} (hb : b ∈ ram.blocks) {addr : ℕ} (hstart : b.Has start)
    (hle : start ≤ addr) (hlt : addr < stop) (hstop : stop ≤ b.offset + b.length)
    (hbound : stop < 2 ^ 64) :
    b.ptr addr - b.ptr start < BitVec.ofNat t.hostBits (wrapSub stop start) := by
  have hfits := ram.host_fits b hb
  have haddr : b.Has addr := ⟨le_trans hstart.1 hle, by omega⟩
  have h1 := RamBlock.toNat_ptr hb haddr
  have h2 := RamBlock.toNat_ptr hb hstart
  have hoff := hstart.1
  rw [BitVec.lt_def, BitVec.toNat_sub_of_le (BitVec.le_def.mpr (by omega)), h1, h2,
    BitVec.toNat_ofNat, wrapSub_of_le (by omega) hbound, mod_eq_of_lt (by omega)]
  omega

end Ranges

/-- Flags are cleared and entries are marked for the same pages. -/
lemma TlbSlots.resetDirty (h : TlbSlots ram s) {start stop : BitVec 64} {dirtyFlags : BitVec 8}
    (hcareful : ∀ b ∈ ram.blocks, b.Has (start.toNat / t.pageSize * t.pageSize) →
      t.pageAlign stop.toNat ≤ b.offset + b.length)
    (hrun : s.cpuPhysicalMemoryResetDirty ram start.toNat stop.toNat dirtyFlags = some s') :
    TlbSlots ram s' := by
  obtain ⟨q, hq⟩ : ∃ q, t.pageAlign stop.toNat = q * t.pageSize := ⟨_, rfl⟩
  have hqlt : q * t.pageSize < 2 ^ 64 := by
    rw [← hq, Target.pageAlign]
    exact lt_of_le_of_lt (div_mul_le_self _ _) (mod_lt _ (by decide))
  have hplt : start.toNat / t.pageSize * t.pageSize < 2 ^ 64 :=
    lt_of_le_of_lt (div_mul_le_self _ _) start.isLt
  rw [hq] at hcareful
  generalize hp : start.toNat / t.pageSize = p at hcareful hplt
  rcases cpuPhysicalMemoryResetDirty_eq_some hp rfl hrun with rfl | ⟨start1, hstart1, rfl⟩
  · exact h
  intro c mmuIdx i
  rw [hq, rangePages_wrapSub hplt hqlt]
  refine tlbResetDirtyRange_slot (h c mmuIdx i) fun page hmaps hdirty => ?_
  obtain ⟨b, hb, hhas, rfl⟩ := qemuGetRamPtr_eq_some hstart1
  by_cases hin : p ≤ page ∧ page < q
  · left
    have hle : p * t.pageSize ≤ page * t.pageSize := Nat.mul_le_mul_right _ hin.1
    have hlt : page * t.pageSize < q * t.pageSize :=
      Nat.mul_lt_mul_of_pos_right hin.2 t.pageSize_pos
    have hstop := hcareful b hb hhas
    have hhost := qemuGetRamPtr_of_has hb
      (show b.Has (page * t.pageSize) from ⟨le_trans hhas.1 hle, by omega⟩)
    rw [TlbEntry.Maps, hhost, Option.some.injEq] at hmaps
    rw [← hmaps]
    exact ptr_sub_lt hb hhas hle hlt hstop hqlt
  · right
    show maskDirtyPages _ _ _ _ _ = _
    rw [maskDirtyPages_of_lt _ _ _ _ (by omega), hdirty]

/-! ## All runs -/

/-- Every careful call keeps the invariant. -/
lemma TlbSlots.run (h : TlbSlots ram s) (call : TlbCall t ram n) (hcareful : CarefulCall s call)
    (hrun : call.run s = some s') : TlbSlots ram s' := by
  cases call with
  | setPage c a =>
    rw [TlbCall.run, map_eq_some_iff] at hrun
    obtain ⟨env, henv, rfl⟩ := hrun
    obtain ⟨ptr, hptr, htable, hiotlb, -, -⟩ := tlbSetPage_eq_some henv
    refine h.setCpu fun mmuIdx i => ?_
    rw [htable, hiotlb, setEntry, setEntry]
    split_ifs
    · exact SetPage.entry_slot hptr
    · exact h c mmuIdx i
  | flush c =>
    cases hrun
    exact h.setCpu fun _ _ => tlbSlot_empty _ _
  | flushPage c addr =>
    rw [TlbCall.run, Env.tlbFlushPage] at hrun
    cases hrun
    split_ifs
    · exact h.setCpu fun _ _ => tlbSlot_empty _ _
    · exact h.mapEntries fun mmuIdx => tlbFlushEntry_slot (h c mmuIdx _) _
  | slowStore c mmuIdx vaddr unprotect resume =>
    rw [TlbCall.run] at hrun
    split_ifs at hrun
    split at hrun
    · rename_i ramAddr hio
      cases hrun
      refine h.notdirtyMemWrite unprotect resume fun mmuIdx' page hm hio' => ?_
      rcases hcareful mmuIdx' _ hm hio' with hsame | hdirty
      · left
        rw [hio, Iotlb.notdirty.injEq] at hsame
        rw [hsame, mul_comm, mul_add_div t.pageSize_pos,
          div_eq_of_lt (toNat_pageOffset_lt vaddr), add_zero]
      · right
        rwa [Nat.mul_div_cancel _ t.pageSize_pos] at hdirty
    · cases hrun
  | resetDirty start stop dirtyFlags => exact h.resetDirty hcareful hrun

/-- In careful runs only stores to dirty pages take the fast path. -/
theorem fastStores_dirty (s : Machine t n)
    (h : TlbReachable (fun s (call : TlbCall t ram n) => CarefulCall s call) s) :
    FastStoresDirty ram s := by
  refine TlbSlots.fastStoresDirty ?_
  induction h with
  | boot cpus physDirty => exact fun _ _ _ => tlbSlot_empty _ _
  | call call _ hcareful hrun ih => exact ih.run call hcareful hrun

/-! ## An example -/

/-- A block of two pages. -/
def twoPageRam : RamBlocks smallTarget where
  blocks := [⟨0x10000, 0, 0x2000⟩]
  aligned b hb := by
    rw [mem_singleton] at hb
    subst hb
    exact ⟨by decide, by decide⟩
  disjoint b hb b' hb' _ _ _ := by
    rw [mem_singleton] at hb hb'
    rw [hb, hb']
  host_fits b hb := by
    rw [mem_singleton] at hb
    subst hb
    decide +kernel
  host_disjoint b hb b' hb' := by
    rw [mem_singleton] at hb hb'
    exact .inl (by rw [hb, hb'])

/-- A page of RAM at one virtual address, for an MMU mode. -/
def ramPage (mmuIdx page : Fin 2) : SetPage smallTarget twoPageRam where
  vaddr := 0x00400000
  sizeBits := 12
  aligned := by decide +kernel
  pageBits_le := by decide
  sizeBits_lt := by decide
  mmuIdx := mmuIdx
  read := true
  write := true
  exec := false
  paddr := page * 0x1000
  sec := ⟨true, false, false, 0, 0, 0⟩
  watchpoints := []
  mapped _ := by
    refine ⟨⟨0x10000, 0, 0x2000⟩, mem_singleton_self _, by decide, ?_, by decide, ?_⟩
    · revert page
      decide
    · revert page
      decide

def dirtyMachine : Machine smallTarget 1 := ⟨fun _ => emptyEnv.tlbFlush, fun _ => 0xff⟩

/-- Calls one after the other, from a machine whose pages are all dirty. -/
def runCalls (calls : List (TlbCall smallTarget twoPageRam 1)) : Option (Machine smallTarget 1) :=
  calls.foldlM (fun s call => call.run s) dirtyMachine

lemma reachable_foldlM {P : Machine t n → TlbCall t ram n → Prop} (hP : ∀ s call, P s call)
    (calls : List (TlbCall t ram n)) (h : TlbReachable P s)
    (hrun : calls.foldlM (fun s call => call.run s) s = some s') : TlbReachable P s' := by
  induction calls generalizing s with
  | nil => exact Option.some.inj hrun ▸ h
  | cons call calls ih =>
    rw [foldlM_cons, bind_eq_bind, bind_eq_some_iff] at hrun
    obtain ⟨s₁, hcall, hrest⟩ := hrun
    exact ih (.call call h (hP s call) hcall) hrest

open scoped Pair

/-- Two MMU modes map one virtual page to different clean pages of RAM, and there is a store to one
of them. -/
def aliasedCalls : List (TlbCall smallTarget twoPageRam 1) :=
  [.setPage 0 (ramPage 0 0), .setPage 0 (ramPage 1 1), .resetDirty 0 0x2000 migrationDirtyFlag,
    .slowStore 0 0 0x00400000 false false]

/-- Then stores to the other page take the fast path, although it is not dirty. -/
theorem aliased_store_escapes : ¬ ∀ (t : CpuTarget) (ram : RamBlocks t) (n : ℕ) (s : Machine t n),
    TlbReachable (fun (_ : Machine t n) (_ : TlbCall t ram n) => True) s →
      FastStoresDirty ram s := by
  intro hall
  have hsome : (runCalls aliasedCalls).isSome = true := by decide +kernel
  obtain ⟨s, hs⟩ := isSome_iff_exists.mp hsome
  have hreach := reachable_foldlM (fun _ _ => trivial) aliasedCalls
    (.boot (fun _ => emptyEnv) fun _ => 0xff) hs
  have hfast : ∀ s ∈ runCalls aliasedCalls,
      ((s.cpus 0).tlbTable 1 (smallTarget.tlbIndex 0x00400000)).tlbIsDirtyRam = true := by
    decide +kernel
  have hmaps : ∀ s ∈ runCalls aliasedCalls, twoPageRam.qemuGetRamPtr (1 * smallTarget.pageSize) =
      some ((s.cpus 0).tlbTable 1 (smallTarget.tlbIndex 0x00400000)).host := by
    decide +kernel
  have hclean : ∀ s ∈ runCalls aliasedCalls, s.physDirty 1 ≠ 0xff := by
    decide +kernel
  have hdirty := (hall smallTarget twoPageRam 1 s hreach 0 1 _ (hfast s hs)).2 1 (hmaps s hs)
  exact hclean s hs hdirty

/-- A page is set and becomes clean. -/
def trackedCalls : List (TlbCall smallTarget twoPageRam 1) :=
  [.setPage 0 (ramPage 0 0), .resetDirty 0 0x1000 migrationDirtyFlag]

def trackedStore : TlbCall smallTarget twoPageRam 1 := .slowStore 0 0 0x00400000 false false

/-- After the store the page is dirty, and further stores take the fast path. -/
theorem tracked_store_dirty : ∃ s : Machine smallTarget 1,
    ((s.cpus 0).tlbTable 0 (smallTarget.tlbIndex 0x00400000)).tlbIsDirtyRam = true ∧
      FastStoresDirty twoPageRam s := by
  obtain ⟨s₃, h₃⟩ : ∃ s, (runCalls trackedCalls).bind trackedStore.run = some s :=
    isSome_iff_exists.mp (by decide +kernel)
  obtain ⟨s₂, h₂, hrun₃⟩ := bind_eq_some_iff.mp h₃
  have h₂' := h₂
  rw [runCalls, trackedCalls, foldlM_cons, bind_eq_bind, bind_eq_some_iff] at h₂'
  obtain ⟨s₁, hrun₁, hrun₂⟩ := h₂'
  simp only [foldlM_cons, foldlM_nil, bind_pure] at hrun₂
  have hfast : ∀ s ∈ (runCalls trackedCalls).bind trackedStore.run,
      ((s.cpus 0).tlbTable 0 (smallTarget.tlbIndex 0x00400000)).tlbIsDirtyRam = true := by
    decide +kernel
  have hother : ∀ s ∈ runCalls trackedCalls,
      ((s.cpus 0).tlbTable 1 (smallTarget.tlbIndex 0x00400000)).addrWrite ≠
        0x00400000 &&& smallTarget.pageMask ||| tlbNotdirty smallTarget.longBits := by
    decide +kernel
  have hblock : ∀ b ∈ twoPageRam.blocks, smallTarget.pageAlign 0x1000 ≤ b.offset + b.length := by
    decide +kernel
  refine ⟨s₃, hfast s₃ h₃, fastStores_dirty s₃ ?_⟩
  have hboot := TlbReachable.boot (P := fun s (call : TlbCall smallTarget twoPageRam 1) =>
    CarefulCall s call) (fun _ => emptyEnv) fun _ => 0xff
  have hset := TlbReachable.call (.setPage 0 (ramPage 0 0)) hboot trivial hrun₁
  refine .call trackedStore (.call _ hset ?_ hrun₂) ?_ hrun₃
  · exact fun b hb _ => hblock b hb
  intro mmuIdx ramAddr hmark hio
  match mmuIdx with
  | 0 => exact .inl hio
  | 1 => exact absurd hmark (hother s₂ h₂)

end Qemu.Exec
