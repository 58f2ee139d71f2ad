import Qemu.Lib.HighBits
import Qemu.Exec.Ram

/-!
# The softmmu TLB

`cputlb.c`.  Every CPU has a direct-mapped TLB for each of its MMU modes.  An entry stands for one
target page; large pages are only remembered as one aligned region, `tlb_flush_addr` and
`tlb_flush_mask`, and flushing an address in this region empties the TLB.

Besides the TLB, a call reads and writes the dirty flags of guest RAM, so the calls are those of a
machine of several CPUs, which share the RAM.

**Main results:**
- `tlbAddLargePage_covers`: the region covers what it covered before and the new page
- `Covered.run`: every call keeps the entries in their places and the large pages in the region
- `tlbFlushPage_translates`: after a page was flushed, nothing translates its addresses
-/

namespace Qemu.Exec

open Option BitVec HighBits

/-! ## Targets and entries -/

/-- What a target and its host fix for the TLB.  The flags of an entry lie in the page offset. -/
structure CpuTarget extends Target where
  longBits : ℕ
  hostBits : ℕ
  nbMmuModes : ℕ
  flags_lt : 6 ≤ pageBits
  pageBits_lt_longBits : pageBits < longBits

def cpuTlbSize : ℕ := 2 ^ 8

def tlbInvalidMask (w : ℕ) : BitVec w := twoPow w 3

def tlbNotdirty (w : ℕ) : BitVec w := twoPow w 4

def tlbMmio (w : ℕ) : BitVec w := twoPow w 5

namespace CpuTarget

variable (t : CpuTarget)

/-- `TARGET_PAGE_MASK`. -/
def pageMask : BitVec t.longBits := highMask t.longBits t.pageBits

/-- What is compared of an entry with the address of a page. -/
def matchMask : BitVec t.longBits := t.pageMask ||| tlbInvalidMask t.longBits

/-- `(addr >> TARGET_PAGE_BITS) & (CPU_TLB_SIZE - 1)`. -/
def tlbIndex (addr : BitVec t.longBits) : Fin cpuTlbSize :=
  ⟨(addr >>> t.pageBits).toNat % cpuTlbSize, Nat.mod_lt _ (by decide)⟩

end CpuTarget

/-- `CPUTLBEntry`. -/
structure TlbEntry (t : CpuTarget) where
  addrRead : BitVec t.longBits
  addrWrite : BitVec t.longBits
  addrCode : BitVec t.longBits
  addend : BitVec t.hostBits

/-- What `iotlb` holds, with the section number in its low bits taken apart. -/
inductive Iotlb
  | notdirty (ramAddr : ℕ)
  | rom (ramAddr : ℕ)
  | io (addr : ℕ)
  | watch (paddr : ℕ)
deriving DecidableEq

/-- A virtual page: the address of a target page, and the size of the page around it. -/
structure Page (t : CpuTarget) where
  vaddr : BitVec t.longBits
  sizeBits : ℕ
  aligned : vaddr &&& t.pageMask = vaddr
  pageBits_le : t.pageBits ≤ sizeBits
  sizeBits_lt : sizeBits < t.longBits

namespace Page

variable {t : CpuTarget} (p : Page t)

/-- The `size` argument. -/
def size : BitVec t.longBits := BitVec.ofNat t.longBits (2 ^ p.sizeBits)

def Contains (addr : BitVec t.longBits) : Prop :=
  addr &&& ~~~(p.size - 1) = p.vaddr &&& ~~~(p.size - 1)

instance (addr : BitVec t.longBits) : Decidable (p.Contains addr) :=
  inferInstanceAs (Decidable (_ = _))

lemma contains_iff {addr : BitVec t.longBits} :
    p.Contains addr ↔ SameBlock p.sizeBits addr p.vaddr :=
  Iff.rfl

end Page

/-- The TLB of a CPU.  The last field records the pages that were set since it was emptied. -/
structure Env (t : CpuTarget) where
  tlbTable : Fin t.nbMmuModes → Fin cpuTlbSize → TlbEntry t
  iotlb : Fin t.nbMmuModes → Fin cpuTlbSize → Iotlb
  tlbFlushAddr : BitVec t.longBits
  tlbFlushMask : BitVec t.longBits
  installed : List (Page t)

variable {t : CpuTarget}

namespace TlbEntry

variable (e : TlbEntry t)

/-- `s_cputlb_empty_entry`. -/
def empty : TlbEntry t := ⟨-1, -1, -1, -1⟩

/-- One of the fields of the entry stands for the page of the address. -/
def Translates (addr : BitVec t.longBits) : Prop :=
  addr &&& t.pageMask = e.addrRead &&& t.matchMask ∨
    addr &&& t.pageMask = e.addrWrite &&& t.matchMask ∨
    addr &&& t.pageMask = e.addrCode &&& t.matchMask

instance (addr : BitVec t.longBits) : Decidable (e.Translates addr) :=
  inferInstanceAs (Decidable (_ ∨ _ ∨ _))

/-- `tlb_is_dirty_ram`: stores through the entry take the fast path. -/
def tlbIsDirtyRam : Bool :=
  decide (e.addrWrite &&& (tlbInvalidMask t.longBits ||| tlbMmio t.longBits |||
    tlbNotdirty t.longBits) = 0)

def host : BitVec t.hostBits := (e.addrWrite &&& t.pageMask).setWidth t.hostBits + e.addend

end TlbEntry

/-! ## Flushing -/

namespace Env

variable (env : Env t)

/-- `tlb_flush`. -/
def tlbFlush : Env t :=
  { env with
    tlbTable := fun _ _ => TlbEntry.empty
    tlbFlushAddr := -1
    tlbFlushMask := 0
    installed := [] }

/-- `tlb_flush_entry`. -/
def tlbFlushEntry (e : TlbEntry t) (addr : BitVec t.longBits) : TlbEntry t :=
  if addr = e.addrRead &&& t.matchMask ∨ addr = e.addrWrite &&& t.matchMask ∨
      addr = e.addrCode &&& t.matchMask then TlbEntry.empty
  else e

/-- `f` on the entries for an address, one for each MMU mode. -/
def mapEntries (f : TlbEntry t → TlbEntry t) (addr : BitVec t.longBits) : Env t :=
  { env with
    tlbTable := fun mmuIdx i =>
      if i = t.tlbIndex addr then f (env.tlbTable mmuIdx i) else env.tlbTable mmuIdx i }

/-- `tlb_flush_page`. -/
def tlbFlushPage (addr : BitVec t.longBits) : Env t :=
  if addr &&& env.tlbFlushMask = env.tlbFlushAddr then env.tlbFlush
  else
    let addr' := addr &&& t.pageMask
    env.mapEntries (fun e => tlbFlushEntry e addr') addr'

/-! ## Setting a page -/

/-- `tlb_add_large_page`. -/
def tlbAddLargePage (p : Page t) : Env t :=
  let mask := ~~~(p.size - 1)
  if env.tlbFlushAddr = -1 then
    { env with tlbFlushAddr := p.vaddr &&& mask, tlbFlushMask := mask }
  else
    let mask := widen (env.tlbFlushAddr ^^^ p.vaddr) t.longBits (mask &&& env.tlbFlushMask)
    { env with tlbFlushAddr := env.tlbFlushAddr &&& mask, tlbFlushMask := mask }

end Env

/-- A block of guest RAM. -/
structure RamBlock (t : CpuTarget) where
  host : BitVec t.hostBits
  offset : ℕ
  length : ℕ

namespace RamBlock

variable (b : RamBlock t)

/-- `addr - block->offset < block->length`. -/
def Has (addr : ℕ) : Prop := b.offset ≤ addr ∧ addr < b.offset + b.length

instance (addr : ℕ) : Decidable (b.Has addr) := inferInstanceAs (Decidable (_ ∧ _))

def ptr (addr : ℕ) : BitVec t.hostBits := b.host + BitVec.ofNat t.hostBits (addr - b.offset)

end RamBlock

/-- `ram_list.blocks`: whole pages, which share neither addresses nor host memory. -/
structure RamBlocks (t : CpuTarget) where
  blocks : List (RamBlock t)
  aligned : ∀ b ∈ blocks, t.pageSize ∣ b.offset ∧ t.pageSize ∣ b.length
  disjoint : ∀ b ∈ blocks, ∀ b' ∈ blocks, ∀ addr, b.Has addr → b'.Has addr → b = b'
  host_fits : ∀ b ∈ blocks, b.host.toNat + b.length < 2 ^ t.hostBits
  host_disjoint : ∀ b ∈ blocks, ∀ b' ∈ blocks, b = b' ∨
    b.host.toNat + b.length ≤ b'.host.toNat ∨ b'.host.toNat + b'.length ≤ b.host.toNat

/-- `qemu_get_ram_ptr`, which aborts outside of all blocks. -/
def RamBlocks.qemuGetRamPtr (ram : RamBlocks t) (addr : ℕ) : Option (BitVec t.hostBits) :=
  (ram.blocks.find? fun b => decide (b.Has addr)).map fun b => b.ptr addr

/-- What `tlb_set_page` reads of a `MemoryRegionSection` and its region. -/
structure MemSection where
  ram : Bool
  romd : Bool
  readonly : Bool
  ramAddr : ℕ
  offsetWithinAddressSpace : ℕ
  offsetWithinRegion : ℕ

/-- `memory_region_section_addr`. -/
def MemSection.addr (s : MemSection) (paddr : ℕ) : ℕ :=
  paddr - s.offsetWithinAddressSpace + s.offsetWithinRegion

/-- A watchpoint, and whether it has `BP_MEM_READ` among its flags. -/
structure Watchpoint (t : CpuTarget) where
  vaddr : BitVec t.longBits
  memRead : Bool

/-- The arguments of `tlb_set_page`, with the section that `phys_page_find` finds and the
watchpoints of the CPU. -/
structure SetPage (t : CpuTarget) (ram : RamBlocks t) extends Page t where
  mmuIdx : Fin t.nbMmuModes
  read : Bool
  write : Bool
  exec : Bool
  paddr : ℕ
  sec : MemSection
  watchpoints : List (Watchpoint t)
  mapped : sec.ram = true ∨ sec.romd = true → ∃ b ∈ ram.blocks, b.Has sec.ramAddr ∧
    b.Has (sec.ramAddr + sec.addr paddr) ∧ t.pageSize ∣ sec.ramAddr ∧ t.pageSize ∣ sec.addr paddr

namespace SetPage

variable {ram : RamBlocks t} (a : SetPage t ram)

/-- A watchpoint of `memory_region_section_get_iotlb` asks for the access to be trapped. -/
def watched : Bool :=
  a.watchpoints.any fun wp => decide (a.vaddr = wp.vaddr &&& t.pageMask) && (a.write || wp.memRead)

/-- `code_address`: memory that is neither RAM nor a readable ROM device is I/O. -/
def codeAddress : BitVec t.longBits :=
  if a.sec.ram = true ∨ a.sec.romd = true then a.vaddr else a.vaddr ||| tlbMmio t.longBits

/-- `address`, after `memory_region_section_get_iotlb` has changed it. -/
def address : BitVec t.longBits :=
  if a.watched = true then a.codeAddress ||| tlbMmio t.longBits else a.codeAddress

/-- `memory_region_section_get_iotlb`. -/
def iotlb : Iotlb :=
  if a.watched = true then .watch a.paddr
  else if a.sec.ram = true then
    if a.sec.readonly = true then .rom (a.sec.ramAddr + a.sec.addr a.paddr)
    else .notdirty (a.sec.ramAddr + a.sec.addr a.paddr)
  else .io (a.sec.addr a.paddr)

def ptr : Option (BitVec t.hostBits) :=
  if a.sec.ram = true ∨ a.sec.romd = true then
    (ram.qemuGetRamPtr (a.sec.ramAddr / t.pageSize * t.pageSize)).map fun p =>
      p + BitVec.ofNat t.hostBits (a.sec.addr a.paddr)
  else some 0

/-- The new `addr_write`.  `physDirty` are the dirty flags of the pages of guest RAM. -/
def addrWrite (physDirty : ℕ → BitVec 8) : BitVec t.longBits :=
  if a.write = true then
    if a.sec.ram = true ∧ a.sec.readonly = true ∨ a.sec.romd = true then
      a.address ||| tlbMmio t.longBits
    else if a.sec.ram = true ∧ physDirty ((a.sec.ramAddr + a.sec.addr a.paddr) / t.pageSize) ≠
      0xff then
      a.address ||| tlbNotdirty t.longBits
    else a.address
  else -1

def entry (physDirty : ℕ → BitVec 8) (ptr : BitVec t.hostBits) : TlbEntry t where
  addrRead := if a.read = true then a.address else -1
  addrWrite := a.addrWrite physDirty
  addrCode := if a.exec = true then a.codeAddress else -1
  addend := ptr - a.vaddr.setWidth t.hostBits

end SetPage

def setEntry {α : Type} {n m : ℕ} (table : Fin n → Fin m → α) (i : Fin n) (j : Fin m) (x : α) :
    Fin n → Fin m → α :=
  fun i' j' => if i' = i ∧ j' = j then x else table i' j'

/-- `tlb_set_page`. -/
def Env.tlbSetPage {ram : RamBlocks t} (env : Env t) (physDirty : ℕ → BitVec 8)
    (a : SetPage t ram) :
    Option (Env t) :=
  let env := if a.size = BitVec.ofNat t.longBits t.pageSize then env
    else env.tlbAddLargePage a.toPage
  let index := t.tlbIndex a.vaddr
  a.ptr.map fun ptr =>
    { env with
      tlbTable := setEntry env.tlbTable a.mmuIdx index (a.entry physDirty ptr)
      iotlb := setEntry env.iotlb a.mmuIdx index a.iotlb
      installed := a.toPage :: env.installed }

/-! ## Dirty marks -/

/-- `tlb_reset_dirty_range`. -/
def TlbEntry.tlbResetDirtyRange (e : TlbEntry t) (start length : BitVec t.hostBits) : TlbEntry t :=
  if e.tlbIsDirtyRam = true ∧ e.host - start < length then
    { e with addrWrite := e.addrWrite ||| tlbNotdirty t.longBits }
  else e

/-- `tlb_set_dirty1`. -/
def TlbEntry.tlbSetDirty1 (e : TlbEntry t) (vaddr : BitVec t.longBits) : TlbEntry t :=
  if e.addrWrite = vaddr ||| tlbNotdirty t.longBits then { e with addrWrite := vaddr } else e

/-- `tlb_set_dirty`. -/
def Env.tlbSetDirty (env : Env t) (vaddr : BitVec t.longBits) : Env t :=
  let vaddr' := vaddr &&& t.pageMask
  env.mapEntries (fun e => e.tlbSetDirty1 vaddr') vaddr'

/-- The CPUs, and the dirty flags of the pages of guest RAM. -/
structure Machine (t : CpuTarget) (n : ℕ) where
  cpus : Fin n → Env t
  physDirty : ℕ → BitVec 8

namespace Machine

variable {n : ℕ} (s : Machine t n)

def setCpu (c : Fin n) (env : Env t) : Machine t n :=
  { s with cpus := fun c' => if c' = c then env else s.cpus c' }

/-- `cpu_tlb_reset_dirty_all`. -/
def cpuTlbResetDirtyAll (start1 length : BitVec t.hostBits) : Machine t n :=
  { s with
    cpus := fun c =>
      { s.cpus c with
        tlbTable := fun mmuIdx i =>
          ((s.cpus c).tlbTable mmuIdx i).tlbResetDirtyRange start1 length } }

/-- `cpu_physical_memory_set_dirty_flags`, without the counter of pages for migration. -/
def setDirtyFlags (addr : ℕ) (dirtyFlags : BitVec 8) : Machine t n :=
  { s with
    physDirty := fun p =>
      if p = addr / t.pageSize then s.physDirty p ||| dirtyFlags else s.physDirty p }

/-- `cpu_physical_memory_mask_dirty_range`, for `k` pages and without the counter of pages for
migration. -/
def maskDirtyPages (dirtyFlags : BitVec 8) : ℕ → ℕ → (ℕ → BitVec 8) → ℕ → BitVec 8
  | 0, _, physDirty => physDirty
  | k + 1, page, physDirty => maskDirtyPages dirtyFlags k (page + 1) fun p =>
    if p = page then physDirty p &&& ~~~dirtyFlags else physDirty p

/-- Subtraction of addresses, which wraps around. -/
def wrapSub (a b : ℕ) : ℕ := (a + 2 ^ 64 - b) % 2 ^ 64

/-- `tlb_reset_dirty_range_all`, which aborts if the range spans several blocks. -/
def tlbResetDirtyRangeAll (ram : RamBlocks t) (start last length : ℕ) : Option (Machine t n) := do
  let start1 ← ram.qemuGetRamPtr start
  let last1 ← ram.qemuGetRamPtr last
  if last1 - start1 = BitVec.ofNat t.hostBits last - BitVec.ofNat t.hostBits start then
    some (s.cpuTlbResetDirtyAll start1 (BitVec.ofNat t.hostBits length))
  else none

/-- `cpu_physical_memory_reset_dirty`. -/
def cpuPhysicalMemoryResetDirty (ram : RamBlocks t) (start stop : ℕ) (dirtyFlags : BitVec 8) :
    Option (Machine t n) :=
  let start := start / t.pageSize * t.pageSize
  let stop := t.pageAlign stop
  let length := wrapSub stop start
  if length = 0 then some s
  else
    let pages := RamList.rangePages t.toTarget start length
    let s := { s with
      physDirty := maskDirtyPages dirtyFlags pages (start / t.pageSize) s.physDirty }
    s.tlbResetDirtyRangeAll ram start (wrapSub stop 1) length

/-- `notdirty_mem_write` on CPU `c`.  `tb_invalidate_phys_page_fast` may remove the last block of
the page (`unprotect`), and does not return if it removes the running block (`resume`). -/
def notdirtyMemWrite (c : Fin n) (ramAddr : ℕ) (memIoVaddr : BitVec t.longBits)
    (unprotect resume : Bool) : Machine t n :=
  let code := decide (s.physDirty (ramAddr / t.pageSize) &&& codeDirtyFlag = 0)
  let s := if code = true ∧ unprotect = true then s.setDirtyFlags ramAddr codeDirtyFlag else s
  if code = true ∧ resume = true then s
  else
    let dirtyFlags := s.physDirty (ramAddr / t.pageSize) ||| (0xff &&& ~~~codeDirtyFlag)
    let s := s.setDirtyFlags ramAddr dirtyFlags
    if dirtyFlags = 0xff then s.setCpu c ((s.cpus c).tlbSetDirty memIoVaddr) else s

end Machine

/-! ## Calls -/

/-- The calls of a machine.  A store of the slow path goes through an entry of some MMU mode. -/
inductive TlbCall (t : CpuTarget) (ram : RamBlocks t) (n : ℕ)
  | setPage (c : Fin n) (a : SetPage t ram)
  | flush (c : Fin n)
  | flushPage (c : Fin n) (addr : BitVec t.longBits)
  | slowStore (c : Fin n) (mmuIdx : Fin t.nbMmuModes) (vaddr : BitVec t.longBits)
      (unprotect resume : Bool)
  | resetDirty (start stop : BitVec 64) (dirtyFlags : BitVec 8)

/-- What a call does: none if it aborts, or if there is no such store. -/
def TlbCall.run {ram : RamBlocks t} {n : ℕ} (s : Machine t n) :
    TlbCall t ram n → Option (Machine t n)
  | .setPage c a => ((s.cpus c).tlbSetPage s.physDirty a).map (s.setCpu c)
  | .flush c => some (s.setCpu c (s.cpus c).tlbFlush)
  | .flushPage c addr => some (s.setCpu c ((s.cpus c).tlbFlushPage addr))
  | .slowStore c mmuIdx vaddr unprotect resume =>
    if vaddr &&& t.pageMask = ((s.cpus c).tlbTable mmuIdx (t.tlbIndex vaddr)).addrWrite &&&
      t.matchMask then
      match (s.cpus c).iotlb mmuIdx (t.tlbIndex vaddr) with
      | .notdirty ramAddr =>
        some (s.notdirtyMemWrite c (ramAddr + (vaddr &&& ~~~t.pageMask).toNat) vaddr
          unprotect resume)
      | _ => none
    else none
  | .resetDirty start stop dirtyFlags =>
    s.cpuPhysicalMemoryResetDirty ram start.toNat stop.toNat dirtyFlags

/-- The machines that calls under the condition `P` lead to, from empty TLBs on. -/
inductive TlbReachable {ram : RamBlocks t} {n : ℕ} (P : Machine t n → TlbCall t ram n → Prop) :
    Machine t n → Prop
  | boot (cpus : Fin n → Env t) (physDirty : ℕ → BitVec 8) :
      TlbReachable P ⟨fun c => (cpus c).tlbFlush, physDirty⟩
  | call {s s' : Machine t n} (call : TlbCall t ram n) :
      TlbReachable P s → P s call → call.run s = some s' → TlbReachable P s'

/-! ## Matching -/

variable {k : ℕ}

section Matching

variable {addr v x : BitVec t.longBits}

lemma getLsbD_zero_eq (w i : ℕ) : (0 : BitVec w).getLsbD i = false := getLsbD_zero

lemma neg_one_and {w : ℕ} (m : BitVec w) : -1 &&& m = m := by
  rw [show (-1 : BitVec w) = allOnes w from neg_one_eq_allOnes, allOnes_and]

lemma pageMask_and_twoPow (hk : k < t.pageBits) : twoPow t.longBits k &&& t.pageMask = 0 := by
  have hlt := t.pageBits_lt_longBits
  refine eq_of_getLsbD_eq fun i hi => ?_
  rw [getLsbD_and, getLsbD_twoPow, CpuTarget.pageMask, getLsbD_highMask hlt.le hi, getLsbD_zero_eq]
  simp only [Bool.and_eq_false_iff, decide_eq_false_iff_not]
  omega

lemma twoPow_and_twoPow {j : ℕ} (h : j ≠ k) : twoPow t.longBits j &&& twoPow t.longBits k = 0 := by
  refine eq_of_getLsbD_eq fun i _ => ?_
  rw [getLsbD_and, getLsbD_twoPow, getLsbD_twoPow, getLsbD_zero_eq]
  simp only [Bool.and_eq_false_iff, decide_eq_false_iff_not]
  omega

lemma twoPow_and_matchMask (hk : k < t.pageBits) (h3 : k ≠ 3) :
    twoPow t.longBits k &&& t.matchMask = 0 := by
  rw [CpuTarget.matchMask, and_or_distrib_left, pageMask_and_twoPow hk, tlbInvalidMask,
    twoPow_and_twoPow h3, BitVec.or_self]

/-- A flag that is not in a mask does not matter under it. -/
lemma or_and_of_and_eq_zero {w : ℕ} {x flag mask : BitVec w} (h : flag &&& mask = 0) :
    (x ||| flag) &&& mask = x &&& mask := by
  rw [and_or_distrib_right, h]
  exact or_zero

/-- The I/O flag does not matter for the comparison. -/
@[simp] lemma or_mmio_and_matchMask :
    (x ||| tlbMmio t.longBits) &&& t.matchMask = x &&& t.matchMask := by
  have h := t.flags_lt
  exact or_and_of_and_eq_zero (twoPow_and_matchMask (by omega) (by omega))

/-- The dirty mark does not matter for the comparison. -/
@[simp] lemma or_notdirty_and_matchMask :
    (x ||| tlbNotdirty t.longBits) &&& t.matchMask = x &&& t.matchMask := by
  have h := t.flags_lt
  exact or_and_of_and_eq_zero (twoPow_and_matchMask (by omega) (by omega))

lemma and_matchMask_of_aligned (h : v &&& t.pageMask = v) : v &&& t.matchMask = v := by
  have hflags := t.flags_lt
  have hinv : v &&& tlbInvalidMask t.longBits = 0 := by
    rw [← h, BitVec.and_assoc, BitVec.and_comm t.pageMask, tlbInvalidMask,
      pageMask_and_twoPow (by omega)]
    exact and_zero
  rw [CpuTarget.matchMask, and_or_distrib_left, h, hinv]
  exact or_zero

lemma getLsbD_and_pageMask {i : ℕ} (hi : i < t.pageBits) :
    (addr &&& t.pageMask).getLsbD i = false := by
  have hlt := t.pageBits_lt_longBits
  rw [getLsbD_and, CpuTarget.pageMask, getLsbD_highMask hlt.le (hi.trans hlt)]
  simp only [Bool.and_eq_false_iff, decide_eq_false_iff_not]
  omega

lemma ne_neg_one_and_matchMask : addr &&& t.pageMask ≠ -1 &&& t.matchMask := by
  have hflags := t.flags_lt
  have hlt := t.pageBits_lt_longBits
  intro h
  have hbit := congrArg (fun y => y.getLsbD 3) h
  simp only [getLsbD_and_pageMask (show 3 < t.pageBits by omega)] at hbit
  rw [neg_one_and, CpuTarget.matchMask, getLsbD_or, tlbInvalidMask,
    getLsbD_twoPow, decide_eq_true (show 3 < t.longBits by omega)] at hbit
  simp at hbit

lemma and_pageMask_and_pageMask : addr &&& t.pageMask &&& t.pageMask = addr &&& t.pageMask := by
  rw [BitVec.and_assoc, BitVec.and_self]

lemma tlbIndex_eq (h : addr &&& t.pageMask = v &&& t.pageMask) :
    t.tlbIndex addr = t.tlbIndex v := by
  have hshift : addr >>> t.pageBits = v >>> t.pageBits :=
    SameBlock.ushiftRight_eq t.pageBits_lt_longBits.le h
  rw [CpuTarget.tlbIndex, CpuTarget.tlbIndex, Fin.mk.injEq, hshift]

lemma tlbIndex_and_pageMask : t.tlbIndex (addr &&& t.pageMask) = t.tlbIndex addr :=
  tlbIndex_eq and_pageMask_and_pageMask

lemma not_translates_empty : ¬ (TlbEntry.empty : TlbEntry t).Translates addr := by
  rintro (h | h | h) <;> exact ne_neg_one_and_matchMask h

end Matching

/-! ## One CPU -/

section OneCpu

variable {env : Env t} {ram : RamBlocks t}

def Page.Small (p : Page t) : Prop := p.sizeBits = t.pageBits

/-- The region that is flushed as a whole covers the large pages; it is empty if there are none. -/
def CoversLarge (env : Env t) : Prop :=
  env.tlbFlushAddr = -1 ∧ env.tlbFlushMask = 0 ∧ (∀ p ∈ env.installed, p.Small) ∨
    ∃ k, t.pageBits ≤ k ∧ k ≤ t.longBits ∧ env.tlbFlushMask = highMask t.longBits k ∧
      env.tlbFlushAddr &&& highMask t.longBits k = env.tlbFlushAddr ∧
      ∀ p ∈ env.installed, p.Small ∨ p.sizeBits ≤ k ∧
      p.vaddr &&& highMask t.longBits k = env.tlbFlushAddr

/-- Entries are where the addresses that they translate are looked up, and large pages in the region
that is flushed as a whole. -/
structure Covered (env : Env t) : Prop where
  placed : ∀ mmuIdx i addr, (env.tlbTable mmuIdx i).Translates addr → t.tlbIndex addr = i
  large : CoversLarge env

lemma covered_tlbFlush : Covered env.tlbFlush where
  placed _ _ _ h := absurd h not_translates_empty
  large := .inl ⟨rfl, rfl, fun _ hp => absurd hp List.not_mem_nil⟩

variable {env' : Env t} {e : TlbEntry t} {physDirty : ℕ → BitVec 8}

lemma Covered.of_translates (h : Covered env)
    (hsub : ∀ mmuIdx i addr, (env'.tlbTable mmuIdx i).Translates addr →
      (env.tlbTable mmuIdx i).Translates addr)
    (hlarge : CoversLarge env → CoversLarge env') : Covered env' where
  placed mmuIdx i addr htr := h.placed mmuIdx i addr (hsub mmuIdx i addr htr)
  large := hlarge h.large

lemma Covered.mapEntries (h : Covered env) {f : TlbEntry t → TlbEntry t}
    (hf : ∀ e addr, (f e).Translates addr → e.Translates addr) (vaddr : BitVec t.longBits) :
    Covered (env.mapEntries f vaddr) := by
  refine h.of_translates (fun mmuIdx i addr htr => ?_) fun hl => hl
  simp only [Env.mapEntries] at htr
  split_ifs at htr with hi
  · exact hf _ _ htr
  · exact htr

lemma tlbFlushEntry_translates {v addr : BitVec t.longBits}
    (h : (Env.tlbFlushEntry e v).Translates addr) :
    e.Translates addr := by
  rw [Env.tlbFlushEntry] at h
  split_ifs at h with hm
  · exact absurd h not_translates_empty
  · exact h

lemma Covered.tlbFlushPage (h : Covered env) (addr : BitVec t.longBits) :
    Covered (env.tlbFlushPage addr) := by
  rw [Env.tlbFlushPage]
  split_ifs
  · exact covered_tlbFlush
  · exact h.mapEntries (fun e a => tlbFlushEntry_translates) _

/-- Only the part of `addr_write` that is compared matters. -/
lemma translates_of_addrWrite {w addr : BitVec t.longBits}
    (hw : w &&& t.matchMask = e.addrWrite &&& t.matchMask)
    (h : ({ e with addrWrite := w } : TlbEntry t).Translates addr) : e.Translates addr := by
  simpa only [TlbEntry.Translates, hw] using h

lemma tlbSetDirty1_translates {v addr : BitVec t.longBits}
    (h : (e.tlbSetDirty1 v).Translates addr) :
    e.Translates addr := by
  rw [TlbEntry.tlbSetDirty1] at h
  split_ifs at h with hm
  · exact translates_of_addrWrite (by rw [hm, or_notdirty_and_matchMask]) h
  · exact h

lemma Covered.tlbSetDirty (h : Covered env) (vaddr : BitVec t.longBits) :
    Covered (env.tlbSetDirty vaddr) :=
  h.mapEntries (fun _ _ => tlbSetDirty1_translates) _

lemma tlbResetDirtyRange_translates {start length : BitVec t.hostBits} {addr : BitVec t.longBits}
    (h : (e.tlbResetDirtyRange start length).Translates addr) : e.Translates addr := by
  rw [TlbEntry.tlbResetDirtyRange] at h
  split_ifs at h with hm
  · exact translates_of_addrWrite or_notdirty_and_matchMask h
  · exact h

/-- The region is not the empty one if it comes from a large page. -/
lemma ne_neg_one_of_and_highMask {a : BitVec t.longBits} (hk : t.pageBits ≤ k)
    (hk' : k ≤ t.longBits) (h : a &&& highMask t.longBits k = a) : a ≠ -1 := by
  have hflags := t.flags_lt
  rintro rfl
  rw [neg_one_and] at h
  have hbit := congrArg (fun y => y.getLsbD 0) h
  rw [getLsbD_highMask hk' (by omega), decide_eq_false (by omega),
    show (-1 : BitVec t.longBits) = allOnes _ from neg_one_eq_allOnes,
    getLsbD_allOnes, decide_eq_true (by omega)] at hbit
  cases hbit

/-- The region covers what it covered before and the new page. -/
lemma tlbAddLargePage_covers (h : CoversLarge env) (p : Page t) :
    CoversLarge { env.tlbAddLargePage p with installed := p :: env.installed } := by
  have hp := p.sizeBits_lt
  right
  rw [Env.tlbAddLargePage]
  rcases h with ⟨haddr, hmask, hsmall⟩ | ⟨k, hpk, hk, hmask, haddr, hcov⟩
  · rw [if_pos haddr]
    refine ⟨p.sizeBits, p.pageBits_le, hp.le, rfl, and_highMask_and le_rfl hp.le p.vaddr, ?_⟩
    exact List.forall_mem_cons.mpr ⟨.inr ⟨le_rfl, rfl⟩, fun q hq => .inl (hsmall q hq)⟩
  rw [if_neg (ne_neg_one_of_and_highMask hpk hk haddr)]
  have hand : ~~~(p.size - 1) &&& env.tlbFlushMask = highMask t.longBits (max p.sizeBits k) := by
    rw [hmask]
    exact highMask_and hp.le hk
  obtain ⟨l, hkl, hl, hw, hx⟩ := widen_spec (env.tlbFlushAddr ^^^ p.vaddr) (n := t.longBits)
    (max_le hp.le hk) (by omega)
  rw [hand, hw]
  rw [xor_and_eq_zero_iff] at hx
  have hpl : p.sizeBits ≤ l := le_trans (le_max_left _ _) hkl
  have hkl : k ≤ l := le_trans (le_max_right _ _) hkl
  refine ⟨l, by omega, hl, rfl, and_highMask_and le_rfl hl _, ?_⟩
  refine List.forall_mem_cons.mpr ⟨.inr ⟨hpl, hx.symm⟩, fun q hq => ?_⟩
  rcases hcov q hq with hsmall | ⟨hqk, hq⟩
  · exact .inl hsmall
  · refine .inr ⟨hqk.trans hkl, ?_⟩
    show _ = env.tlbFlushAddr &&& _
    rw [← hq, and_highMask_and hkl hl]

lemma CoversLarge.cons_small (h : CoversLarge env) {p : Page t} (hp : p.Small) :
    CoversLarge { env with installed := p :: env.installed } := by
  rcases h with ⟨haddr, hmask, hsmall⟩ | ⟨k, hpk, hk, hmask, haddr, hcov⟩
  · exact .inl ⟨haddr, hmask, List.forall_mem_cons.mpr ⟨hp, hsmall⟩⟩
  · exact .inr ⟨k, hpk, hk, hmask, haddr, List.forall_mem_cons.mpr ⟨.inl hp, hcov⟩⟩

lemma Page.small_of_size_eq {p : Page t} (h : p.size = BitVec.ofNat t.longBits t.pageSize) :
    p.Small := by
  have hp := p.sizeBits_lt
  have hlt := t.pageBits_lt_longBits
  have h' := congrArg BitVec.toNat h
  rw [Page.size, Target.pageSize, toNat_ofNat, toNat_ofNat,
    Nat.mod_eq_of_lt (Nat.pow_lt_pow_right (by omega) hp),
    Nat.mod_eq_of_lt (Nat.pow_lt_pow_right (by omega) hlt)] at h'
  exact Nat.pow_right_injective le_rfl h'

namespace SetPage

variable (a : SetPage t ram)

lemma codeAddress_and_matchMask : a.codeAddress &&& t.matchMask = a.vaddr := by
  rw [codeAddress]
  split_ifs
  · exact and_matchMask_of_aligned a.aligned
  · rw [or_mmio_and_matchMask]
    exact and_matchMask_of_aligned a.aligned

lemma address_and_matchMask : a.address &&& t.matchMask = a.vaddr := by
  rw [address]
  split_ifs
  · rw [or_mmio_and_matchMask, codeAddress_and_matchMask]
  · exact a.codeAddress_and_matchMask

lemma entry_translates {ptr : BitVec t.hostBits} {addr : BitVec t.longBits}
    (h : (a.entry physDirty ptr).Translates addr) : addr &&& t.pageMask = a.vaddr := by
  rcases h with h | h | h
  · simp only [entry] at h
    split_ifs at h
    · rw [h, address_and_matchMask]
    · exact absurd h ne_neg_one_and_matchMask
  · simp only [entry, addrWrite] at h
    split_ifs at h
    · rw [h, or_mmio_and_matchMask, address_and_matchMask]
    · rw [h, or_notdirty_and_matchMask, address_and_matchMask]
    · rw [h, address_and_matchMask]
    · exact absurd h ne_neg_one_and_matchMask
  · simp only [entry] at h
    split_ifs at h
    · rw [h, codeAddress_and_matchMask]
    · exact absurd h ne_neg_one_and_matchMask

end SetPage

lemma tlbAddLargePage_eq (env : Env t) (p : Page t) :
    ∃ a m, env.tlbAddLargePage p = { env with tlbFlushAddr := a, tlbFlushMask := m } := by
  rw [Env.tlbAddLargePage]
  split_ifs <;> exact ⟨_, _, rfl⟩

lemma tlbSetPage_eq_some {a : SetPage t ram} (h : env.tlbSetPage physDirty a = some env') :
    ∃ ptr, a.ptr = some ptr ∧
      env'.tlbTable = setEntry env.tlbTable a.mmuIdx (t.tlbIndex a.vaddr) (a.entry physDirty ptr) ∧
      env'.iotlb = setEntry env.iotlb a.mmuIdx (t.tlbIndex a.vaddr) a.iotlb ∧
      env'.installed = a.toPage :: env.installed ∧ (CoversLarge env → CoversLarge env') := by
  rw [Env.tlbSetPage, map_eq_some_iff] at h
  obtain ⟨ptr, hptr, rfl⟩ := h
  split_ifs with hsize
  · exact ⟨ptr, hptr, rfl, rfl, rfl, fun hl => hl.cons_small (Page.small_of_size_eq hsize)⟩
  · obtain ⟨addr, mask, heq⟩ := tlbAddLargePage_eq env a.toPage
    refine heq ▸ ⟨ptr, hptr, rfl, rfl, rfl, fun hl => ?_⟩
    exact (heq ▸ tlbAddLargePage_covers hl a.toPage :)

lemma Covered.tlbSetPage (h : Covered env) {a : SetPage t ram}
    (hset : env.tlbSetPage physDirty a = some env') : Covered env' := by
  obtain ⟨ptr, -, htable, -, -, hlarge⟩ := tlbSetPage_eq_some hset
  refine ⟨fun mmuIdx i addr htr => ?_, hlarge h.large⟩
  rw [htable, setEntry] at htr
  split_ifs at htr with hi
  · rw [hi.2]
    exact tlbIndex_eq (by rw [a.entry_translates htr, a.aligned])
  · exact h.placed mmuIdx i addr htr

end OneCpu

/-! ## All runs -/

section Runs

variable {ram : RamBlocks t} {n : ℕ} {s s' : Machine t n}

variable {env : Env t}

lemma covered_setCpu {c : Fin n} (h : ∀ c, Covered (s.cpus c)) (henv : Covered env) (c' : Fin n) :
    Covered ((s.setCpu c env).cpus c') := by
  simp only [Machine.setCpu]
  split_ifs
  · exact henv
  · exact h c'

lemma notdirtyMemWrite_cpus (c : Fin n) (ramAddr : ℕ) (vaddr : BitVec t.longBits)
    (unprotect resume : Bool) :
    (s.notdirtyMemWrite c ramAddr vaddr unprotect resume).cpus = s.cpus ∨
      (s.notdirtyMemWrite c ramAddr vaddr unprotect resume).cpus =
        (s.setCpu c ((s.cpus c).tlbSetDirty vaddr)).cpus := by
  simp only [Machine.notdirtyMemWrite]
  split_ifs
  all_goals first | exact .inl rfl | exact .inr rfl

lemma cpuPhysicalMemoryResetDirty_eq_some {start stop p length : ℕ} {dirtyFlags : BitVec 8}
    (hp : start / t.pageSize = p)
    (hlength : Machine.wrapSub (t.pageAlign stop) (p * t.pageSize) = length)
    (h : s.cpuPhysicalMemoryResetDirty ram start stop dirtyFlags = some s') :
    s' = s ∨ ∃ start1, ram.qemuGetRamPtr (p * t.pageSize) = some start1 ∧
      s' = Machine.cpuTlbResetDirtyAll ⟨s.cpus, Machine.maskDirtyPages dirtyFlags
        (RamList.rangePages t.toTarget (p * t.pageSize) length) p s.physDirty⟩
          start1 (BitVec.ofNat t.hostBits length) := by
  rw [Machine.cpuPhysicalMemoryResetDirty, hp, hlength, Nat.mul_div_cancel _ t.pageSize_pos] at h
  split_ifs at h
  · cases h
    exact .inl rfl
  simp only [Machine.tlbResetDirtyRangeAll, bind_eq_bind, bind_eq_some_iff,
    ite_none_right_eq_some, Option.some.injEq] at h
  obtain ⟨start1, hstart1, last1, -, -, rfl⟩ := h
  exact .inr ⟨start1, hstart1, rfl⟩

lemma Covered.run (h : ∀ c, Covered (s.cpus c)) (call : TlbCall t ram n)
    (hrun : call.run s = some s') (c : Fin n) : Covered (s'.cpus c) := by
  cases call with
  | setPage c' a =>
    rw [TlbCall.run, map_eq_some_iff] at hrun
    obtain ⟨env, henv, rfl⟩ := hrun
    exact covered_setCpu h ((h c').tlbSetPage henv) c
  | flush c' =>
    cases hrun
    exact covered_setCpu h covered_tlbFlush c
  | flushPage c' addr =>
    cases hrun
    exact covered_setCpu h ((h c').tlbFlushPage addr) c
  | slowStore c' mmuIdx vaddr unprotect resume =>
    rw [TlbCall.run] at hrun
    split_ifs at hrun
    split at hrun
    · cases hrun
      rcases notdirtyMemWrite_cpus (s := s) c' _ vaddr unprotect resume with heq | heq
      · rw [heq]
        exact h c
      · rw [heq]
        exact covered_setCpu h ((h c').tlbSetDirty vaddr) c
    · cases hrun
  | resetDirty start stop dirtyFlags =>
    rcases cpuPhysicalMemoryResetDirty_eq_some rfl rfl hrun with rfl | ⟨start1, -, rfl⟩
    · exact h c
    · exact (h c).of_translates (fun _ _ _ => tlbResetDirtyRange_translates) fun hl => hl

lemma TlbReachable.covered {P : Machine t n → TlbCall t ram n → Prop} (h : TlbReachable P s) :
    ∀ c, Covered (s.cpus c) := by
  induction h with
  | boot cpus physDirty => exact fun _ => covered_tlbFlush
  | call call _ _ hrun ih => exact Covered.run ih call hrun

/-- An address of a large page that was set is in the region. -/
lemma CoversLarge.forced (h : CoversLarge env) {p : Page t} (hp : p ∈ env.installed)
    (hlarge : ¬ p.Small) {addr : BitVec t.longBits} (haddr : p.Contains addr) :
    addr &&& env.tlbFlushMask = env.tlbFlushAddr := by
  rcases h with ⟨-, -, hsmall⟩ | ⟨k, -, hk, hmask, -, hcov⟩
  · exact absurd (hsmall p hp) hlarge
  rcases hcov p hp with hsmall | ⟨hpk, hv⟩
  · exact absurd hsmall hlarge
  · rw [hmask, ← hv]
    exact SameBlock.mono hpk hk (p.contains_iff.mp haddr)

lemma Covered.not_translates (h : Covered env) {addr a : BitVec t.longBits}
    (ha : a &&& t.pageMask = addr &&& t.pageMask) (mmuIdx : Fin t.nbMmuModes) (i : Fin cpuTlbSize) :
    ¬ ((env.tlbFlushPage addr).tlbTable mmuIdx i).Translates a := by
  rw [Env.tlbFlushPage]
  split_ifs with hforced
  · exact not_translates_empty
  simp only [Env.mapEntries]
  intro htr
  split_ifs at htr with hi
  · have hold := tlbFlushEntry_translates htr
    rw [TlbEntry.Translates, ha] at hold
    rw [Env.tlbFlushEntry, if_pos hold] at htr
    exact not_translates_empty htr
  · have hplaced := h.placed mmuIdx i a htr
    rw [tlbIndex_and_pageMask, ← tlbIndex_eq ha] at hi
    exact hi hplaced.symm

/-- After `tlb_flush_page` no entry of any MMU mode translates an address of the page, or of a page
of any size around the address that was set since the TLB was last emptied. -/
theorem tlbFlushPage_translates (s : Machine t n)
    (h : TlbReachable (fun (_ : Machine t n) (_ : TlbCall t ram n) => True) s) (c : Fin n)
    (addr a : BitVec t.longBits)
    (ha : a &&& t.pageMask = addr &&& t.pageMask ∨
      ∃ p ∈ (s.cpus c).installed, p.Contains addr ∧ p.Contains a)
    (mmuIdx : Fin t.nbMmuModes) (i : Fin cpuTlbSize) :
    ¬ (((s.cpus c).tlbFlushPage addr).tlbTable mmuIdx i).Translates a := by
  have hcov := h.covered c
  rcases ha with ha | ⟨p, hp, haddr, ha⟩
  · exact hcov.not_translates ha mmuIdx i
  by_cases hsmall : p.Small
  · refine hcov.not_translates ?_ mmuIdx i
    have hsame : SameBlock p.sizeBits a addr :=
      (p.contains_iff.mp ha).trans (p.contains_iff.mp haddr).symm
    rw [hsmall] at hsame
    exact hsame
  · rw [Env.tlbFlushPage, if_pos (hcov.large.forced hp hsmall haddr)]
    exact not_translates_empty

end Runs

/-! ## An example -/

abbrev smallTarget : CpuTarget where
  pageBits := 12
  physBits := 36
  pageBits_lt := by decide
  physBits_le := by decide
  longBits := 32
  hostBits := 64
  nbMmuModes := 2
  flags_lt := by decide
  pageBits_lt_longBits := by decide

def emptyEnv : Env smallTarget where
  tlbTable _ _ := TlbEntry.empty
  iotlb _ _ := .io 0
  tlbFlushAddr := -1
  tlbFlushMask := 0
  installed := []

def noRam : RamBlocks smallTarget where
  blocks := []
  aligned _ h := absurd h List.not_mem_nil
  disjoint _ h := absurd h List.not_mem_nil
  host_fits _ h := absurd h List.not_mem_nil
  host_disjoint _ h := absurd h List.not_mem_nil

open scoped Pair

def devicePage : SetPage smallTarget noRam where
  vaddr := 0x00500000
  sizeBits := 22
  aligned := by decide +kernel
  pageBits_le := by decide
  sizeBits_lt := by decide
  mmuIdx := 0
  read := true
  write := true
  exec := false
  paddr := 0x1000
  sec := ⟨false, false, false, 0, 0, 0⟩
  watchpoints := []
  mapped h := by simp at h

def deviceEnv : Env smallTarget :=
  (emptyEnv.tlbFlush.tlbSetPage (fun _ => 0xff) devicePage).get (by decide +kernel)

/-- Flushing one address of the large page removes the entry for another one. -/
theorem devicePage_flushed :
    (deviceEnv.tlbTable 0 (smallTarget.tlbIndex 0x00500000)).Translates 0x00500000 ∧
      ¬ ((deviceEnv.tlbFlushPage 0x00401000).tlbTable 0
        (smallTarget.tlbIndex 0x00500000)).Translates 0x00500000 := by
  refine ⟨by decide +kernel, ?_⟩
  have hset : emptyEnv.tlbFlush.tlbSetPage (fun _ => 0xff) devicePage = some deviceEnv :=
    (some_get _).symm
  have hreach :
      TlbReachable (fun (_ : Machine smallTarget 1) (_ : TlbCall smallTarget noRam 1) => True)
      (Machine.setCpu ⟨fun _ => emptyEnv.tlbFlush, fun _ => 0xff⟩ 0 deviceEnv) :=
    .call (.setPage 0 devicePage) (.boot (fun _ => emptyEnv) fun _ => 0xff) trivial
      (by rw [TlbCall.run, hset, map_some])
  obtain ⟨-, -, -, -, hinstalled, -⟩ := tlbSetPage_eq_some hset
  refine tlbFlushPage_translates _ hreach 0 0x00401000 0x00500000
    (.inr ⟨devicePage.toPage, ?_, by decide +kernel, by decide +kernel⟩) 0 _
  show _ ∈ deviceEnv.installed
  rw [hinstalled]
  exact List.mem_cons_self

end Qemu.Exec
