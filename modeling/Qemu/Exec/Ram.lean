import Mathlib

/-!
# Dirty flags of guest RAM

`exec-obsolete.h`.  Every page of guest RAM has a byte of dirty flags in `ram_list.phys_dirty`, and
`ram_list.dirty_pages` counts the pages that migration has not sent yet.  The counter is adjusted
by a query for one page length from the given address on.

**Main results:**
- `rangePages_page`: what this query looks at: one page, or two if the address is not aligned
- `Call.keepsExact_iff`: a call keeps the counter exact if and only if it is `Careful`
- `exact_throughout_iff`: the same for every sequence of calls
-/

namespace Qemu.Exec

open Nat Option

/-- What a target fixes: the size of its pages and of its physical address space. -/
structure Target where
  pageBits : ℕ
  physBits : ℕ
  pageBits_lt : pageBits < physBits
  physBits_le : physBits ≤ 64

namespace Target

variable (t : Target)

/-- `TARGET_PAGE_SIZE`. -/
def pageSize : ℕ := 2 ^ t.pageBits

/-- `TARGET_PAGE_ALIGN`, on 64 bits. -/
def pageAlign (addr : ℕ) : ℕ := (addr + t.pageSize - 1) % 2 ^ 64 / t.pageSize * t.pageSize

lemma pageSize_pos : 0 < t.pageSize := Nat.two_pow_pos _

lemma half_mul_pageSize : 2 ^ (63 - t.pageBits) * t.pageSize = 2 ^ 63 := by
  have h1 := t.pageBits_lt
  have h2 := t.physBits_le
  rw [pageSize, ← pow_add]
  congr 1
  omega

end Target

namespace Pair

/-- The pages of a translation block and the MMU modes of a target are counted with `Fin 2`. -/
scoped instance neZero_two : NeZero 2 := ⟨two_ne_zero⟩

end Pair

/-! ## The flags -/

/-- `MIGRATION_DIRTY_FLAG`. -/
def migrationDirtyFlag : BitVec 8 := 0x08

/-- `CODE_DIRTY_FLAG`. -/
def codeDirtyFlag : BitVec 8 := 0x02

/-- `dirty_flags & MIGRATION_DIRTY_FLAG`. -/
def hasMigration (flags : BitVec 8) : Bool := decide (flags &&& migrationDirtyFlag ≠ 0)

/-- `ram_list`.  Guest RAM is smaller than half of the address space. -/
structure RamList (t : Target) where
  physDirty : List (BitVec 8)
  dirtyPages : BitVec 64
  length_lt : physDirty.length < 2 ^ (63 - t.pageBits)

namespace RamList

variable {t : Target} (r : RamList t)

/-- `cpu_physical_memory_get_dirty_flags`: none if there is no such page. -/
def getDirtyFlags (addr : ℕ) : Option (BitVec 8) := r.physDirty[addr / t.pageSize]?

/-- `cpu_physical_memory_is_dirty`. -/
def isDirty (addr : ℕ) : Option Bool := (r.getDirtyFlags addr).map fun flags =>
    decide (flags = 0xff)

/-- The flags of `n` pages from `page` on, taken together. -/
def pagesDirty (dirtyFlags : BitVec 8) : ℕ → ℕ → Option (BitVec 8)
  | 0, _ => some 0
  | n + 1, page => do
      let flags ← r.physDirty[page]?
      let rest ← pagesDirty dirtyFlags n (page + 1)
      some (flags &&& dirtyFlags ||| rest)

/-- The pages from `start & TARGET_PAGE_MASK` to `TARGET_PAGE_ALIGN(start + length)`. -/
def rangePages (t : Target) (start length : ℕ) : ℕ :=
  t.pageAlign ((start + length) % 2 ^ 64) / t.pageSize - start / t.pageSize

/-- `cpu_physical_memory_get_dirty`. -/
def getDirty (start length : ℕ) (dirtyFlags : BitVec 8) : Option (BitVec 8) :=
  r.pagesDirty dirtyFlags (rangePages t start length) (start / t.pageSize)

def setFlags (page : ℕ) (flags : BitVec 8) : RamList t :=
  { r with
    physDirty := r.physDirty.set page flags
    length_lt := by rw [List.length_set]; exact r.length_lt }

/-- `cpu_physical_memory_get_dirty(addr, TARGET_PAGE_SIZE, MIGRATION_DIRTY_FLAG)`, which is only
asked for if that flag is among `dirtyFlags`. -/
def migrationDirty (addr : ℕ) (dirtyFlags : BitVec 8) (default : Bool) : Option Bool :=
  if hasMigration dirtyFlags = true then
    (r.getDirty addr t.pageSize migrationDirtyFlag).map fun ret => decide (ret ≠ 0)
  else some default

/-- `cpu_physical_memory_set_dirty_flags`.  Only the low byte of `dirty_flags` matters. -/
def setDirtyFlags (addr : ℕ) (dirtyFlags : BitVec 8) : Option (RamList t) := do
  let dirty ← r.migrationDirty addr dirtyFlags true
  let flags ← r.getDirtyFlags addr
  some (({ r with dirtyPages := if dirty = true then r.dirtyPages else r.dirtyPages + 1 } :
    RamList t).setFlags (addr / t.pageSize) (flags ||| dirtyFlags))

/-- `cpu_physical_memory_clear_dirty_flags`. -/
def clearDirtyFlags (addr : ℕ) (dirtyFlags : BitVec 8) : Option (RamList t) := do
  let dirty ← r.migrationDirty addr dirtyFlags false
  let flags ← r.getDirtyFlags addr
  some (({ r with dirtyPages := if dirty = true then r.dirtyPages - 1 else r.dirtyPages } :
    RamList t).setFlags (addr / t.pageSize) (flags &&& ~~~dirtyFlags))

/-- `f` on the addresses of `n` pages from `page` on. -/
def forPages (f : RamList t → ℕ → Option (RamList t)) : ℕ → ℕ → RamList t → Option (RamList t)
  | 0, _, r => some r
  | n + 1, page, r => do
      let r' ← f r (page * t.pageSize)
      forPages f n (page + 1) r'

/-- `cpu_physical_memory_set_dirty_range`. -/
def setDirtyRange (start length : ℕ) (dirtyFlags : BitVec 8) : Option (RamList t) :=
  forPages (fun r addr => r.setDirtyFlags addr dirtyFlags) (rangePages t start length)
    (start / t.pageSize) r

/-- `cpu_physical_memory_mask_dirty_range`. -/
def maskDirtyRange (start length : ℕ) (dirtyFlags : BitVec 8) : Option (RamList t) :=
  forPages (fun r addr => r.clearDirtyFlags addr dirtyFlags) (rangePages t start length)
    (start / t.pageSize) r

/-- `ram_bytes_remaining`. -/
def ramBytesRemaining : BitVec 64 := r.dirtyPages * BitVec.ofNat 64 t.pageSize

/-! ## What the counter should count -/

def flagged (page : ℕ) : Bool := (r.physDirty[page]?).any hasMigration

/-- The pages that the counter should count. -/
def migrationPages : ℕ := r.physDirty.countP hasMigration

/-- The counter is exact, and so is the number of bytes that it stands for. -/
structure Exact : Prop where
  dirtyPages : r.dirtyPages.toNat = r.migrationPages
  bytes : r.ramBytesRemaining.toNat = r.migrationPages * t.pageSize

instance : Decidable r.Exact :=
  decidable_of_iff (r.dirtyPages.toNat = r.migrationPages ∧
      r.ramBytesRemaining.toNat = r.migrationPages * t.pageSize)
    ⟨fun h => ⟨h.1, h.2⟩, fun h => ⟨h.dirtyPages, h.bytes⟩⟩

end RamList

open RamList

variable {t : Target} {r r' : RamList t} {addr page n : ℕ} {flags dirtyFlags : BitVec 8}

/-! ## Single pages -/

lemma hasMigration_eq (flags : BitVec 8) : hasMigration flags = flags.getLsbD 3 := by
  revert flags
  decide

lemma hasMigration_or (a b : BitVec 8) :
    hasMigration (a ||| b) = (hasMigration a || hasMigration b) := by
  simp [hasMigration_eq]

lemma hasMigration_and_not (a b : BitVec 8) :
    hasMigration (a &&& ~~~b) = (hasMigration a && !hasMigration b) := by
  simp [hasMigration_eq]

/-- A query for the migration flag finds it on one of its pages. -/
lemma migration_or_ne_zero (a b : BitVec 8) :
    decide (a &&& migrationDirtyFlag ||| b &&& migrationDirtyFlag ≠ 0) =
      (hasMigration a || hasMigration b) := by
  rw [← hasMigration_or, hasMigration, BitVec.and_or_distrib_right]

lemma RamList.migrationPages_lt : r.migrationPages < 2 ^ (63 - t.pageBits) :=
  lt_of_le_of_lt List.countP_le_length r.length_lt

/-- Pages of guest RAM lie in the lower half of the address space. -/
lemma RamList.page_mul_le (h : page < r.physDirty.length) : (page + 2) * t.pageSize ≤ 2 ^ 63 := by
  rw [← t.half_mul_pageSize]
  exact Nat.mul_le_mul_right _ (lt_of_le_of_lt (succ_le_of_lt h) r.length_lt)

lemma RamList.exact_iff : r.Exact ↔ r.dirtyPages.toNat = r.migrationPages := by
  refine ⟨Exact.dirtyPages, fun h => ⟨h, ?_⟩⟩
  have hlt : r.migrationPages * t.pageSize < 2 ^ 63 := by
    rw [← t.half_mul_pageSize]
    exact Nat.mul_lt_mul_of_pos_right r.migrationPages_lt t.pageSize_pos
  have hsize : t.pageSize < 2 ^ 64 := by
    have h1 := t.pageBits_lt
    have h2 := t.physBits_le
    exact Nat.pow_lt_pow_right (by omega) (by omega)
  rw [ramBytesRemaining, BitVec.toNat_mul, BitVec.toNat_ofNat, h, mod_eq_of_lt hsize]
  exact mod_eq_of_lt (by omega)

/-- A query of one page length also visits the next page if the address is not aligned. -/
lemma rangePages_page (h : addr / t.pageSize < r.physDirty.length) :
    rangePages t addr t.pageSize = if addr % t.pageSize = 0 then 1 else 2 := by
  have hpos := t.pageSize_pos
  have hle := r.page_mul_le h
  have haddr := div_add_mod addr t.pageSize
  have hmod := mod_lt addr hpos
  rw [Nat.add_mul, Nat.mul_comm] at hle
  have hsum : addr + t.pageSize + t.pageSize - 1 < 2 ^ 64 := by omega
  rw [rangePages, Target.pageAlign, mod_eq_of_lt (show addr + t.pageSize < 2 ^ 64 by omega),
    mod_eq_of_lt hsum, Nat.mul_div_cancel _ hpos]
  have hsplit : addr + t.pageSize + t.pageSize - 1 =
      addr % t.pageSize + (t.pageSize - 1) + t.pageSize * (addr / t.pageSize + 1) := by
    rw [Nat.mul_add, mul_one]
    omega
  rw [hsplit, add_mul_div_left _ _ hpos]
  split_ifs with hz
  · rw [hz, div_eq_of_lt (by omega)]
    omega
  have : (addr % t.pageSize + (t.pageSize - 1)) / t.pageSize = 1 := by
    rw [Nat.div_eq_iff hpos]
    omega
  omega

/-- What the counter is adjusted by: the flag of the page, and that of the next page if the address
is not aligned. -/
lemma migrationDirty_eq (b : Bool) (hflags : r.getDirtyFlags addr = some flags) :
    r.migrationDirty addr dirtyFlags b =
      if hasMigration dirtyFlags = true then
        if addr % t.pageSize = 0 then some (hasMigration flags)
        else (r.physDirty[addr / t.pageSize + 1]?).map (hasMigration flags || hasMigration ·)
      else some b := by
  have hlt : addr / t.pageSize < r.physDirty.length := (List.getElem?_eq_some_iff.mp hflags).1
  rw [getDirtyFlags] at hflags
  rw [migrationDirty, getDirty, rangePages_page hlt]
  split_ifs
  · simp [pagesDirty, hflags, hasMigration]
  · cases hnext : r.physDirty[addr / t.pageSize + 1]? with
    | none => simp [pagesDirty, hflags, hnext]
    | some next => simp [pagesDirty, hflags, hnext, ← migration_or_ne_zero]
  · rfl

lemma migrationPages_setFlags (new : BitVec 8) (hflags : r.getDirtyFlags addr = some flags) :
    (r.setFlags (addr / t.pageSize) new).migrationPages +
      (if hasMigration flags = true then 1 else 0) =
      r.migrationPages + (if hasMigration new = true then 1 else 0) := by
  obtain ⟨hlt, heq⟩ := List.getElem?_eq_some_iff.mp hflags
  have hcount := List.countP_set (p := hasMigration) (a := new) hlt
  have hpos : hasMigration flags = true → 0 < r.physDirty.countP hasMigration := fun h =>
    List.countP_pos_iff.mpr ⟨flags, heq ▸ List.getElem_mem hlt, h⟩
  rw [heq] at hcount
  rw [migrationPages, setFlags, hcount, migrationPages]
  split_ifs with h1 h2 h2
  · have := hpos h1
    omega
  · have := hpos h1
    omega
  · omega
  · omega

/-! ## Calls -/

/-- The page is guest RAM, and if the migration flag is among those that are changed, the address is
aligned, or there is a next page and the query for both tells the flag of the first. -/
def PageCareful (r : RamList t) (addr : ℕ) (dirtyFlags : BitVec 8) : Prop :=
  addr / t.pageSize < r.physDirty.length ∧
    (hasMigration dirtyFlags = true → addr % t.pageSize = 0 ∨
      addr / t.pageSize + 1 < r.physDirty.length ∧
        (r.flagged (addr / t.pageSize) = true ∨ r.flagged (addr / t.pageSize + 1) = false))

/-- The call does not read or write behind the end of the flags, and the counter is exact after
it. -/
def KeepsExact (ret : Option (RamList t)) : Prop := ∃ r', ret = some r' ∧ r'.Exact

lemma exists_getDirtyFlags (h : addr / t.pageSize < r.physDirty.length) :
    ∃ flags, r.getDirtyFlags addr = some flags ∧
      r.flagged (addr / t.pageSize) = hasMigration flags := by
  refine ⟨_, List.getElem?_eq_getElem h, ?_⟩
  rw [flagged, List.getElem?_eq_getElem h, any_some]

/-- The query gives an answer, and that is the flag of the page, exactly if the call is careful. -/
lemma query_right_iff (b : Bool) (hlt : addr / t.pageSize < r.physDirty.length) :
    (∃ d, r.migrationDirty addr dirtyFlags b = some d ∧
        (hasMigration dirtyFlags = true → d = r.flagged (addr / t.pageSize))) ↔
      PageCareful r addr dirtyFlags := by
  obtain ⟨flags, hflags, hflagged⟩ := exists_getDirtyFlags hlt
  rw [migrationDirty_eq b hflags, PageCareful, hflagged]
  cases hdf : hasMigration dirtyFlags
  · simp [hlt]
  by_cases hz : addr % t.pageSize = 0
  · simp [hlt, hz]
  by_cases hnext : addr / t.pageSize + 1 < r.physDirty.length
  · cases hf : hasMigration flags <;> simp [flagged, hlt, hz, hnext]
  · simp [hlt, hz, hnext]

/-- What setting and clearing share: a new counter for the answer of the query, and new flags for
the page.  The counter has to be right exactly for the right answer. -/
lemma keepsExact_update_iff (b : Bool) (pages : Bool → BitVec 64) (new : BitVec 8 → BitVec 8)
    (hright : ∀ flags d, r.getDirtyFlags addr = some flags →
      (hasMigration dirtyFlags = false → d = b) →
      ((pages d).toNat = (r.setFlags (addr / t.pageSize) (new flags)).migrationPages ↔
        (hasMigration dirtyFlags = true → d = hasMigration flags))) :
    KeepsExact (do
        let dirty ← r.migrationDirty addr dirtyFlags b
        let flags ← r.getDirtyFlags addr
        some (({ r with dirtyPages := pages dirty } : RamList t).setFlags (addr / t.pageSize)
          (new flags))) ↔
      PageCareful r addr dirtyFlags := by
  by_cases hlt : addr / t.pageSize < r.physDirty.length
  · obtain ⟨flags, hflags, hflagged⟩ := exists_getDirtyFlags hlt
    rw [← query_right_iff b hlt, hflagged]
    have hanswer : ∀ d, r.migrationDirty addr dirtyFlags b = some d →
        hasMigration dirtyFlags = false → d = b := by
      intro d hd hm
      simpa [migrationDirty, hm, eq_comm] using hd
    simp only [KeepsExact, hflags, bind_eq_bind, bind_some, bind_eq_some_iff, Option.some.injEq,
      exists_exists_and_eq_and, RamList.exact_iff]
    exact exists_congr fun d => and_congr_right fun hd => hright flags d hflags (hanswer d hd)
  · have hnone : r.getDirtyFlags addr = none := by
      rw [getDirtyFlags, List.getElem?_eq_none_iff]
      omega
    simp [hnone, KeepsExact, PageCareful, hlt]

lemma keepsExact_setDirtyFlags_iff (hr : r.Exact) :
    KeepsExact (r.setDirtyFlags addr dirtyFlags) ↔ PageCareful r addr dirtyFlags := by
  refine keepsExact_update_iff true
    (fun dirty => if dirty = true then r.dirtyPages else r.dirtyPages + 1)
    (· ||| dirtyFlags) fun flags d hflags hd => ?_
  have hcount := migrationPages_setFlags (flags ||| dirtyFlags) hflags
  have hlt := r.migrationPages_lt
  have hpow : 2 ^ (63 - t.pageBits) ≤ 2 ^ 63 := Nat.pow_le_pow_right (by omega) (by omega)
  have hexact := r.exact_iff.mp hr
  have hsucc : (r.dirtyPages + 1).toNat = r.migrationPages + 1 := by
    rw [BitVec.toNat_add, hexact]
    exact mod_eq_of_lt (by simp; omega)
  rw [hasMigration_or] at hcount
  cases hm : hasMigration dirtyFlags <;> cases hf : hasMigration flags <;> cases d <;>
    simp [hm, hf] at hcount hd ⊢ <;> omega

lemma keepsExact_clearDirtyFlags_iff (hr : r.Exact) :
    KeepsExact (r.clearDirtyFlags addr dirtyFlags) ↔ PageCareful r addr dirtyFlags := by
  refine keepsExact_update_iff false
    (fun dirty => if dirty = true then r.dirtyPages - 1 else r.dirtyPages)
    (· &&& ~~~dirtyFlags) fun flags d hflags hd => ?_
  have hcount := migrationPages_setFlags (flags &&& ~~~dirtyFlags) hflags
  have hlt := r.migrationPages_lt
  have hpow : 2 ^ (63 - t.pageBits) ≤ 2 ^ 63 := Nat.pow_le_pow_right (by omega) (by omega)
  have hexact := r.exact_iff.mp hr
  rw [hasMigration_and_not] at hcount
  cases hm : hasMigration dirtyFlags <;> cases hf : hasMigration flags <;> cases d <;>
    simp [hm, hf] at hcount hd ⊢ <;> omega

/-- Calls at aligned addresses keep the counter exact, as long as the pages are guest RAM. -/
lemma keepsExact_forPages_iff {f : RamList t → ℕ → Option (RamList t)}
    (hf : ∀ r addr, r.Exact → addr % t.pageSize = 0 →
      (KeepsExact (f r addr) ↔ addr / t.pageSize < r.physDirty.length))
    (hlen : ∀ r addr r', f r addr = some r' → addr / t.pageSize < r.physDirty.length ∧
      r'.physDirty.length = r.physDirty.length) (hr : r.Exact) :
    KeepsExact (forPages f n page r) ↔ n = 0 ∨ page + n ≤ r.physDirty.length := by
  have hpage : ∀ page, page * t.pageSize / t.pageSize = page := fun page =>
    Nat.mul_div_cancel page t.pageSize_pos
  induction n generalizing page r with
  | zero => simpa [forPages, KeepsExact] using hr
  | succ n ih =>
    have hfirst := hf r (page * t.pageSize) hr (mul_mod_left _ _)
    rw [hpage] at hfirst
    simp only [forPages]
    constructor
    · rintro ⟨r'', hrun, hr''⟩
      simp only [bind_eq_bind, bind_eq_some_iff] at hrun
      obtain ⟨r', hr', hrest⟩ := hrun
      obtain ⟨hlt, heq⟩ := hlen r _ r' hr'
      rw [hpage] at hlt
      obtain ⟨_, heq', hexact⟩ := hfirst.mpr hlt
      cases hr'.symm.trans heq'
      have := (ih hexact).mp ⟨r'', hrest, hr''⟩
      omega
    · intro hle
      obtain ⟨r', hr', hexact⟩ := hfirst.mpr (by omega)
      rw [hr']
      refine (ih hexact).mpr ?_
      rw [(hlen r _ r' hr').2]
      omega

lemma setDirtyFlags_length (h : r.setDirtyFlags addr dirtyFlags = some r') :
    addr / t.pageSize < r.physDirty.length ∧ r'.physDirty.length = r.physDirty.length := by
  simp only [setDirtyFlags, bind_eq_bind, bind_eq_some_iff, Option.some.injEq] at h
  obtain ⟨d, -, flags, hflags, rfl⟩ := h
  exact ⟨(List.getElem?_eq_some_iff.mp hflags).1, List.length_set⟩

lemma clearDirtyFlags_length (h : r.clearDirtyFlags addr dirtyFlags = some r') :
    addr / t.pageSize < r.physDirty.length ∧ r'.physDirty.length = r.physDirty.length := by
  simp only [clearDirtyFlags, bind_eq_bind, bind_eq_some_iff, Option.some.injEq] at h
  obtain ⟨d, -, flags, hflags, rfl⟩ := h
  exact ⟨(List.getElem?_eq_some_iff.mp hflags).1, List.length_set⟩

lemma pageCareful_of_aligned (hz : addr % t.pageSize = 0) :
    PageCareful r addr dirtyFlags ↔ addr / t.pageSize < r.physDirty.length :=
  and_iff_left fun _ => .inl hz

/-- The pages of a range are guest RAM. -/
def RangeCareful (r : RamList t) (start length : ℕ) : Prop :=
  rangePages t start length = 0 ∨
    start / t.pageSize + rangePages t start length ≤ r.physDirty.length

/-- A call of the functions that change the flags. -/
inductive Call
  | setDirtyFlags (addr : ℕ) (dirtyFlags : BitVec 8)
  | clearDirtyFlags (addr : ℕ) (dirtyFlags : BitVec 8)
  | setDirtyRange (start length : ℕ) (dirtyFlags : BitVec 8)
  | maskDirtyRange (start length : ℕ) (dirtyFlags : BitVec 8)

namespace Call

/-- None if the call reads or writes behind the end of the flags. -/
def run (r : RamList t) : Call → Option (RamList t)
  | setDirtyFlags addr dirtyFlags => r.setDirtyFlags addr dirtyFlags
  | clearDirtyFlags addr dirtyFlags => r.clearDirtyFlags addr dirtyFlags
  | setDirtyRange start length dirtyFlags => r.setDirtyRange start length dirtyFlags
  | maskDirtyRange start length dirtyFlags => r.maskDirtyRange start length dirtyFlags

def Careful (r : RamList t) : Call → Prop
  | setDirtyFlags addr dirtyFlags => PageCareful r addr dirtyFlags
  | clearDirtyFlags addr dirtyFlags => PageCareful r addr dirtyFlags
  | setDirtyRange start length _ => RangeCareful r start length
  | maskDirtyRange start length _ => RangeCareful r start length

/-- A call keeps the counter exact if and only if it is careful. -/
theorem keepsExact_iff (c : Call) (hr : r.Exact) : KeepsExact (c.run r) ↔ c.Careful r := by
  cases c with
  | setDirtyFlags addr dirtyFlags => exact keepsExact_setDirtyFlags_iff hr
  | clearDirtyFlags addr dirtyFlags => exact keepsExact_clearDirtyFlags_iff hr
  | setDirtyRange start length dirtyFlags =>
    refine keepsExact_forPages_iff (fun r addr hr hz => ?_) (fun _ _ _ => setDirtyFlags_length) hr
    rw [keepsExact_setDirtyFlags_iff hr, pageCareful_of_aligned hz]
  | maskDirtyRange start length dirtyFlags =>
    refine keepsExact_forPages_iff (fun r addr hr hz => ?_) (fun _ _ _ => clearDirtyFlags_length) hr
    rw [keepsExact_clearDirtyFlags_iff hr, pageCareful_of_aligned hz]

end Call

/-! ## Sequences of calls -/

/-- Every call runs, and `P` holds in every state that the calls go through. -/
def Throughout (P : RamList t → Prop) : List Call → RamList t → Prop
  | [], r => P r
  | c :: cs, r => P r ∧ ∃ r', c.run r = some r' ∧ Throughout P cs r'

/-- Every call is careful in the state that it finds. -/
def AllCareful : List Call → RamList t → Prop
  | [], _ => True
  | c :: cs, r => c.Careful r ∧ ∀ r', c.run r = some r' → AllCareful cs r'

lemma Throughout.head {P : RamList t → Prop} {cs : List Call} (h : Throughout P cs r) : P r := by
  cases cs with
  | nil => exact h
  | cons c cs => exact h.1

/-- No call reads behind the end of the flags, and `dirty_pages` is the number of pages with the
migration flag and `ram_bytes_remaining` their size in all states of a sequence of calls, if and
only if every call is careful. -/
theorem exact_throughout_iff (r : RamList t) (hr : r.Exact) (cs : List Call) :
    Throughout Exact cs r ↔ AllCareful cs r := by
  induction cs generalizing r with
  | nil => exact iff_of_true hr trivial
  | cons c cs ih =>
    constructor
    · rintro ⟨-, r', hrun, hall⟩
      refine ⟨(c.keepsExact_iff hr).mp ⟨r', hrun, hall.head⟩, fun r'' hrun' => ?_⟩
      cases hrun.symm.trans hrun'
      exact (ih r' hall.head).mp hall
    · rintro ⟨hc, hall⟩
      obtain ⟨r', hrun, hr'⟩ := (c.keepsExact_iff hr).mpr hc
      exact ⟨hr, r', hrun, (ih r' hr').mpr (hall r' hrun)⟩

/-- Pages of 4096 bytes. -/
def pc : Target := ⟨12, 52, by decide, by decide⟩

def twoPages : RamList pc := ⟨[0, 0], 0, by decide⟩

/-- A sequence of aligned calls. -/
theorem twoPages_exact : twoPages.Exact ∧
    Throughout Exact
      [.setDirtyFlags 0x1000 0xfd, .setDirtyFlags 0 0xfd,
        .maskDirtyRange 0x10 0x1000 8] twoPages := by
  have hexact : twoPages.Exact := by decide
  refine ⟨hexact, (exact_throughout_iff twoPages hexact _).mpr ⟨⟨by decide, fun _ => .inl rfl⟩, ?_⟩⟩
  rintro _ ⟨⟩
  refine ⟨⟨by decide, fun _ => .inl rfl⟩, ?_⟩
  rintro _ ⟨⟩
  exact ⟨.inr (by decide), fun _ _ => trivial⟩

def miscounted : RamList pc := ⟨[0xfd, 0xfd], 1, by decide⟩

/-- Setting the flags of the second page and then those of an unaligned address on the first page
leaves the counter at one; after both flags have been cleared it has wrapped around. -/
theorem unaligned_counter_wraps : twoPages.Exact ∧
      ¬Throughout Exact [.setDirtyFlags 0x1000 0xfd, .setDirtyFlags 0x10 0xfd] twoPages ∧
      ((miscounted.clearDirtyFlags 0 0x08).bind (·.clearDirtyFlags 0x1000 0x08)).map
        (fun r => (r.migrationPages, r.dirtyPages.toNat)) = some (0, 2 ^ 64 - 1) := by
  refine ⟨by decide, ?_, by decide⟩
  rintro ⟨-, _, ⟨⟩, -, _, ⟨⟩, hlast⟩
  exact absurd hlast (by decide : ¬ miscounted.Exact)

end Qemu.Exec
