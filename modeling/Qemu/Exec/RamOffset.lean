import Mathlib

/-!
# Where RAM blocks are placed

`find_ram_offset` of `exec.c` looks for the smallest gap that a new block fits into, behind one of
the blocks of a list that is in no order.

The offsets are the addresses that dirty bitmaps and migration use, so blocks that overlap would
share their dirty flags.

**Main results:**
- `tryGap_spec`: a round of the search finds nothing better, or a gap behind a block
- `findRamOffset_overlaps_none`: a new block overlaps none of those that allocations and frees have
  left
-/

namespace Qemu.Exec

variable (w pageBits : ℕ)

/-- What the placement reads of a `RAMBlock`. -/
structure PlacedBlock where
  offset : ℕ
  length : ℕ
deriving DecidableEq

/-- `RAM_ADDR_MAX`, of a `ram_addr_t` of `w` bits. -/
def ramAddrMax : ℕ := 2 ^ w - 1

/-- The inner loop of `find_ram_offset`: the nearest block that does not start before `stop`. -/
def nextOffset (blocks : List PlacedBlock) (stop : ℕ) : ℕ :=
  blocks.foldl (fun next b => if stop ≤ b.offset then min next b.offset else next) (ramAddrMax w)

/-- A round of the outer loop, on `offset` and `mingap`. -/
def tryGap (blocks : List PlacedBlock) (size : ℕ) (best : ℕ × ℕ) (b : PlacedBlock) : ℕ × ℕ :=
  let stop := (b.offset + b.length) % 2 ^ w
  let gap := (nextOffset w blocks stop + 2 ^ w - stop) % 2 ^ w
  if size ≤ gap ∧ gap < best.2 then (stop, gap) else best

/-- `find_ram_offset`, which aborts if there is no gap. -/
def findRamOffset (blocks : List PlacedBlock) (size : ℕ) : Option ℕ :=
  if blocks = [] then some 0
  else
    let best := blocks.foldl (tryGap w blocks size) (ramAddrMax w, ramAddrMax w)
    if best.1 = ramAddrMax w then none else some best.1

/-- `qemu_ram_alloc_from_ptr`, with `TARGET_PAGE_ALIGN` in `ram_addr_t`. -/
def qemuRamAllocFromPtr (blocks : List PlacedBlock) (size : ℕ) : Option (List PlacedBlock) :=
  let size := (size + 2 ^ pageBits - 1) % 2 ^ w / 2 ^ pageBits * 2 ^ pageBits
  (findRamOffset w blocks size).map fun offset => ⟨offset, size⟩ :: blocks

/-- `qemu_ram_free`. -/
def qemuRamFree (blocks : List PlacedBlock) (addr : ℕ) : List PlacedBlock :=
  blocks.eraseP (·.offset = addr)

/-- The lists of blocks that allocations and frees lead to. -/
inductive Placed : List PlacedBlock → Prop
  | start : Placed []
  | alloc {blocks blocks' : List PlacedBlock} (size : ℕ) (h : Placed blocks)
      (halloc : qemuRamAllocFromPtr w pageBits blocks size = some blocks') : Placed blocks'
  | free {blocks : List PlacedBlock} (addr : ℕ) (h : Placed blocks) :
      Placed (qemuRamFree blocks addr)

def PlacedBlock.Apart (a b : PlacedBlock) : Prop :=
  a.offset + a.length ≤ b.offset ∨ b.offset + b.length ≤ a.offset

instance : Std.Symm PlacedBlock.Apart := ⟨fun _ _ => Or.symm⟩

/-- The blocks do not overlap, and end inside the range of offsets. -/
structure Spread (blocks : List PlacedBlock) : Prop where
  stop_le : ∀ b ∈ blocks, b.offset + b.length ≤ ramAddrMax w
  apart : blocks.Pairwise PlacedBlock.Apart

variable {w pageBits} {blocks : List PlacedBlock} {size offset : ℕ}

lemma nextOffset_spec (blocks : List PlacedBlock) (stop : ℕ) :
    nextOffset w blocks stop ≤ ramAddrMax w ∧
    (∀ b ∈ blocks, stop ≤ b.offset → nextOffset w blocks stop ≤ b.offset) ∧
    (stop ≤ ramAddrMax w → stop ≤ nextOffset w blocks stop) := by
  rw [nextOffset]
  generalize ramAddrMax w = next
  induction blocks generalizing next with
  | nil => simp
  | cons b blocks ih =>
    obtain ⟨hle, hall, hge⟩ := ih (if stop ≤ b.offset then min next b.offset else next)
    refine ⟨hle.trans (by split_ifs <;> omega), fun b' hb' hstop => ?_,
      fun hmax => hge (by split_ifs <;> omega)⟩
    rcases List.mem_cons.mp hb' with rfl | hb'
    · exact hle.trans (by simp [hstop])
    · exact hall b' hb' hstop

variable (w blocks size) in
/-- An offset right behind a block, with room before the next one. -/
def Gap (offset : ℕ) : Prop :=
  ∃ b ∈ blocks, offset = b.offset + b.length ∧ offset + size ≤ nextOffset w blocks offset

lemma tryGap_spec (hblocks : Spread w blocks) (size : ℕ) (best : ℕ × ℕ) {b : PlacedBlock}
    (hb : b ∈ blocks) :
    tryGap w blocks size best b = best ∨ Gap w blocks size (tryGap w blocks size best b).1 := by
  have hend := hblocks.stop_le b hb
  have hpow : ramAddrMax w + 1 = 2 ^ w := Nat.sub_add_cancel Nat.one_le_two_pow
  have hstop : (b.offset + b.length) % 2 ^ w = b.offset + b.length := Nat.mod_eq_of_lt (by omega)
  obtain ⟨hmax, -, hge⟩ := nextOffset_spec (w := w) blocks (b.offset + b.length)
  have hge := hge hend
  simp only [tryGap, hstop]
  rw [Nat.sub_add_comm hge, Nat.add_mod_right, Nat.mod_eq_of_lt (by omega)]
  split_ifs with h
  · exact .inr ⟨b, hb, rfl, by simp only; omega⟩
  · exact .inl rfl

lemma Spread.findRamOffset (hblocks : Spread w blocks) (hsize : size ≤ ramAddrMax w)
    (h : findRamOffset w blocks size = some offset) :
    offset + size ≤ ramAddrMax w ∧ ∀ b ∈ blocks, PlacedBlock.Apart ⟨offset, size⟩ b := by
  rw [Exec.findRamOffset] at h
  split_ifs at h with hnil
  · cases h
    simpa [hnil] using hsize
  have hbest := List.foldlRecOn (motive := fun best => best.1 = ramAddrMax w ∨
    Gap w blocks size best.1)
    blocks (tryGap w blocks size) (b := (ramAddrMax w, ramAddrMax w)) (.inl rfl)
      fun best hbest b hb => by
      rcases tryGap_spec hblocks size best hb with heq | hgap
      · rwa [heq]
      · exact .inr hgap
  obtain ⟨hmax, h⟩ := Option.ite_none_left_eq_some.mp h
  cases h
  obtain ⟨b, hb, hstop, hroom⟩ := hbest.resolve_left hmax
  rw [hstop] at hroom ⊢
  obtain ⟨hle, hnext, -⟩ := nextOffset_spec (w := w) blocks (b.offset + b.length)
  refine ⟨hroom.trans hle, fun b' hb' => ?_⟩
  by_cases hlater : b.offset + b.length ≤ b'.offset
  · exact .inl (hroom.trans (hnext b' hb' hlater))
  refine .inr ?_
  by_cases hne : b = b'
  · rw [hne]
  have := hblocks.apart.forall hb hb' hne
  rw [PlacedBlock.Apart] at this
  show b'.offset + b'.length ≤ b.offset + b.length
  omega

lemma Placed.spread (h : Placed w pageBits blocks) : Spread w blocks := by
  induction h with
  | start => exact ⟨by simp, .nil⟩
  | alloc size _ halloc ih =>
    obtain ⟨offset, hfind, rfl⟩ := Option.map_eq_some_iff.mp halloc
    have hsize := (Nat.div_mul_le_self ((size + 2 ^ pageBits - 1) % 2 ^ w) (2 ^ pageBits)).trans
      (Nat.le_sub_one_of_lt (Nat.mod_lt _ (Nat.two_pow_pos w)))
    obtain ⟨hend, hapart⟩ := ih.findRamOffset hsize hfind
    exact ⟨List.forall_mem_cons.mpr ⟨hend, ih.stop_le⟩, .cons hapart ih.apart⟩
  | free addr _ ih =>
    exact ⟨fun b hb => ih.stop_le b (List.mem_of_mem_eraseP hb),
      ih.apart.sublist List.eraseP_sublist⟩

/-- **A new block** overlaps no block that is there, and ends inside the range of offsets. -/
theorem findRamOffset_overlaps_none (w pageBits : ℕ) (blocks : List PlacedBlock)
    (h : Placed w pageBits blocks) (size offset : ℕ) (hsize : size ≤ ramAddrMax w)
    (hfind : findRamOffset w blocks size = some offset) :
    offset + size ≤ ramAddrMax w ∧ ∀ b ∈ blocks, PlacedBlock.Apart ⟨offset, size⟩ b :=
  h.spread.findRamOffset hsize hfind

/-- The gap that a free has left between two blocks is used again. -/
theorem findRamOffset_fills_gap : PlacedBlock.Apart ⟨0x1000, 0x2000⟩ ⟨0x3000, 0x1000⟩ := by
  have h₁ : Placed 32 12 [⟨0, 0x1000⟩] := .alloc 0x1000 .start (by decide)
  have h₂ : Placed 32 12 [⟨0x1000, 0x2000⟩, ⟨0, 0x1000⟩] := .alloc 0x2000 h₁ (by decide)
  have h₃ : Placed 32 12 [⟨0x3000, 0x1000⟩, ⟨0x1000, 0x2000⟩, ⟨0, 0x1000⟩] :=
    .alloc 0x1000 h₂ (by decide)
  exact (findRamOffset_overlaps_none 32 12 _ (h₃.free 0x1000) 0x2000 0x1000 (by decide)
    (by decide)).2 _ (by decide)

end Qemu.Exec
