import Mathlib

/-!
# Completing a block migration

`block_save_complete` of `block-migration.c`, from where `flush_blks` has returned: the guest has
been stopped, and the chunks that are still dirty are read and sent one by one.  When a read fails,
`mig_save_device_dirty` sets the error of the stream and returns 0, as it does when there may be
more chunks, and the chunk is read again.

**Main results:**
* `saveLoop_of_success`, `reads_of_saveLoop` — the loop if no read fails, and if one does.
* `blockSaveComplete_right_iff` — when a read error ends it, for all bitmaps and results of the
  reads.
-/

namespace Qemu.Block.SaveComplete

open List

/-- A device: the chunk of `cur_dirty`, and the dirty bits of the chunks from there to the end. -/
structure Device where
  cur : ℕ
  bits : List Bool

/-- The stream, with the number of reads and the chunks that were sent. -/
structure Stream where
  reads : ℕ
  sent : List (ℕ × ℕ)
  lastError : ℤ

section Functions

variable (read : ℕ → ℤ)

/-- The loop of `mig_save_device_dirty`, which stops at a dirty chunk. -/
def findDirty (cur : ℕ) : List Bool → Device
  | [] => ⟨cur, []⟩
  | true :: bits => ⟨cur, true :: bits⟩
  | false :: bits => findDirty (cur + 1) bits

/-- `mig_save_device_dirty` without `is_async`; `read n` is what the `n`-th call of `bdrv_read`
returns. -/
def migSaveDeviceDirty (i : ℕ) (d : Device) (f : Stream) : Device × Stream × Bool :=
  match findDirty d.cur d.bits with
  | ⟨cur, []⟩ => (⟨cur, []⟩, f, true)
  | ⟨cur, b :: bits⟩ =>
    if read f.reads < 0 then (⟨cur, b :: bits⟩, ⟨f.reads + 1, f.sent, read f.reads⟩, false)
    else (⟨cur, false :: bits⟩, ⟨f.reads + 1, f.sent ++ [(i, cur)], f.lastError⟩, false)

/-- `blk_mig_save_dirty_block`, from the `i`-th device on. -/
def blkMigSaveDirtyBlock : ℕ → List Device → Stream → List Device × Stream × Bool
  | _, [], f => ([], f, false)
  | i, d :: ds, f =>
    match migSaveDeviceDirty read i d f with
    | (d, f, false) => (d :: ds, f, true)
    | (d, f, true) =>
      let r := blkMigSaveDirtyBlock (i + 1) ds f
      (d :: r.1, r.2)

/-- The loop of `block_save_complete`, of at most so many rounds. -/
def saveLoop : ℕ → List Device → Stream → Option Stream
  | 0, _, _ => none
  | n + 1, ds, f =>
    match blkMigSaveDirtyBlock read 0 ds f with
    | (_, f, false) => some f
    | (ds, f, true) => saveLoop n ds f

/-- `block_save_complete`, from `blk_mig_reset_dirty_cursor` on.  It returns the error of the
stream. -/
def blockSaveComplete (fuel : ℕ) (bitmaps : List (List Bool)) (error : ℤ) : Option (Stream × ℤ) :=
  if error ≠ 0 then some (⟨0, [], error⟩, error)
  else (saveLoop read fuel (bitmaps.map (⟨0, ·⟩)) ⟨0, [], error⟩).map fun f => (f, f.lastError)

/-- It returns, sends no chunk twice, and a read that fails is the last one, whose error is
returned. -/
def CompletesRight (bitmaps : List (List Bool)) (error : ℤ) : Prop :=
  ∃ fuel f ret, blockSaveComplete read fuel bitmaps error = some (f, ret) ∧ f.sent.Nodup ∧
    ∀ n < f.reads, read n < 0 → n + 1 = f.reads ∧ f.lastError = read n ∧ ret = read n

end Functions

/-! ## The chunks that are left -/

/-- The dirty chunks of the `i`-th device, from a chunk on. -/
def chunksFrom (i cur : ℕ) : List Bool → List (ℕ × ℕ)
  | [] => []
  | b :: bits => if b = true then (i, cur) :: chunksFrom i
      (cur + 1) bits else chunksFrom i (cur + 1) bits

/-- The dirty chunks of the devices, from the `i`-th on. -/
def chunks : ℕ → List Device → List (ℕ × ℕ)
  | _, [] => []
  | i, d :: ds => chunksFrom i d.cur d.bits ++ chunks (i + 1) ds

variable {read : ℕ → ℤ} {i fuel : ℕ} {ds : List Device} {f f' : Stream}

lemma chunksFrom_nodup (i cur : ℕ) (bits : List Bool) :
    (chunksFrom i cur bits).Nodup ∧ ∀ p ∈ chunksFrom i cur bits, p.1 = i ∧ cur ≤ p.2 := by
  induction bits generalizing cur with
  | nil => exact ⟨nodup_nil, nofun⟩
  | cons b bits ih =>
    obtain ⟨hnodup, hmem⟩ := ih (cur + 1)
    have hle : ∀ p ∈ chunksFrom i (cur + 1) bits, p.1 = i ∧ cur ≤ p.2 :=
      fun p hp => ⟨(hmem p hp).1, by have := (hmem p hp).2; omega⟩
    rw [chunksFrom]
    split_ifs
    · refine ⟨List.nodup_cons.mpr ⟨fun h => ?_, hnodup⟩,
        List.forall_mem_cons.mpr ⟨⟨rfl, le_rfl⟩, hle⟩⟩
      exact absurd (hmem _ h).2 (by simp)
    · exact ⟨hnodup, hle⟩

lemma chunks_nodup : (chunks i ds).Nodup ∧ ∀ p ∈ chunks i ds, i ≤ p.1 := by
  induction ds generalizing i with
  | nil => exact ⟨nodup_nil, nofun⟩
  | cons d ds ih =>
    obtain ⟨hnodup, hmem⟩ := ih (i := i + 1)
    obtain ⟨hfirst, hi⟩ := chunksFrom_nodup i d.cur d.bits
    refine ⟨hfirst.append hnodup fun p hp hp' => ?_, fun p hp => ?_⟩
    · have := hmem p hp'
      have := (hi p hp).1
      omega
    · rcases List.mem_append.mp hp with hp | hp
      · exact (hi p hp).1.ge
      · exact Nat.le_of_succ_le (hmem p hp)

/-- What a call that reads the chunk does to the stream. -/
def Stream.next (read : ℕ → ℤ) (f : Stream) (p : ℕ × ℕ) : Stream :=
  if read f.reads < 0 then ⟨f.reads + 1, f.sent, read f.reads⟩
  else ⟨f.reads + 1, f.sent ++ [p], f.lastError⟩

/-- What is left after a read of the first chunk. -/
def left (read : ℕ → ℤ) (f : Stream) (l : List (ℕ × ℕ)) : List (ℕ × ℕ) :=
  if read f.reads < 0 then l else l.tail

lemma findDirty_spec (i cur : ℕ) (bits : List Bool) :
    (chunksFrom i cur bits = [] ∧ ∃ k, findDirty cur bits = ⟨k, []⟩) ∨
      ∃ k rest, findDirty cur bits = ⟨k, true :: rest⟩ ∧ chunksFrom i cur bits = chunksFrom i k
        (true :: rest) := by
  induction bits generalizing cur with
  | nil => exact .inl ⟨rfl, cur, rfl⟩
  | cons b bits ih =>
    cases b with
    | true => exact .inr ⟨cur, bits, rfl, rfl⟩
    | false => exact ih (cur + 1)

lemma blkMigSaveDirtyBlock_spec (read : ℕ → ℤ) (i : ℕ) (ds : List Device) (f : Stream) :
    ∃ ds', match chunks i ds with
      | [] => blkMigSaveDirtyBlock read i ds f = (ds', f, false)
      | p :: l => blkMigSaveDirtyBlock read i ds f = (ds', f.next read p, true) ∧
          chunks i ds' = left read f (p :: l) := by
  induction ds generalizing i with
  | nil => exact ⟨[], rfl⟩
  | cons d ds ih =>
    rw [chunks, blkMigSaveDirtyBlock, migSaveDeviceDirty]
    rcases findDirty_spec i d.cur d.bits with ⟨hnone, k, hfind⟩ | ⟨k, rest, hfind, hsome⟩
    · obtain ⟨ds', hds'⟩ := ih (i + 1)
      rw [hnone, hfind, nil_append]
      refine ⟨⟨k, []⟩ :: ds', ?_⟩
      split at hds' <;> simp_all [chunks, chunksFrom]
    · rw [hsome, hfind]
      by_cases hread : read f.reads < 0
      · exact ⟨⟨k, true :: rest⟩ :: ds, by simp [hread, Stream.next, left, chunks, chunksFrom]⟩
      · exact ⟨⟨k, false :: rest⟩ :: ds, by simp [hread, Stream.next, left, chunks, chunksFrom]⟩

/-! ## The loop -/

/-- **No read fails**: each chunk is sent, and the loop ends. -/
lemma saveLoop_of_success (hread : ∀ n, f.reads ≤ n →
      n < f.reads + (chunks 0 ds).length → 0 ≤ read n) :
    ∃ fuel f', saveLoop read fuel ds f = some f' ∧ f'.reads = f.reads + (chunks 0 ds).length ∧
      f'.sent = f.sent ++ chunks 0 ds := by
  obtain ⟨ds', hspec⟩ := blkMigSaveDirtyBlock_spec read 0 ds f
  induction hl : chunks 0 ds generalizing ds ds' f with
  | nil =>
    rw [hl] at hspec
    exact ⟨1, f, by rw [saveLoop, hspec], rfl, (append_nil _).symm⟩
  | cons p l ih =>
    rw [hl] at hspec hread
    obtain ⟨hblock, hleft⟩ := hspec
    rw [length_cons] at hread
    have hok := not_lt.mpr (hread f.reads le_rfl (by omega))
    rw [left, if_neg hok, tail_cons] at hleft
    rw [Stream.next, if_neg hok] at hblock
    obtain ⟨ds'', hspec'⟩ := blkMigSaveDirtyBlock_spec read 0 ds' ⟨f.reads + 1,
      f.sent ++ [p], f.lastError⟩
    rw [← hleft] at hread
    obtain ⟨fuel, f', hrun, hreads, hsent⟩ := ih
      (fun n h₁ h₂ => hread n (by simp at h₁; omega) (by simp at h₂; omega)) ds'' hspec' hleft
    refine ⟨fuel + 1, f', by rw [saveLoop, hblock]; exact hrun, ?_, ?_⟩
    · rw [hreads, length_cons]
      simp only
      omega
    · rw [hsent, append_assoc, singleton_append]

/-- **A read fails**: the loop makes more reads than there are chunks. -/
lemma reads_of_saveLoop (hrun : saveLoop read fuel ds f = some f') :
    f.reads + (chunks 0 ds).length ≤ f'.reads ∧
      ∀ n, f.reads ≤ n → n < f.reads + (chunks 0 ds).length → read n < 0 →
        f.reads + (chunks 0 ds).length < f'.reads := by
  induction fuel generalizing ds f with
  | zero => cases hrun
  | succ fuel ih =>
    obtain ⟨ds', hspec⟩ := blkMigSaveDirtyBlock_spec read 0 ds f
    rw [saveLoop] at hrun
    cases hl : chunks 0 ds with
    | nil =>
      rw [hl] at hspec
      rw [hspec] at hrun
      cases hrun
      simp
      omega
    | cons p l =>
      rw [hl] at hspec
      rw [hspec.1] at hrun
      obtain ⟨hle, hlt⟩ := ih hrun
      rw [hspec.2] at hle hlt
      by_cases hfail : read f.reads < 0
      · simp only [Stream.next, left, if_pos hfail, length_cons] at hle ⊢
        exact ⟨by omega, fun _ _ _ _ => by omega⟩
      simp only [Stream.next, left, if_neg hfail, tail_cons, length_cons] at hle hlt ⊢
      refine ⟨by omega, fun n h₁ h₂ hn => ?_⟩
      have hne : n ≠ f.reads := fun h => hfail (h ▸ hn)
      have := hlt n (by omega) (by omega) hn
      omega

lemma not_completesRight {bitmaps : List (List Bool)} {error : ℤ} {n : ℕ} (herror : error = 0)
    (hn : n < (chunks 0 (bitmaps.map (⟨0, ·⟩))).length) (hneg : read n < 0) :
    ¬ CompletesRight read bitmaps error := by
  rintro ⟨fuel, f, ret, hrun, -, hfail⟩
  rw [blockSaveComplete, if_neg (not_not.mpr herror)] at hrun
  obtain ⟨_, hloop, heq⟩ := Option.map_eq_some_iff.mp hrun
  obtain ⟨rfl, -⟩ := Prod.mk.inj heq
  have hmore := (reads_of_saveLoop hloop).2 n (Nat.zero_le n) (by simpa using hn) hneg
  simp only [Nat.zero_add] at hmore
  have hlast := hfail n (hn.trans hmore) hneg
  omega

/-- **When a read error ends it**: an error is set before, or none of as many reads fails as there
are dirty chunks. -/
theorem blockSaveComplete_right_iff (read : ℕ → ℤ) (bitmaps : List (List Bool)) (error : ℤ) :
    CompletesRight read bitmaps error ↔
      error ≠ 0 ∨ ∀ n < (chunks 0 (bitmaps.map (⟨0, ·⟩))).length, 0 ≤ read n := by
  by_cases herror : error ≠ 0
  · exact iff_of_true ⟨0, _, _, if_pos herror, nodup_nil, nofun⟩ (.inl herror)
  rw [or_iff_right herror]
  constructor
  · intro h n hn
    exact not_lt.mp fun hneg => not_completesRight (not_not.mp herror) hn hneg h
  intro hread
  obtain ⟨fuel, f, hrun, hreads, hsent⟩ :=
    saveLoop_of_success (f := ⟨0, [], error⟩) fun n _ hn => hread n (by simpa using hn)
  refine ⟨fuel, f, f.lastError, by rw [blockSaveComplete, if_neg herror, hrun]; rfl, ?_,
    fun n hn hneg => ?_⟩
  · rw [hsent]
    exact chunks_nodup.1
  · exact absurd (hread n (by simpa [hreads] using hn)) (not_le.mpr hneg)

/-- A read that fails every time. -/
theorem blockSaveComplete_goes_on : ¬ ∀ read bitmaps error, CompletesRight read bitmaps error :=
  fun h => not_completesRight rfl (n := 0) (by decide) (by decide) (h (fun _ => -5) [[true]] 0)

end Qemu.Block.SaveComplete
