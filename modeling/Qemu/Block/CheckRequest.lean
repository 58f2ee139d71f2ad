import Mathlib
import Qemu.Lib.Errno

/-!
# The bounds check of requests

`bdrv_check_request` of `block.c` turns a sector number and a count into bytes, in 64-bit
arithmetic, and compares them with the length of the device.  `bdrv_co_do_readv` and
`bdrv_co_do_writev` rely on it for all that they pass to the driver.  A copy-on-read goes on to read
whole clusters (`roundToClusters`), which are not checked again.

**Main results:**
* `roundToClusters_eq` — the clusters of a request, and the count of their sectors cut to an `int`.
* `bdrvCheckRequest_eq_zero_iff` — a request is accepted iff it, or one with the same byte offset
  modulo 2^64, is in range.
* `bdrvCheckRequest_guards_iff` — which requests the check keeps inside the device.
-/

namespace Qemu.Block.CheckRequest

open BitVec

/-! ## Clusters -/

/-- `QEMU_ALIGN_DOWN`. -/
def alignDown (n m : BitVec 64) : BitVec 64 := n.sdiv m * m

/-- `QEMU_ALIGN_UP`. -/
def alignUp (n m : BitVec 64) : BitVec 64 := alignDown (n + m - 1) m

/-- `round_to_clusters`, for clusters of `c` sectors, or 0 if the driver does not know them.  The
count is kept in an `int`. -/
def roundToClusters (c sectorNum : BitVec 64) (nbSectors : BitVec 32) : BitVec 64 × BitVec 32 :=
  if c = 0 then (sectorNum, nbSectors)
  else
    let clusterSectorNum := alignDown sectorNum c
    (clusterSectorNum,
      (alignUp (sectorNum - clusterSectorNum + nbSectors.signExtend 64) c).setWidth 32)

/-- The sectors of the clusters of a request, from the first of them on. -/
def roundedNb (c sector nb : ℕ) : ℕ := (sector % c + nb + c - 1) / c * c

lemma toNat_alignDown {n m : BitVec 64} (hn : n.toNat < 2 ^ 63) (hm : m.toNat < 2 ^ 63) :
    (alignDown n m).toNat = n.toNat / m.toNat * m.toNat := by
  have hn' : n.msb = false := msb_eq_false_iff_two_mul_lt.mpr (by omega)
  have hm' : m.msb = false := msb_eq_false_iff_two_mul_lt.mpr (by omega)
  have hle := Nat.div_mul_le_self n.toNat m.toNat
  have hdiv : (n.sdiv m).toNat = n.toNat / m.toNat := by simp [sdiv_eq, hn', hm']
  rw [alignDown, toNat_mul, hdiv, Nat.mod_eq_of_lt (by omega)]

lemma toNat_signExtend_of_lt {n : BitVec 32} (h : n.toNat < 2 ^ 31) :
    (n.signExtend 64).toNat = n.toNat := by
  rw [signExtend_eq_setWidth_of_msb_false (msb_eq_false_iff_two_mul_lt.mpr (by omega)),
    toNat_setWidth_of_le (by decide)]

/-- What `round_to_clusters` makes of a request that does not come near the end of the 64 bits. -/
lemma roundToClusters_eq {c sectorNum : BitVec 64} {nbSectors : BitVec 32} (hc : c ≠ 0)
    (hclt : c.toNat < 2 ^ 22) (hs : sectorNum.toNat < 2 ^ 55) (hnb : nbSectors.toNat < 2 ^ 31) :
    (roundToClusters c sectorNum nbSectors).1.toNat = sectorNum.toNat / c.toNat * c.toNat ∧
      (roundToClusters c sectorNum nbSectors).2 =
        BitVec.ofNat 32 (roundedNb c.toNat sectorNum.toNat nbSectors.toNat) := by
  have hpos : 0 < c.toNat := Nat.pos_of_ne_zero fun h => hc (eq_of_toNat_eq h)
  have hmod := Nat.mod_lt sectorNum.toNat hpos
  have hdiv := Nat.div_add_mod' sectorNum.toNat c.toNat
  have hdown : (alignDown sectorNum c).toNat = sectorNum.toNat / c.toNat * c.toNat :=
    toNat_alignDown (by omega) (by omega)
  have hsum : (sectorNum - alignDown sectorNum c + nbSectors.signExtend 64 + c - 1).toNat =
      sectorNum.toNat % c.toNat + nbSectors.toNat + c.toNat - 1 := by
    rw [toNat_sub, toNat_add, toNat_add, toNat_sub, hdown, toNat_signExtend_of_lt hnb]
    simp
    omega
  rw [roundToClusters, if_neg hc]
  refine ⟨hdown, eq_of_toNat_eq ?_⟩
  rw [toNat_setWidth, alignUp, toNat_alignDown (by omega) (by omega), hsum, toNat_ofNat, roundedNb]

/-! ## Requests -/

/-- What the request functions read of a device.  `clusterSectors` is 0 if the driver does not know
its clusters; the size of a cluster in bytes is an `int`.  `isAllocated` are the answers of
`bdrv_co_is_allocated`. -/
structure BlockDriverState where
  drv : Bool
  mediumInserted : Bool
  growable : Bool
  readOnly : Bool
  copyOnRead : Bool
  length : BitVec 64
  clusterSectors : BitVec 64
  clusterSectors_lt : clusterSectors.toNat < 2 ^ 22
  isAllocated : BitVec 64 → BitVec 32 → ℤ × BitVec 32

variable (bs : BlockDriverState) (sectorNum : BitVec 64) (nbSectors : BitVec 32)

/-- `bdrv_is_inserted`. -/
def bdrvIsInserted : Bool := bs.drv && bs.mediumInserted

/-- `bdrv_check_byte_request`.  The last comparison is unsigned, as `size` is. -/
def bdrvCheckByteRequest (offset size : BitVec 64) : ℤ :=
  if !bdrvIsInserted bs then -enomedium
  else if bs.growable then 0
  else if offset.slt 0 then -eio
  else if bs.length.slt offset || (bs.length - offset).ult size then -eio
  else 0

/-- `bdrv_check_request`.  `BDRV_SECTOR_SIZE` is an `unsigned long long`. -/
def bdrvCheckRequest : ℤ :=
  bdrvCheckByteRequest bs (sectorNum * 512) (nbSectors.signExtend 64 * 512)

/-- The sectors that `bdrv_co_do_readv` has the driver access, or its error.  `flag` is
`BDRV_REQ_COPY_ON_READ`. -/
def bdrvCoDoReadv (flag : Bool) : Except ℤ (BitVec 64 × BitVec 32) :=
  if !bs.drv then .error (-enomedium)
  else if bdrvCheckRequest bs sectorNum nbSectors ≠ 0 then .error (-eio)
  else if flag || bs.copyOnRead then
    let (ret, pnum) := bs.isAllocated sectorNum nbSectors
    if ret < 0 then .error ret
    else if ret = 0 ∨ pnum ≠ nbSectors then
      .ok (roundToClusters bs.clusterSectors sectorNum nbSectors)
    else .ok (sectorNum, nbSectors)
  else .ok (sectorNum, nbSectors)

/-- The same for `bdrv_co_do_writev`. -/
def bdrvCoDoWritev : Except ℤ (BitVec 64 × BitVec 32) :=
  if !bs.drv then .error (-enomedium)
  else if bs.readOnly then .error (-eacces)
  else if bdrvCheckRequest bs sectorNum nbSectors ≠ 0 then .error (-eio)
  else .ok (sectorNum, nbSectors)

/-! ## Requests in range -/

/-- The request lies inside the device, in exact arithmetic. -/
def InRange (bs : BlockDriverState) (request : BitVec 64 × BitVec 32) : Prop :=
  0 ≤ request.1.toInt ∧ 0 ≤ request.2.toInt ∧
    (request.1.toInt + request.2.toInt) * 512 ≤ bs.length.toInt

instance (request : BitVec 64 × BitVec 32) : Decidable (InRange bs request) :=
  inferInstanceAs (Decidable (_ ∧ _ ∧ _))

/-- The check accepts only requests in range, and only such requests reach the driver. -/
structure Guards (flag : Bool) : Prop where
  check : bdrvCheckRequest bs sectorNum nbSectors = 0 → InRange bs (sectorNum, nbSectors)
  read : ∀ r, bdrvCoDoReadv bs sectorNum nbSectors flag = .ok r → InRange bs r
  write : ∀ r, bdrvCoDoWritev bs sectorNum nbSectors = .ok r → InRange bs r

/-- The read is made by `bdrv_co_do_copy_on_readv`. -/
def Copies (flag : Bool) : Prop :=
  (flag || bs.copyOnRead) = true ∧ 0 ≤ (bs.isAllocated sectorNum nbSectors).1 ∧
    ((bs.isAllocated sectorNum nbSectors).1 = 0 ∨
      (bs.isAllocated sectorNum nbSectors).2 ≠ nbSectors)

/-- The end of the clusters of the request is not behind the end of the device, and the count of
their sectors fits an `int`. -/
def ClustersInRange : Prop :=
  let c := bs.clusterSectors.toNat
  c = 0 ∨ roundedNb c sectorNum.toNat nbSectors.toNat < 2 ^ 31 ∧
    ((sectorNum.toNat / c * c + roundedNb c sectorNum.toNat nbSectors.toNat : ℕ) : ℤ) * 512 ≤
      bs.length.toInt

instance : Decidable (ClustersInRange bs sectorNum nbSectors) :=
  inferInstanceAs (Decidable (_ ∨ _ ∧ _))

variable {bs sectorNum nbSectors}

lemma inRange_iff {offset : BitVec 64} (hoff : sectorNum.toNat * 512 = offset.toNat) :
    InRange bs (sectorNum, nbSectors) ↔ ¬ offset.slt 0 ∧ ¬ bs.length.slt offset ∧
        ¬ (bs.length - offset).ult (nbSectors.signExtend 64 * 512) := by
  have hsize : (nbSectors.signExtend 64 * 512).toNat = (nbSectors.toInt * 512 % 2 ^ 64).toNat := by
    rw [← toInt_signExtend_of_le (v := 64) (by decide), toNat_mul,
      show (512 : BitVec 64).toNat = 512 from rfl]
    have hext := toInt_eq_toNat_cond (nbSectors.signExtend 64)
    split at hext <;> omega
  have hnb := toInt_eq_toNat_cond nbSectors
  have hs := toInt_eq_toNat_cond sectorNum
  have hlen := toInt_eq_toNat_cond bs.length
  have ho := toInt_eq_toNat_cond offset
  simp only [InRange, BitVec.slt, BitVec.ult, decide_eq_true_eq, hsize, toNat_sub,
    show (0 : BitVec 64).toInt = 0 from rfl]
  split at hnb <;> split at hs <;> split at hlen <;> split at ho <;> omega

/-- The byte offset of a request in range has not wrapped. -/
lemma InRange.toNat_mul (h : InRange bs (sectorNum, nbSectors)) :
    sectorNum.toNat * 512 = (sectorNum * 512).toNat := by
  obtain ⟨hs0, hnb0, hle⟩ : 0 ≤ sectorNum.toInt ∧ 0 ≤ nbSectors.toInt ∧
    (sectorNum.toInt + nbSectors.toInt) * 512 ≤ bs.length.toInt := h
  have hs := toInt_eq_toNat_cond sectorNum
  have hlen := toInt_lt (x := bs.length)
  rw [BitVec.toNat_mul, show (512 : BitVec 64).toNat = 512 from rfl]
  split at hs <;> omega

/-- A request is accepted iff it, or one with the same byte offset modulo 2^64, is in range. -/
theorem bdrvCheckRequest_eq_zero_iff (hfix : bs.growable = false) :
    bdrvCheckRequest bs sectorNum nbSectors = 0 ↔ bdrvIsInserted bs = true ∧
        ∃ sector : BitVec 64, sector * 512 = sectorNum * 512 ∧ InRange bs (sector, nbSectors) := by
  have h512 : (512 : BitVec 64).toNat = 512 := rfl
  have hcheck : bdrvCheckRequest bs sectorNum nbSectors = 0 ↔
      bdrvIsInserted bs = true ∧ ¬ (sectorNum * 512).slt 0 ∧ ¬ bs.length.slt (sectorNum * 512) ∧
        ¬ (bs.length - sectorNum * 512).ult (nbSectors.signExtend 64 * 512) := by
    simp only [bdrvCheckRequest, bdrvCheckByteRequest, hfix, eio, enomedium]
    grind
  rw [hcheck]
  refine and_congr_right fun _ => ⟨fun h => ?_, ?_⟩
  · -- The sector number without its nine highest bits has the same byte offset, unwrapped.
    have hoff : (sectorNum * 512 / 512).toNat * 512 = (sectorNum * 512).toNat := by
      rw [toNat_udiv, toNat_mul, h512]
      omega
    refine ⟨sectorNum * 512 / 512, eq_of_toNat_eq ?_, (inRange_iff hoff).mpr h⟩
    rw [toNat_mul, h512, hoff]
    exact Nat.mod_eq_of_lt (isLt _)
  · rintro ⟨sector, heq, hin⟩
    rw [← heq]
    exact (inRange_iff hin.toNat_mul).mp hin

lemma roundedNb_le (c sector nb : ℕ) : roundedNb c sector nb ≤ c + nb + c := by
  rcases Nat.eq_zero_or_pos c with rfl | hpos
  · simp [roundedNb]
  have hmod := Nat.mod_lt sector hpos
  have hle := Nat.div_mul_le_self (sector % c + nb + c - 1) c
  rw [roundedNb]
  omega

lemma inRange_rounded_iff (h : InRange bs (sectorNum, nbSectors)) :
    InRange bs (roundToClusters bs.clusterSectors sectorNum nbSectors) ↔
      ClustersInRange bs sectorNum nbSectors := by
  by_cases hc : bs.clusterSectors = 0
  · rw [roundToClusters, if_pos hc]
    exact iff_of_true h (.inl (by simp [hc]))
  obtain ⟨hs, hnb, hle⟩ : 0 ≤ sectorNum.toInt ∧ 0 ≤ nbSectors.toInt ∧
    (sectorNum.toInt + nbSectors.toInt) * 512 ≤ bs.length.toInt := h
  have hlen := toInt_lt (x := bs.length)
  have hclt := bs.clusterSectors_lt
  have hs' := toInt_eq_toNat_cond sectorNum
  have hnb' := toInt_eq_toNat_cond nbSectors
  have hslt : sectorNum.toNat < 2 ^ 55 := by
    split at hs' <;> omega
  have hnblt : nbSectors.toNat < 2 ^ 31 := by
    split at hnb' <;> omega
  have hc' : bs.clusterSectors.toNat ≠ 0 := fun h => hc (eq_of_toNat_eq h)
  obtain ⟨hstart, hcount⟩ := roundToClusters_eq hc hclt hslt hnblt
  have hrounded := roundedNb_le bs.clusterSectors.toNat sectorNum.toNat nbSectors.toNat
  have hdown := Nat.div_mul_le_self sectorNum.toNat bs.clusterSectors.toNat
  have hstart' := toInt_eq_toNat_cond (roundToClusters bs.clusterSectors sectorNum nbSectors).1
  have hcount' := toInt_eq_toNat_cond (roundToClusters bs.clusterSectors sectorNum nbSectors).2
  rw [hstart, if_pos (by omega)] at hstart'
  rw [hcount, toNat_ofNat, Nat.mod_eq_of_lt (by omega)] at hcount'
  simp only [InRange, ClustersInRange, hc', false_or, hstart', hcount]
  split at hcount' <;> omega

/-- The check keeps a request inside the device iff no other sector number with the same byte offset
modulo 2^64 is in range, and the clusters that copy-on-read reads end inside the device and their
sectors can be counted. -/
theorem bdrvCheckRequest_guards_iff (bs : BlockDriverState) (hfix : bs.growable = false)
    (sectorNum : BitVec 64) (nbSectors : BitVec 32) (flag : Bool) :
    Guards bs sectorNum nbSectors flag ↔ (bdrvIsInserted bs = true →
        (∀ sector : BitVec 64, sector * 512 = sectorNum * 512 → InRange bs (sector, nbSectors) →
          sector = sectorNum) ∧
        (InRange bs (sectorNum, nbSectors) → Copies bs sectorNum nbSectors flag →
          ClustersInRange bs sectorNum nbSectors)) := by
  have hzero : bdrvCheckRequest bs sectorNum nbSectors = 0 ↔ _ := bdrvCheckRequest_eq_zero_iff hfix
  constructor
  · intro hg hins
    have hdrv : bs.drv = true := (Bool.and_eq_true_iff.mp hins).1
    constructor
    · intro sector heq hin
      have hin' := hg.check (hzero.mpr ⟨hins, sector, heq, hin⟩)
      have hnat := hin.toNat_mul
      rw [heq, ← hin'.toNat_mul] at hnat
      exact eq_of_toNat_eq (by omega)
    · rintro hin ⟨hflag, hret, hcopy⟩
      have hok := hzero.mpr ⟨hins, sectorNum, rfl, hin⟩
      refine (inRange_rounded_iff hin).mp (hg.read _ ?_)
      simp [bdrvCoDoReadv, hdrv, hok, hflag, hcopy, hret]
  · intro h
    have hcheck : bdrvCheckRequest bs sectorNum nbSectors = 0 →
        InRange bs (sectorNum, nbSectors) := by
      intro hok
      obtain ⟨hins, sector, heq, hin⟩ := hzero.mp hok
      exact (h hins).1 sector heq hin ▸ hin
    refine ⟨hcheck, fun r hr => ?_, fun r hr => ?_⟩
    · have hcopies : bdrvIsInserted bs = true → InRange bs (sectorNum, nbSectors) →
          Copies bs sectorNum nbSectors flag → InRange bs
            (roundToClusters bs.clusterSectors sectorNum nbSectors) := fun hins hin hcopy =>
        (inRange_rounded_iff hin).mpr ((h hins).2 hin hcopy)
      unfold bdrvCoDoReadv at hr
      unfold Copies at hcopies
      grind
    · unfold bdrvCoDoWritev at hr
      grind

lemma oneSector_clusters : (8 : BitVec 64).toNat < 2 ^ 22 := by decide

/-- A device of one sector, with copy-on-read to clusters of eight sectors. -/
def oneSector : BlockDriverState :=
  ⟨true, true, false, false, true, 512, 8, oneSector_clusters, fun _ _ => (0, 1)⟩

theorem oneSector_copied_beyond_end : InRange oneSector (0, 1) ∧ ¬ Guards oneSector 0 1 false := by
  refine ⟨by decide, fun h => ?_⟩
  have hround := ((bdrvCheckRequest_guards_iff oneSector rfl 0 1 false).mp h rfl).2
  exact absurd (hround (by decide) ⟨rfl, by decide, .inl rfl⟩) (by decide)

/-- Sector 2^55 is accepted as sector 0 is: its byte offset is 2^64. -/
theorem bdrvCheckRequest_wraps :
    ¬ ∀ bs : BlockDriverState, bs.growable = false → ∀ sectorNum nbSectors flag,
      Guards bs sectorNum nbSectors flag := by
  intro h
  have hin := (h oneSector rfl (1 <<< 55) 1 false).check (by decide)
  exact absurd hin (by decide)

end Qemu.Block.CheckRequest
