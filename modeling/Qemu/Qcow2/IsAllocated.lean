import Qemu.Qcow2.Read

/-!
# Sectors that are not allocated

`qcow2_co_is_allocated` takes the sectors of a lookup for allocated if the cluster offset that the
lookup returns is not 0.  The offset is 0 where nothing is allocated, but also for zero clusters and
for compressed clusters whose offset and size fields are 0, which are not read from the backing
file.

A lookup sees an offset cut off at the range of its L1 index, so what is said about its entries is
said about `Tables.lookupEntry`.

**Main results:**
- `lookup_spec`: the answer of a lookup in terms of the entries that it sees
- `readPiece_hidden`: a round for sectors that are reported as not allocated
- `notAllocated_reads_backing_iff`: such sectors read as the backing file exactly if the entries
  that look like unallocated ones happen to read as it
-/

namespace Qemu.Qcow2.Lookup

open Nat

variable {g : Geometry} {Sector : Type}

/-- `qcow2_co_is_allocated`: whether the sectors are allocated, and `*pnum`. -/
def qcow2CoIsAllocated (img : Image g Sector) (sectorNum nbSectors : ℕ) : Option (Bool × ℕ) :=
  match qcow2GetClusterOffset g img.tables (512 * sectorNum) nbSectors with
  | none => none
  -- the cluster offset is set to 0 before the L2 table is loaded
  | some (.error _) => some (false, 0)
  | some (.ok (_, n, clusterOffset)) => some (decide (clusterOffset ≠ 0#64), n)

/-- A read that succeeds returns the sectors of the backing file, and succeeds if no request to a
file fails. -/
def ReadsBacking [Zero Sector] (img : Image g Sector) (s n : ℕ) : Prop :=
  ∀ cache, img.CacheOk cache → ∃ r cache', qcow2CoReadv img cache s n = some (r, cache') ∧
    (∀ buf, r = .ok buf → buf = (List.range n).map fun i => img.backingSector (s + i)) ∧
    (img.NoErrors → ∃ buf, r = .ok buf)

/-- Sectors that are reported as not allocated read as the backing file. -/
def NotAllocatedReadsBacking [Zero Sector] (img : Image g Sector) : Prop :=
  ∀ s nbSectors pnum, qcow2CoIsAllocated img s nbSectors = some (false, pnum) →
    ReadsBacking img s pnum

def Tables.lookupEntry (tables : Tables g) (s : ℕ) : Except ℤ (BitVec 64) :=
  tables.entryAt (wrapOffset g (512 * s))

/-- If a lookup returns the cluster offset 0 for the sector, it reads as the backing file. -/
def Image.Honest [Zero Sector] (img : Image g Sector) (s : ℕ) : Prop :=
  ∀ l2Entry, img.tables.lookupEntry s = .ok l2Entry →
    match qcow2GetClusterType l2Entry with
    | .unallocated | .normal => True
    | .zero => (img.NoErrors → 3 ≤ img.qcowVersion) ∧
        (3 ≤ img.qcowVersion → img.backingSector s = 0)
    | .compressed => l2Entry &&& l2eCompressedOffsetSizeMask = 0#64 →
        (img.NoErrors → img.inflated 0 1 ≠ none) ∧
          ∀ nbCsectors data, img.inflated 0 nbCsectors = some data →
            data (s % clusterSectors g) = img.backingSector s

/-! ## Lookups -/

section Lookup

variable {tables : Tables g} {s num : ℕ}

/-- A lookup stays inside of an L2 table, and returns no offset for clusters without data. -/
lemma lookup_bounds {offset n : ℕ} {type : ClusterType} {clusterOffset : BitVec 64}
    (h : qcow2GetClusterOffset g tables offset num = some (.ok (type, n, clusterOffset))) :
    n ≤ num ∧ n ≤ (l1Span g - offset % l1Span g) / 512 ∧
      (type = .unallocated ∨ type = .zero → clusterOffset = 0#64) := by
  simp only [qcow2GetClusterOffset] at h
  cases hl1 : tables.l1Table[offset / l1Span g % 2 ^ 32]? with
  | none =>
    simp only [hl1, Option.some.injEq, Except.ok.injEq, Prod.mk.injEq] at h
    exact ⟨by omega, by omega, fun _ => h.2.2.symm⟩
  | some l1Entry =>
    simp only [hl1] at h
    split_ifs at h with hzero
    · simp only [Option.some.injEq, Except.ok.injEq, Prod.mk.injEq] at h
      exact ⟨by omega, by omega, fun _ => h.2.2.symm⟩
    cases hload : tables.l2Load (l1Entry &&& l2eOffsetMask) with
    | error => simp [hload] at h
    | ok table =>
      cases hentry : table.entries[offset / g.clusterSize % g.l2Size]? with
      | none => simp [hload, hentry] at h
      | some l2Entry =>
        simp only [hload, hentry] at h
        split at h
        · simp at h
        next c clusterOffset' htake =>
          simp only [Option.some.injEq, Except.ok.injEq, Prod.mk.injEq] at h
          obtain ⟨rfl, hn, rfl⟩ := h
          refine ⟨by omega, by omega, fun htype => ?_⟩
          rcases htype with htype | htype <;>
            simp only [takeTogether, htype, Option.map_eq_some_iff, Prod.mk.injEq] at htake
          · exact htake.choose_spec.2.2.symm
          · exact htake.choose_spec.2.2.symm

lemma wrapOffset_later {i : ℕ} (h : 512 * s % l1Span g + 512 * i < l1Span g) :
    wrapOffset g (512 * (s + i)) = wrapOffset g (512 * s) + 512 * i := by
  rw [Nat.mul_add, wrapOffset, wrapOffset, ← mod_add_mod, mod_eq_of_lt]
  have hlt := mod_lt (512 * s / l1Span g) (show 0 < 2 ^ 32 by norm_num)
  have hle := Nat.mul_le_mul_left (l1Span g) (succ_le_of_lt hlt)
  rw [mul_succ] at hle
  rw [mod_mul]
  omega

/-- What the answer of a lookup for the sectors from `s` on says about the `i`-th of them. -/
def Tables.Sees (tables : Tables g) (s : ℕ) (type : ClusterType)
    (clusterOffset : BitVec 64) (i : ℕ) :
    Prop :=
  ∃ l2Entry, tables.lookupEntry (s + i) = .ok l2Entry ∧ qcow2GetClusterType l2Entry = type ∧
    (type = .normal → clusterOffset ≠ 0#64) ∧
    (type = .compressed → clusterOffset = l2Entry &&& l2eCompressedOffsetSizeMask ∧
      s % clusterSectors g + i < clusterSectors g)

lemma lookup_spec (tables : Tables g) (s : ℕ) (hnum : 0 < num) :
    ∃ r, qcow2GetClusterOffset g tables (512 * s) num = some r ∧
    (∀ ret, r = .error ret → tables.lookupEntry s = .error ret) ∧
    ∀ type n clusterOffset, r = .ok (type, n, clusterOffset) → 0 < n ∧ n ≤ num ∧
      (type = .unallocated ∨ type = .zero → clusterOffset = 0#64) ∧
      ∀ i < n, tables.Sees s type clusterOffset i := by
  obtain ⟨s', hs'⟩ := wrapOffset_sector (g := g) s
  have hl1 : 512 * s' / l1Span g < 2 ^ 32 := by
    rw [← hs', wrapOffset_div]
    exact mod_lt _ (by norm_num)
  have hmod : s' % clusterSectors g = s % clusterSectors g := by
    have hdvd : g.clusterSize ∣ l1Span g * 2 ^ 32 := (Dvd.intro_left g.l2Size rfl).mul_right _
    have := congrArg (· % g.clusterSize) hs'
    simp only [wrapOffset, mod_mod_of_dvd _ hdvd, sector_mod_cluster] at this
    omega
  obtain ⟨r, hr, hanswer⟩ := rightAnswer_of_lt tables hnum hl1
  have hrun : qcow2GetClusterOffset g tables (512 * s) num = some r := by
    rw [getClusterOffset_wrapOffset, hs', hr]
  refine ⟨r, hrun, ?_, ?_⟩
  · rintro ret rfl
    rw [Tables.lookupEntry, hs']
    exact entryAt_of_error tables hl1 hr
  rintro type n clusterOffset rfl
  obtain ⟨hpos, hle, hall⟩ := hanswer _ _ _ rfl
  obtain ⟨-, hspan, hzero⟩ := lookup_bounds hrun
  refine ⟨hpos, hle, hzero, fun i hi => ?_⟩
  obtain ⟨l2Entry, hentry, htype, hnormal, hcompressed⟩ := hall i hi
  refine ⟨l2Entry, ?_, htype, fun hn hoff => ?_, fun hc => ?_⟩
  · rw [Tables.lookupEntry, wrapOffset_later (by omega), hs', hentry]
  · -- the first entry has the offset that is returned
    obtain ⟨first, -, hfirst, hoffset, -⟩ := hall 0 hpos
    have hsum := hoffset hn
    rw [mul_zero, add_zero, add_zero, sector_mod_cluster, hoff,
      Nat.mul_div_cancel_left s' (by norm_num)] at hsum
    refine (getClusterType_eq_normal_iff.mp (hfirst.trans hn)).2.2 (BitVec.eq_of_toNat_eq ?_)
    simp only [BitVec.toNat_ofNat, zero_mod] at hsum ⊢
    omega
  · have := hcompressed hc
    rwa [Nat.mul_div_cancel_left s' (by norm_num), hmod] at this

end Lookup

/-! ## Reads of sectors that are reported as not allocated -/

section Hidden

variable [Zero Sector] {img : Image g Sector} {cache cache' : ClusterCache Sector}

/-- The lookup returns the cluster offset 0 for the sector. -/
def Image.Hidden (img : Image g Sector) (s : ℕ) : Prop :=
  ∃ l2Entry, img.tables.lookupEntry s = .ok l2Entry ∧ qcow2GetClusterType l2Entry ≠ .normal ∧
    (qcow2GetClusterType l2Entry = .compressed → l2Entry &&& l2eCompressedOffsetSizeMask = 0#64)

def Image.IsBacking (img : Image g Sector) (s : ℕ) (sector : Sector) : Prop :=
  sector = img.backingSector s

section Honest

variable {s n : ℕ} {type : ClusterType} (hhonest : ∀ q, img.Honest q)
  (hall : ∀ i < n, img.tables.Sees s type 0#64 i)
include hhonest hall

lemma isBacking_of_shows {i : ℕ} {sector : Sector} (hi : i < n)
    (hshows : img.Shows s type 0#64 i sector) : img.IsBacking (s + i) sector := by
  obtain ⟨l2Entry, hentry, htype, hnormal, hcompressed⟩ := hall i hi
  have hcase := hhonest _ l2Entry hentry
  simp only [htype] at hcase
  cases type with
  | normal => exact absurd rfl (hnormal rfl)
  | unallocated => exact hshows
  | zero => exact hshows.2.trans (hcase.2 hshows.1).symm
  | compressed =>
    obtain ⟨nb, data, hinflated, hsector⟩ := hshows
    obtain ⟨hoffset, hlt⟩ := hcompressed rfl
    rw [show coffset g 0#64 = 0 by simp [coffset]] at hinflated
    have hdata := (hcase hoffset.symm).2 nb data hinflated
    rw [← mod_add_mod, mod_eq_of_lt hlt] at hdata
    exact hsector.trans hdata

lemma follows_of_honest (hpos : 0 < n) (hno : img.NoErrors) : img.Follows type 0#64 := by
  obtain ⟨l2Entry, hentry, htype, hnormal, hcompressed⟩ := hall 0 hpos
  have hcase := hhonest _ l2Entry hentry
  simp only [htype] at hcase
  cases type with
  | normal => exact absurd rfl (hnormal rfl)
  | unallocated => trivial
  | zero => exact hcase.1 hno
  | compressed => simpa [Image.Follows, coffset,
      nbCsectors] using (hcase (hcompressed rfl).1.symm).1 hno

end Honest

lemma readPiece_hidden (hcache : img.CacheOk cache) {s remaining : ℕ} (hremaining : 0 < remaining)
    (hhonest : ∀ q, img.Honest q) (hhidden : ∀ i < remaining, img.Hidden (s + i)) :
    RoundReads img Set.univ img.IsBacking img.NoErrors cache s remaining := by
  have hnum : 0 < img.curNrSectors remaining := curNrSectors_pos hremaining
  obtain ⟨r₀, hrun, herror, hanswer⟩ := lookup_spec img.tables s hnum
  rcases r₀ with ret | ⟨type, n, clusterOffset⟩
  · obtain ⟨l2Entry, hentry, -⟩ := hhidden 0 hremaining
    rw [add_zero, herror ret rfl] at hentry
    cases hentry
  obtain ⟨hpos, hn, hzero, hall⟩ := hanswer _ _ _ rfl
  obtain rfl : clusterOffset = 0#64 := by
    obtain ⟨l2Entry, hentry, htype, -, hcompressed⟩ := hall 0 hpos
    obtain ⟨l2Entry', hentry', hne, hfields⟩ := hhidden 0 hremaining
    obtain rfl : l2Entry = l2Entry' := Except.ok.inj (hentry.symm.trans hentry')
    rw [htype] at hne hfields
    cases type with
    | unallocated => exact hzero (.inl rfl)
    | zero => exact hzero (.inr rfl)
    | compressed => rw [(hcompressed rfl).1, hfields rfl]
    | normal => exact absurd rfl hne
  exact readPiece_reads hcache (fun _ => trivial) hrun hpos hn
    (fun i hi _ => isBacking_of_shows hhonest hall hi)
    fun hno => ⟨hno, follows_of_honest hhonest hall hpos hno⟩

lemma readsBacking_of_hidden {s n : ℕ} (hhonest : ∀ q, img.Honest q)
    (hhidden : ∀ i < n, img.Hidden (s + i)) : ReadsBacking img s n := by
  intro cache hcache
  obtain ⟨r, cache', hrun, hok, hsucceeds⟩ := readLoop_reads n cache s n le_rfl rfl hcache
    fun cache s' remaining hs hpos hstop hcache =>
      readPiece_hidden hcache hpos hhonest fun i hi => by
      simpa [show s + (s' - s + i) = s' + i by omega] using hhidden (s' - s + i) (by omega)
  refine ⟨r, cache', hrun, fun buf hbuf => ?_, hsucceeds⟩
  obtain ⟨hlen, hall, -⟩ := hok buf hbuf
  refine List.ext_getElem (by simp [hlen]) fun i hi _ => ?_
  simpa [Image.IsBacking] using hall i hi

lemma ReadsBacking.one {s : ℕ} {type : ClusterType} {clusterOffset : BitVec 64}
    (h : ReadsBacking img s 1)
    (hlookup : qcow2GetClusterOffset g img.tables (512 * s) 1 = some (.ok (type, 1, clusterOffset)))
    (cache : ClusterCache Sector) (hcache : img.CacheOk cache) :
    (∀ x, (readClusters img cache s type 1 clusterOffset).1 = .ok [x] → x = img.backingSector s) ∧
      (img.NoErrors → ∃ buf, (readClusters img cache s type 1 clusterOffset).1 = .ok buf) := by
  have hpos : 0 < img.curNrSectors 1 := curNrSectors_pos Nat.one_pos
  have hone : img.curNrSectors 1 = 1 := le_antisymm (curNrSectors_le 1) hpos
  obtain ⟨r, _, hrun, hdata, hsucceeds⟩ := h cache hcache
  simp only [qcow2CoReadv, readLoop, readPiece, hone, hlookup] at hrun
  rcases hread : readClusters img cache s type 1 clusterOffset with ⟨ret | data, cache₁⟩
  · simp only [hread, Option.some.injEq, Prod.mk.injEq, one_ne_zero, if_false] at hrun
    exact ⟨by simp, fun hno => absurd (hsucceeds hno) (by simp [← hrun.1])⟩
  simp only [hread, Option.some.injEq, Prod.mk.injEq, one_ne_zero, if_false, Nat.sub_self, if_true,
    List.append_nil] at hrun
  refine ⟨fun x hx => ?_, fun _ => ⟨_, rfl⟩⟩
  simpa using hdata [x] (hrun.1.symm.trans hx)

end Hidden

/-- **Sectors that are reported as not allocated read as the backing file** exactly if this holds
for the zero clusters, and for the compressed clusters whose fields are 0. -/
theorem notAllocated_reads_backing_iff [Zero Sector] (img : Image g Sector) :
    NotAllocatedReadsBacking img ↔ ∀ s, img.Honest s := by
  constructor
  · intro h s l2Entry hentry
    obtain ⟨r₀, hrun, herror, hanswer⟩ := lookup_spec img.tables s Nat.one_pos
    rcases r₀ with ret | ⟨type, n, clusterOffset⟩
    · rw [herror ret rfl] at hentry
      cases hentry
    obtain ⟨hpos, hn, hzero, hall⟩ := hanswer _ _ _ rfl
    obtain rfl : n = 1 := by omega
    obtain ⟨l2Entry', hentry', htype, -, hcompressed⟩ := hall 0 hpos
    obtain rfl : l2Entry = l2Entry' := Except.ok.inj (hentry.symm.trans hentry')
    have hreads : clusterOffset = 0#64 → ReadsBacking img s 1 := fun hoffset =>
      h s 1 1 (by simp [qcow2CoIsAllocated, hrun, hoffset])
    have hempty : img.CacheOk ⟨none, fun _ => 0⟩ := fun c _ hc => absurd hc (by simp)
    rw [htype]
    cases type with
    | unallocated | normal => trivial
    | zero =>
      obtain ⟨hdata, hsucceeds⟩ := (hreads (hzero (.inr rfl))).one hrun _ hempty
      by_cases hversion : img.qcowVersion < 3
      · simp only [readClusters, if_pos hversion] at hsucceeds
        exact ⟨fun hno => absurd (hsucceeds hno) (by simp), fun hge => by omega⟩
      · simp only [readClusters, if_neg hversion] at hdata
        exact ⟨fun _ => by omega, fun _ => (hdata 0 rfl).symm⟩
    | compressed =>
      intro hfields
      obtain rfl : clusterOffset = 0#64 := (hcompressed rfl).1.trans hfields
      have hcoffset : coffset g 0#64 = 0 := by simp [coffset]
      have hnb : nbCsectors g 0#64 = 1 := by simp [nbCsectors]
      refine ⟨fun hno hnone => ?_, fun nb data hinflated => ?_⟩
      · obtain ⟨-, hsucceeds⟩ := (hreads rfl).one hrun _ hempty
        simp [readClusters, qcow2DecompressCluster, hcoffset, hnb, hno.file, hnone] at hsucceeds
        exact hsucceeds hno
      · obtain ⟨hdata, -⟩ := (hreads rfl).one hrun ⟨some 0, data⟩
          fun c _ hc => ⟨nb, Option.some.inj hc ▸ hinflated⟩
        exact hdata _ (by simp [readClusters, qcow2DecompressCluster, hcoffset])
  · intro hhonest s nbSectors pnum hreport
    rw [qcow2CoIsAllocated] at hreport
    rcases hrun : qcow2GetClusterOffset g img.tables (512 * s) nbSectors with
      _ | ⟨ret | ⟨type, n, off⟩⟩
    · simp [hrun] at hreport
    · simp only [hrun, Option.some.injEq, Prod.mk.injEq, true_and] at hreport
      exact readsBacking_of_hidden hhonest fun i hi => absurd hi (by omega)
    · simp only [hrun, Option.some.injEq, Prod.mk.injEq, decide_eq_false_iff_not,
        not_not] at hreport
      obtain ⟨rfl, rfl⟩ := hreport
      refine readsBacking_of_hidden hhonest fun i hi => ?_
      have hle := (lookup_bounds hrun).1
      obtain ⟨r, hr, -, hanswer⟩ := lookup_spec img.tables s (show 0 < nbSectors by omega)
      cases hrun.symm.trans hr
      obtain ⟨l2Entry, hentry, htype, hnormal, hcompressed⟩ := (hanswer _ _ _ rfl).2.2.2 i hi
      refine ⟨l2Entry, hentry, fun hn => ?_, fun hc => ?_⟩
      · exact hnormal (htype.symm.trans hn) rfl
      · exact (hcompressed (htype.symm.trans hc)).1.symm

/-- An image with one zero cluster, over a backing file that is not zero there. -/
def zeroCluster : Image clusters512 ℕ :=
  { oneCluster with
    tables := { oneCluster.tables with
      l2Load := fun _ => .ok ⟨oflagZero :: List.replicate 63 0#64, rfl⟩ }
    file := { content := fun _ => 0, error := fun _ _ => none }
    backing := some { content := fun _ => 7, error := fun _ _ => none, totalSectors := 64 } }

/-- The cluster is reported as not allocated, and reads as zeros. -/
theorem zeroCluster_reads_zeros :
    ¬ ∀ (g : Geometry) (img : Image g ℕ), img.backing.isSome = true →
      NotAllocatedReadsBacking img := by
  intro h
  obtain ⟨r, cache', hrun, hdata, -⟩ :=
    h _ zeroCluster rfl 0 1 1 (by decide +kernel) ⟨none, fun _ => 0⟩
    fun c _ hc => absurd hc (by simp)
  have hzeros : (qcow2CoReadv zeroCluster ⟨none, fun _ => 0⟩ 0 1).map (·.1) = some (.ok [0]) := by
    decide +kernel
  rw [hrun, Option.map_some, Option.some.injEq] at hzeros
  exact absurd (hdata _ hzeros) (by decide +kernel)

end Qemu.Qcow2.Lookup
