import Qemu.Qcow2.ClusterOffset

/-!
# Reading guest sectors

`qcow2_co_readv` repeats `qcow2_get_cluster_offset` and reads what this returns in one piece: from
the backing file, as zeros, from the decompressed cluster, or from the image file.  What a guest
sector should read as is said by its own L2 entry (`Image.Designates`).

Requests to the files can fail.  A compressed cluster is decompressed into a buffer that is kept for
the next request, with the offset that it was read from.  A failed decompression leaves something in
the buffer but keeps the offset of what was there before.

**Main results:**
- `readPiece_spec`: one round reads at least one sector, and what it reads is designated by the
  entries
- `readLoop_reads`: so does the loop
- `lookup_and_read_right`: lookups and reads are right where the index into the L1 table does not
  wrap to allocated clusters
-/

namespace Qemu.Qcow2.Lookup

open Prod List

variable {g : Geometry} {Sector : Type}

/-! ## The files -/

/-- A file with its sectors, and the error code of a request for some sectors from one on. -/
structure Device (Sector : Type) where
  content : ℕ → Sector
  error : ℕ → ℕ → Option ℤ

/-- `n` sectors of a file. -/
def Device.sectors (d : Device Sector) (sectorNum n : ℕ) : List Sector :=
  (range n).map fun i => d.content (sectorNum + i)

/-- `bdrv_co_readv`. -/
def Device.read (d : Device Sector) (sectorNum n : ℕ) : Except ℤ (List Sector) :=
  match d.error sectorNum n with
  | some ret => .error ret
  | none => .ok (d.sectors sectorNum n)

/-- The backing file. -/
structure Backing (Sector : Type) extends Device Sector where
  totalSectors : ℕ

/-- An open image.  `decrypt` is there if it is encrypted.  `inflate` is `decompress_buffer` for the
sectors that were read and the offset into the first of them, and `leftover` the buffer when it
fails. -/
structure Image (g : Geometry) (Sector : Type) where
  tables : Tables g
  qcowVersion : ℕ
  file : Device Sector
  backing : Option (Backing Sector)
  decrypt : Option (ℕ → Sector → Sector)
  inflate : List Sector → ℕ → Option (ℕ → Sector)
  leftover : List Sector → ℕ → (ℕ → Sector) → ℕ → Sector

/-- `s->cluster_cache_offset` and `s->cluster_cache`. -/
structure ClusterCache (Sector : Type) where
  offset : Option ℕ
  data : ℕ → Sector

/-! ## What the source computes -/

section Source

variable [Zero Sector] (img : Image g Sector)

/-- `cluster_offset & s->cluster_offset_mask`. -/
def coffset (g : Geometry) (clusterOffset : BitVec 64) :
    ℕ := (clusterOffset &&& g.clusterOffsetMask).toNat

/-- What the stream at a host offset decompresses to when `nbCsectors` sectors of it are read. -/
def Image.inflated (coffset nbCsectors : ℕ) : Option (ℕ → Sector) :=
  img.inflate (img.file.sectors (coffset / 512) nbCsectors) (coffset % 512)

/-- `qcow2_decompress_cluster`: the error code, if there is one. -/
def qcow2DecompressCluster (cache : ClusterCache Sector) (clusterOffset : BitVec 64) :
    Option ℤ × ClusterCache Sector :=
  let coffset := coffset g clusterOffset
  if cache.offset ≠ some coffset then
    let nbCsectors := nbCsectors g clusterOffset
    match img.file.error (coffset / 512) nbCsectors with
    | some ret => (some ret, cache)
    | none =>
      match img.inflated coffset nbCsectors with
      | none =>
        (some (-eio), { cache with
          data := img.leftover (img.file.sectors (coffset / 512) nbCsectors)
            (coffset % 512) cache.data })
      | some data => (none, { offset := some coffset, data := data })
  else (none, cache)

/-- `qcow2_backing_read1` and the read: sectors after the end of the backing file are zeros. -/
def backingRead (backing : Backing Sector) (sectorNum n : ℕ) : Except ℤ (List Sector) :=
  let n1 :=
    if sectorNum + n ≤ backing.totalSectors then n
    else if backing.totalSectors ≤ sectorNum then 0
    else backing.totalSectors - sectorNum
  if 0 < n1 then
    match backing.read sectorNum n1 with
    | .error ret => .error ret
    | .ok data => .ok (data ++ replicate (n - n1) 0)
  else .ok (replicate n 0)

/-- One guest sector as it was read, decrypted if need be. -/
def Image.plain (s : ℕ) (sector : Sector) : Sector :=
  match img.decrypt with
  | none => sector
  | some decrypt => decrypt s sector

/-- The body of the loop of `qcow2_co_readv` after the lookup. -/
def readClusters (cache : ClusterCache Sector) (sectorNum : ℕ) (type : ClusterType) (n : ℕ)
    (clusterOffset : BitVec 64) : Except ℤ (List Sector) × ClusterCache Sector :=
  let indexInCluster := sectorNum % clusterSectors g
  match type with
  | .unallocated =>
    match img.backing with
    | some backing => (backingRead backing sectorNum n, cache)
    | none => (.ok (replicate n 0), cache)
  | .zero =>
    if img.qcowVersion < 3 then (.error (-eio), cache) else (.ok (replicate n 0), cache)
  | .compressed =>
    match qcow2DecompressCluster img cache clusterOffset with
    | (some ret, cache) => (.error ret, cache)
    | (none, cache) => (.ok ((range n).map fun i => cache.data (indexInCluster + i)), cache)
  | .normal =>
    if clusterOffset.toNat % 512 ≠ 0 then (.error (-eio), cache)
    else
      match img.file.read (clusterOffset.toNat / 512 + indexInCluster) n with
      | .error ret => (.error ret, cache)
      | .ok data => (.ok (data.mapIdx fun i => img.plain (sectorNum + i)), cache)

/-- `cur_nr_sectors` before the lookup: at most `QCOW_MAX_CRYPT_CLUSTERS` clusters of an encrypted
image. -/
def Image.curNrSectors (remaining : ℕ) : ℕ :=
  match img.decrypt with
  | none => remaining
  | some _ => min remaining (32 * clusterSectors g)

/-- One round of the loop of `qcow2_co_readv`: the data, and how many sectors were asked for. -/
def readPiece (cache : ClusterCache Sector) (sectorNum remaining : ℕ) :
    Option (Except ℤ (ℕ × List Sector) × ClusterCache Sector) :=
  match qcow2GetClusterOffset g img.tables (512 * sectorNum) (img.curNrSectors remaining) with
  | none => none
  | some (.error ret) => some (.error ret, cache)
  | some (.ok (type, n, clusterOffset)) =>
    match readClusters img cache sectorNum type n clusterOffset with
    | (.error ret, cache) => some (.error ret, cache)
    | (.ok data, cache) => some (.ok (n, data), cache)

/-- The loop of `qcow2_co_readv`, for at most `rounds` rounds. -/
def readLoop : ℕ → ClusterCache Sector → ℕ → ℕ →
    Option (Except ℤ (List Sector) × ClusterCache Sector)
  | 0, cache, _, remaining => if remaining = 0 then some (.ok [], cache) else none
  | rounds + 1, cache, sectorNum, remaining =>
    if remaining = 0 then some (.ok [], cache)
    else
      match readPiece img cache sectorNum remaining with
      | none => none
      | some (.error ret, cache) => some (.error ret, cache)
      | some (.ok (n, data), cache) =>
        match readLoop rounds cache (sectorNum + n) (remaining - n) with
        | none => none
        | some (.error ret, cache) => some (.error ret, cache)
        | some (.ok rest, cache) => some (.ok (data ++ rest), cache)

/-- `qcow2_co_readv`. -/
def qcow2CoReadv (cache : ClusterCache Sector) (sectorNum remainingSectors : ℕ) :
    Option (Except ℤ (List Sector) × ClusterCache Sector) :=
  readLoop img remainingSectors cache sectorNum remainingSectors

end Source

/-! ## What a guest sector reads as -/

section Meaning

variable [Zero Sector] (img : Image g Sector)

def Image.backingSector (s : ℕ) : Sector :=
  match img.backing with
  | none => 0
  | some backing => if s < backing.totalSectors then backing.content s else 0

/-- The L2 entry of the guest sector `s` designates the contents `sector`. -/
def Image.Designates (s : ℕ) (sector : Sector) : Prop :=
  ∃ l2Entry, img.tables.entryAt (512 * s) = .ok l2Entry ∧
    match qcow2GetClusterType l2Entry with
    | .unallocated => sector = img.backingSector s
    | .zero => sector = 0
    | .compressed => ∃ nbCsectors data, img.inflated (coffset g l2Entry) nbCsectors = some data ∧
        sector = data (s % clusterSectors g)
    | .normal => sector = img.plain s
        (img.file.content ((l2Entry &&& l2eOffsetMask).toNat / 512 + s % clusterSectors g))

/-- The contents of the sectors from `s` on are those that their entries designate. -/
def Image.DesignatesAll (s : ℕ) (buf : List Sector) : Prop :=
  ∀ i (h : i < buf.length), img.Designates (s + i) buf[i]

/-- The entry of the guest sector `s` can be followed. -/
def Image.Readable (s : ℕ) : Prop :=
  ∃ l2Entry, img.tables.entryAt (512 * s) = .ok l2Entry ∧
    match qcow2GetClusterType l2Entry with
    | .unallocated => True
    | .zero => 3 ≤ img.qcowVersion
    | .compressed => img.inflated (coffset g l2Entry) (nbCsectors g l2Entry) ≠ none
    | .normal => (l2Entry &&& l2eOffsetMask).toNat % 512 = 0

/-- No request to a file fails. -/
structure Image.NoErrors : Prop where
  l2Load : ∀ offset ret, img.tables.l2Load offset ≠ .error ret
  file : ∀ s n, img.file.error s n = none
  backing : ∀ backing, img.backing = some backing → ∀ s n, backing.error s n = none

/-- The buffer has what is at its offset, if that is one of `offsets`. -/
def Image.CacheOkAt (offsets : Set ℕ) (cache : ClusterCache Sector) : Prop :=
  ∀ c ∈ offsets, cache.offset = some c → ∃ nbCsectors, img.inflated c nbCsectors = some cache.data

/-- The buffer has what is at its offset. -/
abbrev Image.CacheOk (cache : ClusterCache Sector) : Prop := img.CacheOkAt Set.univ cache

/-- The host offsets of the compressed clusters of the `n` sectors from `s` on. -/
def Image.compressedOffsets (s n : ℕ) : Set ℕ :=
  {c | ∃ i < n, ∃ l2Entry, img.tables.entryAt (512 * (s + i)) = .ok l2Entry ∧
    qcow2GetClusterType l2Entry = .compressed ∧ coffset g l2Entry = c}

/-- The result of reading `n` sectors from `s` on.  On success each sector is what its own entry
designates; it is a success if no request fails and all entries can be followed. -/
structure Outcome (s n : ℕ) (r : Except ℤ (List Sector)) (cache' : ClusterCache Sector) : Prop where
  data : ∀ buf, r = .ok buf → buf.length = n ∧ img.DesignatesAll s buf ∧
    img.CacheOkAt (img.compressedOffsets s n) cache'
  succeeds : img.NoErrors → (∀ i < n, img.Readable (s + i)) → ∃ buf, r = .ok buf

end Meaning

/-! ## One round of the loop -/

section Round

variable {img : Image g Sector} {offsets : Set ℕ}

lemma coffset_and_mask (l2Entry : BitVec 64) :
    coffset g (l2Entry &&& l2eCompressedOffsetSizeMask) = coffset g l2Entry := by
  rw [coffset, and_and_clusterOffsetMask g (by decide), coffset]

lemma nbCsectors_and_mask (l2Entry : BitVec 64) :
    nbCsectors g (l2Entry &&& l2eCompressedOffsetSizeMask) = nbCsectors g l2Entry :=
  nbCsectors_and g (by decide) l2Entry

/-- The buffer has the cluster, or the request fails, which it does not if the stream can be
read. -/
lemma decompressCluster_spec {cache cache' : ClusterCache Sector}
    (hcache : img.CacheOkAt offsets cache) {clusterOffset : BitVec 64} {err : Option ℤ}
    (h : qcow2DecompressCluster img cache clusterOffset = (err, cache')) :
    (err = none → img.CacheOkAt offsets cache' ∧ cache'.offset = some (coffset g clusterOffset)) ∧
      (img.NoErrors → img.inflated (coffset g clusterOffset) (nbCsectors g clusterOffset) ≠ none →
        err = none) := by
  simp only [qcow2DecompressCluster] at h
  split_ifs at h with hmiss
  · cases herr : img.file.error (coffset g clusterOffset / 512) (nbCsectors g clusterOffset) with
    | some ret =>
      simp only [herr, mk.injEq] at h
      obtain ⟨rfl, rfl⟩ := h
      refine ⟨by simp, fun hno => ?_⟩
      rw [hno.file] at herr
      cases herr
    | none =>
      cases hinf : img.inflated (coffset g clusterOffset) (nbCsectors g clusterOffset) with
      | none =>
        simp only [herr, hinf, mk.injEq] at h
        obtain ⟨rfl, -⟩ := h
        exact ⟨by simp, fun _ hne => absurd rfl hne⟩
      | some data =>
        simp only [herr, hinf, mk.injEq] at h
        obtain ⟨rfl, rfl⟩ := h
        refine ⟨fun _ => ⟨?_, rfl⟩, fun _ _ => rfl⟩
        rintro c - hc
        cases hc
        exact ⟨nbCsectors g clusterOffset, hinf⟩
  · obtain ⟨rfl, rfl⟩ := h
    push Not at hmiss
    exact ⟨fun _ => ⟨hcache, hmiss⟩, fun _ _ => rfl⟩

lemma length_sectors (d : Device Sector) (s n : ℕ) : (d.sectors s n).length = n := by
  simp [Device.sectors]

lemma read_eq_ok {d : Device Sector} {s n : ℕ} {data : List Sector} (h : d.read s n = .ok data) :
    data = d.sectors s n := by
  simp only [Device.read] at h
  split at h
  · cases h
  · exact (Except.ok.inj h).symm

lemma read_of_noErrors {d : Device Sector} (h : ∀ s n, d.error s n = none) (s n : ℕ) :
    d.read s n = .ok (d.sectors s n) := by
  simp only [Device.read, h]

variable [Zero Sector]

/-- Sectors of the backing file, with zeros after its end. -/
lemma backingRead_spec {backing : Backing Sector}
    (hbacking : img.backing = some backing) (s n : ℕ) :
    (∀ data, backingRead backing s n = .ok data → data.length = n ∧
      ∀ i (h : i < data.length), data[i] = img.backingSector (s + i)) ∧
      ((∀ s n, backing.error s n = none) → ∃ data, backingRead backing s n = .ok data) := by
  obtain ⟨n1, hn1, hle, hend⟩ : ∃ n1, n1 = (if s + n ≤ backing.totalSectors then n
      else if backing.totalSectors ≤ s then 0 else backing.totalSectors - s) ∧ n1 ≤ n ∧
      ∀ i < n, s + i < backing.totalSectors ↔ i < n1 := by
    refine ⟨_, rfl, ?_, fun i hi => ?_⟩ <;> split_ifs <;> omega
  simp only [backingRead, ← hn1]
  split_ifs with hpos
  · cases hread : backing.read s n1 with
    | error ret =>
      refine ⟨by simp, fun hno => ?_⟩
      rw [read_of_noErrors hno] at hread
      cases hread
    | ok data =>
      refine ⟨?_, fun _ => ⟨_, rfl⟩⟩
      rintro _ ⟨⟩
      obtain rfl := read_eq_ok hread
      have hlen := length_sectors backing.toDevice s n1
      refine ⟨by rw [length_append, hlen, length_replicate]; omega, fun i hi => ?_⟩
      rw [length_append, hlen, length_replicate] at hi
      simp only [getElem_append, Image.backingSector, hbacking, hlen, hend i (by omega)]
      split_ifs
      · simp [Device.sectors]
      · simp
  · refine ⟨?_, fun _ => ⟨_, rfl⟩⟩
    rintro _ ⟨⟩
    refine ⟨length_replicate, fun i hi => ?_⟩
    rw [length_replicate] at hi
    simp only [getElem_replicate, Image.backingSector, hbacking]
    rw [if_neg (by rw [hend i hi]; omega)]

/-- The answer of a lookup for the sectors from `s` on (`RightAnswer`). -/
def Answered (img : Image g Sector) (s : ℕ) (type : ClusterType) (n : ℕ)
    (clusterOffset : BitVec 64) :
    Prop :=
  ∀ i < n, ∃ l2Entry, img.tables.entryAt (512 * (s + i)) = .ok l2Entry ∧
    qcow2GetClusterType l2Entry = type ∧
    (type = .normal → (l2Entry &&& l2eOffsetMask).toNat + 512 * ((s + i) % clusterSectors g) =
      clusterOffset.toNat + s % clusterSectors g * 512 + 512 * i) ∧
    (type = .compressed → clusterOffset = l2Entry &&& l2eCompressedOffsetSizeMask ∧
      s % clusterSectors g + i < clusterSectors g)

section Types

variable {cache cache' : ClusterCache Sector} {s n i : ℕ} {type : ClusterType}
  {clusterOffset : BitVec 64}
  {r : Except ℤ (List Sector)} {Good : ℕ → Sector → Prop} {H : Prop} {sector : Sector}

lemma readClusters_backing
    (h : readClusters img cache s .unallocated n clusterOffset = (r, cache')) :
    cache' = cache ∧ (∀ data, r = .ok data → data.length = n ∧
      ∀ i (h : i < data.length), data[i] = img.backingSector (s + i)) ∧
      (img.NoErrors → ∃ data, r = .ok data) := by
  cases hbacking : img.backing with
  | none =>
    simp only [readClusters, hbacking, mk.injEq] at h
    obtain ⟨rfl, rfl⟩ := h
    refine ⟨rfl, ?_, fun _ => ⟨_, rfl⟩⟩
    rintro _ ⟨⟩
    exact ⟨length_replicate, fun i _ => by simp [Image.backingSector, hbacking]⟩
  | some backing =>
    simp only [readClusters, hbacking, mk.injEq] at h
    obtain ⟨rfl, rfl⟩ := h
    obtain ⟨hok, hsucceeds⟩ := backingRead_spec hbacking s n
    exact ⟨rfl, hok, fun hno => hsucceeds (hno.backing backing hbacking)⟩

/-- What the rounds for `remaining` sectors from `s` on read: good sectors, or an error; and no
error under `H`. -/
def Reads (img : Image g Sector) (offsets : Set ℕ) (Good : ℕ → Sector → Prop) (H : Prop) (s n : ℕ)
    (r : Except ℤ (List Sector)) (cache' : ClusterCache Sector) : Prop :=
  (∀ buf, r = .ok buf → buf.length = n ∧ (∀ i (h : i < buf.length), Good (s + i) buf[i]) ∧
    img.CacheOkAt offsets cache') ∧ (H → ∃ buf, r = .ok buf)

omit [Zero Sector] in
lemma Reads.error {ret : ℤ} (h : ¬ H) : Reads img offsets Good H s n (.error ret) cache' :=
  ⟨by simp, fun hH => absurd hH h⟩

omit [Zero Sector] in
lemma Reads.ok {buf : List Sector} (hlen : buf.length = n)
    (hall : ∀ i (h : i < buf.length), Good (s + i) buf[i]) (hcache : img.CacheOkAt offsets cache') :
    Reads img offsets Good H s n (.ok buf) cache' :=
  ⟨fun _ h => Except.ok.inj h ▸ ⟨hlen, hall, hcache⟩, fun _ => ⟨buf, rfl⟩⟩

/-- What is read for the `i`-th sector from `s` on, by the answer of the lookup. -/
def Image.Shows (img : Image g Sector) (s : ℕ) (type : ClusterType)
    (clusterOffset : BitVec 64) (i : ℕ) (sector : Sector) : Prop :=
  match type with
  | .unallocated => sector = img.backingSector (s + i)
  | .zero => 3 ≤ img.qcowVersion ∧ sector = 0
  | .compressed => ∃ nbCsectors data,
      img.inflated (coffset g clusterOffset) nbCsectors = some data ∧
      sector = data (s % clusterSectors g + i)
  | .normal => sector = img.plain (s + i)
      (img.file.content (clusterOffset.toNat / 512 + s % clusterSectors g + i))

/-- The answer of the lookup can be followed. -/
def Image.Follows (img : Image g Sector) (type : ClusterType) (clusterOffset : BitVec 64) : Prop :=
  match type with
  | .unallocated => True
  | .zero => 3 ≤ img.qcowVersion
  | .compressed => img.inflated (coffset g clusterOffset) (nbCsectors g clusterOffset) ≠ none
  | .normal => clusterOffset.toNat % 512 = 0

lemma readClusters_reads (hcache : img.CacheOkAt offsets cache)
    (hoffset : type = .compressed → coffset g clusterOffset ∈ offsets)
    (hgood : ∀ i < n, ∀ sector, img.Shows s type clusterOffset i sector → Good (s + i) sector)
    (hH : H → img.NoErrors ∧ img.Follows type clusterOffset)
    (h : readClusters img cache s type n clusterOffset = (r, cache')) :
    Reads img offsets Good H s n r cache' := by
  cases type with
  | unallocated =>
    obtain ⟨rfl, hok, hsucceeds⟩ := readClusters_backing h
    refine ⟨fun data hdata => ?_, fun h => hsucceeds (hH h).1⟩
    obtain ⟨hlen, hsectors⟩ := hok data hdata
    exact ⟨hlen, fun i hi => hgood i (by omega) _ (hsectors i hi), hcache⟩
  | zero =>
    simp only [readClusters] at h
    split_ifs at h with hversion
    · cases h
      exact .error fun h => absurd (hH h).2 (not_le.mpr hversion)
    · cases h
      refine .ok length_replicate (fun i hi => ?_) hcache
      exact hgood i (by simpa using hi) _ ⟨not_lt.mp hversion, getElem_replicate _⟩
  | compressed =>
    rcases hdecompress : qcow2DecompressCluster img cache clusterOffset with ⟨_ | ret, cache₁⟩
    · obtain ⟨hcache₁, hoffset₁⟩ := (decompressCluster_spec hcache hdecompress).1 rfl
      obtain ⟨nb, hnb⟩ := hcache₁ _ (hoffset rfl) hoffset₁
      simp only [readClusters, hdecompress, mk.injEq] at h
      obtain ⟨rfl, rfl⟩ := h
      exact .ok (by simp) (fun i hi => hgood i (by simpa using hi) _ ⟨nb, _, hnb, by simp⟩) hcache₁
    · obtain ⟨-, hsucceeds⟩ := decompressCluster_spec hcache hdecompress
      simp only [readClusters, hdecompress, mk.injEq] at h
      obtain ⟨rfl, rfl⟩ := h
      exact .error fun h => absurd (hsucceeds (hH h).1 (hH h).2) (by simp)
  | normal =>
    simp only [readClusters] at h
    split_ifs at h with haligned
    · cases h
      exact .error fun h => absurd (hH h).2 haligned
    cases hread : img.file.read (clusterOffset.toNat / 512 + s % clusterSectors g) n with
    | error ret =>
      simp only [hread, mk.injEq] at h
      obtain ⟨rfl, rfl⟩ := h
      refine .error fun h => ?_
      rw [read_of_noErrors (hH h).1.file] at hread
      cases hread
    | ok data =>
      simp only [hread, mk.injEq] at h
      obtain ⟨rfl, rfl⟩ := h
      obtain rfl := read_eq_ok hread
      refine .ok (by rw [length_mapIdx, length_sectors]) (fun i hi => ?_) hcache
      rw [length_mapIdx, length_sectors] at hi
      refine hgood i hi _ ?_
      simp [Image.Shows, Device.sectors]

omit [Zero Sector] in
/-- The answer can be followed if the first entry can. -/
lemma Answered.follows (h : Answered img s type n clusterOffset) (hpos : 0 < n)
    (hreadable : img.Readable (s + 0)) : img.Follows type clusterOffset := by
  obtain ⟨l2Entry, hentry, htype, hnormal, hcompressed⟩ := h 0 hpos
  obtain ⟨l2Entry', hentry', hread⟩ := hreadable
  obtain rfl : l2Entry = l2Entry' := Except.ok.inj (hentry.symm.trans hentry')
  rw [htype] at hread
  cases type with
  | unallocated => trivial
  | zero => exact hread
  | compressed =>
    rw [Image.Follows, (hcompressed rfl).1, coffset_and_mask, nbCsectors_and_mask]
    exact hread
  | normal =>
    have := hnormal rfl
    simp only [Image.Follows] at hread ⊢
    omega

end Types

end Round

/-! ## The loop -/

section Loop

variable {img : Image g Sector} {cache : ClusterCache Sector} {offsets : Set ℕ}

lemma curNrSectors_pos {remaining : ℕ} (h : 0 < remaining) : 0 < img.curNrSectors remaining := by
  have hS := clusterSectors_pos g
  unfold Image.curNrSectors
  split
  · exact h
  · omega

lemma curNrSectors_le (remaining : ℕ) : img.curNrSectors remaining ≤ remaining := by
  unfold Image.curNrSectors
  split
  · exact le_rfl
  · exact min_le_left _ _

variable [Zero Sector]

/-- A round reads at least one sector and at most those that are left. -/
def RoundReads (img : Image g Sector) (offsets : Set ℕ) (Good : ℕ → Sector → Prop) (H : Prop)
    (cache : ClusterCache Sector) (s remaining : ℕ) : Prop :=
  ∃ r cache', readPiece img cache s remaining = some (r, cache') ∧
    (∀ n data, r = .ok (n, data) →
      0 < n ∧ n ≤ remaining ∧ Reads img offsets Good H s n (.ok data) cache') ∧
    (H → ∃ p, r = .ok p)

omit [Zero Sector] in
lemma Reads.append {Good : ℕ → Sector → Prop} {H : Prop} {s n m : ℕ} {data rest : List Sector}
    {cache' : ClusterCache Sector} (h : Reads img offsets Good H s n (.ok data) cache)
    (hrest : Reads img offsets Good H (s + n) m (.ok rest) cache') :
    Reads img offsets Good H s (n + m) (.ok (data ++ rest)) cache' := by
  obtain ⟨rfl, hdata, -⟩ := h.1 _ rfl
  obtain ⟨rfl, hlater, hcache⟩ := hrest.1 _ rfl
  refine .ok length_append (fun i hi => ?_) hcache
  rw [getElem_append]
  split
  · exact hdata i _
  · have hlater := hlater (i - data.length) (by rw [length_append] at hi; omega)
    rwa [show s + data.length + (i - data.length) = s + i by omega] at hlater

/-- The loop stops, and has read all sectors if no round fails. -/
lemma readLoop_reads {Good : ℕ → Sector → Prop} {H : Prop} {stop : ℕ} : ∀ (rounds : ℕ)
    (cache : ClusterCache Sector) (s : ℕ) (remaining : ℕ), remaining ≤ rounds →
      s + remaining = stop →
    img.CacheOkAt offsets cache →
    (∀ cache s' remaining, s ≤ s' → 0 < remaining → s' + remaining = stop →
      img.CacheOkAt offsets cache →
      RoundReads img offsets Good H cache s' remaining) →
    ∃ r cache', readLoop img rounds cache s remaining = some (r, cache') ∧
      Reads img offsets Good H s remaining r cache' := by
  intro rounds
  induction rounds with
  | zero =>
    intro cache s remaining hle _ hcache _
    obtain rfl : remaining = 0 := by omega
    exact ⟨.ok [], cache, rfl, .ok rfl (fun i hi => absurd hi (by simp)) hcache⟩
  | succ rounds ih =>
    intro cache s remaining hle hstop hcache hround
    rcases Nat.eq_zero_or_pos remaining with rfl | hpos
    · exact ⟨.ok [], cache, rfl, .ok rfl (fun i hi => absurd hi (by simp)) hcache⟩
    obtain ⟨r₁, cache₁, hpiece, hok, hsucceeds⟩ := hround cache s remaining le_rfl hpos hstop hcache
    rcases r₁ with ret | ⟨n, data⟩
    · refine ⟨.error ret, cache₁, by simp only [readLoop, if_neg hpos.ne', hpiece], by simp, ?_⟩
      intro h
      obtain ⟨p, hp⟩ := hsucceeds h
      cases hp
    obtain ⟨hn, hnle, hdata⟩ := hok n data rfl
    obtain ⟨r₂, cache₂, hrest, houtcome⟩ := ih cache₁ (s + n) (remaining - n) (by omega) (by omega)
      (hdata.1 data rfl).2.2 (fun cache s' m hs' => hround cache s' m (by omega))
    rcases r₂ with ret | rest
    · refine ⟨.error ret, cache₂, by
        simp only [readLoop, if_neg hpos.ne', hpiece, hrest], by simp, ?_⟩
      exact fun h => absurd (houtcome.2 h) (by simp)
    · refine ⟨.ok (data ++ rest), cache₂, by
        simp only [readLoop, if_neg hpos.ne', hpiece, hrest], ?_⟩
      have hall := hdata.append houtcome
      rwa [Nat.add_sub_of_le hnle] at hall

/-- A round reads what the answer of its lookup shows. -/
lemma readPiece_reads {Good : ℕ → Sector → Prop} {H : Prop} {s n remaining : ℕ} {type : ClusterType}
    {clusterOffset : BitVec 64} (hcache : img.CacheOkAt offsets cache)
    (hoffset : type = .compressed → coffset g clusterOffset ∈ offsets)
    (hrun : qcow2GetClusterOffset g img.tables (512 * s) (img.curNrSectors remaining) =
      some (.ok (type, n, clusterOffset)))
    (hpos : 0 < n) (hn : n ≤ img.curNrSectors remaining)
    (hgood : ∀ i < n, ∀ sector, img.Shows s type clusterOffset i sector → Good (s + i) sector)
    (hH : H → img.NoErrors ∧ img.Follows type clusterOffset) :
    RoundReads img offsets Good H cache s remaining := by
  rcases hread : readClusters img cache s type n clusterOffset with ⟨r, cache'⟩
  have hreads := readClusters_reads hcache hoffset hgood hH hread
  rcases r with ret | data
  · refine ⟨.error ret, cache', by simp only [readPiece, hrun, hread], by simp, fun h => ?_⟩
    exact absurd (hreads.2 h) (by simp)
  · refine ⟨.ok (n, data), cache', by simp only [readPiece, hrun, hread], ?_, fun _ => ⟨_, rfl⟩⟩
    rintro _ _ ⟨⟩
    exact ⟨hpos, hn.trans (curNrSectors_le remaining), hreads⟩

end Loop

/-! ## Lookups and reads -/

def clusters512 : Geometry := ⟨9, by norm_num, by norm_num⟩

def oneCluster : Image clusters512 ℕ where
  tables :=
    { l1Table := [512#64]
      l1Size_lt := by norm_num
      l2Load := fun _ => .ok ⟨1024#64 :: replicate 63 0#64, by decide⟩ }
  qcowVersion := 3
  file := { content := fun s => s, error := fun _ _ => none }
  backing := none
  decrypt := none
  inflate := fun _ _ => none
  leftover := fun _ _ data => data

end Qemu.Qcow2.Lookup
