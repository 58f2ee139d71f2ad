import Mathlib.Tactic

/-!
# QED images

What `block/qed.h`, `block/qed.c` and `block/qed-cluster.c` compute from the geometry of an image,
and the image file.

A sector of the file is taken as 64 little-endian words of eight bytes, so that the entries of a
table are words of the sectors that hold it.  Of the header only `QED_F_NEED_CHECK` changes while an
image is open; it is kept apart from the other sectors.  Positions, offsets and lengths are in
bytes, as in the source.

**Main definitions:** `Geometry`, `File`, `countContiguousClusters`.
-/

namespace Qemu.Qed

/-! ## Geometry -/

/-- `qed_is_cluster_size_valid`. -/
def isClusterSizeValid (clusterSize : ℕ) : Bool :=
  decide (4 * 1024 ≤ clusterSize) && decide (clusterSize ≤ 64 * 1024 * 1024) &&
    decide (clusterSize &&& (clusterSize - 1) = 0)

/-- `qed_is_table_size_valid`. -/
def isTableSizeValid (tableSize : ℕ) : Bool :=
  decide (1 ≤ tableSize) && decide (tableSize ≤ 16) && decide (tableSize &&& (tableSize - 1) = 0)

/-- `qed_max_image_size`. -/
def maxImageSize (clusterSize tableSize : ℕ) : ℕ :=
  let tableEntries := tableSize * clusterSize / 8
  tableEntries * clusterSize * tableEntries % 2 ^ 64

/-- `qed_is_image_size_valid`. -/
def isImageSizeValid (imageSize clusterSize tableSize : ℕ) : Bool :=
  decide (imageSize % 512 = 0) && decide (imageSize ≤ maxImageSize clusterSize tableSize)

/-- The fields of the header that do not change, as `bdrv_qed_open` accepts them. -/
structure Geometry where
  clusterSize : ℕ
  tableSize : ℕ
  headerSize : ℕ
  l1TableOffset : ℕ
  imageSize : ℕ
  clusterSize_valid : isClusterSizeValid clusterSize = true
  tableSize_valid : isTableSizeValid tableSize = true
  imageSize_valid : isImageSizeValid imageSize clusterSize tableSize = true

namespace Geometry

variable (g : Geometry)

def tableNelems : ℕ := g.clusterSize * g.tableSize / 8

/-- `qed_start_of_cluster`. -/
def startOfCluster (offset : ℕ) : ℕ := offset / g.clusterSize * g.clusterSize

/-- `qed_offset_into_cluster`. -/
def offsetIntoCluster (offset : ℕ) : ℕ := offset % g.clusterSize

/-- `qed_bytes_to_clusters`. -/
def bytesToClusters (bytes : ℕ) : ℕ :=
  g.startOfCluster (bytes + (g.clusterSize - 1)) / (g.clusterSize - 1)

/-- The bytes that an L2 table maps, `1 << l1_shift`. -/
def l2Bytes : ℕ := g.clusterSize * g.tableNelems

/-- `qed_l1_index`. -/
def l1Index (pos : ℕ) : ℕ := pos / g.l2Bytes

/-- `qed_l2_index`. -/
def l2Index (pos : ℕ) : ℕ := pos / g.clusterSize % g.tableNelems

/-- `qed_check_cluster_offset`. -/
def checkClusterOffset (fileSize offset : ℕ) : Bool :=
  decide (offset % g.clusterSize = 0) && decide (g.headerSize * g.clusterSize ≤ offset) &&
    decide (offset < fileSize)

/-- `qed_check_table_offset`.  The sum does not overflow for an offset in the file. -/
def checkTableOffset (fileSize offset : ℕ) : Bool :=
  let endOffset := offset + (g.tableSize - 1) * g.clusterSize
  decide (offset < endOffset) && g.checkClusterOffset fileSize offset &&
    g.checkClusterOffset fileSize endOffset

end Geometry

/-! ## Tables -/

/-- The offsets of a `QEDTable`. -/
abbrev Table := ℕ → ℕ

section Tables

variable (g : Geometry)

/-- The loop of `qed_count_contiguous_clusters`, with the number of rounds that are left. -/
def countLoop (table : Table) : ℕ → ℕ → ℕ → ℕ
  | 0, i, _ => i
  | k + 1, i, last =>
    if last = 0 then
      if table i = 0 then countLoop table k (i + 1) last else i
    else if last = 1 then
      if table i = 1 then countLoop table k (i + 1) last else i
    else if table i = last + g.clusterSize then countLoop table k (i + 1) (table i)
    else i

/-- `qed_count_contiguous_clusters`. -/
def countContiguousClusters (table : Table) (index n : ℕ) : ℕ :=
  countLoop g table (min (index + n) g.tableNelems - (index + 1)) (index + 1) (table index) - index

/-- `qed_update_l2_table`. -/
def updateL2Table (table : Table) (index n cluster : ℕ) : Table := fun i =>
  if index ≤ i ∧ i < index + n then
    if cluster = 0 ∨ cluster = 1 then cluster else cluster + (i - index) * g.clusterSize
  else table i

end Tables

/-! ## The image file and the backing file -/

/-- The 512 bytes of a sector, as words. -/
abbrev Sector := Fin 64 → ℕ

def zeroSector : Sector := fun _ => 0

/-- The image file: `QED_F_NEED_CHECK` of its header, its sectors, and how many they are. -/
structure File where
  needCheck : Bool
  sectors : ℕ → Sector
  length : ℕ

/-- The events with which `BLKDBG_EVENT` marks the writes. -/
inductive Event where
  | l1Update | l2Update | writeAio | cowWrite
  deriving DecidableEq, Repr

/-- A write to the image file, or a flush. -/
inductive Io where
  | write (event : Event) (sector n : ℕ) (data : ℕ → Sector)
  | writeHeader (needCheck : Bool)
  | flush

namespace File

/-- Write `n` sectors. -/
def write (f : File) (sector n : ℕ) (data : ℕ → Sector) : File where
  needCheck := f.needCheck
  sectors := fun i => if sector ≤ i ∧ i < sector + n then data (i - sector) else f.sectors i
  length := if n = 0 then f.length else max f.length (sector + n)

/-- A write or a flush that succeeds. -/
def apply (f : File) : Io → File
  | .write _ sector n data => f.write sector n data
  | .writeHeader needCheck => { f with needCheck := needCheck }
  | .flush => f

/-- A write or a flush that fails after `m` sectors. -/
def fail (f : File) (m : ℕ) : Io → File
  | .write _ sector n data => f.write sector (min m n) data
  | .writeHeader needCheck => if m = 0 then f else { f with needCheck := needCheck }
  | .flush => f

def table (f : File) (offset : ℕ) : Table := fun i => f.sectors (offset / 512 + i / 64)
    (Fin.ofNat 64 i)

end File

def tableSectors (table : Table) (first : ℕ) : ℕ → Sector := fun i w => table ((first + i) * 64 + w)

/-- The backing file. -/
structure Backing where
  length : ℕ
  sectors : ℕ → Sector
  length_mod : length % 512 = 0

/-- `qed_read_backing_file`. -/
def readBackingFile (backing : Option Backing) (pos size : ℕ) : ℕ → Sector := fun i =>
  match backing with
  | none => zeroSector
  | some b =>
    if b.length ≤ pos then zeroSector
    else if i < min (b.length - pos) size / 512 then b.sectors (pos / 512 + i)
    else zeroSector

/-! ## The L2 cache -/

structure CachedL2Table where
  offset : ℕ
  table : Table
  ref : ℕ

def maxL2CacheSize : ℕ := 50

namespace L2Cache

/-- `qed_find_l2_cache_entry`, but for the reference that it takes. -/
def find (entries : List CachedL2Table) (offset : ℕ) : Option CachedL2Table :=
  entries.find? fun e => e.offset == offset

def modify (entries : List CachedL2Table) (offset : ℕ) (f : CachedL2Table → CachedL2Table) :
    List CachedL2Table :=
  entries.map fun e => if e.offset = offset then f e else e

def ref (entries : List CachedL2Table) (offset : ℕ) : List CachedL2Table :=
  modify entries offset fun e => { e with ref := e.ref + 1 }

/-- `qed_unref_l2_cache_entry`, for an entry in the cache. -/
def unref (entries : List CachedL2Table) (offset : ℕ) : List CachedL2Table :=
  modify entries offset fun e => { e with ref := e.ref - 1 }

/-- The loop of `qed_commit_l2_cache_entry` that evicts unused entries of a cache of `n` entries. -/
def evict : ℕ → List CachedL2Table → List CachedL2Table
  | _, [] => []
  | n, e :: entries =>
    if 1 < e.ref then e :: evict n entries
    else if n - 1 < maxL2CacheSize then entries
    else evict (n - 1) entries

/-- `qed_commit_l2_cache_entry`. -/
def commit (entries : List CachedL2Table) (e : CachedL2Table) : List CachedL2Table :=
  match find entries e.offset with
  | some _ => entries
  | none =>
    (if maxL2CacheSize ≤ entries.length then evict entries.length entries else entries) ++ [e]

end L2Cache

end Qemu.Qed
