import Qemu.Qed.Image

/-!
# Requests

A read or write request of `block/qed.c` is a chain of callbacks, from one access to the image file
to the next.  A function here does what a callback does until the next access, and returns it as an
`Action`.  The backing file does not change, so that reading it is not an access of its own.

**Main definitions:** `nextIo`, `resume` for the callbacks of a write or a flush, `readL2TableCb`
for that of an L2 table.
-/

namespace Qemu.Qed

/-! ## States -/

/-- The errors of a request. -/
inductive Errno where
  | invalid
  | access
  | notSupported
  deriving DecidableEq, Repr

/-- What `qed_find_cluster` finds. -/
inductive ClusterKind where
  | found | zero | l2 | l1
  deriving DecidableEq, Repr

/-- The table that `request.l2_table` points to: one in the cache, or a new one. -/
inductive L2Ref where
  | none
  | cached (offset : ℕ)
  | fresh (offset : ℕ) (table : Table)

/-- The callbacks that wait for a write or a flush. -/
inductive Next where
  | nextIo
  | writePrefill
  | writePostfill
  | writeMain
  | writeZeroCluster
  | writeFlushBeforeL2Update
  | writeL2UpdateCb
  | writeTableCb
  | writeL1Update
  | commitL2Update
  deriving DecidableEq, Repr

/-- What a request waits for: a write or a flush, an L2 table, sectors of the image file, or the
requests before it.  After zeroes or the backing file it goes on with `qed_aio_next_io` at once. -/
inductive Action where
  | access (op : Io) (next : Next)
  | readTable (offset pos len : ℕ)
  | readData (sector n : ℕ)
  | next
  | wait
  | complete (ret : Option Errno)

/-- `QEDAIOCB`.  The buffer has what is written or what has been read. -/
structure Acb where
  id : ℕ
  write : Bool
  zero : Bool
  qiov : ℕ → Sector
  qiovOffset : ℕ
  curLen : ℕ
  curPos : ℕ
  endPos : ℕ
  curCluster : ℕ
  curNclusters : ℕ
  findClusterRet : ClusterKind
  l2Table : L2Ref

/-- `BDRVQEDState`. -/
structure State where
  needCheck : Bool
  fileSize : ℕ
  l1Table : Table
  l2Cache : List CachedL2Table
  allocatingWriteReqs : List ℕ
  plugged : Bool
  timer : Bool

/-- The geometry of an image and its backing file. -/
structure Context where
  g : Geometry
  backing : Option Backing

/-! ## Tables -/

/-- `qed_alloc_clusters`. -/
def allocClusters (g : Geometry) (s : State) (n : ℕ) : ℕ × State :=
  (s.fileSize, { s with fileSize := s.fileSize + n * g.clusterSize % 2 ^ 32 })

/-- `qed_unref_l2_cache_entry`. -/
def unrefL2 (s : State) : L2Ref → State
  | .cached offset => { s with l2Cache := L2Cache.unref s.l2Cache offset }
  | _ => s

def L2Ref.offset : L2Ref → ℕ
  | .none => 0
  | .cached offset => offset
  | .fresh offset _ => offset

def L2Ref.table (s : State) : L2Ref → Table
  | .none => fun _ => 0
  | .cached offset => ((L2Cache.find s.l2Cache offset).map (·.table)).getD fun _ => 0
  | .fresh _ table => table

def setTable (s : State) (offset : ℕ) (table : Table) : State :=
  { s with l2Cache := L2Cache.modify s.l2Cache offset fun e => { e with table := table } }

/-- `qed_write_table`: the access that writes `n` elements from `index` on. -/
def writeTable (event : Event) (offset : ℕ) (table : Table) (index n : ℕ) : Io :=
  .write event (offset / 512 + index / 64) ((index + n + 63) / 64 - index / 64)
    (tableSectors table (index / 64))

/-! ## The callbacks of a write request, but for `qed_aio_next_io` -/

section Write

variable (c : Context)

/-- `qed_aio_write_l2_update`. -/
def writeL2Update (s : State) (acb : Acb) (ret : Option Errno) (offset : ℕ) :
    State × Acb × Action :=
  match ret with
  | some e => (s, acb, .complete (some e))
  | none =>
    let index := c.g.l2Index acb.curPos
    if acb.findClusterRet = .l1 then
      let s := unrefL2 s acb.l2Table
      -- `qed_new_l2_table`
      let (l2Offset, s) := allocClusters c.g s c.g.tableSize
      let table := updateL2Table c.g (fun _ => 0) index acb.curNclusters offset
      (s, { acb with l2Table := .fresh l2Offset table },
        .access (writeTable .l2Update l2Offset table 0 c.g.tableNelems) .writeTableCb)
    else
      let l2Offset := acb.l2Table.offset
      let table := updateL2Table c.g (acb.l2Table.table s) index acb.curNclusters offset
      (setTable s l2Offset table, acb,
        .access (writeTable .l2Update l2Offset table index acb.curNclusters) .nextIo)

/-- `qed_aio_write_l1_update`. -/
def writeL1Update (s : State) (acb : Acb) (ret : Option Errno) : State × Acb × Action :=
  match ret with
  | some e => (s, acb, .complete (some e))
  | none =>
    let index := c.g.l1Index acb.curPos
    let l1Table := Function.update s.l1Table index acb.l2Table.offset
    ({ s with l1Table := l1Table }, acb,
      .access (writeTable .l1Update c.g.l1TableOffset l1Table index 1) .commitL2Update)

/-- `qed_aio_write_main`. -/
def writeMain (s : State) (acb : Acb) (ret : Option Errno) : State × Acb × Action :=
  match ret with
  | some e => (s, acb, .complete (some e))
  | none =>
    let offset := acb.curCluster + c.g.offsetIntoCluster acb.curPos
    let next :=
      if acb.findClusterRet = .found then .nextIo
      else if c.backing.isSome then .writeFlushBeforeL2Update
      else .writeL2UpdateCb
    (s, acb, .access (.write .writeAio (offset / 512) (acb.curLen / 512)
      fun i => if acb.zero then zeroSector else acb.qiov (acb.qiovOffset / 512 + i)) next)

/-- `qed_copy_from_backing_file`, with the callback as a function and as the one that waits. -/
def copyFromBackingFile (s : State) (acb : Acb) (pos len offset : ℕ)
    (cb : State → Acb → Option Errno → State × Acb × Action) (next : Next) : State × Acb × Action :=
  if len = 0 then cb s acb none
  else (s, acb,
    .access (.write .cowWrite (offset / 512) (len / 512) (readBackingFile c.backing pos len)) next)

/-- `qed_aio_write_postfill`. -/
def writePostfill (s : State) (acb : Acb) (ret : Option Errno) : State × Acb × Action :=
  match ret with
  | some e => (s, acb, .complete (some e))
  | none =>
    let start := acb.curPos + acb.curLen
    let len := c.g.startOfCluster (start + c.g.clusterSize - 1) - start
    let offset := acb.curCluster + c.g.offsetIntoCluster acb.curPos + acb.curLen
    copyFromBackingFile c s acb start len offset (writeMain c) .writeMain

/-- `qed_aio_write_prefill`: an error of the header write before it is not looked at. -/
def writePrefill (s : State) (acb : Acb) (_ret : Option Errno) : State × Acb × Action :=
  copyFromBackingFile c s acb (c.g.startOfCluster acb.curPos) (c.g.offsetIntoCluster acb.curPos)
    acb.curCluster (writePostfill c) .writePostfill

/-- `qed_aio_write_zero_cluster`. -/
def writeZeroCluster (s : State) (acb : Acb) (ret : Option Errno) : State × Acb × Action :=
  match ret with
  | some e => (s, acb, .complete (some e))
  | none => writeL2Update c s acb none 1

/-- `qed_should_set_need_check`. -/
def shouldSetNeedCheck (s : State) : Bool := c.backing.isNone && !s.needCheck

/-- `qed_aio_write_alloc`. -/
def writeAlloc (s : State) (acb : Acb) (len : ℕ) : State × Acb × Action :=
  -- the first request in the queue cancels the timer
  let s := if s.allocatingWriteReqs = [] then { s with timer := false } else s
  let s :=
    if s.allocatingWriteReqs.head? = some acb.id then s
    else { s with allocatingWriteReqs := s.allocatingWriteReqs ++ [acb.id] }
  if s.allocatingWriteReqs.head? ≠ some acb.id ∨ s.plugged = true then (s, acb, .wait)
  else
    let acb := { acb with
      curNclusters := c.g.bytesToClusters (c.g.offsetIntoCluster acb.curPos + len) % 2 ^ 32
      curLen := len }
    if acb.zero then
      if acb.findClusterRet = .zero then (s, acb, .next)
      else if shouldSetNeedCheck c s then
        ({ s with needCheck := true }, acb, .access (.writeHeader true) .writeZeroCluster)
      else writeZeroCluster c s acb none
    else
      let (cluster, s) := allocClusters c.g s acb.curNclusters
      let acb := { acb with curCluster := cluster }
      if shouldSetNeedCheck c s then
        ({ s with needCheck := true }, acb, .access (.writeHeader true) .writePrefill)
      else writePrefill c s acb none

/-- `qed_aio_write_inplace`. -/
def writeInplace (s : State) (acb : Acb) (offset len : ℕ) : State × Acb × Action :=
  writeMain c s { acb with curCluster := offset, curLen := len } none

/-- `qed_aio_write_data`. -/
def writeData (s : State) (acb : Acb) (ret : Except Errno ClusterKind) (offset len : ℕ) :
    State × Acb × Action :=
  match ret with
  | .error e => (s, acb, .complete (some e))
  | .ok .found => writeInplace c s { acb with findClusterRet := .found } offset len
  | .ok kind => writeAlloc c s { acb with findClusterRet := kind } len

/-! ## Read requests -/

/-- Put `n` sectors into a buffer. -/
def fillBuffer (qiov : ℕ → Sector) (first n : ℕ) (data : ℕ → Sector) : ℕ → Sector := fun i =>
  if first ≤ i ∧ i < first + n then data (i - first) else qiov i

/-- `qed_aio_read_data`. -/
def readData (s : State) (acb : Acb) (ret : Except Errno ClusterKind) (offset len : ℕ) :
    State × Acb × Action :=
  match ret with
  | .error e => (s, acb, .complete (some e))
  | .ok kind =>
    let acb := { acb with curLen := len }
    match kind with
    | .zero =>
      (s, { acb with
        qiov := fillBuffer acb.qiov (acb.qiovOffset / 512) (len / 512) fun _ => zeroSector }, .next)
    | .found => (s, acb, .readData ((offset + c.g.offsetIntoCluster acb.curPos) / 512) (len / 512))
    | _ =>
      let data := readBackingFile c.backing acb.curPos len
      (s, { acb with qiov := fillBuffer acb.qiov (acb.qiovOffset / 512) (len / 512) data }, .next)

/-! ## Finding a cluster -/

/-- The `io_fn` of `qed_aio_next_io`. -/
def ioFn (s : State) (acb : Acb) (ret : Except Errno ClusterKind) (offset len : ℕ) :
    State × Acb × Action :=
  if acb.write then writeData c s acb ret offset len else readData c s acb ret offset len

/-- `qed_find_cluster_cb`, with the L2 table.  The number of bytes in a run is a product of 32
bits. -/
def findClusterCb (s : State) (acb : Acb) (pos len : ℕ) : State × Acb × Action :=
  let table := acb.l2Table.table s
  let index := c.g.l2Index pos
  let n := c.g.bytesToClusters (c.g.offsetIntoCluster pos + len) % 2 ^ 32
  let n := countContiguousClusters c.g table index n
  let offset := table index
  let ret :=
    if offset = 0 then .ok .l2
    else if offset = 1 then .ok .zero
    else if c.g.checkClusterOffset s.fileSize offset then .ok .found
    else .error .invalid
  let run := (n * c.g.clusterSize % 2 ^ 32 + 2 ^ 64 - c.g.offsetIntoCluster pos) % 2 ^ 64
  ioFn c s acb ret offset (min len run)

/-- `qed_read_l2_table_cb`. -/
def readL2TableCb (s : State) (acb : Acb) (offset pos len : ℕ) (table : Table) :
    State × Acb × Action :=
  let s := { s with l2Cache := L2Cache.ref (L2Cache.commit s.l2Cache ⟨offset, table, 1⟩) offset }
  findClusterCb c s { acb with l2Table := .cached offset } pos len

/-- `qed_find_cluster`. -/
def findCluster (s : State) (acb : Acb) (pos len : ℕ) : State × Acb × Action :=
  let len := min len ((pos / c.g.l2Bytes + 1) * c.g.l2Bytes - pos)
  let l2Offset := s.l1Table (c.g.l1Index pos)
  if l2Offset = 0 then ioFn c s acb (.ok .l1) 0 len
  else if c.g.checkTableOffset s.fileSize l2Offset = false then ioFn c s acb (.error .invalid) 0 0
  else
    -- `qed_read_l2_table`
    let s := unrefL2 s acb.l2Table
    match L2Cache.find s.l2Cache l2Offset with
    | some _ =>
      findClusterCb c { s with l2Cache := L2Cache.ref s.l2Cache l2Offset }
        { acb with l2Table := .cached l2Offset } pos len
    | none => (s, { acb with l2Table := .none }, .readTable l2Offset pos len)

/-- `qed_aio_next_io`. -/
def nextIo (s : State) (acb : Acb) (ret : Option Errno) : State × Acb × Action :=
  match ret with
  | some e => (s, acb, .complete (some e))
  | none =>
    let acb := { acb with
      qiovOffset := acb.qiovOffset + acb.curLen
      curPos := acb.curPos + acb.curLen
      curLen := 0 }
    if acb.endPos ≤ acb.curPos then (s, acb, .complete none)
    else findCluster c s acb acb.curPos (acb.endPos - acb.curPos)

/-- `qed_commit_l2_update`. -/
def commitL2Update (s : State) (acb : Acb) (ret : Option Errno) : State × Acb × Action :=
  let offset := acb.l2Table.offset
  let s := { s with
    l2Cache := L2Cache.ref (L2Cache.commit s.l2Cache ⟨offset, acb.l2Table.table s, 1⟩) offset }
  nextIo c s { acb with l2Table := .cached offset } ret

/-- The callback of a write or a flush.  `qed_aio_write_flush_before_l2_update` ignores the error of
the write. -/
def resume (s : State) (acb : Acb) (ret : Option Errno) : Next → State × Acb × Action
  | .nextIo => nextIo c s acb ret
  | .writePrefill => writePrefill c s acb ret
  | .writePostfill => writePostfill c s acb ret
  | .writeMain => writeMain c s acb ret
  | .writeZeroCluster => writeZeroCluster c s acb ret
  | .writeFlushBeforeL2Update => (s, acb, .access .flush .writeL2UpdateCb)
  | .writeL2UpdateCb => writeL2Update c s acb ret acb.curCluster
  | .writeTableCb =>
    match ret with
    | some e => writeL1Update c s acb (some e)
    | none => (s, acb, .access .flush .writeL1Update)
  | .writeL1Update => writeL1Update c s acb ret
  | .commitL2Update => commitL2Update c s acb ret

/-- `qed_aio_complete`: the request leaves the queue.  It returns the request that is woken up. -/
def aioComplete (s : State) (acb : Acb) : State × Option ℕ :=
  let s := unrefL2 s acb.l2Table
  if s.allocatingWriteReqs.head? = some acb.id then
    let s := { s with allocatingWriteReqs := s.allocatingWriteReqs.tail }
    match s.allocatingWriteReqs.head? with
    | some id => (s, some id)
    | none => (if s.needCheck then { s with timer := true } else s, none)
  else (s, none)

end Write

end Qemu.Qed
