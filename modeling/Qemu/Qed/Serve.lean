import Qemu.Qed.Request

/-!
# Requests one after the other

A request is served before the next one comes, and every access to the image file may fail.

A failed access is where an image format shows whether its order of writes is right: whatever has
reached the file has to be consistent, and sectors that a request did not cover must keep their
values.

**Main definitions:** `Run.step`, `Serves`, `openImage`.
-/

namespace Qemu.Qed

/-- The accesses that fail, by their number in the run, and how many sectors are written before. -/
abbrev Failures := ℕ → Io → Option ℕ

/-- A request being served, with the number of accesses and whether one has failed. -/
structure Run where
  s : State
  f : File
  acb : Acb
  act : Action
  accesses : ℕ
  failed : Bool

/-- The guest's requests, in sectors. -/
inductive Request where
  | read (sector n : ℕ)
  | write (sector n : ℕ) (data : ℕ → Sector)
  | writeZeroes (sector n : ℕ)

namespace Request

def sector : Request → ℕ
  | read sector _ => sector
  | write sector _ _ => sector
  | writeZeroes sector _ => sector

def nbSectors : Request → ℕ
  | read _ n => n
  | write _ n _ => n
  | writeZeroes _ n => n

def data : Request → ℕ → Sector
  | read _ _ => fun _ => zeroSector
  | write sector _ data => fun q => data (q - sector)
  | writeZeroes _ _ => fun _ => zeroSector

def isWrite : Request → Bool
  | read _ _ => false
  | _ => true

/-- `bdrv_check_request` of the block layer, and the checks of `bdrv_qed_co_write_zeroes`. -/
def refused (c : Context) (req : Request) : Option Errno :=
  if c.g.imageSize < (req.sector + req.nbSectors) * 512 then some .access
  else
    match req with
    | writeZeroes sector n =>
      if c.backing.isSome ∧ (c.g.offsetIntoCluster (sector * 512) ≠ 0 ∨
        c.g.offsetIntoCluster (n * 512) ≠ 0)
      then some .notSupported
      else none
    | _ => none

/-- `qed_aio_setup`. -/
def acb : Request → Acb
  | read sector n =>
    ⟨0, false, false, fun _ => zeroSector, 0, 0, sector * 512, sector * 512 + n * 512,
      0, 0, .l1, .none⟩
  | write sector n data =>
    ⟨0, true, false, data, 0, 0, sector * 512, sector * 512 + n * 512, 0, 0, .l1, .none⟩
  | writeZeroes sector n =>
    ⟨0, true, true, fun _ => zeroSector, 0, 0, sector * 512, sector * 512 + n * 512,
      0, 0, .l1, .none⟩

end Request

section Serve

variable (c : Context) (fails : Failures)

def Run.goOn (r : Run) (t : State × Acb × Action) :
    Run := { r with s := t.1, acb := t.2.1, act := t.2.2 }

def Run.step (r : Run) : Run :=
  match r.act with
  | .access op next =>
    match fails r.accesses op with
    | none =>
      { r with f := r.f.apply op, accesses := r.accesses + 1 }.goOn (resume c r.s r.acb none next)
    | some m =>
      { r with f := r.f.fail m op, accesses := r.accesses + 1, failed := true }.goOn
        (resume c r.s r.acb (some .access) next)
  | .readTable offset pos len =>
    r.goOn (readL2TableCb c r.s r.acb offset pos len (r.f.table offset))
  | .readData sector n =>
    let qiov := fillBuffer r.acb.qiov (r.acb.qiovOffset / 512) n fun i => r.f.sectors (sector + i)
    r.goOn (nextIo c r.s { r.acb with qiov := qiov } none)
  | .next => r.goOn (nextIo c r.s r.acb none)
  | .wait => r
  | .complete _ => r

/-- A run that goes on with what a callback has returned. -/
def runOf (t : State × Acb × Action) (f : File) (accesses : ℕ) (failed : Bool) : Run :=
  ⟨t.1, f, t.2.1, t.2.2, accesses, failed⟩

def Request.start (req : Request) (s : State) (f : File) : Run :=
  runOf (nextIo c s req.acb none) f 0 false

def Run.result (r : Run) : Option (Option Errno) :=
  match r.act with
  | .complete ret => some ret
  | _ => none

def Request.run (n : ℕ) (req : Request) (s : State) (f : File) : Run :=
  (Run.step c fails)^[n] (req.start c s f)

/-- The result of a request, the new state and file, the buffer, and whether an access has
failed. -/
inductive Serves (req : Request) (s : State) (f : File) :
    Option Errno → State → File → (ℕ → Sector) → Bool → Prop
  | refused {e : Errno} (h : req.refused c = some e) :
    Serves req s f (some e) s f req.acb.qiov false
  | served {n : ℕ} {r : Run} {ret : Option Errno} (h : req.refused c = none)
      (hrun : (Run.step c fails)^[n] (req.start c s f) = r) (hret : r.act = .complete ret) :
      Serves req s f ret (aioComplete r.s r.acb).1 r.f r.acb.qiov r.failed

end Serve

/-- `bdrv_qed_open`, of an image that needs no check. -/
def openImage (c : Context) (f : File) : State where
  needCheck := f.needCheck
  fileSize := c.g.startOfCluster (f.length * 512)
  l1Table := f.table c.g.l1TableOffset
  l2Cache := []
  allocatingWriteReqs := []
  plugged := false
  timer := false

end Qemu.Qed
