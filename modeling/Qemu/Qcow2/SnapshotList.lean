import Mathlib

/-!
# The list of snapshots after an error

`qcow2_snapshot_create` and `qcow2_snapshot_delete` change the list of snapshots in memory, and then
`qcow2_write_snapshots` writes it to the image file.  If that fails, the number of snapshots stays
changed.

After a failed create the number is larger than the array, and the next search reads behind its
end.  After a failed delete the snapshot is gone from memory but still in the file.

**Main results:**
- `qcow2WriteSnapshots_spec`: when the list cannot be written
- `keeps_iff`: when the list in memory is right after an error
-/

namespace Qemu.Qcow2.SnapshotList

open List

/-! ## The functions -/

structure QEMUSnapshotInfo where
  idStr : String
  name : String
  vmStateSize : ℕ
  dateSec : ℕ
  dateNsec : ℕ
  vmClockNsec : ℕ

structure QCowSnapshot extends QEMUSnapshotInfo where
  l1TableOffset : ℕ
  l1Size : ℕ
  diskSize : ℕ

/-- The snapshots in memory, with their number apart from the array, and the list of the image
file. -/
structure State where
  snapshots : List QCowSnapshot
  nbSnapshots : ℕ
  snapshotsOffset : ℕ
  snapshotsSize : ℕ
  l1Size : ℕ
  totalSectors : ℕ
  header : List QCowSnapshot

/-- The calls that can fail.  A snapshot is written as its header, its extra data, its ID and its
name. -/
inductive Call
  | allocL1
  | writeL1
  | updateRefcount (addend : ℤ)
  | flush
  | allocList
  | writeSnapshot (i : ℕ) (part : Fin 4)
  | flushList
  | writeHeader
deriving DecidableEq

/-- What the calls return, and whether a failed write of the header has reached the image file. -/
structure Env where
  ret : Call → ℤ
  landed : Bool

section Source

variable (env : Env) (s : State)

def State.list : List QCowSnapshot := s.snapshots.take s.nbSnapshots

/-- `strtoul` with base 10: it skips white space, takes a sign, and reads the digits there are. -/
def strtoul (str : String) : ℕ :=
  -- `isspace`: a blank, or a control character from tab to carriage return
  let chars := str.toList.dropWhile fun c => c.toNat = 32 ∨ 9 ≤ c.toNat ∧ c.toNat ≤ 13
  let digits := if chars.head? = some '-' ∨ chars.head? = some '+' then chars.tail else chars
  let value := (digits.takeWhile Char.isDigit).foldl (fun n c => 10 * n + (c.toNat - '0'.toNat)) 0
  if 2 ^ 64 ≤ value then 2 ^ 64 - 1
  else if chars.head? = some '-' then (2 ^ 64 - value) % 2 ^ 64 else value

/-- An `int` more than all ids, which wraps around after `INT_MAX`. -/
def findNewSnapshotId : String :=
  let idMax := s.list.foldl (fun idMax sn => max idMax (BitVec.ofNat 32 (strtoul sn.idStr)).toInt) 0
  toString (BitVec.ofInt 32 (idMax + 1)).toInt

/-- `find_snapshot_by_id`. -/
def findSnapshotById (idStr : String) : Option ℕ := s.list.findIdx? (·.idStr = idStr)

/-- `find_snapshot_by_id_or_name`. -/
def findSnapshotByIdOrName (name : String) : Option ℕ :=
  (findSnapshotById s name).or (s.list.findIdx? (·.name = name))

/-- The calls of `qcow2_write_snapshots` after the allocation, for a list of `n` snapshots. -/
def writes (n : ℕ) : List Call :=
  (range n).flatMap (fun i => (finRange 4).map (.writeSnapshot i)) ++ [.flushList, .writeHeader]

def Env.failing (calls : List Call) : Option Call := calls.find? (env.ret · < 0)

/-- `qcow2_write_snapshots`: what it returns, and the state after it. -/
def qcow2WriteSnapshots : ℤ × State :=
  let snapshotsSize := s.list.foldl (fun offset sn =>
    (offset + 7) / 8 * 8 + 40 + 16 + sn.idStr.utf8ByteSize + sn.name.utf8ByteSize) 0
  if env.ret .allocList < 0 then (env.ret .allocList, s)
  else
    match env.failing (writes s.nbSnapshots) with
    | some call =>
      (env.ret call, if call = .writeHeader ∧ env.landed then { s with header := s.list } else s)
    | none => (0, { s with
        header := s.list, snapshotsOffset := (env.ret .allocList).toNat, snapshotsSize :=
          snapshotsSize })

/-- `qcow2_snapshot_create`. -/
def qcow2SnapshotCreate (info : QEMUSnapshotInfo) : ℤ × State :=
  let idStr := if info.idStr = "" then findNewSnapshotId s else info.idStr
  -- `-EEXIST`
  if (findSnapshotById s idStr).isSome then (-17, s)
  else
    match env.failing [.allocL1, .writeL1, .updateRefcount 1, .flush] with
    | some call => (env.ret call, s)
    | none =>
      let sn : QCowSnapshot := { info with
        idStr := idStr, l1TableOffset := (env.ret .allocL1).toNat, l1Size := s.l1Size
        diskSize := s.totalSectors * 512 }
      let (ret, s') := qcow2WriteSnapshots env
        { s with snapshots := s.list ++ [sn], nbSnapshots := s.nbSnapshots + 1 }
      -- the old array, with the new number
      if ret < 0 then (ret, { s' with snapshots := s.snapshots }) else (0, s')

/-- `qcow2_snapshot_delete`. -/
def qcow2SnapshotDelete (snapshotId : String) : ℤ × State :=
  match findSnapshotByIdOrName s snapshotId with
  -- `-ENOENT`
  | none => (-2, s)
  | some i =>
    let (ret, s') := qcow2WriteSnapshots env { s with
      snapshots := s.snapshots.take i ++
      (s.list.drop (i + 1) ++ s.snapshots.drop (s.nbSnapshots - 1))
      nbSnapshots := s.nbSnapshots - 1 }
    if ret < 0 then (ret, s')
    else
      match env.failing [.updateRefcount (-1), .updateRefcount 0] with
      | some call => (env.ret call, s')
      | none => (0, s')

end Source

/-! ## The list after an error -/

def State.Describes (s : State) (list : List QCowSnapshot) : Prop :=
  s.nbSnapshots ≤ s.snapshots.length ∧ s.list = list

/-- An open image, with the list of the header in memory. -/
structure Image extends State where
  describes : toState.Describes header

/-- The list is what it was before, if there is an error. -/
def CreateKeeps (env : Env) (s : State) (info : QEMUSnapshotInfo) : Prop :=
  (qcow2SnapshotCreate env s info).1 < 0 → (qcow2SnapshotCreate env s info).2.Describes s.list

/-- The list is that of the header, if there is an error. -/
def DeleteKeeps (env : Env) (s : State) (snapshotId : String) : Prop :=
  (qcow2SnapshotDelete env s snapshotId).1 < 0 →
    (qcow2SnapshotDelete env s snapshotId).2.Describes
      (qcow2SnapshotDelete env s snapshotId).2.header

/-- A list of `n` snapshots cannot be written. -/
def Env.WriteFails (env : Env) (n : ℕ) : Prop :=
  env.ret .allocList < 0 ∨ env.failing (writes n) ≠ none

/-- The first call that fails is the write of the header, which has reached the file
nevertheless. -/
def Env.Lands (env : Env) (n : ℕ) : Prop :=
  0 ≤ env.ret .allocList ∧ env.failing (writes n) = some .writeHeader ∧ env.landed = true

def QEMUSnapshotInfo.newId (info : QEMUSnapshotInfo) (s : State) : String :=
  if info.idStr = "" then findNewSnapshotId s else info.idStr

/-- A list with one more snapshot can be written, if it comes to that. -/
def CreateCareful (env : Env) (s : State) (info : QEMUSnapshotInfo) : Prop :=
  findSnapshotById s (info.newId s) = none →
    env.failing [.allocL1, .writeL1, .updateRefcount 1, .flush] = none →
    ¬ env.WriteFails (s.nbSnapshots + 1)

/-- The shorter list can be written, or its header reaches the image file, if it comes to that. -/
def DeleteCareful (env : Env) (s : State) (snapshotId : String) : Prop :=
  findSnapshotByIdOrName s snapshotId ≠ none → env.WriteFails (s.nbSnapshots - 1) →
    env.Lands (s.nbSnapshots - 1)

section Errors

variable {env : Env} {s : State}

lemma ret_failing {calls : List Call} {call : Call} (h : env.failing calls = some call) :
    env.ret call < 0 := by
  simpa using find?_some h

/-- **Writing the list** leaves the list in memory, and puts it in the file unless it fails. -/
lemma qcow2WriteSnapshots_spec {r : ℤ × State} (h : qcow2WriteSnapshots env s = r) :
    r.2.snapshots = s.snapshots ∧ r.2.nbSnapshots = s.nbSnapshots ∧
      (r.1 < 0 ↔ env.WriteFails s.nbSnapshots) ∧
      (r.2.header = s.list ∧ (¬ env.WriteFails s.nbSnapshots ∨ env.Lands s.nbSnapshots) ∨
        r.2.header = s.header ∧ env.WriteFails s.nbSnapshots ∧ ¬ env.Lands s.nbSnapshots) := by
  subst h
  rw [qcow2WriteSnapshots]
  by_cases halloc : env.ret .allocList < 0
  · rw [if_pos halloc]
    exact ⟨rfl, rfl, iff_of_true halloc (.inl halloc),
      .inr ⟨rfl, .inl halloc, fun hl => absurd halloc (not_lt.mpr hl.1)⟩⟩
  rw [if_neg halloc]
  cases hfail : env.failing (writes s.nbSnapshots) with
  | none =>
    have hok : ¬ env.WriteFails s.nbSnapshots := not_or.mpr ⟨halloc, not_not.mpr hfail⟩
    exact ⟨rfl, rfl, iff_of_false (lt_irrefl 0) hok, .inl ⟨rfl, .inl hok⟩⟩
  | some call =>
    have hfails : env.WriteFails s.nbSnapshots := .inr (by rw [hfail]; exact nofun)
    have hlands : env.Lands s.nbSnapshots ↔ call = .writeHeader ∧ env.landed = true := by
      simp [Env.Lands, hfail, not_lt.mp halloc]
    rw [hlands]
    simp only
    split_ifs with hl
    · exact ⟨rfl, rfl, iff_of_true (ret_failing hfail) hfails, .inl ⟨rfl, .inr hl⟩⟩
    · exact ⟨rfl, rfl, iff_of_true (ret_failing hfail) hfails, .inr ⟨rfl, hfails, hl⟩⟩

lemma createKeeps_iff (env : Env) (img : Image) (info : QEMUSnapshotInfo) :
    CreateKeeps env img.toState info ↔ CreateCareful env img.toState info := by
  have hsame : img.toState.Describes img.list := ⟨img.describes.1, rfl⟩
  rw [CreateKeeps, CreateCareful, qcow2SnapshotCreate, ← QEMUSnapshotInfo.newId]
  cases hfind : findSnapshotById img.toState (info.newId img.toState) with
  | some i => exact iff_of_true (fun _ => hsame) nofun
  | none =>
    cases hfail : env.failing [.allocL1, .writeL1, .updateRefcount 1, .flush] with
    | some call => exact iff_of_true (fun _ => hsame) nofun
    | none =>
      simp only [Option.isSome_none, Bool.false_eq_true, if_false, forall_const]
      generalize hwrite : qcow2WriteSnapshots env _ = r
      obtain ⟨-, hnb, hret, -⟩ := qcow2WriteSnapshots_spec hwrite
      rw [← hret]
      by_cases hr : r.1 < 0
      · refine iff_of_false (fun h => ?_) (not_not.mpr hr)
        simp only [hr, if_true, forall_const, State.Describes, State.list, hnb] at h
        have hlength := congrArg length h.2
        rw [length_take, length_take] at hlength
        omega
      · simp [hr]

lemma deleteKeeps_iff (env : Env) (img : Image) (snapshotId : String) :
    DeleteKeeps env img.toState snapshotId ↔ DeleteCareful env img.toState snapshotId := by
  have hlist : img.list.length = img.nbSnapshots := by
    rw [State.list, length_take, min_eq_left img.describes.1]
  have hlength := img.describes.1
  rw [DeleteKeeps, DeleteCareful, qcow2SnapshotDelete]
  cases hfind : findSnapshotByIdOrName img.toState snapshotId with
  | none => exact iff_of_true (fun _ => img.describes) fun h => absurd rfl h
  | some i =>
    have hi : i < img.nbSnapshots := by
      rw [← hlist]
      rcases Option.or_eq_some_iff.mp hfind with h | ⟨-, h⟩
      · exact (findIdx?_eq_some_iff_getElem.mp h).1
      · exact (findIdx?_eq_some_iff_getElem.mp h).1
    simp only
    generalize hwrite : qcow2WriteSnapshots env _ = r
    obtain ⟨hsn, hnb, hret, hheader⟩ := qcow2WriteSnapshots_spec hwrite
    have hsize : r.2.nbSnapshots ≤ r.2.snapshots.length := by
      rw [hsn, hnb]
      simp only [length_append, length_take, length_drop, hlist]
      omega
    rcases hheader with ⟨hheader, hkeeps⟩ | ⟨hheader, hfails, hlands⟩
    · have hdescribes : r.2.Describes r.2.header :=
        ⟨hsize, by rw [hheader, State.list, hsn, hnb]; rfl⟩
      refine iff_of_true ?_ fun _ hfails => hkeeps.resolve_left (not_not.mpr hfails)
      split_ifs
      · exact fun _ => hdescribes
      · cases env.failing [.updateRefcount (-1), .updateRefcount 0] <;> exact fun _ => hdescribes
    · -- one snapshot less in memory than behind the header
      refine iff_of_false (fun h => ?_) fun h => hlands (h nofun hfails)
      rw [if_pos (hret.mpr hfails)] at h
      have heq := congrArg length (h (hret.mpr hfails)).2
      rw [hheader, ← img.describes.2, hlist, State.list, length_take, min_eq_left hsize, hnb] at heq
      simp only at heq
      omega

end Errors

/-- **The list of snapshots** is right after an error if and only if it could be written. -/
theorem keeps_iff (env : Env) (img : Image) :
    (∀ info, CreateKeeps env img.toState info ↔ CreateCareful env img.toState info) ∧
      ∀ snapshotId, DeleteKeeps env img.toState snapshotId ↔
        DeleteCareful env img.toState snapshotId :=
  ⟨createKeeps_iff env img, deleteKeeps_iff env img⟩

def emptyImage : Image := ⟨⟨[], 0, 0, 0, 1, 0, []⟩, le_rfl, rfl⟩

/-- The header cannot be written. -/
def headerEnv : Env := ⟨fun call => if call = .writeHeader then -5 else 0, false⟩

/-- **More snapshots than there are in the array.** -/
theorem emptyImage_exceeds : ¬ ∀ (env : Env) (img : Image) (info : QEMUSnapshotInfo)
    (snapshotId : String),
    CreateKeeps env img.toState info ∧ DeleteKeeps env img.toState snapshotId := by
  intro h
  have hcareful := (createKeeps_iff _ _ _).mp (h headerEnv emptyImage ⟨"1", "", 0, 0, 0, 0⟩ "").1
  exact hcareful rfl (by decide) (.inr (by decide))

end Qemu.Qcow2.SnapshotList
