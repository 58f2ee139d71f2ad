import Qemu.Savevm.QemuFile
import Qemu.Lib.Errno

/-!
# Descriptions of the state of a device

A `VMStateDescription` lists the fields of a device.  `vmstate_save_state` and `vmstate_load_state`
interpret it, each in its own way: they decide in different ways whether a field is there, they read
the lengths of arrays and buffers from the device, and they find the optional subsections at the end
of a description by looking at the bytes that come next.

The state of a device is memory.  Addresses are those of one machine: pointers are not saved, so
that both machines have the same `deref`.

**Main definitions:** `Desc`, `saveState`, `loadState`.
-/

namespace Qemu.Savevm

abbrev Mem := ℕ → Byte

/-- The byte order of the host, and where its pointers point to. -/
structure Host where
  bigEndian : Bool
  deref : ℕ → ℕ

/-! ## Descriptions -/

/-- The kinds of `VMStateInfo` in `savevm.c`: a number, a `bool`, a number that has to be the same
already, one that must not be greater already, a buffer, and one that is not used any more.  A timer
is a number of eight bytes, the time when it expires or −1. -/
inductive Info where
  | number (n : ℕ)
  | bool
  | equal (n : ℕ)
  | int32Le
  | buffer
  | unused
  deriving DecidableEq, Repr

/-- `VMStateField`, but for what an element of it is: `VMS_STRUCT` is `Elem.struct`. -/
structure FieldInfo where
  offset : ℕ
  size : ℕ
  start : ℕ
  num : ℤ
  numOffset : ℕ
  sizeOffset : ℕ
  flags : BitVec 12
  versionId : ℤ
  fieldExists : Option (Mem → ℕ → ℤ → Bool)

/-- `VMStateDescription`, but for its fields and subsections, and `load_state_old`, which is code of
the device. -/
structure DescInfo where
  name : List Byte
  name_ne_zero : ∀ b ∈ name, b ≠ 0
  versionId : ℤ
  minimumVersionId : ℤ
  minimumVersionIdOld : ℤ
  preLoad : Option (Mem → ℕ → ℤ × Mem)
  postLoad : Option (Mem → ℕ → ℤ → ℤ × Mem)
  preSave : Option (Mem → ℕ → Mem)

mutual

/-- `VMStateDescription`. -/
inductive Desc where
  | mk (info : DescInfo) (fields : Fields) (subsections : Subsections)

/-- The fields of a description. -/
inductive Fields where
  | nil
  | cons (info : FieldInfo) (elem : Elem) (rest : Fields)

/-- What an element of a field is. -/
inductive Elem where
  | info (i : Info)
  | struct (vmsd : Desc)

/-- The subsections of a description, each with its `needed`. -/
inductive Subsections where
  | nil
  | cons (vmsd : Desc) (needed : Mem → ℕ → Bool) (rest : Subsections)

end

def Desc.info : Desc → DescInfo
  | .mk info _ _ => info

/-! ## Elements of a field -/

/-- The `n` bytes at an address. -/
def Mem.bytes (mem : Mem) (addr n : ℕ) : List Byte := (List.range n).map fun k => mem (addr + k)

def Mem.store (mem : Mem) (addr : ℕ) (bs : List Byte) : Mem := fun a =>
  if addr ≤ a ∧ a < addr + bs.length then bs.getD (a - addr) 0 else mem a

/-- Bytes in the order of the host, most significant first; and back. -/
def Host.order (host : Host) (bs : List Byte) :
    List Byte := if host.bigEndian then bs else bs.reverse

/-- The value of some bytes, most significant first. -/
def value (bs : List Byte) : ℕ := bs.foldl (fun v b => v * 256 + b.toNat) 0

def Host.readNat (host : Host) (mem : Mem) (addr n : ℕ) : ℕ := value (host.order (mem.bytes addr n))

/-- The conversion to `int`. -/
def toInt32 (z : ℤ) : ℤ := (BitVec.ofInt 32 z).toInt

/-- An `int32_t` of the host. -/
def Host.readInt32 (host : Host) (mem : Mem) (addr : ℕ) : ℤ := toInt32 (host.readNat mem addr 4)

namespace FieldInfo

variable (f : FieldInfo) (host : Host) (mem : Mem) (dev : ℕ)

def vmsPointer : Bool := f.flags.getLsbD 1
def vmsArray : Bool := f.flags.getLsbD 2
def vmsVarrayInt32 : Bool := f.flags.getLsbD 4
def vmsArrayOfPointer : Bool := f.flags.getLsbD 6
def vmsVarrayUint16 : Bool := f.flags.getLsbD 7
def vmsVbuffer : Bool := f.flags.getLsbD 8
def vmsMultiply : Bool := f.flags.getLsbD 9
def vmsVarrayUint8 : Bool := f.flags.getLsbD 10
def vmsVarrayUint32 : Bool := f.flags.getLsbD 11

/-- The variable `size`, the bytes of an element. -/
def elemSize : ℤ :=
  if f.vmsVbuffer then
    let size := host.readInt32 mem (dev + f.sizeOffset)
    if f.vmsMultiply then toInt32 (size * f.size) else size
  else toInt32 f.size

/-- The variable `n_elems`. -/
def nElems : ℤ :=
  if f.vmsArray then f.num
  else if f.vmsVarrayInt32 then host.readInt32 mem (dev + f.numOffset)
  else if f.vmsVarrayUint32 then toInt32 (host.readNat mem (dev + f.numOffset) 4)
  else if f.vmsVarrayUint16 then host.readNat mem (dev + f.numOffset) 2
  else if f.vmsVarrayUint8 then host.readNat mem (dev + f.numOffset) 1
  else 1

/-- Where an element is. -/
def elemAddr (size : ℤ) (i : ℕ) : ℕ :=
  let base := if f.vmsPointer then host.deref (dev + f.offset) + f.start else dev + f.offset
  let addr := (base + size * i).toNat
  if f.vmsArrayOfPointer then host.deref addr else addr

end FieldInfo

/-! ## Saving -/

/-- The conversion to `size_t`. -/
def sizeT (size : ℤ) : ℕ := (size % 2 ^ 64).toNat

/-- `field->info->put`.  The length of a buffer is an `int`, and nothing is put if it is
negative. -/
def Info.put (host : Host) (mem : Mem) (addr : ℕ) (size : ℤ) : Info → List Byte
  | .number n => host.order (mem.bytes addr n)
  | .bool => mem.bytes addr 1
  | .equal n => host.order (mem.bytes addr n)
  | .int32Le => host.order (mem.bytes addr 4)
  | .buffer => mem.bytes addr size.toNat
  | .unused => List.replicate (sizeT size) 0

/-- `qemu_put_be32`. -/
def putBe32 (v : ℤ) : List Byte :=
  let v := BitVec.ofInt 32 v
  [v.extractLsb' 24 8, v.extractLsb' 16 8, v.extractLsb' 8 8, v.extractLsb' 0 8]

/-- `QEMU_VM_SUBSECTION`. -/
def vmSubsection : Byte := 0x05

/-- What a subsection begins with.  The length of the name is a byte. -/
def subHeader (info : DescInfo) : List Byte :=
  let len : Byte := BitVec.ofNat 8 info.name.length
  vmSubsection :: len :: (info.name.take len.toNat ++ putBe32 info.versionId)

/-- The memory after `pre_save`. -/
def DescInfo.saved (info : DescInfo) (mem : Mem) (dev : ℕ) : Mem :=
  match info.preSave with
  | none => mem
  | some preSave => preSave mem dev

/-- `vmstate_save_state` saves the field. -/
def FieldInfo.saves (f : FieldInfo) (mem : Mem) (dev : ℕ) (versionId : ℤ) : Bool :=
  match f.fieldExists with
  | none => true
  | some fieldExists => fieldExists mem dev versionId

/-- `vmstate_load_state` loads the field. -/
def FieldInfo.loads (f : FieldInfo) (mem : Mem) (dev : ℕ) (versionId : ℤ) : Bool :=
  match f.fieldExists with
  | none => decide (f.versionId ≤ versionId)
  | some fieldExists => fieldExists mem dev versionId

/-- Save `n` elements, from the `i`-th on. -/
def saveElems (save : ℕ → Mem → List Byte × Mem) : ℕ → ℕ → Mem → List Byte × Mem
  | 0, _, mem => ([], mem)
  | n + 1, i, mem =>
    let (bs, mem) := save i mem
    let (rest, mem) := saveElems save n (i + 1) mem
    (bs ++ rest, mem)

section Save

variable (host : Host)

mutual

/-- `vmstate_save_state`: the bytes, and the memory after every `pre_save`. -/
def saveState : Desc → Mem → ℕ → List Byte × Mem
  | .mk info fields subsections, mem, dev =>
    let mem := info.saved mem dev
    let (bs, mem) := saveFields fields mem dev info.versionId
    let (subs, mem) := subsectionSave subsections mem dev
    (bs ++ subs, mem)

/-- The loop of `vmstate_save_state` over the fields. -/
def saveFields : Fields → Mem → ℕ → ℤ → List Byte × Mem
  | .nil, mem, _, _ => ([], mem)
  | .cons f elem rest, mem, dev, versionId =>
    let (bs, mem) :=
      if f.saves mem dev versionId then
        let size := f.elemSize host mem dev
        let n := (f.nElems host mem dev).toNat
        saveElems (fun i mem => saveElem elem mem (f.elemAddr host dev size i) size) n 0 mem
      else ([], mem)
    let (more, mem) := saveFields rest mem dev versionId
    (bs ++ more, mem)

def saveElem : Elem → Mem → ℕ → ℤ → List Byte × Mem
  | .info i, mem, addr, size => (i.put host mem addr size, mem)
  | .struct vmsd, mem, addr, _ => saveState vmsd mem addr

/-- `vmstate_subsection_save`. -/
def subsectionSave : Subsections → Mem → ℕ → List Byte × Mem
  | .nil, mem, _ => ([], mem)
  | .cons vmsd needed rest, mem, dev =>
    let (bs, mem) :=
      if needed mem dev then
        let (bs, mem) := saveState vmsd mem dev
        (subHeader vmsd.info ++ bs, mem)
      else ([], mem)
    let (more, mem) := subsectionSave rest mem dev
    (bs ++ more, mem)

end

end Save

/-! ## Loading -/

def cstr (bs : List Byte) : List Byte := bs.takeWhile (· ≠ 0)

/-- Loading does not come to its end: there was not enough fuel, or `load_state_old` goes on. -/
inductive Stop where
  | fuel
  | loadStateOld
  deriving DecidableEq, Repr

section Load

variable {σ : Type} (R : Reader σ) (host : Host)

/-- A reader and the memory that is loaded into. -/
abbrev St (σ : Type) := σ × Mem

/-- The loop of `get_unused_buffer`. -/
def getUnused : ℕ → ℕ → σ → σ
  | 0, _, s => s
  | fuel + 1, size, s =>
    if size = 0 then s
    else
      let len := min 1024 size
      getUnused fuel (size - len) (R.getBuffer len s).2

/-- `field->info->get`. -/
def Info.get (addr : ℕ) (size : ℤ) (st : St σ) : Info → ℤ × St σ
  | .number n =>
    let (bs, s) := R.getBytes n st.1
    (0, s, st.2.store addr (host.order bs))
  | .bool =>
    let (b, s) := R.getByte st.1
    (0, s, st.2.store addr [if b = 0 then 0 else 1])
  | .equal n =>
    let (bs, s) := R.getBytes n st.1
    (if host.order (st.2.bytes addr n) = bs then 0 else -einval, s, st.2)
  | .int32Le =>
    let (bs, s) := R.getBytes 4 st.1
    (if host.readInt32 st.2 addr ≤ toInt32 (value bs) then 0 else -einval, s, st.2)
  | .buffer =>
    let (bs, s) := R.getBuffer size.toNat st.1
    (0, s, st.2.store addr bs)
  | .unused => (0, getUnused R (sizeT size) (sizeT size) st.1, st.2)

/-- Load `n` elements, from the `i`-th on, until one of them cannot be loaded. -/
def loadElems (load : ℕ → St σ → Except Stop (ℤ × St σ)) : ℕ → ℕ → St σ → Except Stop (ℤ × St σ)
  | 0, _, st => .ok (0, st)
  | n + 1, i, st =>
    match load i st with
    | .error e => .error e
    | .ok (ret, st) => if ret < 0 then .ok (ret, st) else loadElems load n (i + 1) st

/-- What `vmstate_subsection_load` looks at before it skips anything: the name of a subsection, if
there is one. -/
def subsectionName (name : List Byte) (s : σ) : Option (List Byte) × σ :=
  let (b, s) := R.peekByte 0 s
  if b ≠ vmSubsection then (none, s)
  else
    let (len, s) := R.peekByte 1 s
    if len.toNat < name.length + 1 then (none, s)
    else
      let (idstr, s) := R.peekBuffer len.toNat 2 s
      if idstr.length ≠ len.toNat then (none, s)
      else if ¬ name <+: cstr idstr then (none, s)
      else (some idstr, s)

/-- The loop of `vmstate_subsection_load`.  `find` is `vmstate_get_subsection` and the loading. -/
def subsectionLoad (name : List Byte)
    (find : List Byte → Option (ℤ → St σ → Except Stop (ℤ × St σ))) :
    ℕ → St σ → Except Stop (ℤ × St σ)
  | 0, _ => .error .fuel
  | fuel + 1, (s, mem) =>
    match subsectionName R name s with
    | (none, s) => .ok (0, s, mem)
    | (some idstr, s) =>
      match find (cstr idstr) with
      | none => .ok (-enoent, s, mem)
      | some load =>
        let s := R.skip idstr.length (R.skip 1 (R.skip 1 s))
        let (bs, s) := R.getBytes 4 s
        -- the version is kept in a byte
        match load (value bs % 256 : ℕ) (s, mem) with
        | .error e => .error e
        | .ok (ret, st) => if ret ≠ 0 then .ok (ret, st) else subsectionLoad name find fuel st

/-- `pre_load`. -/
def DescInfo.runPreLoad (info : DescInfo) (dev : ℕ) (mem : Mem) : ℤ × Mem :=
  match info.preLoad with
  | none => (0, mem)
  | some preLoad => preLoad mem dev

/-- `post_load`. -/
def DescInfo.runPostLoad (info : DescInfo) (dev : ℕ) (versionId : ℤ) (mem : Mem) : ℤ × Mem :=
  match info.postLoad with
  | none => (0, mem)
  | some postLoad => postLoad mem dev versionId

variable (fuel : ℕ)

mutual

/-- `vmstate_load_state`.  `fuel` bounds the number of subsections of one description. -/
def loadState : Desc → St σ → ℕ → ℤ → Except Stop (ℤ × St σ)
  | .mk info fields subsections, (s, mem), dev, versionId =>
    if info.versionId < versionId then .ok (-einval, s, mem)
    else if versionId < info.minimumVersionIdOld then .ok (-einval, s, mem)
    else if versionId < info.minimumVersionId then .error .loadStateOld
    else
      let (ret, mem) := info.runPreLoad dev mem
      if ret ≠ 0 then .ok (ret, s, mem)
      else
        match loadFields fields (s, mem) dev versionId with
        | .error e => .error e
        | .ok (ret, st) =>
          if ret < 0 then .ok (ret, st)
          else
            match subsectionLoad R info.name
              (fun idstr => findLoad subsections idstr dev) fuel st with
            | .error e => .error e
            | .ok (ret, s, mem) =>
              if ret ≠ 0 then .ok (ret, s, mem)
              else
                let (ret, mem) := info.runPostLoad dev versionId mem
                .ok (ret, s, mem)

/-- The loop of `vmstate_load_state` over the fields. -/
def loadFields : Fields → St σ → ℕ → ℤ → Except Stop (ℤ × St σ)
  | .nil, st, _, _ => .ok (0, st)
  | .cons f elem rest, st, dev, versionId =>
    if f.loads st.2 dev versionId then
      let size := f.elemSize host st.2 dev
      let n := (f.nElems host st.2 dev).toNat
      match loadElems (fun i st => loadElem elem st (f.elemAddr host dev size i) size) n 0 st with
      | .error e => .error e
      | .ok (ret, st) => if ret < 0 then .ok (ret, st) else loadFields rest st dev versionId
    else loadFields rest st dev versionId

def loadElem : Elem → St σ → ℕ → ℤ → Except Stop (ℤ × St σ)
  | .info i, st, addr, size => .ok (i.get R host addr size st)
  | .struct vmsd, st, addr, _ => loadState vmsd st addr vmsd.info.versionId

/-- `vmstate_get_subsection`, and what loading it does. -/
def findLoad : Subsections → List Byte → ℕ → Option (ℤ → St σ → Except Stop (ℤ × St σ))
  | .nil, _, _ => none
  | .cons vmsd _ rest, idstr, dev =>
    if idstr = vmsd.info.name then some fun versionId st => loadState vmsd st dev versionId
    else findLoad rest idstr dev

end

end Load

end Qemu.Savevm
