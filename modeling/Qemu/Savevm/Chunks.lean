import Qemu.Savevm.VmState

/-!
# Loading in pieces

What a `QEMUFile` returns should not depend on the pieces in which its callback delivers the stream.
`vmstate_subsection_load` looks at the name of a subsection after at most one call of the callback,
and takes a name that is not all there for no subsection at all.

**Main results:**
* `loadState_loads` — a file whose callback delivers enough loads what the stream as a whole loads.
* `run_ends` — every sequence of calls comes to its end.
* `run_eq_iff` — the callbacks for which the pieces make no difference are those that deliver at
  least 255 bytes, from the second call on if the first has delivered two bytes, and from the third
  otherwise.
-/

namespace Qemu.Savevm

open List QemuFile

/-! ## A file follows its stream -/

/-- The file has the bytes of a stream before it, and its callback delivers enough. -/
structure Follows (f : QemuFile) (s : List Byte) : Prop where
  reads : Reads f s
  fed : f.Fed

/-- Loading from a file and from a stream is the same, leaves at most `n` bytes, and ends with as
much fuel as bytes. -/
inductive Loads (fuel n : ℕ) :
    Except Stop (ℤ × St QemuFile) → Except Stop (ℤ × St (List Byte)) → Prop
  | error (e : Stop) (he : n < fuel → e ≠ .fuel) : Loads fuel n (.error e) (.error e)
  | ok {f : QemuFile} {s : List Byte} (ret : ℤ) (mem : Mem) (h : Follows f s) (hs : s.length ≤ n) :
      Loads fuel n (.ok (ret, f, mem)) (.ok (ret, s, mem))

/-- A result stays right with more fuel, and with a longer stream. -/
lemma Loads.mono {fuel n fuel' n' : ℕ} (hn : n ≤ n') (hfuel : n' < fuel' → n < fuel) {r t}
    (h : Loads fuel n r t) : Loads fuel' n' r t := by
  cases h with
  | error e he => exact .error e fun h => he (hfuel h)
  | ok ret mem h hs => exact .ok ret mem h (hs.trans hn)

lemma length_drop_le (k : ℕ) (s : List Byte) : (s.drop k).length ≤ s.length := by
  rw [length_drop]
  omega

lemma length_skip_le (k : ℕ) (s : List Byte) : (streamReader.skip k s).length ≤ s.length := by
  show (if k ≤ s.length then s.drop k else s).length ≤ s.length
  split_ifs
  · exact length_drop_le k s
  · exact le_rfl

lemma length_getBytes_le (k : ℕ) (s : List Byte) :
    (streamReader.getBytes k s).2.length ≤ s.length := by
  induction k generalizing s with
  | zero => exact le_rfl
  | succ k ih => exact (ih _).trans (length_skip_le 1 s)

/-- Reading never makes the stream longer. -/
lemma length_getUnused_le (fuel size : ℕ) (s : List Byte) :
    (getUnused streamReader fuel size s).length ≤ s.length := by
  induction fuel generalizing size s with
  | zero => exact le_rfl
  | succ fuel ih =>
    rw [getUnused]
    split_ifs
    · exact le_rfl
    · exact (ih _ _).trans (length_drop_le _ s)

section Loading

variable {f : QemuFile} {s : List Byte} {mem : Mem} (host : Host) (fuel : ℕ)

namespace Follows

/-- A byte is read alike from the file and from the stream. -/
lemma getByte (h : Follows f s) : (qemuReader.getByte f).1 = (streamReader.getByte s).1 ∧
    Follows (qemuReader.getByte f).2 (streamReader.getByte s).2 :=
  ⟨h.reads.getByte.1, h.reads.getByte.2, h.fed.getByte⟩

/-- So are several bytes. -/
lemma getBytes (h : Follows f s) (n : ℕ) :
    (qemuReader.getBytes n f).1 = (streamReader.getBytes n s).1 ∧
      Follows (qemuReader.getBytes n f).2 (streamReader.getBytes n s).2 :=
  ⟨(h.reads.getBytes n).1, (h.reads.getBytes n).2, h.fed.getBytes n⟩

/-- So is a buffer. -/
lemma getBuffer (h : Follows f s) (size : ℕ) :
    (qemuReader.getBuffer size f).1 = (streamReader.getBuffer size s).1 ∧
      Follows (qemuReader.getBuffer size f).2 (streamReader.getBuffer size s).2 :=
  ⟨(h.reads.getBuffer size).1, (h.reads.getBuffer size).2, h.fed.getBuffer size⟩

/-- Bytes that are in the buffer of the file can be skipped. -/
lemma skip {k : ℕ} (h : Follows f s) (hk : k ≤ f.buf.length) :
    Follows (qemuReader.skip k f) (streamReader.skip k s) :=
  ⟨h.reads.skip hk, h.fed.skip k⟩

/-- Peeking may fill the buffer and changes nothing else. -/
lemma peekByte (h : Follows f s) (offset : ℕ) : Follows (qemuReader.peekByte offset f).2 s :=
  ⟨h.reads.peekByte_reads offset, h.fed.peekByte offset⟩

lemma peekBuffer (h : Follows f s) (size offset : ℕ) :
    Follows (qemuReader.peekBuffer size offset f).2 s :=
  ⟨h.reads.peekBuffer_reads size offset, h.fed.peekBuffer size offset⟩

/-- Unused data is passed over in pieces. -/
lemma getUnused (h : Follows f s) (fuel size : ℕ) :
    Follows (getUnused qemuReader fuel size f) (getUnused streamReader fuel size s) := by
  induction fuel generalizing f s size with
  | zero => exact h
  | succ fuel ih =>
    rw [Savevm.getUnused, Savevm.getUnused]
    split_ifs
    · exact h
    · exact ih (h.getBuffer _).2 _

/-- A field of any kind is loaded alike. -/
lemma get (h : Follows f s) (i : Info) (addr : ℕ) (size : ℤ) :
    Loads fuel s.length (.ok (i.get qemuReader host addr size (f, mem)))
      (.ok (i.get streamReader host addr size (s, mem))) := by
  cases i with
  | number n =>
    simp only [Info.get, (h.getBytes n).1]
    exact .ok _ _ (h.getBytes n).2 (length_getBytes_le n s)
  | bool =>
    simp only [Info.get, h.getByte.1]
    exact .ok _ _ h.getByte.2 (length_skip_le 1 s)
  | equal n =>
    simp only [Info.get, (h.getBytes n).1]
    exact .ok _ _ (h.getBytes n).2 (length_getBytes_le n s)
  | int32Le =>
    simp only [Info.get, (h.getBytes 4).1]
    exact .ok _ _ (h.getBytes 4).2 (length_getBytes_le 4 s)
  | buffer =>
    simp only [Info.get, (h.getBuffer size.toNat).1]
    exact .ok _ _ (h.getBuffer size.toNat).2 (length_drop_le _ s)
  | unused => exact .ok _ _ (h.getUnused _ _) (length_getUnused_le _ _ s)

end Follows

/-- Looking for a subsection leaves the stream as it is. -/
lemma subsectionName_stream (name s : List Byte) : (subsectionName streamReader name s).2 = s := by
  rw [subsectionName]
  simp only
  split_ifs
  all_goals rfl

/-- The header of a subsection has at least two bytes. -/
lemma length_of_subsectionName {name idstr : List Byte}
    (h : (subsectionName streamReader name s).1 = some idstr) : 2 ≤ s.length := by
  rw [subsectionName] at h
  simp only at h
  split_ifs at h with hb hlen hid hname
  by_contra hs
  rw [not_lt] at hlen
  rw [not_not] at hid
  have : ((s.drop 2).take (s.getD 1 0).toNat).length = (s.getD 1 0).toNat := hid
  have hge : name.length + 1 ≤ (s.getD 1 0).toNat := hlen
  rw [length_take, length_drop] at this
  omega

/-- The elements of an array are loaded alike if each one is. -/
lemma loadElems_loads (mem : Mem) (load : ℕ → St QemuFile → Except Stop (ℤ × St QemuFile))
    (load' : ℕ → St (List Byte) → Except Stop (ℤ × St (List Byte)))
    (hload : ∀ i f s mem, Follows f s → Loads fuel s.length (load i (f, mem)) (load' i (s, mem)))
    (h : Follows f s) (n i : ℕ) :
    Loads fuel s.length (loadElems load n i (f, mem)) (loadElems load' n i (s, mem)) := by
  induction n generalizing f s mem i with
  | zero => exact .ok _ _ h le_rfl
  | succ n ih =>
    rw [loadElems, loadElems]
    generalize load i (f, mem) = r, load' i (s, mem) = t, hload i f s mem h = hrt
    cases hrt with
    | error e he => exact .error e he
    | ok ret mem h hs =>
      simp only
      split_ifs
      · exact .ok _ _ h hs
      · exact (ih _ h _).mono hs hs.trans_lt

/-- **The name of a subsection.**  It is in the buffer then. -/
lemma Follows.subsectionName (h : Follows f s) (name : List Byte) :
    (subsectionName qemuReader name f).1 = (subsectionName streamReader name s).1 ∧
      Follows (subsectionName qemuReader name f).2 s ∧
      ∀ idstr, (subsectionName qemuReader name f).1 = some idstr →
        idstr.length + 2 ≤ (subsectionName qemuReader name f).2.buf.length := by
  have h₀ := h.peekByte 0
  have hlen₀ := h.reads.length_peekByte_zero
  have hb : (qemuReader.peekByte 0 f).1 = (streamReader.peekByte 0 s).1 := h.reads.peekByte hlen₀
  have h₁ := h₀.peekByte 1
  have hlen₁ : min 2 s.length ≤ (qemuReader.peekByte 1 (qemuReader.peekByte 0 f).2).2.buf.length :=
    h₀.reads.length_peekByte_one hlen₀
  have hlen : (qemuReader.peekByte 1 (qemuReader.peekByte 0 f).2).1 =
      (streamReader.peekByte 1 s).1 :=
    h₀.reads.peekByte hlen₁
  have hs : ∀ k, (streamReader.peekByte k s).2 = s := fun _ => rfl
  simp only [Savevm.subsectionName, hs, hb, hlen]
  by_cases hbyte : (streamReader.peekByte 0 s).1 ≠ vmSubsection
  · simp only [if_pos hbyte]
    exact ⟨trivial, h₀, nofun⟩
  simp only [if_neg hbyte]
  generalize (streamReader.peekByte 1 s).1 = len
  generalize (qemuReader.peekByte 1 (qemuReader.peekByte 0 f).2).2 = g at h₁ hlen₁ ⊢
  by_cases hshort : len.toNat < name.length + 1
  · simp only [if_pos hshort]
    exact ⟨trivial, h₁, nofun⟩
  simp only [if_neg hshort]
  have h₂ := h₁.peekBuffer len.toNat 2
  have hid : (qemuReader.peekBuffer len.toNat 2 g).1 = (streamReader.peekBuffer len.toNat 2 s).1 :=
    h₁.reads.peekBuffer (h₁.reads.length_peekBuffer_two h₁.fed (by omega) hlen₁)
  have hbuf : (qemuReader.peekBuffer len.toNat 2 g).1.length =
      min len.toNat ((qemuReader.peekBuffer len.toNat 2 g).2.buf.length - 2) := by
    show (((g.peekBuffer len.toNat 2).2.buf.drop 2).take len.toNat).length = _
    rw [length_take, length_drop]
    rfl
  simp only [hid] at hbuf ⊢
  generalize (streamReader.peekBuffer len.toNat 2 s).1 = idstr at hbuf ⊢
  by_cases hpart : idstr.length ≠ len.toNat
  · simp only [if_pos hpart]
    exact ⟨trivial, h₂, nofun⟩
  simp only [if_neg hpart]
  by_cases hname : ¬ name <+: cstr idstr
  · simp only [if_pos hname]
    exact ⟨trivial, h₂, nofun⟩
  simp only [if_neg hname]
  refine ⟨trivial, h₂, ?_⟩
  rintro _ ⟨⟩
  show _ ≤ (qemuReader.peekBuffer len.toNat 2 g).2.buf.length
  omega

/-- **The loop over the subsections.**  Every round takes a byte at least. -/
lemma subsectionLoad_loads (mem : Mem) (name : List Byte) {k : ℕ} (hk : k ≤ fuel)
    {find : List Byte → Option (ℤ → St QemuFile → Except Stop (ℤ × St QemuFile))}
    {find' : List Byte → Option (ℤ → St (List Byte) → Except Stop (ℤ × St (List Byte)))}
    (hfind : ∀ idstr, Option.Rel (fun load load' => ∀ v f s mem, Follows f s →
      Loads fuel s.length (load v (f, mem)) (load' v (s, mem))) (find idstr) (find' idstr))
    (h : Follows f s) :
    Loads k s.length (subsectionLoad qemuReader name find k (f, mem))
      (subsectionLoad streamReader name find' k (s, mem)) := by
  induction k generalizing f s mem with
  | zero => exact .error _ fun h => absurd h (Nat.not_lt_zero _)
  | succ k ih =>
    obtain ⟨hid, hf, hbuf⟩ := h.subsectionName name
    have hs := subsectionName_stream name s
    have hlen : ∀ idstr, (subsectionName streamReader name s).1 = some idstr → 2 ≤ s.length :=
      fun _ => length_of_subsectionName
    rw [subsectionLoad, subsectionLoad]
    generalize subsectionName qemuReader name f = r at hid hf hbuf ⊢
    generalize subsectionName streamReader name s = r' at hid hs hlen ⊢
    rcases r with ⟨idstr, g⟩
    rcases r' with ⟨idstr', t⟩
    obtain rfl : idstr = idstr' := hid
    obtain rfl : s = t := hs.symm
    cases idstr with
    | none => exact .ok _ _ hf le_rfl
    | some idstr =>
      replace hbuf : idstr.length + 2 ≤ g.buf.length := hbuf idstr rfl
      replace hf : Follows g s := hf
      replace hlen := hlen idstr rfl
      simp only
      generalize find (cstr idstr) = r, find' (cstr idstr) = r', hfind (cstr idstr) = hr
      cases hr with
      | none => exact .ok _ _ hf le_rfl
      | @some load load' hload =>
        -- the name is in the buffer, and so it can be skipped
        have hlen₁ := length_skip (f := g) (k := 1) (by omega)
        have hlen₂ := length_skip (f := qemuReader.skip 1 g) (k := 1) (by omega)
        have hskip := ((hf.skip (k := 1) (by omega)).skip (k := 1) (by omega)).skip
          (k := idstr.length) (by omega)
        obtain ⟨hbs, h₃⟩ := hskip.getBytes 4
        have hless : (streamReader.getBytes 4 (streamReader.skip idstr.length (streamReader.skip 1
            (streamReader.skip 1 s)))).2.length ≤ s.length - 1 := by
          refine (length_getBytes_le _ _).trans
            ((length_skip_le _ _).trans ((length_skip_le _ _).trans ?_))
          rw [streamReader_skip (by omega), length_drop]
        simp only [hbs]
        generalize load _ (_, mem) = r, load' _ (_, mem) = r', hload _ _ _ mem h₃ = hr
        cases hr with
        | error e he => exact .error e fun _ => he (by omega)
        | ok ret mem h hs =>
          simp only
          split_ifs
          · exact .ok _ _ h (by omega)
          · exact (ih _ (by omega) h).mono (by omega) (by omega)

mutual

/-- **A file whose callback delivers enough** loads a description as its stream does. -/
theorem loadState_loads : ∀ (vmsd : Desc) (f : QemuFile) (s : List Byte) (mem : Mem)
    (dev : ℕ) (v : ℤ),
    Follows f s → Loads fuel s.length (loadState qemuReader host fuel vmsd (f, mem) dev v)
      (loadState streamReader host fuel vmsd (s, mem) dev v)
  | .mk info fields subs, f, s, mem, dev, v, h => by
    rw [loadState, loadState]
    split_ifs with hv hold hmin
    · exact .ok _ _ h le_rfl
    · exact .ok _ _ h le_rfl
    · exact .error _ fun _ => Stop.noConfusion
    simp only
    by_cases hpre : (info.runPreLoad dev mem).1 ≠ 0
    · rw [if_pos hpre, if_pos hpre]
      exact .ok _ _ h le_rfl
    rw [if_neg hpre, if_neg hpre]
    generalize loadFields qemuReader host fuel fields _ dev v = r,
      loadFields streamReader host fuel fields _ dev v = t,
      loadFields_loads fields f s (info.runPreLoad dev mem).2 dev v h = hrt
    cases hrt with
    | error e he => exact .error e he
    | ok ret mem h hs =>
      simp only
      by_cases hret : ret < 0
      · rw [if_pos hret, if_pos hret]
        exact .ok _ _ h hs
      rw [if_neg hret, if_neg hret]
      have hsubs := (subsectionLoad_loads fuel mem info.name le_rfl
        (fun idstr => findLoad_loads subs idstr dev) h).mono hs hs.trans_lt
      generalize subsectionLoad qemuReader info.name _ fuel (_, mem) = r,
        subsectionLoad streamReader info.name _ fuel (_, mem) = t at hsubs ⊢
      cases hsubs with
      | error e he => exact .error e he
      | ok ret mem h hs =>
        simp only
        split_ifs
        · exact .ok _ _ h hs
        · exact .ok _ _ h hs

/-- The fields of a description, one after the other. -/
theorem loadFields_loads : ∀ (fields : Fields) (f : QemuFile) (s : List Byte) (mem : Mem) (dev : ℕ)
    (v : ℤ), Follows f s → Loads fuel s.length
      (loadFields qemuReader host fuel fields (f, mem) dev v)
      (loadFields streamReader host fuel fields (s, mem) dev v)
  | .nil, f, s, mem, dev, v, h => .ok _ _ h le_rfl
  | .cons field elem rest, f, s, mem, dev, v, h => by
    rw [loadFields, loadFields]
    split_ifs with hloads
    · generalize field.elemSize host mem dev = size
      generalize (field.nElems host mem dev).toNat = n
      simp only
      have helems := loadElems_loads fuel mem
        (fun i st => loadElem qemuReader host fuel elem st (field.elemAddr host dev size i) size)
        (fun i st => loadElem streamReader host fuel elem st (field.elemAddr host dev size i) size)
        (fun i f s mem => loadElem_loads elem f s mem (field.elemAddr host dev size i) size) h n 0
      generalize loadElems _ n 0 (f, mem) = r, loadElems _ n 0 (s, mem) = t at helems ⊢
      cases helems with
      | error e he => exact .error e he
      | ok ret mem h hs =>
        simp only
        split_ifs
        · exact .ok _ _ h hs
        · exact (loadFields_loads rest _ _ mem dev v h).mono hs hs.trans_lt
    · exact loadFields_loads rest f s mem dev v h

theorem loadElem_loads : ∀ (elem : Elem) (f : QemuFile) (s : List Byte) (mem : Mem) (addr : ℕ)
    (size : ℤ), Follows f s → Loads fuel s.length
      (loadElem qemuReader host fuel elem (f, mem) addr size)
      (loadElem streamReader host fuel elem (s, mem) addr size)
  | .info i, _, _, _, addr, size, h => h.get host fuel i addr size
  | .struct vmsd, f, s, mem, addr, _, h => loadState_loads vmsd f s mem addr vmsd.info.versionId h

/-- The subsections of a description, found by name. -/
theorem findLoad_loads : ∀ (subs : Subsections) (idstr : List Byte) (dev : ℕ),
    Option.Rel (fun load load' => ∀ v f s mem, Follows f s →
        Loads fuel s.length (load v (f, mem)) (load' v (s, mem)))
      (findLoad qemuReader host fuel subs idstr dev)
      (findLoad streamReader host fuel subs idstr dev)
  | .nil, _, _ => .none
  | .cons vmsd _ rest, idstr, dev => by
    rw [findLoad, findLoad]
    split_ifs
    · exact .some fun v f s mem h => loadState_loads vmsd f s mem dev v h
    · exact findLoad_loads rest idstr dev

end

end Loading

/-! ## Sequences of calls -/

/-- A call of a function that reads. -/
inductive Call where
  | getByte
  | getBuffer (size : ℕ)
  | loadState (vmsd : Desc) (dev : ℕ) (versionId : ℤ)

/-- What a call returns: the bytes, or the code and what has been loaded. -/
inductive Answer where
  | byte (b : Byte)
  | bytes (bs : List Byte)
  | loaded (ret : ℤ) (mem : Mem)
  | stopped (e : Stop)

/-- What a sequence of calls answers. -/
def run {σ : Type} (R : Reader σ) (host : Host) (fuel : ℕ) : List Call → St σ → List Answer
  | [], _ => []
  | .getByte :: calls, (s, mem) =>
    let (b, s) := R.getByte s
    .byte b :: run R host fuel calls (s, mem)
  | .getBuffer size :: calls, (s, mem) =>
    let (bs, s) := R.getBuffer size s
    .bytes bs :: run R host fuel calls (s, mem)
  | .loadState vmsd dev versionId :: calls, st =>
    match loadState R host fuel vmsd st dev versionId with
    | .error e => [.stopped e]
    | .ok (ret, s, mem) => .loaded ret mem :: run R host fuel calls (s, mem)

variable {f : QemuFile} {s : List Byte}

/-- **A sequence of calls** returns the same from a file and from its stream, and ends. -/
lemma Follows.run (h : Follows f s) (host : Host) (fuel : ℕ) (calls : List Call) (mem : Mem) :
    run qemuReader host fuel calls (f, mem) = run streamReader host fuel calls (s, mem) ∧
      (s.length < fuel → Answer.stopped .fuel ∉ run streamReader host fuel calls (s, mem)) := by
  induction calls generalizing f s mem with
  | nil => exact ⟨rfl, fun _ => not_mem_nil⟩
  | cons call calls ih =>
    cases call with
    | getByte =>
      obtain ⟨hrun, hends⟩ := ih h.getByte.2 mem
      rw [Savevm.run, Savevm.run]
      simp only [h.getByte.1, hrun, mem_cons, not_or]
      exact ⟨trivial, fun hs => ⟨nofun, hends ((length_skip_le 1 s).trans_lt hs)⟩⟩
    | getBuffer size =>
      obtain ⟨hrun, hends⟩ := ih (h.getBuffer size).2 mem
      rw [Savevm.run, Savevm.run]
      simp only [(h.getBuffer size).1, hrun, mem_cons, not_or]
      exact ⟨trivial, fun hs => ⟨nofun, hends ((length_drop_le size s).trans_lt hs)⟩⟩
    | loadState vmsd dev v =>
      rw [Savevm.run, Savevm.run]
      generalize loadState qemuReader host fuel vmsd (f, mem) dev v = r,
        loadState streamReader host fuel vmsd (s, mem) dev v = t,
        loadState_loads host fuel vmsd f s mem dev v h = hrt
      cases hrt with
      | error e he =>
        simp only [mem_singleton, Answer.stopped.injEq]
        exact ⟨trivial, fun hs hfuel => he hs hfuel.symm⟩
      | ok ret mem h hle =>
        obtain ⟨hrun, hends⟩ := ih h mem
        simp only [hrun, mem_cons, not_or]
        exact ⟨trivial, fun hs => ⟨nofun, hends (hle.trans_lt hs)⟩⟩

/-! ## The pieces that make no difference -/

/-- How many bytes a callback delivers at most in each of its calls. -/
abbrev Callback := {p : ℕ → ℕ // ∀ k, 0 < p k}

/-- A file that has just been opened, over a stream and the sizes of the pieces that it comes in. -/
def opened (s : List Byte) (p : Callback) : QemuFile where
  buf := []
  stream := s
  pieces := p.1
  pieces_pos := p.2
  lastError := false

/-- The callback delivers at least 255 bytes in every call after the second, and in the second
unless the first delivered a single byte. -/
def Callback.Enough (p : Callback) : Prop :=
  (∀ k, 2 ≤ k → 255 ≤ p.1 k) ∧ (2 ≤ p.1 0 → 255 ≤ p.1 1)

/-- The callback after its first call. -/
def Callback.next (p : Callback) : Callback := ⟨fun k => p.1 (k + 1), fun k => p.2 (k + 1)⟩

lemma opened_reads (s : List Byte) (p : Callback) : Reads (opened s p) s := nil_append s

variable {p : Callback}

/-- Large pieces are enough for a file to follow its stream. -/
lemma Callback.Enough.follows (h : p.Enough) (s : List Byte) : Follows (opened s p) s where
  reads := opened_reads s p
  fed := ⟨fun hlen => absurd hlen (by simp [opened]),
    fun hlen => h.2 (by simpa [opened] using hlen), h.1⟩

/-- A file returns what its stream does. -/
def Agrees (f : QemuFile) (s : List Byte) : Prop := ∀ host fuel calls mem,
  run qemuReader host fuel calls (f, mem) = run streamReader host fuel calls (s, mem)

lemma Agrees.getBuffer (h : Agrees f s) (size : ℕ) : Agrees (f.getBuffer size).2 (s.drop size) := by
  intro host fuel calls mem
  have := h host fuel (.getBuffer size :: calls) mem
  exact (cons.inj this).2

/-- The size of the first piece. -/
def Callback.first (p : Callback) : ℕ := min (p.1 0) ioBufSize

lemma Callback.first_pos (p : Callback) : 0 < p.first := by
  have := p.2 0
  rw [Callback.first, ioBufSize]
  omega

/-- The first piece is in the buffer. -/
lemma fillBuffer_opened (hs : p.first ≤ s.length) : (opened s p).fillBuffer =
      ⟨s.take p.first, s.drop p.first, p.next.1, p.next.2, false⟩ := by
  have hlen : min (min (p.1 0) (ioBufSize - 0)) s.length = p.first := Nat.min_eq_left hs
  have hpos := p.first_pos
  simp only [fillBuffer, opened, length_nil, hlen, nil_append, Bool.false_or,
    QemuFile.mk.injEq, true_and, beq_eq_false_iff_ne]
  exact ⟨rfl, by omega⟩

lemma getBuffer_opened {m : ℕ} (hs : p.first ≤ s.length) (hm : m ≤ p.first) (hpos : 0 < m) :
    ((opened s p).getBuffer m).2 =
      ⟨(s.take p.first).drop m, s.drop p.first, p.next.1, p.next.2, false⟩ := by
  obtain ⟨k, rfl⟩ : ∃ k, m = k + 1 := ⟨m - 1, by omega⟩
  have hpeek : (opened s p).peekBuffer (k + 1) 0 = (s.take (k + 1),
      ⟨s.take p.first, s.drop p.first, p.next.1, p.next.2, false⟩) := by
    rw [QemuFile.peekBuffer, if_pos (by simp [opened]), fillBuffer_opened hs]
    simp only [drop_zero, take_take, Nat.min_eq_left hm]
  have hlen : (s.take (k + 1)).length = k + 1 := by
    rw [length_take]
    omega
  rw [QemuFile.getBuffer, getLoop, if_neg (by omega), hpeek]
  simp only
  rw [if_neg (ne_nil_of_length_pos (by omega)), hlen, Nat.sub_self, QemuFile.skip,
    if_pos (by simp only [length_take]; omega)]
  cases k with
  | zero => rfl
  | succ k => rfl

/-- What holds for every stream holds after the first call of the callback as well. -/
lemma agrees_next (h : ∀ s, Agrees (opened s p) s) (s : List Byte) :
    Agrees (opened s p.next) s := by
  have hlen : (replicate p.first (0 : Byte)).length = p.first := length_replicate
  have := (h (replicate p.first 0 ++ s)).getBuffer p.first
  rw [getBuffer_opened (by rw [length_append, hlen]; omega) le_rfl p.first_pos,
    drop_left' hlen, take_left' hlen, drop_of_length_le hlen.le] at this
  exact this

/-- A description without fields and subsections. -/
def plainDesc : Desc :=
  .mk ⟨[1], by decide, 0, 0, 0, none, none, none⟩ .nil .nil

/-- What a subsection of `plainDesc` could begin with. -/
def longHeader : List Byte := vmSubsection :: 255 :: replicate 255 1

lemma length_longHeader : longHeader.length = 257 := by
  rw [longHeader, length_cons, length_cons, length_replicate]

/-- **A name that is not all there.** With two bytes in the buffer, the callback has to deliver the
rest at once. -/
lemma subsectionName_short (hf : Reads f longHeader)
    (hlen : ((f.peekByte 0).2.peekByte 1).2.buf.length = 2)
    (hpiece : ((f.peekByte 0).2.peekByte 1).2.pieces 0 < 255) :
    (subsectionName qemuReader [1] f).1 = none := by
  have hb : (qemuReader.peekByte 0 f).1 = vmSubsection := hf.peekByte hf.length_peekByte_zero
  have hreads := hf.peekByte_reads 0
  have hlen₁ : (qemuReader.peekByte 1 (qemuReader.peekByte 0 f).2).1 = 255 :=
    hreads.peekByte (by rw [hlen]; exact min_le_left _ _)
  have hid :
      (qemuReader.peekBuffer 255 2 (qemuReader.peekByte 1 (qemuReader.peekByte 0 f).2).2).1.length
      ≠ 255 := by
    show (((((f.peekByte 0).2.peekByte 1).2.peekBuffer 255 2).2.buf.drop 2).take 255).length ≠ 255
    generalize ((f.peekByte 0).2.peekByte 1).2 = g at hlen hpiece ⊢
    rw [QemuFile.peekBuffer, if_pos (by omega), length_take, length_drop, length_fillBuffer]
    omega
  have h255 : (255 : Byte).toNat = 255 := rfl
  simp only [subsectionName, hb, hlen₁, h255, ne_eq, not_true_eq_false, if_false]
  rw [if_neg (by decide), if_pos hid]

/-- Loading it tells whether the name of a subsection was found. -/
lemma loadState_plainDesc {σ : Type} (R : Reader σ) (s : σ) (mem : Mem) :
    loadState R ⟨false, id⟩ 1 plainDesc (s, mem) 0 0 =
      .ok (if (subsectionName R [1] s).1 = none then 0 else -enoent,
        (subsectionName R [1] s).2, mem) := by
  have hfields : loadFields R ⟨false, id⟩ 1 .nil (s, mem) 0 0 = .ok (0, s, mem) := rfl
  rw [plainDesc, loadState, if_neg (by simp), if_neg (by simp), if_neg (by simp)]
  simp only [DescInfo.runPreLoad, hfields, ne_eq, not_true_eq_false, if_false, lt_irrefl]
  rw [subsectionLoad]
  rcases subsectionName R [1] s with ⟨_ | idstr, s⟩
  · rfl
  · rfl

/-- A subsection with a long name is not seen if the next piece is short. -/
lemma not_agrees_of_short (hf : Reads f longHeader)
    (hlen : ((f.peekByte 0).2.peekByte 1).2.buf.length = 2)
    (hpiece : ((f.peekByte 0).2.peekByte 1).2.pieces 0 < 255) : ¬ Agrees f longHeader := by
  intro h
  have hnone := subsectionName_short hf hlen hpiece
  have hsome : (subsectionName streamReader [1] longHeader).1 ≠ none := by
    decide +kernel
  have hrun := h ⟨false, id⟩ 1 [.loadState plainDesc 0 0] fun _ => 0
  rw [run, run, loadState_plainDesc, loadState_plainDesc, if_pos hnone, if_neg hsome] at hrun
  injection hrun with hloaded
  injection hloaded with hret
  cases hret

/-- After two bytes, the callback has to deliver 255. -/
lemma second_of_agrees (h : ∀ s, Agrees (opened s p) s) (hp : 2 ≤ p.1 0) : 255 ≤ p.1 1 := by
  by_contra hlt
  have hfirst : 2 ≤ p.first := le_min hp (by rw [ioBufSize]; omega)
  by_cases htwo : p.first = 2
  · have hfill : ((opened longHeader p).peekByte 0).2 =
        ⟨longHeader.take 2, longHeader.drop 2, p.next.1, p.next.2, false⟩ := by
      rw [peekByte_of_le (by simp [opened]),
        fillBuffer_opened (by rw [htwo, length_longHeader]; omega), htwo]
    refine not_agrees_of_short (opened_reads _ p) ?_ ?_ (h longHeader)
    · rw [hfill]
      rfl
    · rw [hfill]
      exact not_le.mp hlt
  have hlen : (replicate (p.first - 2) (0 : Byte)).length = p.first - 2 := length_replicate
  have hs : p.first ≤ (replicate (p.first - 2) (0 : Byte) ++ longHeader).length := by
    rw [length_append, hlen, length_longHeader]
    omega
  have hagrees := (h (replicate (p.first - 2) 0 ++ longHeader)).getBuffer (p.first - 2)
  have htake : (replicate (p.first - 2) (0 : Byte) ++ longHeader).take p.first =
      replicate (p.first - 2) 0 ++ longHeader.take 2 := by
    rw [take_append, hlen, take_of_length_le (by omega)]
    congr 2
    omega
  have hdrop : (replicate (p.first - 2) (0 : Byte) ++ longHeader).drop p.first =
      longHeader.drop 2 := by
    rw [drop_append, hlen, drop_of_length_le (by omega), nil_append]
    congr 1
    omega
  rw [getBuffer_opened hs (by omega) (by omega), drop_left' hlen, htake, hdrop,
    drop_left' hlen] at hagrees
  refine not_agrees_of_short ?_ rfl ?_ hagrees
  · exact take_append_drop 2 longHeader
  · exact not_le.mp hlt

/-- After two pieces of one byte, the third one has to be large. -/
lemma third_of_agrees (h : ∀ s, Agrees (opened s p) s) (hp : p.1 0 = 1) (hp' : p.1 1 = 1) :
    255 ≤ p.1 2 := by
  by_contra hlt
  have hfirst : p.first = 1 := by rw [Callback.first, hp, ioBufSize]; omega
  have hfill : ((opened longHeader p).peekByte 0).2 =
      ⟨longHeader.take 1, longHeader.drop 1, p.next.1, p.next.2, false⟩ := by
    rw [peekByte_of_le (by simp [opened]),
      fillBuffer_opened (by rw [hfirst, length_longHeader]; omega), hfirst]
  refine not_agrees_of_short (opened_reads _ p) ?_ ?_ (h longHeader)
  · rw [hfill, peekByte_of_le (by rw [length_take]; omega), length_fillBuffer]
    have hpiece : p.next.1 0 = 1 := hp'
    simp only [hpiece, length_take, length_drop, length_longHeader, ioBufSize]
    omega
  · rw [hfill, peekByte_of_le (by rw [length_take]; omega)]
    exact not_le.mp hlt

/-- So the pieces have to be large, whatever the stream. -/
lemma enough_of_agrees (h : ∀ s, Agrees (opened s p) s) : p.Enough := by
  refine ⟨?_, second_of_agrees h⟩
  intro k hk
  obtain ⟨k, rfl⟩ : ∃ i, k = i + 2 := ⟨k - 2, by omega⟩
  clear hk
  induction k generalizing p with
  | zero =>
    by_cases hp : 2 ≤ p.1 1
    · exact second_of_agrees (agrees_next h) hp
    have := p.2 0
    have := p.2 1
    by_cases hp' : 2 ≤ p.1 0
    · have := second_of_agrees h hp'
      omega
    · exact third_of_agrees h (by omega) (by omega)
  | succ k ih => exact ih (agrees_next h)

/-- A callback that fills the buffer. -/
def wholeBuffer : Callback := ⟨fun _ => ioBufSize, fun _ => Nat.two_pow_pos 15⟩

/-- **The pieces make no difference** for the callbacks that deliver at least 255 bytes at a time,
from the second call on if the first delivered two bytes and from the third otherwise; and only for
them. -/
theorem run_eq_iff (p : Callback) : p.Enough ↔ ∀ q : Callback, q.Enough → ∀ host fuel calls s mem,
    run qemuReader host fuel calls (opened s p, mem) = run qemuReader host fuel calls
      (opened s q, mem) := by
  constructor
  · intro hp q hq host fuel calls s mem
    rw [((hp.follows s).run ..).1, ((hq.follows s).run ..).1]
  intro h
  have hsize : 255 ≤ ioBufSize := by decide
  have hwhole : wholeBuffer.Enough := ⟨fun _ _ => hsize, fun _ => hsize⟩
  refine enough_of_agrees fun s host fuel calls mem => ?_
  rw [h wholeBuffer hwhole, ((hwhole.follows s).run ..).1]

/-- **Every call returns**, with as much fuel as there are bytes. -/
theorem run_ends (hp : p.Enough) {fuel : ℕ} (hs : s.length < fuel) (host : Host) (calls : List Call)
    (mem : Mem) : Answer.stopped .fuel ∉ run qemuReader host fuel calls (opened s p, mem) := by
  obtain ⟨hrun, hends⟩ := (hp.follows s).run host fuel calls mem
  rw [hrun]
  exact hends hs

theorem wholeBuffer_ends : Answer.stopped .fuel ∉
    run qemuReader ⟨false, id⟩ 5 [.loadState plainDesc 0 0]
      (opened [5, 2, 1, 1] wholeBuffer, fun _ => 0) :=
  have hsize : 255 ≤ ioBufSize := by decide
  run_ends ⟨fun _ _ => hsize, fun _ => hsize⟩ (by decide) _ _ _

/-- A callback that brings one byte at a time. -/
def oneByte : Callback := ⟨fun _ => 1, fun _ => Nat.one_pos⟩

def Answer.ret : Answer → ℤ
  | .loaded ret _ => ret
  | _ => 0

/-- **A name in pieces.**  A subsection that is not known is an error, but not if its name comes in
single bytes. -/
theorem oneByte_ne_wholeBuffer : ¬ ∀ (s : List Byte) (p q : Callback) (host : Host) (fuel : ℕ)
    (calls : List Call) (mem : Mem), run qemuReader host fuel calls (opened s p, mem) =
      run qemuReader host fuel calls (opened s q, mem) := by
  intro h
  have := h [5, 2, 1, 1] oneByte wholeBuffer ⟨false, id⟩ 1 [.loadState plainDesc 0 0] fun _ => 0
  exact absurd (congrArg (map Answer.ret) this) (by decide)

end Qemu.Savevm
