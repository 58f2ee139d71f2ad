import Mathlib.Data.List.GetD
import Mathlib.Tactic

/-!
# Reading a `QEMUFile`

A `QEMUFile` reads from a callback that delivers some bytes at a time, through a buffer of 32 KiB.
The functions of `savevm.c` that read are of two kinds: `qemu_get_byte` and `qemu_get_buffer` ask
for more until they have what they need, while `qemu_peek_byte` and `qemu_peek_buffer` look at bytes
further on, and ask for more only once.

`Reader` is what the code above these functions uses.  `qemuReader` is a file with its buffer, and
`streamReader` is a list of bytes that are all there.

**Main results:**
* `Reads.getByte`, `Reads.getBuffer` — the first kind reads what is in the stream, for every
  callback.
* `Reads.length_peekBuffer_two` — the second kind has enough in the buffer if the callback is `Fed`.
-/

namespace Qemu.Savevm

open List

/-- A byte of a stream, or of the state of a device. -/
abbrev Byte := BitVec 8

/-- What the functions that load a device read with. -/
structure Reader (σ : Type) where
  peekByte : ℕ → σ → Byte × σ
  peekBuffer : ℕ → ℕ → σ → List Byte × σ
  skip : ℕ → σ → σ
  getBuffer : ℕ → σ → List Byte × σ

/-- `qemu_get_byte`. -/
def Reader.getByte {σ : Type} (R : Reader σ) (s : σ) : Byte × σ :=
  let (b, s) := R.peekByte 0 s
  (b, R.skip 1 s)

/-- The bytes of `qemu_get_be16`, `qemu_get_be32` and `qemu_get_be64`, in order. -/
def Reader.getBytes {σ : Type} (R : Reader σ) : ℕ → σ → List Byte × σ
  | 0, s => ([], s)
  | n + 1, s =>
    let (b, s) := R.getByte s
    let (bs, s) := R.getBytes n s
    (b :: bs, s)

/-! ## A file -/

/-- `IO_BUF_SIZE`. -/
def ioBufSize : ℕ := 32768

/-- A `QEMUFile` that is read: the unread bytes in the buffer, those not yet delivered, and how many
the callback delivers at most in each of its next calls. -/
structure QemuFile where
  buf : List Byte
  stream : List Byte
  pieces : ℕ → ℕ
  pieces_pos : ∀ k, 0 < pieces k
  lastError : Bool

namespace QemuFile

variable (f : QemuFile)

/-- `qemu_fill_buffer`.  The callback returns zero at the end, which is an error. -/
def fillBuffer : QemuFile :=
  let len := min (min (f.pieces 0) (ioBufSize - f.buf.length)) f.stream.length
  { buf := f.buf ++ f.stream.take len
    stream := f.stream.drop len
    pieces := fun k => f.pieces (k + 1)
    pieces_pos := fun k => f.pieces_pos (k + 1)
    lastError := f.lastError || len == 0 }

/-- `qemu_file_skip`. -/
def skip (size : ℕ) : QemuFile :=
  if size ≤ f.buf.length then { f with buf := f.buf.drop size } else f

/-- `qemu_peek_buffer`. -/
def peekBuffer (size offset : ℕ) : List Byte × QemuFile :=
  let f := if f.buf.length < offset + size then f.fillBuffer else f
  ((f.buf.drop offset).take size, f)

/-- `qemu_peek_byte`. -/
def peekByte (offset : ℕ) : Byte × QemuFile :=
  let f := if f.buf.length ≤ offset then f.fillBuffer else f
  (f.buf.getD offset 0, f)

/-- The loop of `qemu_get_buffer`; every round gets a byte or is the last. -/
def getLoop : ℕ → ℕ → QemuFile → List Byte × QemuFile
  | 0, _, f => ([], f)
  | fuel + 1, pending, f =>
    if pending = 0 then ([], f)
    else
      let (bs, f) := f.peekBuffer pending 0
      if bs = [] then ([], f)
      else
        let (rest, f) := getLoop fuel (pending - bs.length) (f.skip bs.length)
        (bs ++ rest, f)

/-- `qemu_get_buffer`. -/
def getBuffer (size : ℕ) : List Byte × QemuFile := getLoop size size f

end QemuFile

/-- The functions that read from a file. -/
def qemuReader : Reader QemuFile where
  peekByte offset f := f.peekByte offset
  peekBuffer size offset f := f.peekBuffer size offset
  skip size f := f.skip size
  getBuffer size f := f.getBuffer size

/-- The same functions on a list of bytes. -/
def streamReader : Reader (List Byte) where
  peekByte offset s := (s.getD offset 0, s)
  peekBuffer size offset s := ((s.drop offset).take size, s)
  skip size s := if size ≤ s.length then s.drop size else s
  getBuffer size s := (s.take size, s.drop size)

lemma streamReader_peekByte (offset : ℕ) (s : List Byte) :
    streamReader.peekByte offset s = (s.getD offset 0, s) :=
  rfl

variable {k offset : ℕ}

lemma streamReader_skip {s : List Byte} (hk : k ≤ s.length) : streamReader.skip k s = s.drop k :=
  if_pos hk

/-! ## What is read -/

/-- The bytes that are still to be read. -/
def Reads (f : QemuFile) (s : List Byte) : Prop := f.buf ++ f.stream = s

/-- The callback delivers enough for two looks at a byte and one at a string of 255 bytes: with two
bytes in the buffer, each of its calls delivers at least 255. -/
structure QemuFile.Fed (f : QemuFile) : Prop where
  now : 2 ≤ f.buf.length → 255 ≤ f.pieces 0
  next : 2 ≤ f.buf.length + f.pieces 0 → 255 ≤ f.pieces 1
  later : ∀ k, 2 ≤ k → 255 ≤ f.pieces k

namespace QemuFile

variable {f : QemuFile}

lemma length_fillBuffer : f.fillBuffer.buf.length =
    f.buf.length + min (min (f.pieces 0) (ioBufSize - f.buf.length)) f.stream.length := by
  show (f.buf ++ f.stream.take _).length = _
  rw [length_append, length_take]
  omega

lemma length_skip (hk : k ≤ f.buf.length) :
    (qemuReader.skip k f).buf.length = f.buf.length - k := by
  show (f.skip k).buf.length = _
  rw [QemuFile.skip, if_pos hk, length_drop]

lemma peekByte_of_le (h : f.buf.length ≤ offset) : (f.peekByte offset).2 = f.fillBuffer :=
  if_pos h

/-- The callback goes on delivering bytes. -/
lemma Fed.fillBuffer (h : f.Fed) : f.fillBuffer.Fed where
  now hlen := by
    rw [length_fillBuffer] at hlen
    exact h.next (by omega)
  next _ := h.later 2 le_rfl
  later k hk := h.later (k + 1) (by omega)

lemma Fed.skip (h : f.Fed) (size : ℕ) : (f.skip size).Fed := by
  rw [QemuFile.skip]
  split_ifs with hsize
  · have hlen : (f.buf.drop size).length ≤ f.buf.length := by simp
    exact ⟨fun hd => h.now (hd.trans hlen), fun hd => h.next (by simp only at hd; omega), h.later⟩
  · exact h

lemma Fed.peekByte (h : f.Fed) (offset : ℕ) : (f.peekByte offset).2.Fed := by
  rw [QemuFile.peekByte]
  simp only
  split_ifs
  exacts [h.fillBuffer, h]

lemma Fed.peekBuffer (h : f.Fed) (size offset : ℕ) : (f.peekBuffer size offset).2.Fed := by
  rw [QemuFile.peekBuffer]
  simp only
  split_ifs
  exacts [h.fillBuffer, h]

lemma Fed.getByte (h : f.Fed) : (qemuReader.getByte f).2.Fed := (h.peekByte 0).skip 1

lemma Fed.getBytes (h : f.Fed) (n : ℕ) : (qemuReader.getBytes n f).2.Fed := by
  induction n generalizing f with
  | zero => exact h
  | succ n ih => exact ih h.getByte

lemma Fed.getLoop (h : f.Fed) (fuel size : ℕ) : (QemuFile.getLoop fuel size f).2.Fed := by
  induction fuel generalizing f size with
  | zero => exact h
  | succ fuel ih =>
    rw [QemuFile.getLoop]
    split_ifs with hsize
    · exact h
    simp only
    split_ifs
    · exact h.peekBuffer size 0
    · exact ih ((h.peekBuffer size 0).skip _) _

lemma Fed.getBuffer (h : f.Fed) (size : ℕ) : (f.getBuffer size).2.Fed := h.getLoop size size

end QemuFile

namespace Reads

variable {f : QemuFile} {s : List Byte}

lemma fillBuffer (h : Reads f s) : Reads f.fillBuffer s := by
  show f.buf ++ f.stream.take _ ++ f.stream.drop _ = s
  rw [append_assoc, take_append_drop]
  exact h

lemma length (h : Reads f s) : f.buf.length + f.stream.length = s.length := by
  rw [← h, length_append]

lemma nonempty_fillBuffer (h : Reads f s) (hf : f.buf = []) (hs : s ≠ []) :
    f.fillBuffer.buf ≠ [] := by
  have hpos := f.pieces_pos 0
  have hlen := h.length
  have hs : 0 < s.length := length_pos_iff.mpr hs
  rw [← length_pos_iff, QemuFile.length_fillBuffer]
  rw [hf, length_nil] at hlen ⊢
  rw [ioBufSize]
  omega

lemma buf_prefix (h : Reads f s) : f.buf <+: s := h ▸ prefix_append _ _

lemma skip (h : Reads f s) (hk : k ≤ f.buf.length) :
    Reads (qemuReader.skip k f) (streamReader.skip k s) := by
  have hs : k ≤ s.length := hk.trans h.buf_prefix.length_le
  rw [streamReader_skip hs]
  show Reads (QemuFile.skip f k) _
  rw [QemuFile.skip, if_pos hk, Reads, ← h, drop_append_of_le_length hk]

lemma peekByte_reads (h : Reads f s) (offset : ℕ) : Reads (f.peekByte offset).2 s := by
  rw [QemuFile.peekByte]
  simp only
  split_ifs
  exacts [h.fillBuffer, h]

lemma peekBuffer_reads (h : Reads f s) (size offset : ℕ) :
    Reads (f.peekBuffer size offset).2 s := by
  rw [QemuFile.peekBuffer]
  simp only
  split_ifs
  exacts [h.fillBuffer, h]

/-- A look at a byte sees what is in the buffer afterwards. -/
lemma peekByte (h : Reads f s)
    (hlen : min (offset + 1) s.length ≤ (f.peekByte offset).2.buf.length) :
    (f.peekByte offset).1 = s.getD offset 0 := by
  have hreads := h.peekByte_reads offset
  have heq : (f.peekByte offset).1 = (f.peekByte offset).2.buf.getD offset 0 := rfl
  have hle := hreads.buf_prefix.length_le
  rw [heq]
  by_cases hoffset : offset < s.length
  · conv_rhs => rw [← hreads]
    rw [getD_append _ _ _ _ (by omega)]
  · rw [getD_eq_default _ _ (by omega), getD_eq_default _ _ (by omega)]

variable {size : ℕ}

lemma peekBuffer (h : Reads f s)
    (hlen : min (offset + size) s.length ≤ (f.peekBuffer size offset).2.buf.length) :
    (f.peekBuffer size offset).1 = (s.drop offset).take size := by
  have hreads := h.peekBuffer_reads size offset
  have heq : (f.peekBuffer size offset).1 =
      ((f.peekBuffer size offset).2.buf.drop offset).take size :=
    rfl
  obtain ⟨rest, hrest⟩ := hreads.buf_prefix
  have hle := congrArg List.length hrest
  rw [length_append] at hle
  rw [heq, take_drop, take_drop, ← hrest]
  congr 1
  rcases Nat.le_total (offset + size) s.length with hs | hs
  · rw [take_append_of_le_length (by omega)]
  · obtain rfl : rest = [] := eq_nil_of_length_eq_zero (by omega)
    rw [append_nil]

/-- After a look at the next byte it is in the buffer. -/
lemma length_peekByte_zero (h : Reads f s) : min 1 s.length ≤ (f.peekByte 0).2.buf.length := by
  have hlen := h.length
  have hpos := f.pieces_pos 0
  rw [QemuFile.peekByte]
  simp only
  split_ifs with hbuf
  · rw [QemuFile.length_fillBuffer, ioBufSize]
    omega
  · omega

lemma length_peekByte_one (h : Reads f s) (hbuf : min 1 s.length ≤ f.buf.length) :
    min 2 s.length ≤ (f.peekByte 1).2.buf.length := by
  have hlen := h.length
  have hpos := f.pieces_pos 0
  rw [QemuFile.peekByte]
  simp only
  split_ifs with hle
  · rw [QemuFile.length_fillBuffer, ioBufSize]
    omega
  · omega

/-- **A look at a string** behind two bytes that are in the buffer. -/
lemma length_peekBuffer_two (h : Reads f s) (hfed : f.Fed) (hsize : size ≤ 255)
    (hbuf : min 2 s.length ≤ f.buf.length) :
    min (2 + size) s.length ≤ (f.peekBuffer size 2).2.buf.length := by
  have hlen := h.length
  have hnow := hfed.now
  rw [QemuFile.peekBuffer]
  simp only
  split_ifs with hle
  · rw [QemuFile.length_fillBuffer, ioBufSize]
    omega
  · omega

/-- **`qemu_get_byte`**, for every callback. -/
lemma getByte (h : Reads f s) : (qemuReader.getByte f).1 = (streamReader.getByte s).1 ∧
    Reads (qemuReader.getByte f).2 (streamReader.getByte s).2 := by
  have hreads := h.peekByte_reads 0
  have hlen := h.length_peekByte_zero
  refine ⟨h.peekByte hlen, ?_⟩
  by_cases hs : s = []
  · subst hs
    have hbuf : (f.peekByte 0).2.buf = [] := (append_eq_nil_iff.mp hreads).1
    show Reads ((f.peekByte 0).2.skip 1) []
    rw [QemuFile.skip, hbuf, if_neg (by simp)]
    exact hreads
  · have : 0 < s.length := length_pos_iff.mpr hs
    exact hreads.skip (by omega)

/-- Bytes are those of the stream. -/
lemma getBytes (h : Reads f s) (k : ℕ) :
    (qemuReader.getBytes k f).1 = (streamReader.getBytes k s).1 ∧
      Reads (qemuReader.getBytes k f).2 (streamReader.getBytes k s).2 := by
  induction k generalizing f s with
  | zero => exact ⟨rfl, h⟩
  | succ k ih =>
    obtain ⟨hb, hr⟩ := h.getByte
    obtain ⟨hbs, hrs⟩ := ih hr
    exact ⟨by simp only [Reader.getBytes, hb, hbs], hrs⟩

lemma eq_nil_of_peekBuffer (h : Reads f s) (hsize : size ≠ 0)
    (hnil : (f.peekBuffer size 0).1 = []) :
    s = [] := by
  have heq : (f.peekBuffer size 0).1 = (f.peekBuffer size 0).2.buf.take size := rfl
  rw [heq, take_eq_nil_iff] at hnil
  have hbuf := hnil.resolve_left hsize
  by_contra hs
  rw [QemuFile.peekBuffer] at hbuf
  simp only at hbuf
  split_ifs at hbuf with hlt
  · exact h.nonempty_fillBuffer (append_eq_nil_iff.mp hbuf).1 hs hbuf
  · rw [hbuf, length_nil] at hlt
    omega

lemma getLoop {fuel : ℕ} (h : Reads f s) (hfuel : size ≤ fuel) :
    (QemuFile.getLoop fuel size f).1 = s.take size ∧
      Reads (QemuFile.getLoop fuel size f).2 (s.drop size) := by
  induction fuel generalizing f s size with
  | zero =>
    obtain rfl : size = 0 := by omega
    exact ⟨rfl, h⟩
  | succ fuel ih =>
    rw [QemuFile.getLoop]
    by_cases hsize : size = 0
    · rw [if_pos hsize, hsize]
      exact ⟨rfl, h⟩
    rw [if_neg hsize]
    have hreads := h.peekBuffer_reads size 0
    have heq : (f.peekBuffer size 0).1 = (f.peekBuffer size 0).2.buf.take size := rfl
    simp only
    split_ifs with hnil
    · obtain rfl := h.eq_nil_of_peekBuffer hsize hnil
      exact ⟨by simp, by simpa using hreads⟩
    have hlen : (f.peekBuffer size 0).1.length ≤ (f.peekBuffer size 0).2.buf.length := by
      rw [heq, length_take]
      omega
    have hle : (f.peekBuffer size 0).1.length ≤ size := by
      rw [heq, length_take]
      omega
    have hpos : 0 < (f.peekBuffer size 0).1.length := length_pos_iff.mpr hnil
    have hs := hlen.trans hreads.buf_prefix.length_le
    have hbs : (f.peekBuffer size 0).1 = s.take (f.peekBuffer size 0).1.length := by
      refine prefix_iff_eq_take.mp ?_
      rw [heq]
      exact (List.take_prefix _ _).trans hreads.buf_prefix
    have hskip : Reads ((f.peekBuffer size 0).2.skip (f.peekBuffer size 0).1.length)
        (s.drop (f.peekBuffer size 0).1.length) := by
      rw [← streamReader_skip hs]
      exact hreads.skip hlen
    obtain ⟨hrest, hr⟩ := @ih _ _ (size - (f.peekBuffer size 0).1.length) hskip (by omega)
    refine ⟨?_, ?_⟩
    · rw [hrest]
      conv_lhs => rw [hbs]
      rw [length_take, Nat.min_eq_left hs, ← take_add, Nat.add_sub_cancel' hle]
    · rw [drop_drop, Nat.add_sub_cancel' hle] at hr
      exact hr

/-- **`qemu_get_buffer`**, for every callback. -/
lemma getBuffer (h : Reads f s) (size : ℕ) :
    (f.getBuffer size).1 = s.take size ∧ Reads (f.getBuffer size).2 (s.drop size) :=
  h.getLoop le_rfl

end Reads

end Qemu.Savevm
