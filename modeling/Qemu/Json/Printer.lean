import Qemu.Json.Parser

/-!
# Printing objects

`to_json` of `qjson.c`, and what becomes of a text that is printed as a string and read again.  The
printer takes the first byte of a character of four bytes for that of a character of three, and
prints the last byte on its own; whether `char` is signed decides how.

**Main results:**
- `unescape_escape`: a printed text is read as its characters, each of them recoded
- `recode_eq_iff`: recoding keeps the texts without characters above `U+FFFF`, and no others
-/

namespace Qemu.Json

open List

/-! ## Strings -/

/-- A digit as `snprintf` prints it with `%04X`. -/
def hexDigit (d : BitVec 4) : Byte :=
  if d ≤ 9 then byte '0' + d.setWidth 8 else byte 'A' + (d.setWidth 8 - 10)

/-- The four digits of a number of 16 bits. -/
def hex4 (w : BitVec 16) : Text :=
  [hexDigit (w.extractLsb' 12 4), hexDigit (w.extractLsb' 8 4), hexDigit (w.extractLsb' 4 4),
    hexDigit (w.extractLsb' 0 4)]

/-- `snprintf` of `"\\u%04X"` to seven bytes, for 16 bits or a negative number. -/
def formatEscape (n : BitVec 32) : Text :=
  let digits := if n ≤ 0xFFFF then hex4 (n.setWidth 16) else hex4 (n.extractLsb' 16 16) ++
    hex4 (n.setWidth 16)
  (backslash :: byte 'u' :: digits).take 6

/-- A `char` as an `int`. -/
def promote (signed : Bool) (ch : Byte) : BitVec 32 :=
  if signed = true then ch.signExtend 32 else ch.setWidth 32

/-- The `switch` of `to_json` on one byte of a string. -/
def escapeByte (signed : Bool) (ch : Byte) : Text :=
  if ch = dquote then [backslash, dquote]
  else if ch = backslash then [backslash, backslash]
  else if ch = 0x08 then [backslash, byte 'b']
  else if ch = 0x0C then [backslash, byte 'f']
  else if ch = 0x0A then [backslash, byte 'n']
  else if ch = 0x0D then [backslash, byte 'r']
  else if ch = 0x09 then [backslash, byte 't']
  else if (promote signed ch).toInt ≤ 0x1F then formatEscape (promote signed ch)
  else [ch]

/-- The character of a sequence of two bytes. -/
def wchar2 (b0 b1 : Byte) : BitVec 16 :=
  ((b0 &&& 0x1F).setWidth 16 <<< 6) ||| (b1 &&& 0x3F).setWidth 16

/-- The character of a sequence of three bytes. -/
def wchar3 (b0 b1 b2 : Byte) : BitVec 16 :=
  ((b0 &&& 0x0F).setWidth 16 <<< 12) ||| ((b1 &&& 0x3F).setWidth 16 <<< 6) |||
    (b2 &&& 0x3F).setWidth 16

/-- The loop of `to_json` on a string, with `skip` bytes of a character that was printed. -/
def escapeFrom (signed : Bool) : ℕ → Text → Text
  | _, [] => []
  | skip + 1, _ :: rest => escapeFrom signed skip rest
  | 0, ch :: rest =>
    let ch1 := rest.headD 0
    let ch2 := rest.tail.headD 0
    if ch = 0 then []
    else if ch &&& 0xE0 = 0xE0 ∧ ch1 &&& 0x80 ≠ 0 ∧ ch2 &&& 0x80 ≠ 0 then
      formatEscape ((wchar3 ch ch1 ch2).setWidth 32) ++ escapeFrom signed 2 rest
    else if ch &&& 0xE0 = 0xC0 ∧ ch1 &&& 0x80 ≠ 0 then
      formatEscape ((wchar2 ch ch1).setWidth 32) ++ escapeFrom signed 1 rest
    else escapeByte signed ch ++ escapeFrom signed 0 rest

/-- A string with its quotes, escaped. -/
def quoted (signed : Bool) (s : Text) : Text := dquote :: escapeFrom signed 0 s ++ [dquote]

/-! ## Numbers -/

/-- The decimal digits of a number. -/
def digits (n : ℕ) : Text :=
  if n = 0 then [byte '0'] else (Nat.digits 10 n).reverse.map fun d => byte '0' + BitVec.ofNat 8 d

/-- The output of `%" PRId64`. -/
def printInt (n : BitVec 64) : Text :=
  if n.toInt < 0 then byte '-' :: digits n.toInt.natAbs else digits n.toInt.natAbs

/-- The output of `%f` without the zeros at its end. -/
def printFloat {φ : Type} [CDouble φ] (x : φ) : Text :=
  let buffer := (CDouble.fmt x).rdropWhile (· = byte '0')
  if buffer.getLast? = some (byte '.') then buffer.dropLast else buffer

/-! ## Objects -/

/-- A line break and four spaces for each level, when printing prettily. -/
def newline (pretty : Bool) (indent : ℕ) : Text :=
  if pretty = true then 0x0A :: replicate (4 * indent) (byte ' ') else []

/-- What stands before an item. -/
def separator (pretty first : Bool) (indent : ℕ) : Text :=
  (if first = true then [] else text ", ") ++ newline pretty indent

section ToJson

variable {φ : Type} [CDouble φ] (signed pretty : Bool)

mutual

/-- `to_json`: an object at some depth of indentation. -/
def toJson : QObject φ → ℕ → Text
  | .int n, _ => printInt n
  | .float x, _ => printFloat x
  | .bool b, _ => if b = true then text "true" else text "false"
  | .string s, _ => quoted signed s
  | .list xs, indent =>
    lbracket :: toJsonList xs (indent + 1) true ++ newline pretty indent ++ [rbracket]
  | .dict es, indent =>
    lbrace :: toJsonDict es (indent + 1) true ++ newline pretty indent ++ [rbrace]

/-- `to_json_list_iter` for every element. -/
def toJsonList : List (QObject φ) → ℕ → Bool → Text
  | [], _, _ => []
  | x :: xs, indent, first =>
    separator pretty first indent ++ toJson x indent ++ toJsonList xs indent false

/-- `to_json_dict_iter` for every entry. -/
def toJsonDict : List (Text × QObject φ) → ℕ → Bool → Text
  | [], _, _ => []
  | (key, x) :: es, indent, first =>
    separator pretty first indent ++ quoted signed key ++ text ": " ++ toJson x indent ++
      toJsonDict es indent false

end

end ToJson

/-! ## UTF-8 -/

/-- The bits of a code point that the byte with its bits from `i` on has. -/
def utf8Tail (cp : BitVec 21) (i : ℕ) : Byte := 0x80 ||| (cp.extractLsb' i 6).setWidth 8

/-- The bytes of a character in UTF-8. -/
def utf8Char (cp : BitVec 21) : Text :=
  if cp ≤ 0x7F then [cp.setWidth 8]
  else if cp ≤ 0x7FF then [0xC0 ||| (cp.extractLsb' 6 5).setWidth 8, utf8Tail cp 0]
  else if cp ≤ 0xFFFF then [0xE0 ||| (cp.extractLsb' 12 4).setWidth 8, utf8Tail cp 6, utf8Tail cp 0]
  else [0xF0 ||| (cp.extractLsb' 18 3).setWidth 8, utf8Tail cp 12, utf8Tail cp 6, utf8Tail cp 0]

/-- The code points of characters other than NUL. -/
def IsScalar (cp : BitVec 21) : Prop := cp ≠ 0 ∧ cp ≤ 0x10FFFF ∧ ¬(0xD800 ≤ cp ∧ cp ≤ 0xDFFF)

instance (cp : BitVec 21) : Decidable (IsScalar cp) := inferInstanceAs (Decidable (_ ∧ _ ∧ _))

/-- A text in UTF-8. -/
def utf8 (cps : List (BitVec 21)) : Text := cps.flatMap utf8Char

/-- What is printed for a character: the source decodes sequences of two and three bytes, and takes
the bytes of a longer one apart. -/
def escapeChar (signed : Bool) (cp : BitVec 21) : Text :=
  if cp ≤ 0x7F then escapeByte signed (cp.setWidth 8)
  else if cp ≤ 0xFFFF then backslash :: byte 'u' :: hex4 (cp.setWidth 16)
  else
    backslash :: byte 'u' :: hex4 ((cp.extractLsb' 6 15).setWidth 16) ++
    escapeByte signed (utf8Tail cp 0)

/-- What becomes of a character that is printed and read. -/
def recodeChar (signed : Bool) (cp : BitVec 21) : Text :=
  if cp ≤ 0xFFFF then utf8Char cp
  else
    wcharToUtf8 ((cp.extractLsb' 6 15).setWidth 16) ++
      if signed = true then wcharToUtf8 0xFFFF else [utf8Tail cp 0]

lemma hex2decimal_hexDigit (d : BitVec 4) : hex2decimal (hexDigit d) = d.setWidth 16 := by
  revert d
  decide

lemma isXdigit_hexDigit (d : BitVec 4) : isXdigit (hexDigit d) = true := by
  revert d
  decide

variable (w : BitVec 16)

/-- The parser puts the digits together again. -/
lemma hex4_value : ((w.extractLsb' 12 4).setWidth 16 <<< 12) |||
    ((w.extractLsb' 8 4).setWidth 16 <<< 8) |||
      ((w.extractLsb' 4 4).setWidth 16 <<< 4) ||| (w.extractLsb' 0 4).setWidth 16 = w := by
  ext i hi
  simp
  interval_cases i <;> simp

/-- What a piece of text adds to what is read. -/
def Reads (piece s : Text) : Prop :=
  ∀ rest, unescape dquote (piece ++ rest) = (s ++ ·) <$> unescape dquote rest

/-- An escape is read as the character with its number. -/
lemma reads_hex4 : Reads (backslash :: byte 'u' :: hex4 w) (wcharToUtf8 w) := by
  intro rest
  show unescape dquote (backslash :: byte 'u' :: _ :: _ :: _ :: _ :: rest) = _
  rw [unescape, if_neg (by decide), if_pos rfl]
  simp only [if_true, isXdigit_hexDigit, and_self, hex2decimal_hexDigit, hex4_value]
  rfl

lemma reads_raw {ch : Byte} (h1 : ch ≠ dquote) (h2 : ch ≠ backslash) : Reads [ch] [ch] := by
  intro rest
  rw [singleton_append, unescape.eq_def]
  simp only [if_neg h1, if_neg h2]
  rfl

/-- An escape of two characters is read as one byte. -/
lemma reads_simple {e b : Byte} (hu : e ≠ byte 'u') (h : simpleEscape e = some b) :
    Reads [backslash, e] [b] := by
  intro rest
  show unescape dquote (backslash :: e :: rest) = _
  rw [unescape.eq_def]
  simp only [if_neg (show backslash ≠ dquote by decide), if_true, if_neg hu, h]
  rfl

/-- Texts are read one after the other. -/
lemma Reads.append {p p' s s' : Text} (h : Reads p s) (h' : Reads p' s') :
    Reads (p ++ p') (s ++ s') := by
  intro rest
  rw [append_assoc, h, h']
  cases unescape dquote rest <;> simp [Functor.map, Except.map]

lemma formatEscape_setWidth : formatEscape (w.setWidth 32) = backslash :: byte 'u' :: hex4 w := by
  have hle : w.setWidth 32 ≤ 0xFFFF := by
    rw [BitVec.le_def]
    simp
    omega
  have hw : (w.setWidth 32).setWidth 16 = w := by
    ext i hi
    simp
  simp only [formatEscape, if_pos hle, hw]
  rfl

lemma promote_ascii :
    ∀ (signed : Bool) (ch : Byte), ch ≤ 0x7F →
      promote signed ch = (ch.setWidth 16).setWidth 32 := by
  decide +kernel

lemma wcharToUtf8_ascii : ∀ ch :
    Byte, ch ≠ 0 → ch ≤ 0x7F → wcharToUtf8 (ch.setWidth 16) = [ch] := by
  decide +kernel

/-- A printed byte below 0x80 is read back. -/
lemma reads_escapeByte (signed : Bool) {ch : Byte} (h0 : ch ≠ 0) (h : ch ≤ 0x7F) :
    Reads (escapeByte signed ch) [ch] := by
  unfold escapeByte
  split_ifs with h1 h2 h3 h4 h5 h6 h7 h8
  · subst h1
    exact reads_simple (by decide) (by decide)
  · subst h2
    exact reads_simple (by decide) (by decide)
  · subst h3
    exact reads_simple (by decide) (by decide)
  · subst h4
    exact reads_simple (by decide) (by decide)
  · subst h5
    exact reads_simple (by decide) (by decide)
  · subst h6
    exact reads_simple (by decide) (by decide)
  · subst h7
    exact reads_simple (by decide) (by decide)
  · rw [promote_ascii signed ch h, formatEscape_setWidth, ← wcharToUtf8_ascii ch h0 h]
    exact reads_hex4 _
  · exact reads_raw h1 h2

/-- A byte of the tail of a long sequence: if `char` is signed, it is printed as the escape of
`0xFFFF`. -/
lemma reads_tail (signed : Bool) (z : BitVec 6) : Reads (escapeByte signed (0x80 ||| z.setWidth 8))
      (if signed = true then wcharToUtf8 0xFFFF else [0x80 ||| z.setWidth 8]) := by
  cases signed with
  | true =>
    have hescape : escapeByte true (0x80 ||| z.setWidth 8) = backslash :: byte 'u' ::
        hex4 0xFFFF := by
      revert z
      decide +kernel
    rw [hescape]
    exact reads_hex4 _
  | false =>
    have hescape : escapeByte false (0x80 ||| z.setWidth 8) = [0x80 ||| z.setWidth 8] := by
      revert z
      decide +kernel
    have hne : 0x80 ||| z.setWidth 8 ≠ dquote ∧ 0x80 ||| z.setWidth 8 ≠ backslash := by
      revert z
      decide +kernel
    rw [hescape]
    exact reads_raw hne.1 hne.2

lemma mask_tail (z : BitVec 6) : ((0x80 ||| z.setWidth 8) &&& 0x3F : Byte) = z.setWidth 8 := by
  revert z
  decide

lemma wchar2_utf8 (cp : BitVec 21) :
    wchar2 (0xC0 ||| (cp.extractLsb' 6 5).setWidth 8) (utf8Tail cp 0) =
      (cp.extractLsb' 0 11).setWidth 16 := by
  have hmask : ∀ x : BitVec 5, ((0xC0 ||| x.setWidth 8) &&& 0x1F : Byte) = x.setWidth 8 := by decide
  rw [wchar2, utf8Tail, hmask, mask_tail]
  ext i hi
  simp
  interval_cases i <;> simp

lemma wchar3_utf8 (cp : BitVec 21) :
    wchar3 (0xE0 ||| (cp.extractLsb' 12 4).setWidth 8) (utf8Tail cp 6) (utf8Tail cp 0) =
      cp.setWidth 16 := by
  have hmask : ∀ x : BitVec 4, ((0xE0 ||| x.setWidth 8) &&& 0x0F : Byte) = x.setWidth 8 := by decide
  rw [wchar3, utf8Tail, utf8Tail, hmask, mask_tail, mask_tail]
  ext i hi
  simp
  interval_cases i <;> simp

lemma wchar3_utf8_astral (cp : BitVec 21) :
    wchar3 (0xF0 ||| (cp.extractLsb' 18 3).setWidth 8) (utf8Tail cp 12) (utf8Tail cp 6) =
      (cp.extractLsb' 6 15).setWidth 16 := by
  have hmask : ∀ x : BitVec 3, ((0xF0 ||| x.setWidth 8) &&& 0x0F : Byte) = x.setWidth 8 := by decide
  rw [wchar3, utf8Tail, utf8Tail, hmask, mask_tail, mask_tail]
  ext i hi
  simp
  interval_cases i <;> simp

section EscapeFrom

variable (signed : Bool) {b0 b1 b2 : Byte} (rest : Text)

/-- A byte that starts no sequence. -/
lemma escapeFrom_one (h0 : b0 ≠ 0) (h : b0 &&& 0xE0 ≠ 0xE0) (h' : b0 &&& 0xE0 ≠ 0xC0) :
    escapeFrom signed 0 (b0 :: rest) = escapeByte signed b0 ++ escapeFrom signed 0 rest := by
  rw [escapeFrom, if_neg h0, if_neg fun hand => h hand.1, if_neg fun hand => h' hand.1]

/-- A sequence of two bytes. -/
lemma escapeFrom_two (h : b0 &&& 0xE0 = 0xC0) (h1 : b1 &&& 0x80 ≠ 0) :
    escapeFrom signed 0 (b0 :: b1 :: rest) =
      backslash :: byte 'u' :: hex4 (wchar2 b0 b1) ++ escapeFrom signed 0 rest := by
  have h0 : b0 ≠ 0 := by
    rintro rfl
    cases h
  have hnot : ¬(b0 &&& 0xE0 = 0xE0 ∧ b1 &&& 0x80 ≠ 0 ∧ rest.headD 0 &&& 0x80 ≠ 0) := by
    rw [h]
    exact fun hand => absurd hand.1 (by decide)
  rw [escapeFrom, if_neg h0]
  refine (if_neg hnot).trans ((if_pos ⟨h, h1⟩).trans ?_)
  rw [formatEscape_setWidth, escapeFrom]
  rfl

/-- A sequence of three bytes, or the first three of a longer one. -/
lemma escapeFrom_three (h : b0 &&& 0xE0 = 0xE0) (h1 : b1 &&& 0x80 ≠ 0) (h2 : b2 &&& 0x80 ≠ 0) :
    escapeFrom signed 0 (b0 :: b1 :: b2 :: rest) =
      backslash :: byte 'u' :: hex4 (wchar3 b0 b1 b2) ++ escapeFrom signed 0 rest := by
  have h0 : b0 ≠ 0 := by
    rintro rfl
    cases h
  rw [escapeFrom, if_neg h0]
  refine (if_pos ⟨h, h1, h2⟩).trans ?_
  rw [formatEscape_setWidth, escapeFrom, escapeFrom]
  rfl

lemma tail_mask (cp : BitVec 21) (i : ℕ) :
    utf8Tail cp i ≠ 0 ∧ utf8Tail cp i &&& 0x80 ≠ 0 ∧ utf8Tail cp i &&& 0xE0 ≠ 0xE0 ∧
      utf8Tail cp i &&& 0xE0 ≠ 0xC0 := by
  unfold utf8Tail
  generalize cp.extractLsb' i 6 = z
  revert z
  decide

lemma ascii_mask : ∀ ch : Byte, ch ≤ 0x7F → ch &&& 0xE0 ≠ 0xE0 ∧ ch &&& 0xE0 ≠ 0xC0 := by
  decide +kernel

lemma setWidth_ascii {cp : BitVec 21} (h : cp ≤ 0x7F) : (cp.setWidth 8).toNat = cp.toNat := by
  rw [BitVec.le_def] at h
  simp at h ⊢
  omega

lemma ascii_of_le {cp : BitVec 21} (h0 : cp ≠ 0) (h : cp ≤ 0x7F) :
    cp.setWidth 8 ≠ (0 : Byte) ∧ cp.setWidth 8 ≤ (0x7F : Byte) := by
  constructor
  · intro hw
    apply h0
    apply BitVec.eq_of_toNat_eq
    rw [← setWidth_ascii h, hw]
    rfl
  · rw [BitVec.le_def, setWidth_ascii h]
    exact h

/-- What is printed for the bytes of a character. -/
lemma escapeFrom_utf8Char {cp : BitVec 21} (h0 : cp ≠ 0) :
    escapeFrom signed 0 (utf8Char cp ++ rest) =
      escapeChar signed cp ++ escapeFrom signed 0 rest := by
  unfold utf8Char escapeChar
  split_ifs with h1 h2 h3 h3
  · obtain ⟨hne, hascii⟩ := ascii_of_le h0 h1
    exact escapeFrom_one signed rest hne (ascii_mask _ hascii).1 (ascii_mask _ hascii).2
  · have hmask : ∀ x : BitVec 5, (0xC0 ||| x.setWidth 8 : Byte) &&& 0xE0 = 0xC0 := by decide
    have hw : (cp.extractLsb' 0 11).setWidth 16 = cp.setWidth 16 := by
      apply BitVec.eq_of_toNat_eq
      rw [BitVec.le_def] at h2
      simp at h2 ⊢
      omega
    rw [← hw, ← wchar2_utf8]
    exact escapeFrom_two signed rest (hmask _) (tail_mask cp 0).2.1
  · rw [BitVec.le_def] at h2 h3
    simp at h2 h3
    omega
  · have hmask : ∀ x : BitVec 4, (0xE0 ||| x.setWidth 8 : Byte) &&& 0xE0 = 0xE0 := by decide
    rw [← wchar3_utf8]
    exact escapeFrom_three signed rest (hmask _) (tail_mask cp 6).2.1 (tail_mask cp 0).2.1
  · have hmask : ∀ x : BitVec 3, (0xF0 ||| x.setWidth 8 : Byte) &&& 0xE0 = 0xE0 := by decide
    obtain ⟨h4, -, h5, h6⟩ := tail_mask cp 0
    rw [← wchar3_utf8_astral]
    simp only [cons_append, nil_append]
    rw [escapeFrom_three signed _ (hmask _) (tail_mask cp 12).2.1 (tail_mask cp 6).2.1,
      escapeFrom_one signed rest h4 h5 h6]
    simp

end EscapeFrom

section Slices

variable (cp : BitVec 21)

lemma slice_0_6 : (cp.setWidth 16).setWidth 8 &&& 0x3F = (cp.extractLsb' 0 6).setWidth 8 := by
  ext i hi
  simp
  interval_cases i <;> simp

lemma slice_6_5 : (cp.setWidth 16 >>> 6).setWidth 8 &&& 0x1F = (cp.extractLsb' 6 5).setWidth 8 := by
  ext i hi
  simp
  interval_cases i <;> simp

lemma slice_6_6 : (cp.setWidth 16 >>> 6).setWidth 8 &&& 0x3F = (cp.extractLsb' 6 6).setWidth 8 := by
  ext i hi
  simp
  interval_cases i <;> simp

lemma slice_12_4 : (cp.setWidth 16 >>> 12).setWidth 8 &&& 0x0F =
    (cp.extractLsb' 12 4).setWidth 8 := by
  ext i hi
  simp
  interval_cases i <;> simp

lemma slice_0_7 {cp : BitVec 21} (h : cp ≤ 0x7F) :
    (cp.setWidth 16).setWidth 8 &&& 0x7F = cp.setWidth 8 := by
  have hmask : ∀ ch : Byte, ch ≤ 0x7F → ch &&& 0x7F = ch := by decide +kernel
  have hsame : (cp.setWidth 16).setWidth 8 = cp.setWidth 8 := by
    ext i hi
    simp
  rw [hsame]
  refine hmask _ ?_
  rw [BitVec.le_def, setWidth_ascii h]
  exact h

end Slices

/-- The parser encodes a character of the first plane as UTF-8 does. -/
lemma wcharToUtf8_setWidth {cp : BitVec 21} (h0 : cp ≠ 0) (h : cp ≤ 0xFFFF) :
    wcharToUtf8 (cp.setWidth 16) = utf8Char cp := by
  have hnat : (cp.setWidth 16).toNat = cp.toNat := by
    rw [BitVec.le_def] at h
    simp at h ⊢
    omega
  have hne : cp.setWidth 16 ≠ (0 : BitVec 16) := by
    intro hw
    apply h0
    apply BitVec.eq_of_toNat_eq
    rw [← hnat, hw]
    rfl
  have h1 : cp.setWidth 16 ≤ (0x007F : BitVec 16) ↔ cp ≤ 0x7F := by
    rw [BitVec.le_def, BitVec.le_def, hnat]
    rfl
  have h2 : cp.setWidth 16 ≤ (0x07FF : BitVec 16) ↔ cp ≤ 0x7FF := by
    rw [BitVec.le_def, BitVec.le_def, hnat]
    rfl
  simp only [wcharToUtf8, utf8Char, utf8Tail, if_neg hne, h1, h2, if_pos h, slice_0_6, slice_6_5,
    slice_6_6, slice_12_4]
  split_ifs with h3
  · rw [slice_0_7 h3]
  · rfl
  · rfl

/-- What a printed character is read as. -/
lemma reads_escapeChar (signed : Bool) {cp : BitVec 21} (h0 : cp ≠ 0) :
    Reads (escapeChar signed cp) (recodeChar signed cp) := by
  by_cases h1 : cp ≤ 0x7F
  · have h2 : cp ≤ 0xFFFF := BitVec.le_trans h1 (by decide)
    rw [escapeChar, if_pos h1, recodeChar, if_pos h2, utf8Char, if_pos h1]
    exact reads_escapeByte signed (ascii_of_le h0 h1).1 (ascii_of_le h0 h1).2
  by_cases h2 : cp ≤ 0xFFFF
  · rw [escapeChar, if_neg h1, if_pos h2, recodeChar, if_pos h2, ← wcharToUtf8_setWidth h0 h2]
    exact reads_hex4 _
  · rw [escapeChar, if_neg h1, if_neg h2, recodeChar, if_neg h2]
    exact (reads_hex4 _).append (reads_tail signed _)

variable (signed : Bool) {cps : List (BitVec 21)}

/-- A text is printed character by character. -/
lemma escapeFrom_utf8 (h : ∀ cp ∈ cps, cp ≠ 0) :
    escapeFrom signed 0 (utf8 cps) = cps.flatMap (escapeChar signed) := by
  induction cps with
  | nil => rfl
  | cons cp cps ih =>
    rw [forall_mem_cons] at h
    rw [utf8, flatMap_cons, escapeFrom_utf8Char signed _ h.1, flatMap_cons]
    exact congrArg _ (ih h.2)

/-- What becomes of a text that is printed and read. -/
def recode (cps : List (BitVec 21)) : Text := cps.flatMap (recodeChar signed)

/-- **A printed text is read as its characters, each of them recoded.** -/
theorem unescape_escape (h : ∀ cp ∈ cps, cp ≠ 0) :
    unescape dquote (escapeFrom signed 0 (utf8 cps) ++ [dquote]) = .ok (recode signed cps) := by
  rw [escapeFrom_utf8 signed h]
  induction cps with
  | nil => rfl
  | cons cp cps ih =>
    rw [forall_mem_cons] at h
    rw [flatMap_cons, append_assoc, reads_escapeChar signed h.1, ih h.2]
    rfl

lemma wcharToUtf8_lt : ∀ ch ∈ wcharToUtf8 w, ch < 0xF0 := by
  have h1 : ∀ x : Byte, x &&& 0x7F < 0xF0 := by decide +kernel
  have h2 : ∀ x : Byte, 0xC0 ||| x &&& 0x1F < 0xF0 := by decide +kernel
  have h3 : ∀ x : Byte, 0x80 ||| x &&& 0x3F < 0xF0 := by decide +kernel
  have h4 : ∀ x : Byte, 0xE0 ||| x &&& 0x0F < 0xF0 := by decide +kernel
  unfold wcharToUtf8
  split_ifs
  · simp
  · exact forall_mem_singleton.2 (h1 _)
  · exact forall_mem_cons.2 ⟨h2 _, forall_mem_singleton.2 (h3 _)⟩
  · exact forall_mem_cons.2 ⟨h4 _, forall_mem_cons.2 ⟨h3 _, forall_mem_singleton.2 (h3 _)⟩⟩

lemma recodeChar_lt (cp : BitVec 21) (h0 : cp ≠ 0) : ∀ ch ∈ recodeChar signed cp, ch < 0xF0 := by
  have htail : ∀ z : BitVec 6, (0x80 ||| z.setWidth 8 : Byte) < 0xF0 := by decide
  by_cases h : cp ≤ 0xFFFF
  · rw [recodeChar, if_pos h, ← wcharToUtf8_setWidth h0 h]
    exact wcharToUtf8_lt _
  rw [recodeChar, if_neg h, forall_mem_append]
  refine ⟨wcharToUtf8_lt _, ?_⟩
  split_ifs
  · exact wcharToUtf8_lt _
  · exact forall_mem_singleton.2 (htail _)

/-- A character of four bytes starts with a byte that no recoded text has. -/
lemma utf8Char_astral {cp : BitVec 21} (h : ¬cp ≤ 0xFFFF) : ∃ ch ∈ utf8Char cp, ¬ch < 0xF0 := by
  have h1 : ¬cp ≤ 0x7F := fun h' => h (BitVec.le_trans h' (by decide))
  have h2 : ¬cp ≤ 0x7FF := fun h' => h (BitVec.le_trans h' (by decide))
  have hlead : ∀ x : BitVec 3, ¬(0xF0 ||| x.setWidth 8 : Byte) < 0xF0 := by decide
  rw [utf8Char, if_neg h1, if_neg h2, if_neg h]
  exact ⟨_, mem_cons_self, hlead _⟩

/-- No text is read back with a sequence of four bytes. -/
lemma recode_lt (h : ∀ cp ∈ cps, cp ≠ 0) : ∀ ch ∈ recode signed cps, ch < 0xF0 := by
  intro ch hch
  obtain ⟨cp, hcp, hch⟩ := mem_flatMap.1 hch
  exact recodeChar_lt signed cp (h cp hcp) ch hch

/-- **Recoding keeps the texts without characters above `U+FFFF`, and no others.** -/
theorem recode_eq_iff (h : ∀ cp ∈ cps, cp ≠ 0) :
    recode signed cps = utf8 cps ↔ ∀ cp ∈ cps, cp ≤ 0xFFFF := by
  constructor
  · intro heq cp hcp
    by_contra hastral
    obtain ⟨ch, hch, hlead⟩ := utf8Char_astral hastral
    refine hlead (recode_lt signed h ch ?_)
    rw [heq]
    exact mem_flatMap.2 ⟨cp, hcp, hch⟩
  · intro hbmp
    refine flatMap_congr fun cp hcp => ?_
    rw [recodeChar, if_pos (hbmp cp hcp)]

end Qemu.Json
