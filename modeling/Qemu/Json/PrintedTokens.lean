import Qemu.Json.Printer

/-!
# The tokens of a printed object

What the lexer finds in the output of `to_json`.  Numbers and keywords only end at the next byte, so
`Lexes` keeps the token that is still to come apart from those that were emitted.

**Main results:**
- `lexes_toJson`: the lexer finds the tokens of an object in its text, whether it was printed
  prettily or not
- `emitted_toJson`: the message parser emits them as one list
-/

namespace Qemu.Json

open List Streamer

variable {item : Text}

namespace Scanner

/-! ## Walking through a token -/

/-- The state that bytes lead to which all belong to one token. -/
def walk : LexerState → Text → Option LexerState
  | s, [] => some s
  | s, ch :: chs =>
    match jsonLexer s ch with
    | .state .inError => none
    | .state s' => walk s' chs
    | .accept _ => none

variable {l : Scanner} {s s' s'' : LexerState} {ch : Byte} {chs chs' token : Text}

/-- One byte of a walk that does not fail. -/
lemma walk_cons (s' : LexerState) (h : jsonLexer s ch = .state s') (hs : s' ≠ .inError) :
    walk s (ch :: chs) = walk s' chs := by
  rw [walk, h]
  cases s' <;> first | exact absurd rfl hs | rfl

lemma exists_of_walk_cons (h : walk s (ch :: chs) = some s'') :
    ∃ s', jsonLexer s ch = .state s' ∧ s' ≠ .inError ∧ walk s' chs = some s'' := by
  rw [walk] at h
  split at h
  · exact nomatch h
  · rename_i s' hs' hnext
    exact ⟨s', hnext, fun h' => hs' (h' ▸ rfl), h⟩
  · exact nomatch h

/-- Walks are made one after the other. -/
lemma walk_append (h : walk s chs = some s') : walk s (chs ++ chs') = walk s' chs' := by
  induction chs generalizing s with
  | nil =>
    cases h
    rfl
  | cons ch chs ih =>
    obtain ⟨s1, hnext, hs1, hwalk⟩ := exists_of_walk_cons h
    rw [cons_append, walk_cons _ hnext hs1, ih hwalk]

/-- The lexer goes on through a walk and emits nothing, as long as the token is short enough. -/
lemma feed_walk (token : Text) (h : walk s chs = some s')
    (hlen : token.length + chs.length ≤ maxTokenSize) :
    (⟨s, token⟩ : Scanner).feed chs = (⟨s', token ++ chs⟩, []) := by
  induction chs generalizing s token with
  | nil =>
    cases h
    rw [append_nil]
    rfl
  | cons ch chs ih =>
    obtain ⟨s1, hnext, hs1, hwalk⟩ := exists_of_walk_cons h
    rw [length_cons] at hlen
    have hfirst : (⟨s, token⟩ : Scanner).feedChar ch false = (⟨s1, token ++ [ch]⟩, []) :=
      feedChar_state hnext hs1 (by simp only; omega)
    have hrest := ih (token ++ [ch]) hwalk (by simp; omega)
    simp only [feed, hfirst, hrest, append_assoc, singleton_append, nil_append]

/-! ## Where tokens end -/

/-- The bytes that end a number or a keyword in the output of the printer. -/
def Breaks (ch : Byte) : Prop := isOperator ch = true ∨ isSpace ch = true

/-- The byte ends what is pending, and is read as if the lexer had just started. -/
def Ends (l : Scanner) (pending : List Lexeme) (ch : Byte) : Prop :=
  l.feedChar ch false = ((init.feedChar ch false).1, pending ++ (init.feedChar ch false).2)

/-- The lexer at the end of a token: it may still have to be emitted. -/
structure After (l : Scanner) (pending : List Lexeme) : Prop where
  ends : ∀ ch, Breaks ch → l.Ends pending ch
  flush : l.flush = (init, pending)

/-- Nothing has been read yet. -/
lemma after_init : After init [] where
  ends _ _ := rfl
  flush := rfl

/-- A byte that ends the token is read once more, in the start state. -/
lemma Ends.feed {pending : List Lexeme} (h : l.Ends pending ch) (chs : Text) :
    l.feed (ch :: chs) = ((init.feed (ch :: chs)).1, pending ++ (init.feed (ch :: chs)).2) := by
  rw [Scanner.feed, Scanner.feed, h, append_assoc]

/-- The lexer finds these tokens, the last of which may be pending. -/
def Lexes (chs : Text) (ts : List Lexeme) : Prop :=
  ∃ l out pending, init.feed chs = (l, out) ∧ After l pending ∧ out ++ pending = ts

/-- The lexer finds these tokens, and none is pending. -/
def Complete (chs : Text) (ts : List Lexeme) : Prop := init.feed chs = (init, ts)

variable {ts ts' : List Lexeme}

lemma Complete.lexes (h : Complete chs ts) : Lexes chs ts :=
  ⟨init, ts, [], h, after_init, append_nil ts⟩

/-- A text whose tokens are complete can be followed by any other one. -/
lemma Complete.append (h : Complete chs ts) (h' : Lexes chs' ts') :
    Lexes (chs ++ chs') (ts ++ ts') := by
  obtain ⟨l, out, pending, hfeed, hafter, rfl⟩ := h'
  refine ⟨l, ts ++ out, pending, ?_, hafter, append_assoc _ _ _⟩
  rw [feed_append, h, hfeed]

/-- An operator is a token of its own. -/
lemma complete_op (ch : Byte) (h : isOperator ch = true) : Complete [ch] [op ch] := by
  have hnext : jsonLexer init.state ch = .accept .operator := by
    revert ch
    decide +kernel
  have h0 : jsonLexer init.state 0 ≠ .accept .operator := by decide
  rw [Complete, feed, feedChar_accept hnext h0]
  rfl

/-- What ends a token does not become part of it. -/
lemma Lexes.feed_append (h : Lexes chs ts) (hch : Breaks ch) : init.feed (chs ++ ch :: chs') =
      ((init.feed (ch :: chs')).1, ts ++ (init.feed (ch :: chs')).2) := by
  obtain ⟨l, out, pending, hfeed, hafter, rfl⟩ := h
  rw [Scanner.feed_append, hfeed]
  simp only [(hafter.ends ch hch).feed, append_assoc]

/-- An operator ends the token before it. -/
lemma Lexes.append_op (h : Lexes chs ts) (ch : Byte) (hch : isOperator ch = true) :
    Complete (chs ++ [ch]) (ts ++ [op ch]) := by
  rw [Complete, h.feed_append (.inl hch), show init.feed [ch] = _ from complete_op ch hch]

/-! ## White space -/

/-- White space that is short enough for a token. -/
def IsSpaces (ws : Text) : Prop := (∀ ch ∈ ws, isSpace ch = true) ∧ ws.length ≤ maxTokenSize

/-- A text that does not start with white space. -/
def Solid (chs : Text) : Prop := ∃ ch rest, chs = ch :: rest ∧ ch ≤ 0x7F ∧ isSpace ch = false

/-- White space stays white space. -/
lemma walk_spaces (ws : Text) (h : ∀ ch ∈ ws, isSpace ch = true) :
    walk .inWhitespace ws = some .inWhitespace := by
  induction ws with
  | nil => rfl
  | cons ch ws ih =>
    rw [forall_mem_cons] at h
    have hnext : jsonLexer .inWhitespace ch = .state .inWhitespace := by
      rw [jsonLexer, if_pos h.1]
    rw [walk_cons _ hnext (by decide), ih h.2]

lemma jsonLexer_space : ∀ ch, isSpace ch = true → jsonLexer .inStart ch = .state .inWhitespace := by
  decide +kernel

variable {ws : Text} {indent : ℕ}

/-- White space is collected like a token. -/
lemma feed_spaces (h : IsSpaces ws) (hne : ws ≠ []) : init.feed ws = (⟨.inWhitespace, ws⟩, []) := by
  obtain ⟨hall, hlen⟩ := h
  refine feed_walk [] ?_ (by simpa using hlen)
  cases ws with
  | nil => exact absurd rfl hne
  | cons ch ws =>
    rw [forall_mem_cons] at hall
    rw [walk_cons _ (jsonLexer_space ch hall.1) (by decide), walk_spaces ws hall.2]

/-- White space that ends is dropped. -/
lemma ends_spaces {token : Text} (h : ch ≤ 0x7F) (hspace : isSpace ch = false) :
    (⟨.inWhitespace, token⟩ : Scanner).Ends [] ch := by
  have hnext : jsonLexer .inWhitespace ch = .accept .skip := by
    rw [jsonLexer, if_neg (by rw [hspace]; decide), terminal, if_pos h]
  have h0 : jsonLexer .inWhitespace 0 = .accept .skip := by decide
  exact feedChar_pending (l := ⟨.inWhitespace, token⟩) hnext h0

/-- White space before a token changes nothing. -/
lemma feed_spaces_append (h : IsSpaces ws) (hsolid : Solid chs) :
    init.feed (ws ++ chs) = init.feed chs := by
  obtain ⟨ch, rest, rfl, hascii, hspace⟩ := hsolid
  by_cases hne : ws = []
  · rw [hne, nil_append]
  · rw [Scanner.feed_append, feed_spaces h hne]
    simp only [(ends_spaces hascii hspace).feed, nil_append]

lemma Lexes.spaces (h : Lexes chs ts) (hws : IsSpaces ws) (hsolid : Solid chs) :
    Lexes (ws ++ chs) ts := by
  obtain ⟨l, out, pending, hfeed, hafter⟩ := h
  exact ⟨l, out, pending, by rw [feed_spaces_append hws hsolid, hfeed], hafter⟩

lemma solid_op (h : isOperator ch = true) : Solid (ch :: chs) := by
  refine ⟨ch, chs, rfl, ?_⟩
  revert ch
  decide +kernel

/-- There may be white space before an operator. -/
lemma Lexes.append_spaces_op (h : Lexes chs ts) (hws : IsSpaces ws) (ch : Byte)
    (hch : isOperator ch = true) :
    Complete (chs ++ (ws ++ [ch])) (ts ++ [op ch]) := by
  have hop : init.feed (ws ++ [ch]) = (init, [op ch]) := by
    rw [feed_spaces_append hws (solid_op hch)]
    exact complete_op ch hch
  cases ws with
  | nil => exact h.append_op ch hch
  | cons w ws =>
    rw [Complete, cons_append, h.feed_append (.inr (hws.1 w mem_cons_self)), ← cons_append, hop]

/-! ## Tokens -/

variable {type : TokenType}

/-- A token that its last byte ends, such as a string. -/
lemma complete_of_walk (h : walk .inStart chs = some s) (hch : jsonLexer s ch = .accept type)
    (h0 : jsonLexer s 0 ≠ .accept type) (htype : type ≠ .skip)
    (hlen : (chs ++ [ch]).length ≤ maxTokenSize) :
    Complete (chs ++ [ch]) [⟨type, chs ++ [ch]⟩] := by
  have hfeed : init.feed chs = (⟨s, chs⟩, []) :=
    feed_walk [] h (by simp at hlen ⊢; omega)
  have hlast : (⟨s, chs⟩ : Scanner).feedChar ch false = (init, emit type (chs ++ [ch])) :=
    feedChar_accept hch h0
  rw [Complete, Scanner.feed_append, hfeed]
  simp only [feed, hlast, emit, if_neg htype, nil_append, append_nil]

/-- A token that is ended by what follows, such as a number. -/
lemma lexes_of_walk (h : walk .inStart chs = some s) (h0 : jsonLexer s 0 = .accept type)
    (hbreaks : ∀ ch, Breaks ch → jsonLexer s ch = .accept type) (htype : type ≠ .skip)
    (hlen : chs.length ≤ maxTokenSize) : Lexes chs [⟨type, chs⟩] := by
  have hemit : emit type chs = [⟨type, chs⟩] := if_neg htype
  refine ⟨⟨s, chs⟩, [], [⟨type, chs⟩], feed_walk [] h (by simpa using hlen), ⟨?_, ?_⟩, rfl⟩
  · intro ch hch
    rw [← hemit]
    exact feedChar_pending (l := ⟨s, chs⟩) (hbreaks ch hch) h0
  · rw [← hemit]
    exact flush_pending (l := ⟨s, chs⟩) h0

lemma jsonLexer_hexDigit (d : BitVec 4) : jsonLexer .inDqUcode0 (hexDigit d) = .state .inDqUcode1 ∧
      jsonLexer .inDqUcode1 (hexDigit d) = .state .inDqUcode2 ∧
      jsonLexer .inDqUcode2 (hexDigit d) = .state .inDqUcode3 ∧
      jsonLexer .inDqUcode3 (hexDigit d) = .state .inDqString := by
  revert d
  decide

/-- An escape of four hexadecimal digits is walked through inside a string. -/
lemma walk_hex4 (w : BitVec 16) :
    walk .inDqString (backslash :: byte 'u' :: hex4 w) = some .inDqString := by
  rw [walk_cons .inDqStringEscape rfl (by decide), walk_cons .inDqUcode0 rfl (by decide),
    hex4, walk_cons _ (jsonLexer_hexDigit _).1 (by decide),
    walk_cons _ (jsonLexer_hexDigit _).2.1 (by decide),
    walk_cons _ (jsonLexer_hexDigit _).2.2.1 (by decide),
    walk_cons _ (jsonLexer_hexDigit _).2.2.2 (by decide)]
  rfl

/-- So is what is printed for a single byte. -/
lemma walk_escapeByte : ∀ (signed : Bool) (ch : Byte), ch ≠ 0 → ch ≤ 0xBF →
    walk .inDqString (escapeByte signed ch) = some .inDqString := by
  decide +kernel

variable (n : BitVec 64) (signed : Bool)

lemma walk_escapeChar {cp : BitVec 21} (h0 : cp ≠ 0) :
    walk .inDqString (escapeChar signed cp) = some .inDqString := by
  have htail : ∀ z : BitVec 6, (0x80 ||| z.setWidth 8 : Byte) ≤ 0xBF := by decide
  unfold escapeChar
  split_ifs with h1 h2
  · obtain ⟨hne, hle⟩ := ascii_of_le h0 h1
    exact walk_escapeByte signed _ hne (BitVec.le_trans hle (by decide))
  · exact walk_hex4 _
  · rw [walk_append (walk_hex4 _)]
    exact walk_escapeByte signed _ (tail_mask cp 0).1 (htail _)

/-- The lexer stays inside of a string that is printed. -/
lemma walk_escape {cps : List (BitVec 21)} (h : ∀ cp ∈ cps, cp ≠ 0) :
    walk .inDqString (cps.flatMap (escapeChar signed)) = some .inDqString := by
  induction cps with
  | nil => rfl
  | cons cp cps ih =>
    rw [forall_mem_cons] at h
    rw [flatMap_cons, walk_append (walk_escapeChar signed h.1), ih h.2]

/-- A printed string is one token. -/
lemma complete_quoted {cps : List (BitVec 21)} (h : ∀ cp ∈ cps, cp ≠ 0)
    (hlen : (quoted signed (utf8 cps)).length ≤ maxTokenSize) :
    Complete (quoted signed (utf8 cps)) [⟨.string, quoted signed (utf8 cps)⟩] := by
  refine complete_of_walk (s := .inDqString) ?_ (by decide) (by decide) (by decide) hlen
  rw [walk_cons .inDqString (by decide) (by decide), escapeFrom_utf8 signed h, walk_escape signed h]

lemma jsonLexer_breaks : ∀ ch, isOperator ch = true ∨ isSpace ch = true →
    jsonLexer .inZero ch = .accept .integer ∧ jsonLexer .inNonzeroNumber ch = .accept .integer ∧
      jsonLexer .inKeyword ch = .accept .keyword := by
  decide +kernel

/-- A printed boolean is one token. -/
lemma lexes_keyword (b : Bool) : Lexes (if b = true then text "true" else text "false")
      [⟨.keyword, if b = true then text "true" else text "false"⟩] := by
  refine lexes_of_walk (s := .inKeyword) ?_ (by decide)
    (fun ch hch => (jsonLexer_breaks ch hch).2.2)
    (by decide) ?_
  · revert b
    decide
  · revert b
    decide

/-! ## Numbers -/

lemma jsonLexer_digit :
    ∀ d < 10, jsonLexer .inNonzeroNumber
      (byte '0' + BitVec.ofNat 8 d) = .state .inNonzeroNumber := by
  decide

/-- The digits of a number are walked through. -/
lemma walk_digits {ds : List ℕ} (h : ∀ d ∈ ds, d < 10) :
    walk .inNonzeroNumber (ds.map fun d => byte '0' + BitVec.ofNat 8 d) =
      some .inNonzeroNumber := by
  induction ds with
  | nil => rfl
  | cons d ds ih =>
    rw [forall_mem_cons] at h
    rw [map_cons, walk_cons _ (jsonLexer_digit d h.1) (by decide), ih h.2]

lemma jsonLexer_first : ∀ d < 10, d ≠ 0 →
    jsonLexer .inStart (byte '0' + BitVec.ofNat 8 d) = .state .inNonzeroNumber ∧
      jsonLexer .inNegNonzeroNumber (byte '0' + BitVec.ofNat 8 d) = .state .inNonzeroNumber := by
  decide

/-- A number other than zero begins with a digit other than zero. -/
lemma digits_eq {n : ℕ} (h : n ≠ 0) :
    ∃ d ds, digits n = (d :: ds).map (fun d => byte '0' + BitVec.ofNat 8 d) ∧ d ≠ 0 ∧ d < 10 ∧
      ∀ d' ∈ ds, d' < 10 := by
  have hlt : ∀ d ∈ (Nat.digits 10 n).reverse, d < 10 := fun d hd =>
    Nat.digits_lt_base (by norm_num) (mem_reverse.1 hd)
  have hne : (Nat.digits 10 n).reverse ≠ [] := by
    rw [ne_eq, reverse_eq_nil_iff]
    exact Nat.digits_ne_nil_iff_ne_zero.2 h
  have hhead : (Nat.digits 10 n).reverse.head hne ≠ 0 := by
    rw [head_reverse]
    exact Nat.getLast_digit_ne_zero 10 h
  rw [digits, if_neg h]
  cases hdigits : (Nat.digits 10 n).reverse with
  | nil => exact absurd hdigits hne
  | cons d ds =>
    simp only [hdigits] at hlt hhead
    exact ⟨d, ds, rfl, hhead, hlt d mem_cons_self, fun d' hd' => hlt d' (mem_cons_of_mem _ hd')⟩

/-- A printed number is walked through, with its sign. -/
lemma walk_printInt :
    walk .inStart (printInt n) = some .inZero ∨ walk .inStart
      (printInt n) = some .inNonzeroNumber := by
  by_cases h0 : n.toInt.natAbs = 0
  · left
    have hnot : ¬n.toInt < 0 := by omega
    rw [printInt, if_neg hnot, h0]
    decide
  · right
    obtain ⟨d, ds, hdigits, hd0, hd, hds⟩ := digits_eq h0
    rw [printInt, hdigits, map_cons]
    split_ifs
    · rw [walk_cons .inNegNonzeroNumber (by decide) (by decide),
        walk_cons _ (jsonLexer_first d hd hd0).2 (by decide), walk_digits hds]
    · rw [walk_cons _ (jsonLexer_first d hd hd0).1 (by decide), walk_digits hds]

/-- A printed number is one token. -/
lemma lexes_printInt (hlen : (printInt n).length ≤ maxTokenSize) :
    Lexes (printInt n) [⟨.integer, printInt n⟩] := by
  rcases walk_printInt n with h | h
  · exact lexes_of_walk h (by decide) (fun ch hch => (jsonLexer_breaks ch hch).1) (by decide) hlen
  · exact lexes_of_walk h (by decide) (fun ch hch => (jsonLexer_breaks ch hch).2.1) (by decide) hlen

lemma solid_printInt : Solid (printInt n) := by
  have hdigit : ∀ d < 10, byte '0' + BitVec.ofNat 8 d ≤ 0x7F ∧
      isSpace (byte '0' + BitVec.ofNat 8 d) = false := by decide
  by_cases h0 : n.toInt.natAbs = 0
  · have hnot : ¬n.toInt < 0 := by omega
    rw [printInt, if_neg hnot, h0]
    exact ⟨byte '0', [], rfl, by decide, by decide⟩
  · obtain ⟨d, ds, hdigits, -, hd, -⟩ := digits_eq h0
    rw [printInt, hdigits, map_cons]
    split_ifs
    · exact ⟨byte '-', _, rfl, by decide, by decide⟩
    · exact ⟨_, _, rfl, hdigit d hd⟩

/-! ## Items -/

/-- A line break and its indentation are white space. -/
lemma isSpaces_newline (pretty : Bool) (h : indent ≤ 2 ^ 20) :
    IsSpaces (newline pretty indent) := by
  unfold newline
  split_ifs
  · constructor
    · rw [forall_mem_cons]
      refine ⟨by decide, fun ch hch => ?_⟩
      rw [eq_of_mem_replicate hch]
      decide
    · rw [length_cons, length_replicate, maxTokenSize]
      omega
  · exact ⟨fun ch hch => absurd hch (not_mem_nil), Nat.zero_le _⟩

lemma isSpaces_space_newline (pretty : Bool) (h : indent ≤ 2 ^ 20) :
    IsSpaces (byte ' ' :: newline pretty indent) := by
  constructor
  · rw [forall_mem_cons]
    exact ⟨by decide, (isSpaces_newline pretty h).1⟩
  unfold newline
  split_ifs
  · simp [maxTokenSize]
    omega
  · decide

/-- The tokens before an item: the opening one of the group, or others with an item at the end. -/
def Begun (first : Bool) (chs : Text) (ts : List Lexeme) : Prop :=
  if first = true then Complete chs ts else Lexes chs ts

lemma Begun.lexes {first : Bool} (h : Begun first chs ts) : Lexes chs ts := by
  cases first with
  | true => exact Complete.lexes h
  | false => exact h

/-- One more item of a list or a dict. -/
lemma Begun.append_item {first : Bool} (h : Begun first chs ts) (hitem : Lexes item ts')
    (hsolid : Solid item) (pretty : Bool) (indent : ℕ) (hindent : indent ≤ 2 ^ 20) :
    Begun false (chs ++ (separator pretty first indent ++ item))
      (ts ++ ((if first = true then [] else [op comma]) ++ ts')) := by
  cases first with
  | true => exact Complete.append h (hitem.spaces (isSpaces_newline pretty hindent) hsolid)
  | false =>
    have htext : text ", " = [comma, byte ' '] := by decide
    have hall := (Lexes.append_op h comma (by decide)).append
      (hitem.spaces (isSpaces_space_newline pretty hindent) hsolid)
    rw [separator, if_neg (by decide), htext]
    simpa [Begun] using hall

/-- The closing bracket, on a line of its own or not. -/
lemma Lexes.append_close (h : Lexes chs ts) (pretty : Bool) (indent : ℕ) (hindent : indent ≤ 2 ^ 20)
    (ch : Byte) (hch : isOperator ch = true) :
    Lexes (chs ++ newline pretty indent ++ [ch]) (ts ++ [op ch]) := by
  rw [append_assoc]
  exact (h.append_spaces_op (isSpaces_newline pretty hindent) ch hch).lexes

end Scanner

/-! ## Objects -/

section Tokens

open Scanner QObject

variable {φ : Type} [CDouble φ] (signed pretty : Bool)

mutual

/-- The tokens of an object as it is printed. -/
def tokens : QObject φ → List Lexeme
  | .int n => [⟨.integer, printInt n⟩]
  | .float x => [⟨.float, printFloat x⟩]
  | .bool b => [⟨.keyword, if b = true then text "true" else text "false"⟩]
  | .string s => [⟨.string, quoted signed s⟩]
  | .list xs => op lbracket :: (tokensList xs true ++ [op rbracket])
  | .dict es => op lbrace :: (tokensDict es true ++ [op rbrace])

def tokensList : List (QObject φ) → Bool → List Lexeme
  | [], _ => []
  | x :: xs, first => (if first = true then [] else [op comma]) ++ tokens x ++ tokensList xs false

def tokensDict : List (Text × QObject φ) → Bool → List Lexeme
  | [], _ => []
  | (key, x) :: es, first =>
    (if first = true then [] else [op comma]) ++ ⟨.string, quoted signed key⟩ ::
      op colon :: tokens x ++
      tokensDict es false

end

/-- A text in UTF-8, without a NUL. -/
def Utf8 (s : Text) : Prop := ∃ cps, (∀ cp ∈ cps, IsScalar cp) ∧ s = utf8 cps

lemma solid_quoted (s : Text) : Solid (quoted signed s) := ⟨dquote, _, rfl, by decide, by decide⟩

lemma complete_utf8 {s : Text} (h : Utf8 s) (hlen : (quoted signed s).length ≤ maxTokenSize) :
    Complete (quoted signed s) [⟨.string, quoted signed s⟩] := by
  obtain ⟨cps, hcps, rfl⟩ := h
  exact complete_quoted signed (fun cp hcp => (hcps cp hcp).1) hlen

variable {ts : List Lexeme}

/-- A key, a colon and a value. -/
lemma lexes_entry {key : Text} (hkey : Utf8 key) (hlen : (quoted signed key).length ≤ maxTokenSize)
    (hitem : Lexes item ts) (hsolid : Solid item) :
    Lexes (quoted signed key ++ text ": " ++ item)
      (⟨.string, quoted signed key⟩ :: op colon :: ts) := by
  have htext : text ": " = [colon, byte ' '] := by decide
  have hspace : IsSpaces [byte ' '] := isSpaces_space_newline false (Nat.zero_le _)
  have hcolon := (complete_utf8 signed hkey hlen).lexes.append_op colon (by decide)
  have hall := hcolon.append (hitem.spaces hspace hsolid)
  rw [htext]
  simpa using hall

mutual

/-- **The lexer finds the tokens of an object in its text.** -/
theorem lexes_toJson : ∀ (o : QObject φ) (indent : ℕ), o.Plain Utf8 →
    Streamer.sizeOf (tokens signed o) ≤ maxTokenSize → indent + o.depth ≤ 2 ^ 20 →
    Solid (toJson signed pretty o indent) ∧ Lexes (toJson signed pretty o indent) (tokens signed o)
  | .int n, _, _, hsize, _ => by
    rw [tokens] at hsize
    rw [toJson, tokens]
    exact ⟨solid_printInt n, lexes_printInt n (by simpa using hsize)⟩
  | .float _, _, hplain, _, _ => by
    exact hplain.elim
  | .bool b, _, _, _, _ => by
    rw [toJson, tokens]
    refine ⟨?_, lexes_keyword b⟩
    cases b <;> exact ⟨_, _, rfl, by decide, by decide⟩
  | .string s, _, hplain, hsize, _ => by
    rw [tokens] at hsize
    rw [toJson, tokens]
    exact ⟨solid_quoted signed s, (complete_utf8 signed hplain (by simpa using hsize)).lexes⟩
  | .list xs, indent, hplain, hsize, hindent => by
    rw [tokens] at hsize
    rw [depth] at hindent
    rw [toJson, tokens]
    simp only [Streamer.sizeOf_cons, Streamer.sizeOf_append] at hsize
    refine ⟨⟨lbracket, _, rfl, by decide, by decide⟩, ?_⟩
    have hitems := lexes_toJsonList xs (indent + 1) true hplain (by omega) (by omega)
      (complete_op lbracket (by decide))
    simpa using hitems.append_close pretty indent (by omega) rbracket (by decide)
  | .dict es, indent, hplain, hsize, hindent => by
    rw [tokens] at hsize
    rw [depth] at hindent
    rw [toJson, tokens]
    simp only [sizeOf_cons, sizeOf_append] at hsize
    refine ⟨⟨lbrace, _, rfl, by decide, by decide⟩, ?_⟩
    have hitems := lexes_toJsonDict es (indent + 1) true hplain (by omega) (by omega)
      (complete_op lbrace (by decide))
    simpa using hitems.append_close pretty indent (by omega) rbrace (by decide)

/-- The elements of a list, after the bracket or after other elements. -/
theorem lexes_toJsonList : ∀ (xs : List (QObject φ)) (indent : ℕ)
    (first : Bool), PlainList Utf8 xs →
    Streamer.sizeOf (tokensList signed xs first) ≤ maxTokenSize → indent + depthList xs ≤ 2 ^ 20 →
    ∀ {chs : Text} {ts : List Lexeme}, Begun first chs ts →
      Lexes (chs ++ toJsonList signed pretty xs indent first) (ts ++ tokensList signed xs first)
  | [], _, first, _, _, _, _, _, h => by
    rw [toJsonList, tokensList, List.append_nil, List.append_nil]
    exact h.lexes
  | x :: xs, indent, first, hplain, hsize, hindent, _, _, h => by
    rw [tokensList] at hsize
    rw [depthList] at hindent
    simp only [Streamer.sizeOf_append] at hsize
    obtain ⟨hsolid, hx⟩ := lexes_toJson x indent hplain.1 (by omega) (by omega)
    have hrest := lexes_toJsonList xs indent false hplain.2 (by omega) (by omega)
      (h.append_item hx hsolid pretty indent (by omega))
    rw [toJsonList, tokensList]
    simpa using hrest

/-- The entries of a dict, after the brace or after other entries. -/
theorem lexes_toJsonDict : ∀ (es : List (Text × QObject φ)) (indent : ℕ) (first : Bool),
    PlainDict Utf8 es → Streamer.sizeOf (tokensDict signed es first) ≤ maxTokenSize →
    indent + depthDict es ≤ 2 ^ 20 →
    ∀ {chs : Text} {ts : List Lexeme}, Begun first chs ts →
      Lexes (chs ++ toJsonDict signed pretty es indent first) (ts ++ tokensDict signed es first)
  | [], _, first, _, _, _, _, _, h => by
    rw [toJsonDict, tokensDict, List.append_nil, List.append_nil]
    exact h.lexes
  | (key, x) :: es, indent, first, hplain, hsize, hindent, _, _, h => by
    rw [tokensDict] at hsize
    rw [depthDict] at hindent
    simp only [Streamer.sizeOf_append, Streamer.sizeOf_cons] at hsize
    obtain ⟨hsolid, hx⟩ := lexes_toJson x indent hplain.2.1 (by omega) (by omega)
    have hentry := lexes_entry signed hplain.1 (by omega) hx hsolid
    have hsolid' : Solid (quoted signed key ++ text ": " ++ toJson signed pretty x indent) :=
      ⟨dquote, _, rfl, by decide, by decide⟩
    have hrest := lexes_toJsonDict es indent false hplain.2.2 (by omega) (by omega)
      (h.append_item hentry hsolid' pretty indent (by omega))
    rw [toJsonDict, tokensDict]
    simpa using hrest

end

/-! ## One list -/

/-- Only operators change how deep the parser is. -/
lemma Nest.other {b k : ℕ} {t : Lexeme} (ht : t.type ≠ .operator) (herr : t.type ≠ .error)
    (h : Nest b k ts) :
    Nest b k (t :: ts) :=
  .token (by simp [Lexeme.brace, ht]) (by simp [Lexeme.bracket, ht]) herr h

lemma Nest.separator {b k : ℕ} {first : Bool} (h : Nest b k ts) :
    Nest b k ((if first = true then [] else [op comma]) ++ ts) := by
  cases first with
  | true => exact h
  | false => exact .token (by decide) (by decide) (by decide) h

mutual

/-- The tokens of an object close what they open. -/
theorem nest_tokens : ∀ (o : QObject φ) {b k : ℕ} {ts : List Lexeme}, o.depth ≤ b → o.depth ≤ k →
    Nest b k ts → Nest b k (tokens signed o ++ ts)
  | .int _, _, _, _, _, _, h => .other (by simp) (by simp) h
  | .float _, _, _, _, _, _, h => .other (by simp) (by simp) h
  | .bool _, _, _, _, _, _, h => .other (by simp) (by simp) h
  | .string _, _, _, _, _, _, h => .other (by simp) (by simp) h
  | .list xs, b, k, ts, hb, hk, h => by
    rw [depth] at hb hk
    obtain ⟨k, rfl⟩ := Nat.exists_eq_add_of_le' (show 1 ≤ k by omega)
    have hinner := nest_tokensList xs true (show depthList xs ≤ b by omega)
      (show depthList xs ≤ k by omega) (.nil : Nest b k [])
    rw [tokens]
    simpa using Nest.brackets hinner h
  | .dict es, b, k, ts, hb, hk, h => by
    rw [depth] at hb hk
    obtain ⟨b, rfl⟩ := Nat.exists_eq_add_of_le' (show 1 ≤ b by omega)
    have hinner := nest_tokensDict es true (show depthDict es ≤ b by omega)
      (show depthDict es ≤ k by omega) (.nil : Nest b k [])
    rw [tokens]
    simpa using Nest.braces hinner h

theorem nest_tokensList : ∀ (xs : List (QObject φ)) (first : Bool) {b k : ℕ} {ts : List Lexeme},
    depthList xs ≤ b → depthList xs ≤ k → Nest b k ts → Nest b k (tokensList signed xs first ++ ts)
  | [], _, _, _, _, _, _, h => h
  | x :: xs, _, _, _, _, hb, hk, h => by
    rw [depthList] at hb hk
    rw [tokensList, append_assoc, append_assoc]
    exact .separator (nest_tokens x (by omega) (by omega)
      (nest_tokensList xs false (by omega) (by omega) h))

theorem nest_tokensDict : ∀ (es : List (Text × QObject φ)) (first : Bool) {b k : ℕ}
    {ts : List Lexeme},
    depthDict es ≤ b → depthDict es ≤ k → Nest b k ts → Nest b k (tokensDict signed es first ++ ts)
  | [], _, _, _, _, _, _, h => h
  | (_, x) :: es, _, _, _, _, hb, hk, h => by
    rw [depthDict] at hb hk
    rw [tokensDict, append_assoc, append_assoc]
    exact .separator (.other (by simp) (by simp) (.token (by decide) (by decide) (by decide)
      (nest_tokens x (by omega) (by omega) (nest_tokensDict es false (by omega) (by omega) h))))

end

/-- A token outside of all brackets is a message. -/
lemma processAll_singleton {t : Lexeme} (ht : t.type ≠ .operator) (herr : t.type ≠ .error) :
    Streamer.init.processAll id [t] = (Streamer.init, [some [t]]) := by
  have hclosed : ((Streamer.init : Streamer Lexeme).push id t).Closed :=
    .inr (.inr (by simp [push, Streamer.init, Lexeme.brace, Lexeme.bracket, ht]))
  rw [processAll, processToken, if_neg (show (id t).type ≠ .error from herr), if_pos (.inl hclosed)]
  rfl

/-- The streamer emits the tokens of an object as one list. -/
theorem processAll_tokens (o : QObject φ) (hdepth : o.depth ≤ 1024)
    (hsize : Streamer.sizeOf (tokens signed o) ≤ maxTokenSize) :
    Streamer.init.processAll id (tokens signed o) = (Streamer.init, [some (tokens signed o)]) := by
  cases o with
  | list xs =>
    rw [depth] at hdepth
    have hnest := nest_tokensList signed xs true (show depthList xs ≤ 1024 by omega)
      (show depthList xs ≤ 1023 by omega) .nil
    rw [append_nil] at hnest
    exact (processAll_message (.array hnest hsize)).2
  | dict es =>
    rw [depth] at hdepth
    have hnest := nest_tokensDict signed es true (show depthDict es ≤ 1023 by omega)
      (show depthDict es ≤ 1024 by omega) .nil
    rw [append_nil] at hnest
    exact (processAll_message (.object hnest hsize)).2
  | _ =>
    rw [tokens]
    exact processAll_singleton (by simp) (by simp)

/-- What the message parser emits, from what the lexer does. -/
lemma emitted_lexemes (chs : Text) :
    (MessageParser.init.emitted chs).map
      (Option.map (List.map Token.lexeme)) = (Streamer.init.processAll id
        ((Scanner.init.feed chs).2 ++ (Scanner.init.feed chs).1.flush.2)).2 := by
  have hscan := MessageParser.feed_scanner MessageParser.init chs
  rw [show MessageParser.init.lexer.scanner = Scanner.init from rfl] at hscan
  rw [processAll_append, MessageParser.feed_lexemes, MessageParser.emitted, map_append,
    MessageParser.flush, Scanner.flush, ← hscan]
  congr 1
  split_ifs
  · rfl
  generalize (MessageParser.init.feed chs).1 = p
  have hmap : (p.streamer.map Token.lexeme).processAll id
      ((p.lexer.feedChar 0 true).2.map Token.lexeme) = _ :=
    processAll_map Token.lexeme (fun _ => rfl) p.streamer (p.lexer.feedChar 0 true).2
  have hlex : (p.lexer.feedChar 0 true).2.map Token.lexeme =
      (p.lexer.scanner.feedChar 0 true).2 := by
    simp [Lexer.feedChar, Function.comp_def]
  rw [hlex] at hmap
  rw [hmap]
  rfl

/-- **The message parser emits the tokens of a printed object as one list.** -/
theorem emitted_toJson (o : QObject φ) (hplain : o.Plain Utf8) (hdepth : o.depth ≤ 1024)
    (hsize : Streamer.sizeOf (tokens signed o) ≤ maxTokenSize) :
    (MessageParser.init.emitted (toJson signed pretty o 0)).map
      (Option.map (List.map Token.lexeme)) =
      [some (tokens signed o)] := by
  obtain ⟨l, out, pending, hfeed, hafter, hout⟩ :=
    (lexes_toJson signed pretty o 0 hplain hsize (by omega)).2
  rw [emitted_lexemes, hfeed]
  simp only [hafter.flush, hout, processAll_tokens signed o hdepth hsize]

end Tokens

end Qemu.Json
