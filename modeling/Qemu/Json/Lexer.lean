import Mathlib

/-!
# The JSON lexer

`json-lexer.c`: a table of states, and the loop that walks through it byte by byte.  What the lexer
does never depends on the position that it keeps for the tokens, so the walk is a function of its
own, on a `Scanner`; `Lexer` adds the position.

**Main results:**
- `Scanner.feedChar_invalid`: the byte `0xFF` is an error in every state, and resets the lexer
- `Scanner.feedChar_pending`: a byte that ends a number, a keyword or white space is read as if the
  lexer had just started
-/

namespace Qemu.Json

abbrev Byte := BitVec 8

/-- A byte string. -/
abbrev Text := List Byte

def byte (c : Char) : Byte := BitVec.ofNat 8 c.toNat

def text (s : String) : Text := s.toList.map byte

def dquote : Byte := 0x22

def squote : Byte := 0x27

def backslash : Byte := 0x5C

def comma : Byte := 0x2C

def colon : Byte := 0x3A

def lbracket : Byte := 0x5B

def rbracket : Byte := 0x5D

def lbrace : Byte := 0x7B

def rbrace : Byte := 0x7D

/-! ## The table -/

/-- `enum json_lexer_state`. -/
inductive LexerState
  | inError
  | inDqUcode3
  | inDqUcode2
  | inDqUcode1
  | inDqUcode0
  | inDqStringEscape
  | inDqString
  | inSqUcode3
  | inSqUcode2
  | inSqUcode1
  | inSqUcode0
  | inSqStringEscape
  | inSqString
  | inZero
  | inDigits
  | inDigit
  | inExpE
  | inMantissa
  | inMantissaDigits
  | inNonzeroNumber
  | inNegNonzeroNumber
  | inKeyword
  | inEscape
  | inEscapeL
  | inEscapeLL
  | inEscapeI
  | inEscapeI6
  | inEscapeI64
  | inWhitespace
  | inStart
deriving DecidableEq

/-- `JSONTokenType`.  A token that has become too long has the state of the lexer as its type. -/
inductive TokenType
  | operator
  | integer
  | float
  | keyword
  | string
  | escape
  | skip
  | error
  | unfinished (state : LexerState)
deriving DecidableEq

/-- An entry of the table: another state, or the end of a token. -/
inductive Next
  | state (s : LexerState)
  | accept (type : TokenType)
deriving DecidableEq

def isDigit (ch : Byte) : Bool := decide (byte '0' ≤ ch ∧ ch ≤ byte '9')

/-- `qemu_isxdigit`. -/
def isXdigit (ch : Byte) : Bool :=
  decide (isDigit ch = true ∨ byte 'a' ≤ ch ∧ ch ≤ byte 'f' ∨ byte 'A' ≤ ch ∧ ch ≤ byte 'F')

def isLower (ch : Byte) : Bool := decide (byte 'a' ≤ ch ∧ ch ≤ byte 'z')

def isSpace (ch : Byte) : Bool :=
  decide (ch = byte ' ' ∨ ch = byte '\t' ∨ ch = byte '\r' ∨ ch = byte '\n')

def isOperator (ch : Byte) : Bool :=
  decide (ch = lbrace ∨ ch = rbrace ∨ ch = lbracket ∨ ch = rbracket ∨ ch = comma ∨ ch = colon)

/-- The bytes that stand for themselves in a string, quotes and the backslash included. -/
def isStringByte (ch : Byte) : Bool :=
  decide (1 ≤ ch ∧ ch ≤ 0xBF ∨ 0xC2 ≤ ch ∧ ch ≤ 0xF4)

/-- The letters after a backslash that stand for one character. -/
def isSimpleEscape (ch : Byte) : Bool :=
  decide (ch = byte 'b' ∨ ch = byte 'f' ∨ ch = byte 'n' ∨ ch = byte 'r' ∨ ch = byte 't' ∨
    ch = squote ∨ ch = dquote)

def isSlash (ch : Byte) : Bool := decide (ch = byte '/' ∨ ch = backslash)

/-- `TERMINAL(type)`. -/
def terminal (type : TokenType) (ch : Byte) : Next :=
  if ch ≤ 0x7F then .accept type else .state .inError

/-- A row with one entry besides the errors. -/
def orError (p : Bool) (s : LexerState) : Next := if p = true then .state s else .state .inError

/-- The rows `IN_DQ_STRING` and `IN_SQ_STRING`. -/
def stringRow (quote : Byte) (string escape : LexerState) (ch : Byte) : Next :=
  if ch = backslash then .state escape
  else if ch = quote then .accept .string
  else orError (isStringByte ch) string

/-- `IN_DQ_STRING_ESCAPE` and `IN_SQ_STRING_ESCAPE`; `slash` is where a slash and a backslash lead
to. -/
def escapeRow (string slash ucode : LexerState) (ch : Byte) : Next :=
  if isSlash ch = true then .state slash
  else if ch = byte 'u' then .state ucode
  else orError (isSimpleEscape ch) string

/-- The table `json_lexer`. -/
def jsonLexer : LexerState → Byte → Next
  | .inError, _ => .state .inError
  | .inDqUcode3, ch => orError (isXdigit ch) .inDqString
  | .inDqUcode2, ch => orError (isXdigit ch) .inDqUcode3
  | .inDqUcode1, ch => orError (isXdigit ch) .inDqUcode2
  | .inDqUcode0, ch => orError (isXdigit ch) .inDqUcode1
  | .inDqStringEscape, ch => escapeRow .inDqString .inDqString .inDqUcode0 ch
  | .inDqString, ch => stringRow dquote .inDqString .inDqStringEscape ch
  | .inSqUcode3, ch => orError (isXdigit ch) .inSqString
  | .inSqUcode2, ch => orError (isXdigit ch) .inSqUcode3
  | .inSqUcode1, ch => orError (isXdigit ch) .inSqUcode2
  | .inSqUcode0, ch => orError (isXdigit ch) .inSqUcode1
  | .inSqStringEscape, ch => escapeRow .inSqString .inDqString .inSqUcode0 ch
  | .inSqString, ch => stringRow squote .inSqString .inSqStringEscape ch
  | .inZero, ch =>
    if isDigit ch = true then .state .inError
    else if ch = byte '.' then .state .inMantissa
    else terminal .integer ch
  | .inDigits, ch => if isDigit ch = true then .state .inDigits else terminal .float ch
  | .inDigit, ch => orError (isDigit ch) .inDigits
  | .inExpE, ch =>
    if ch = byte '-' ∨ ch = byte '+' then .state .inDigit else orError (isDigit ch) .inDigits
  | .inMantissaDigits, ch =>
    if isDigit ch = true then .state .inMantissaDigits
    else if ch = byte 'e' ∨ ch = byte 'E' then .state .inExpE
    else terminal .float ch
  | .inMantissa, ch => orError (isDigit ch) .inMantissaDigits
  | .inNonzeroNumber, ch =>
    if isDigit ch = true then .state .inNonzeroNumber
    else if ch = byte 'e' ∨ ch = byte 'E' then .state .inExpE
    else if ch = byte '.' then .state .inMantissa
    else terminal .integer ch
  | .inNegNonzeroNumber, ch =>
    if ch = byte '0' then .state .inZero else orError (isDigit ch) .inNonzeroNumber
  | .inKeyword, ch => if isLower ch = true then .state .inKeyword else terminal .keyword ch
  | .inWhitespace, ch => if isSpace ch = true then .state .inWhitespace else terminal .skip ch
  | .inEscapeLL, ch => if ch = byte 'd' then .accept .escape else .state .inError
  | .inEscapeL, ch =>
    if ch = byte 'd' then .accept .escape else orError (decide (ch = byte 'l')) .inEscapeLL
  | .inEscapeI64, ch => if ch = byte 'd' then .accept .escape else .state .inError
  | .inEscapeI6, ch => orError (decide (ch = byte '4')) .inEscapeI64
  | .inEscapeI, ch => orError (decide (ch = byte '6')) .inEscapeI6
  | .inEscape, ch =>
    if ch = byte 'd' ∨ ch = byte 'i' ∨ ch = byte 'p' ∨ ch = byte 's' ∨ ch = byte 'f' then
      .accept .escape
    else if ch = byte 'l' then .state .inEscapeL
    else orError (decide (ch = byte 'I')) .inEscapeI
  | .inStart, ch =>
    if ch = dquote then .state .inDqString
    else if ch = squote then .state .inSqString
    else if ch = byte '0' then .state .inZero
    else if isDigit ch = true then .state .inNonzeroNumber
    else if ch = byte '-' then .state .inNegNonzeroNumber
    else if isOperator ch = true then .accept .operator
    else if isLower ch = true then .state .inKeyword
    else if ch = byte '%' then .state .inEscape
    else orError (isSpace ch) .inWhitespace

/-- `TERMINAL_NEEDED_LOOKAHEAD`. -/
def terminalNeededLookahead (old : LexerState) (next : Next) :
    Bool := decide (jsonLexer old 0 = next)

/-! ## Walking through the table -/

/-- `MAX_TOKEN_SIZE`. -/
def maxTokenSize : ℕ := 64 * 2 ^ 20

/-- A token without its position. -/
structure Lexeme where
  type : TokenType
  token : Text
deriving DecidableEq

/-- The lexer without its position. -/
structure Scanner where
  state : LexerState
  token : Text
deriving DecidableEq

namespace Scanner

def init : Scanner := ⟨.inStart, []⟩

/-- The loop of `json_lexer_feed_char`, and whether an error ended it.  A byte that was only looked
at is read again, at most once. -/
def loop (flush : Bool) (ch : Byte) : ℕ → Scanner → Scanner × List Lexeme × Bool
  | 0, l => (l, [], false)
  | rounds + 1, l =>
    let next := jsonLexer l.state ch
    let consumed := !terminalNeededLookahead l.state next
    let token := if consumed = true then l.token ++ [ch] else l.token
    let again (l' : Scanner) (emitted : List Lexeme) : Scanner × List Lexeme × Bool :=
      if consumed = true ∨ flush = true then (l', emitted, false)
      else
        let r := loop flush ch rounds l'
        (r.1, emitted ++ r.2.1, r.2.2)
    match next with
    | .state .inError => (init, [⟨.error, token⟩], true)
    | .state s => again ⟨s, token⟩ []
    | .accept .skip => again init []
    | .accept type => again init [⟨type, token⟩]

/-- `json_lexer_feed_char`. -/
def feedChar (l : Scanner) (ch : Byte) (flush : Bool) : Scanner × List Lexeme :=
  let r := loop flush ch 2 l
  if r.2.2 = true then (r.1, r.2.1)
  else if maxTokenSize < r.1.token.length then (init, r.2.1 ++ [⟨.unfinished r.1.state, r.1.token⟩])
  else (r.1, r.2.1)

/-- `json_lexer_feed`. -/
def feed (l : Scanner) : Text → Scanner × List Lexeme
  | [] => (l, [])
  | ch :: chs =>
    let r := l.feedChar ch false
    let r' := feed r.1 chs
    (r'.1, r.2 ++ r'.2)

/-- `json_lexer_flush`. -/
def flush (l : Scanner) : Scanner × List Lexeme :=
  if l.state = .inStart then (l, []) else l.feedChar 0 true

/-! ## Single bytes -/

variable {l l' : Scanner} {ch : Byte} {chs : Text} {b : Bool} {n : ℕ} {s : LexerState}
  {type : TokenType}

def emit (type : TokenType) (token : Text) : List Lexeme :=
  if type = .skip then [] else [⟨type, token⟩]

lemma loop_error (h : jsonLexer l.state ch = .state .inError) :
    ∃ token, loop b ch (n + 1) l = (init, [⟨.error, token⟩], true) := by
  simp only [loop, h]
  exact ⟨_, rfl⟩

lemma loop_state (h : jsonLexer l.state ch = .state s) (hs : s ≠ .inError)
    (h0 : jsonLexer l.state 0 ≠ .state s) :
    loop b ch (n + 1) l = (⟨s, l.token ++ [ch]⟩, [], false) := by
  have hlook : terminalNeededLookahead l.state (.state s) = false := decide_eq_false h0
  simp only [loop, h, hlook]
  cases s <;> rfl

lemma loop_accept (h : jsonLexer l.state ch = .accept type)
    (h0 : jsonLexer l.state 0 ≠ .accept type) :
    loop b ch (n + 1) l = (init, emit type (l.token ++ [ch]), false) := by
  have hlook : terminalNeededLookahead l.state (.accept type) = false := decide_eq_false h0
  simp only [loop, h, hlook, emit]
  cases type <;> rfl

/-- The end of a token that is only seen at the next byte. -/
lemma loop_pending (h : jsonLexer l.state ch = .accept type)
    (h0 : jsonLexer l.state 0 = .accept type) :
    loop false ch (n + 1) l = ((loop false ch n init).1,
      emit type l.token ++ (loop false ch n init).2.1,
        (loop false ch n init).2.2) := by
  have hlook : terminalNeededLookahead l.state (.accept type) = true := decide_eq_true h0
  simp only [loop, h, hlook, emit]
  cases type <;> rfl

lemma jsonLexer_zero (s s' : LexerState) (hs : s' ≠ .inError) : jsonLexer s 0 ≠ .state s' := by
  cases s <;> cases s' <;> first | exact absurd rfl hs | decide

lemma jsonLexer_start_zero : jsonLexer .inStart 0 = .state .inError := by decide

lemma loop_init (ch : Byte) (b : Bool) (n : ℕ) : loop b ch (n + 1) init = loop b ch 1 init := by
  have h0 : ∀ type, jsonLexer init.state 0 ≠ .accept type := fun type => by
    rw [init, jsonLexer_start_zero]
    simp
  cases h : jsonLexer init.state ch with
  | state s =>
    by_cases hs : s = .inError
    · subst hs
      simp only [loop, h]
    · rw [loop_state h hs (jsonLexer_zero _ s hs), loop_state h hs (jsonLexer_zero _ s hs)]
  | accept type => rw [loop_accept h (h0 type), loop_accept h (h0 type)]

lemma feedChar_state (h : jsonLexer l.state ch = .state s) (hs : s ≠ .inError)
    (hlen : l.token.length < maxTokenSize) : l.feedChar ch b = (⟨s, l.token ++ [ch]⟩, []) := by
  have hlen' : ¬maxTokenSize < (l.token ++ [ch]).length := by
    rw [List.length_append, List.length_singleton]
    omega
  simp only [feedChar, loop_state h hs (jsonLexer_zero _ s hs), hlen', if_false]
  rfl

lemma feedChar_accept (h : jsonLexer l.state ch = .accept type)
    (h0 : jsonLexer l.state 0 ≠ .accept type) :
    l.feedChar ch b = (init, emit type (l.token ++ [ch])) := by
  simp only [feedChar, loop_accept h h0]
  rfl

/-- A byte that ends a token without belonging to it is read as if the lexer had just started. -/
theorem feedChar_pending (h : jsonLexer l.state ch = .accept type)
    (h0 : jsonLexer l.state 0 = .accept type) :
    l.feedChar ch false =
      ((init.feedChar ch false).1, emit type l.token ++ (init.feedChar ch false).2) := by
  simp only [feedChar, loop_pending h h0, loop_init ch false 1]
  split_ifs with h1 h2
  · rfl
  · rw [List.append_assoc]
  · rfl

lemma flush_pending (h0 : jsonLexer l.state 0 = .accept type) :
    l.flush = (init, emit type l.token) := by
  have hstate : l.state ≠ .inStart := by
    intro hs
    rw [hs, jsonLexer_start_zero] at h0
    cases h0
  have hlook : terminalNeededLookahead l.state (.accept type) = true := decide_eq_true h0
  have hloop : loop true 0 2 l = (init, emit type l.token, false) := by
    simp only [loop, h0, hlook, emit]
    cases type <;> rfl
  simp only [flush, hstate, if_false, feedChar, hloop]
  rfl

lemma jsonLexer_invalid (s : LexerState) : jsonLexer s 0xFF = .state .inError := by
  cases s <;> decide

/-- The byte `0xFF` is an error in every state, and the lexer starts again. -/
theorem feedChar_invalid (l : Scanner) (b : Bool) :
    ∃ token, l.feedChar 0xFF b = (init, [⟨.error, token⟩]) := by
  obtain ⟨token, h⟩ := loop_error (b := b) (n := 1) (jsonLexer_invalid l.state)
  refine ⟨token, ?_⟩
  simp only [feedChar, h, if_true]

/-- No row leads back to the start without a token. -/
lemma jsonLexer_ne_start (s : LexerState) (ch : Byte) : jsonLexer s ch ≠ .state .inStart := by
  cases s with
  | inError => exact fun h => absurd (Next.state.inj h) (by decide)
  | _ =>
    simp only [jsonLexer, stringRow, escapeRow, orError, terminal]
    repeat' split
    all_goals decide

/-- White space ends at the next byte only. -/
lemma jsonLexer_skip {s : LexerState} (h : jsonLexer s ch = .accept .skip) :
    jsonLexer s 0 = .accept .skip := by
  cases s with
  | inWhitespace => decide
  | inError => exact Next.noConfusion h
  | _ =>
    refine absurd h ?_
    simp only [jsonLexer, stringRow, escapeRow, orError, terminal]
    repeat' split
    all_goals decide

lemma feedChar_ne_nil_of_ready
    (hready : ∀ type, jsonLexer l.state ch = .accept type → jsonLexer l.state 0 ≠ .accept type)
    (h : (l.feedChar ch false).1 = init) : (l.feedChar ch false).2 ≠ [] := by
  cases hnext : jsonLexer l.state ch with
  | state s =>
    by_cases hs : s = .inError
    · obtain ⟨token, hloop⟩ := loop_error (b := false) (n := 1) (hs ▸ hnext)
      simp [feedChar, hloop]
    have hloop := loop_state (b := false) (n := 1) hnext hs (jsonLexer_zero _ s hs)
    by_cases hlen : maxTokenSize < (l.token ++ [ch]).length
    · rw [feedChar, hloop, if_neg (by simp), if_pos hlen]
      simp
    · rw [feedChar, hloop, if_neg (by simp), if_neg hlen] at h
      have hstart : s = .inStart := congrArg Scanner.state h
      exact absurd (hstart ▸ hnext) (jsonLexer_ne_start _ _)
  | accept type =>
    rw [feedChar_accept hnext (hready type hnext), emit, if_neg]
    · simp
    · rintro rfl
      exact hready _ hnext (jsonLexer_skip hnext)

lemma feedChar_ne_nil (h : (l.feedChar ch false).1 = init) : (l.feedChar ch false).2 ≠ [] := by
  by_cases hready : ∀ type, jsonLexer l.state ch = .accept type → jsonLexer l.state 0 ≠ .accept type
  · exact feedChar_ne_nil_of_ready hready h
  push Not at hready
  obtain ⟨type, hnext, h0⟩ := hready
  rw [feedChar_pending hnext h0] at h ⊢
  have hinit := feedChar_ne_nil_of_ready (fun type _ => by
    rw [show init.state = .inStart from rfl, jsonLexer_start_zero]
    simp) h
  simp [hinit]

/-! ## Byte strings -/

lemma feed_append (l : Scanner) (as bs : Text) : l.feed (as ++ bs) =
      (((l.feed as).1.feed bs).1, (l.feed as).2 ++ ((l.feed as).1.feed bs).2) := by
  induction as generalizing l with
  | nil => simp [feed]
  | cons ch as ih => simp only [List.cons_append, feed, ih, List.append_assoc]

lemma feed_singleton_ne_nil (h : (l.feed [ch]).1 = init) : (l.feed [ch]).2 ≠ [] := by
  have hne : (l.feedChar ch false).2 ≠ [] := feedChar_ne_nil h
  simpa [feed] using hne

end Scanner

end Qemu.Json
