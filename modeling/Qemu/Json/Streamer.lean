import Qemu.Json.Lexer

/-!
# Splitting a byte stream into messages

`json-streamer.c`: tokens are collected until the braces and brackets are closed, or a limit is
exceeded, and then handed on as one list.  The counters only depend on the tokens without their
positions, so `Streamer` works for both kinds of tokens.

A client does not know what its predecessor has left in the parser.  It sends the byte `0xFF`
first, which no text contains, and has to be sure that the parser then starts afresh.

**Main results:**
- `MessageParser.feed_shift`: the position of the lexer only shows in the positions of the tokens
- `Streamer.processAll_nest`: closed braces and brackets leave the counters as they were
- `resync_emits`: after the byte `0xFF` the parser does on any text what a new one does, up to the
  positions of the tokens, and a message is emitted as one list
-/

namespace Qemu.Json

open List

/-! ## Positions -/

/-- A token as it is handed to the parser. -/
structure Token where
  lexeme : Lexeme
  x : ℕ
  y : ℕ
deriving DecidableEq

/-- `JSONLexer`. -/
structure Lexer where
  scanner : Scanner
  x : ℕ
  y : ℕ

namespace Lexer

/-- `json_lexer_init`. -/
def init : Lexer := ⟨Scanner.init, 0, 0⟩

/-- `json_lexer_feed_char`: all tokens of one byte get the same position. -/
def feedChar (l : Lexer) (ch : Byte) (flush : Bool) : Lexer × List Token :=
  let x := if ch = byte '\n' then 0 else l.x + 1
  let y := if ch = byte '\n' then l.y + 1 else l.y
  let r := l.scanner.feedChar ch flush
  (⟨r.1, x, y⟩, r.2.map fun lexeme => ⟨lexeme, x, y⟩)

end Lexer

/-! ## The streamer -/

/-- `MAX_NESTING`. -/
def maxNesting : ℤ := 1024

/-- What a token adds to `brace_count`. -/
def Lexeme.brace (t : Lexeme) : ℤ :=
  if t.type = .operator ∧ t.token.head? = some lbrace then 1
  else if t.type = .operator ∧ t.token.head? = some rbrace then -1
  else 0

/-- What a token adds to `bracket_count`. -/
def Lexeme.bracket (t : Lexeme) : ℤ :=
  if t.type = .operator ∧ t.token.head? = some lbracket then 1
  else if t.type = .operator ∧ t.token.head? = some rbracket then -1
  else 0

/-- The fields of `JSONMessageParser` besides the lexer. -/
structure Streamer (τ : Type) where
  braceCount : ℤ
  bracketCount : ℤ
  tokens : List τ
  tokenSize : ℕ

namespace Streamer

variable {τ τ' : Type} (lexeme : τ → Lexeme)

def init : Streamer τ := ⟨0, 0, [], 0⟩

/-- The token is counted, and added to the list. -/
def push (p : Streamer τ) (t : τ) : Streamer τ where
  braceCount := p.braceCount + (lexeme t).brace
  bracketCount := p.bracketCount + (lexeme t).bracket
  tokens := p.tokens ++ [t]
  tokenSize := p.tokenSize + (lexeme t).token.length

/-- The braces and brackets are closed, or more of them were closed than opened. -/
def Closed (p : Streamer τ) : Prop :=
  p.braceCount < 0 ∨ p.bracketCount < 0 ∨ p.braceCount = 0 ∧ p.bracketCount = 0

def Excessive (p : Streamer τ) : Prop :=
  maxTokenSize < p.tokenSize ∨ maxNesting < p.bracketCount ∨ maxNesting < p.braceCount

instance (p : Streamer τ) : Decidable p.Closed := inferInstanceAs (Decidable (_ ∨ _ ∨ _))

instance (p : Streamer τ) : Decidable p.Excessive := inferInstanceAs (Decidable (_ ∨ _ ∨ _))

/-- `json_message_process_token`, with the list that it emits: `some none` is the `NULL` for an
error. -/
def processToken (p : Streamer τ) (t : τ) : Streamer τ × Option (Option (List τ)) :=
  if (lexeme t).type = .error then (init, some none)
  else if (p.push lexeme t).Closed ∨ (p.push lexeme t).Excessive then
    (init, some (some (p.push lexeme t).tokens))
  else (p.push lexeme t, none)

def processAll (p : Streamer τ) : List τ → Streamer τ × List (Option (List τ))
  | [] => (p, [])
  | t :: ts =>
    let r := p.processToken lexeme t
    let r' := processAll r.1 ts
    (r'.1, r.2.toList ++ r'.2)

end Streamer

/-- `JSONMessageParser`. -/
structure MessageParser where
  lexer : Lexer
  streamer : Streamer Token

namespace MessageParser

/-- `json_message_parser_init`. -/
def init : MessageParser := ⟨Lexer.init, Streamer.init⟩

def feedChar (p : MessageParser) (ch : Byte) (flush : Bool) :
    MessageParser × List (Option (List Token)) :=
  let r := p.lexer.feedChar ch flush
  let r' := p.streamer.processAll Token.lexeme r.2
  (⟨r.1, r'.1⟩, r'.2)

/-- `json_message_parser_feed`, with the lists that are emitted. -/
def feed (p : MessageParser) : Text → MessageParser × List (Option (List Token))
  | [] => (p, [])
  | ch :: chs =>
    let r := p.feedChar ch false
    let r' := feed r.1 chs
    (r'.1, r.2 ++ r'.2)

/-- `json_message_parser_flush`. -/
def flush (p : MessageParser) : MessageParser × List (Option (List Token)) :=
  if p.lexer.scanner.state = .inStart then (p, []) else p.feedChar 0 true

end MessageParser

/-! ## What is emitted -/

namespace Streamer

variable {τ τ' : Type} {lexeme : τ → Lexeme} {lexeme' : τ' → Lexeme}

def map (f : τ → τ') (p : Streamer τ) : Streamer τ' :=
  ⟨p.braceCount, p.bracketCount, p.tokens.map f, p.tokenSize⟩

lemma processToken_map (f : τ → τ') (hf : ∀ t, lexeme' (f t) = lexeme t) (p : Streamer τ) (t : τ) :
    (p.map f).processToken lexeme' (f t) =
      ((p.processToken lexeme t).1.map f,
        (p.processToken lexeme t).2.map (Option.map (List.map f))) := by
  have hpush : (p.map f).push lexeme' (f t) = (p.push lexeme t).map f := by
    simp [push, map, hf]
  simp only [processToken, hf, hpush]
  by_cases herr : (lexeme t).type = .error
  · rw [if_pos herr, if_pos herr]
    rfl
  have hdone : ((p.push lexeme t).map f).Closed ∨ ((p.push lexeme t).map f).Excessive ↔
      (p.push lexeme t).Closed ∨ (p.push lexeme t).Excessive := Iff.rfl
  rw [if_neg herr, if_neg herr]
  by_cases h : (p.push lexeme t).Closed ∨ (p.push lexeme t).Excessive
  · rw [if_pos h, if_pos (hdone.mpr h)]
    rfl
  · rw [if_neg h, if_neg fun h' => h (hdone.mp h')]
    rfl

lemma processAll_map (f : τ → τ') (hf : ∀ t, lexeme' (f t) = lexeme t)
    (p : Streamer τ) (ts : List τ) :
    (p.map f).processAll lexeme' (ts.map f) = ((p.processAll lexeme ts).1.map f,
        (p.processAll lexeme ts).2.map (Option.map (List.map f))) := by
  induction ts generalizing p with
  | nil => simp [processAll]
  | cons t ts ih =>
    simp only [map_cons, processAll, processToken_map f hf, ih, map_append]
    cases (p.processToken lexeme t).2 <;> rfl

lemma eq_init_of_map {p : Streamer τ} {f : τ → τ'} (h : p.map f = init) : p = init := by
  obtain ⟨b, k, ts, n⟩ := p
  simp only [map, init, mk.injEq, map_eq_nil_iff] at h ⊢
  exact h

lemma processAll_append (p : Streamer τ) (ts ts' : List τ) : p.processAll lexeme (ts ++ ts') =
      (((p.processAll lexeme ts).1.processAll lexeme ts').1,
        (p.processAll lexeme ts).2 ++ ((p.processAll lexeme ts).1.processAll lexeme ts').2) := by
  induction ts generalizing p with
  | nil => simp [processAll]
  | cons t ts ih => simp only [cons_append, processAll, ih, append_assoc]

/-! ## Nesting -/

def sizeOf (ts : List Lexeme) : ℕ := (ts.map fun t => t.token.length).sum

@[simp] lemma sizeOf_nil : sizeOf [] = 0 := rfl

@[simp] lemma sizeOf_cons (t : Lexeme) (ts : List Lexeme) :
    sizeOf (t :: ts) = t.token.length + sizeOf ts := rfl

@[simp] lemma sizeOf_append (ts ts' : List Lexeme) :
    sizeOf (ts ++ ts') = sizeOf ts + sizeOf ts' := by
  simp [sizeOf]

end Streamer

def op (ch : Byte) : Lexeme := ⟨.operator, [ch]⟩

@[simp] lemma brace_lbrace : (op lbrace).brace = 1 := by decide

@[simp] lemma bracket_lbrace : (op lbrace).bracket = 0 := by decide

@[simp] lemma brace_lbracket : (op lbracket).brace = 0 := by decide

@[simp] lemma bracket_lbracket : (op lbracket).bracket = 1 := by decide

lemma group_append (o c : Lexeme) (ts ts' : List Lexeme) :
    o :: ts ++ [c] ++ ts' = o :: ts ++ c :: ts' := by
  simp

/-- The braces and brackets are closed in order, with at most `b` braces and `k` brackets open at a
time. -/
inductive Nest : ℕ → ℕ → List Lexeme → Prop
  | nil {b k : ℕ} : Nest b k []
  | token {b k : ℕ} {t : Lexeme} {ts : List Lexeme} (hbrace : t.brace = 0)
      (hbracket : t.bracket = 0)
      (herr : t.type ≠ .error) (h : Nest b k ts) : Nest b k (t :: ts)
  | braces {b k : ℕ} {ts ts' : List Lexeme} (h : Nest b k ts) (h' : Nest (b + 1) k ts') :
      Nest (b + 1) k (op lbrace :: ts ++ op rbrace :: ts')
  | brackets {b k : ℕ} {ts ts' : List Lexeme} (h : Nest b k ts) (h' : Nest b (k + 1) ts') :
      Nest b (k + 1) (op lbracket :: ts ++ op rbracket :: ts')

namespace Streamer

variable {b k : ℕ} {p : Streamer Lexeme} {t : Lexeme} {ts : List Lexeme}

/-- Something is open, and there is room for `b` braces, `k` brackets and `n` bytes. -/
structure Open (p : Streamer Lexeme) (b k n : ℕ) : Prop where
  brace_nonneg : 0 ≤ p.braceCount
  bracket_nonneg : 0 ≤ p.bracketCount
  pos : 0 < p.braceCount + p.bracketCount
  brace_le : p.braceCount + b ≤ maxNesting
  bracket_le : p.bracketCount + k ≤ maxNesting
  size_le : p.tokenSize + n ≤ maxTokenSize

/-- The streamer after tokens that close what they open. -/
def extend (p : Streamer Lexeme) (ts : List Lexeme) : Streamer Lexeme :=
  { p with tokens := p.tokens ++ ts, tokenSize := p.tokenSize + sizeOf ts }

lemma extend_extend (p : Streamer Lexeme) (ts ts' : List Lexeme) :
    (p.extend ts).extend ts' = p.extend (ts ++ ts') := by
  simp [extend, Nat.add_assoc]

lemma Open.extend {n : ℕ} (h : p.Open b k (sizeOf ts + n)) : (p.extend ts).Open b k n where
  __ := h
  size_le := by
    have := h.size_le
    simp only [Streamer.extend]
    omega

lemma Open.push (b' k' : ℕ) {n : ℕ} (hbrace : t.brace = b') (hbracket : t.bracket = k')
    (h : p.Open (b + b') (k + k') (t.token.length + n)) : (p.push id t).Open b k n := by
  obtain ⟨h1, h2, h3, h4, h5, h6⟩ := h
  refine ⟨?_, ?_, ?_, ?_, ?_, ?_⟩ <;> simp only [Streamer.push, id_eq, hbrace, hbracket] <;>
    push_cast at * <;> omega

lemma Open.mono {n n' : ℕ} (h : p.Open b k n) (hn : n' ≤ n) : p.Open b k n' where
  __ := h
  size_le := by
    have := h.size_le
    omega

lemma processToken_of_open (herr : t.type ≠ .error) (h : (p.push id t).Open b k 0) :
    p.processToken id t = (p.push id t, none) := by
  have h1 := h.brace_nonneg
  have h2 := h.bracket_nonneg
  have h3 := h.pos
  have h4 := h.brace_le
  have h5 := h.bracket_le
  have h6 := h.size_le
  have hnot : ¬((p.push id t).Closed ∨ (p.push id t).Excessive) := by
    unfold Closed Excessive
    omega
  rw [processToken, if_neg hnot]
  exact if_neg herr

lemma processAll_group {o c : Lexeme} {ts' : List Lexeme} {b' k' : ℕ} (ho : o.type ≠ .error)
    (hc : c.type ≠ .error) (hbrace : c.brace = -o.brace) (hbracket : c.bracket = -o.bracket)
    (hopen : (p.push id o).Open b' k' (sizeOf ts))
    (hts : (p.push id o).processAll id ts = ((p.push id o).extend ts, []))
    (hclose : (p.extend (o :: ts ++ [c])).Open b k (sizeOf ts')) :
    p.processAll id (o :: ts ++ c :: ts') = (p.extend (o :: ts ++ [c])).processAll id ts' := by
  have hpush : ((p.push id o).extend ts).push id c = p.extend (o :: ts ++ [c]) := by
    simp [push, extend, hbrace, hbracket, Nat.add_assoc]
  have hfirst : p.processToken id o = (p.push id o, none) :=
    processToken_of_open ho (hopen.mono (Nat.zero_le _))
  have hlast : ((p.push id o).extend ts).processToken id c = (p.extend (o :: ts ++ [c]), none) := by
    rw [← hpush]
    refine processToken_of_open (b := b) (k := k) hc ?_
    rw [hpush]
    exact hclose.mono (Nat.zero_le _)
  rw [cons_append, processAll, hfirst]
  simp only [processAll_append, hts, processAll, hlast, Option.toList_none, nil_append]

/-- Tokens that close what they open are collected, and nothing is emitted. -/
theorem processAll_nest (hnest : Nest b k ts) (h : p.Open b k (sizeOf ts)) :
    p.processAll id ts = (p.extend ts, []) := by
  induction hnest generalizing p with
  | nil => simp [processAll, extend]
  | @token b k t ts hbrace hbracket herr hnest ih =>
    have hpush : p.push id t = p.extend [t] := by
      simp [push, extend, hbrace, hbracket]
    have hopen : (p.extend [t]).Open b k (sizeOf ts) := Open.extend (by simpa using h)
    have hstep : p.processToken id t = (p.extend [t], none) := by
      rw [← hpush]
      refine processToken_of_open (b := b) (k := k) herr ?_
      rw [hpush]
      exact hopen.mono (Nat.zero_le _)
    simp only [processAll, hstep, ih hopen, extend_extend]
    rfl
  | @braces b k ts ts' hnest hnest' ih ih' =>
    rw [← group_append, sizeOf_append] at h
    have hopen : (p.push id (op lbrace)).Open b k (sizeOf ts) :=
      Open.push 1 0 brace_lbrace bracket_lbrace (h.mono (by simp; omega))
    rw [processAll_group (by simp [op]) (by simp [op]) (by decide) (by decide) hopen (ih hopen)
      h.extend, ih' h.extend, extend_extend, group_append]
  | @brackets b k ts ts' hnest hnest' ih ih' =>
    rw [← group_append, sizeOf_append] at h
    have hopen : (p.push id (op lbracket)).Open b k (sizeOf ts) :=
      Open.push 0 1 brace_lbracket bracket_lbracket (h.mono (by simp; omega))
    rw [processAll_group (by simp [op]) (by simp [op]) (by decide) (by decide) hopen (ih hopen)
      h.extend, ih' h.extend, extend_extend, group_append]

/-! ## Whole messages -/

/-- An object or an array within the limits, as far as the streamer sees it. -/
inductive IsMessage : List Lexeme → Prop
  | object {ts : List Lexeme} (h : Nest 1023 1024 ts)
      (hsize : sizeOf (op lbrace :: ts ++ [op rbrace]) ≤ maxTokenSize) :
      IsMessage (op lbrace :: ts ++ [op rbrace])
  | array {ts : List Lexeme} (h : Nest 1024 1023 ts)
      (hsize : sizeOf (op lbracket :: ts ++ [op rbracket]) ≤ maxTokenSize) :
      IsMessage (op lbracket :: ts ++ [op rbracket])

lemma processAll_init_group {o c : Lexeme} (ho : o.type ≠ .error) (hc : c.type ≠ .error)
    (hbrace : c.brace = -o.brace) (hbracket : c.bracket = -o.bracket) (hnest : Nest b k ts)
    (hopen : (init.push id o).Open b k (sizeOf ts)) :
    (init.processAll id (o :: ts)).2 = [] ∧
      init.processAll id (o :: ts ++ [c]) = (init, [some (o :: ts ++ [c])]) := by
  have hfirst : init.processToken id o = (init.push id o, none) :=
    processToken_of_open ho (hopen.mono (Nat.zero_le _))
  have hts : init.processAll id (o :: ts) = ((init.push id o).extend ts, []) := by
    rw [processAll, hfirst]
    simp only [processAll_nest hnest hopen, Option.toList_none, nil_append]
  refine ⟨by rw [hts], ?_⟩
  have hclosed : (((init.push id o).extend ts).push id c).Closed := by
    refine .inr (.inr ⟨?_, ?_⟩)
    · simp [push, extend, hbrace, init]
    · simp [push, extend, hbracket, init]
  have hlast : ((init.push id o).extend ts).processToken id c =
      (init, some (some (o :: ts ++ [c]))) := by
    rw [processToken, if_neg (show (id c).type ≠ .error from hc), if_pos (.inl hclosed)]
    rfl
  rw [processAll_append, hts]
  simp only [processAll, hlast]
  rfl

/-- A message is emitted with its last token. -/
theorem processAll_message (h : IsMessage ts) :
    (init.processAll id ts.dropLast).2 = [] ∧ init.processAll id ts = (init, [some ts]) := by
  cases h with
  | @object ts h hsize | @array ts h hsize =>
    rw [dropLast_concat]
    refine processAll_init_group (by simp [op]) (by simp [op]) (by decide) (by decide) h ?_
    simp only [cons_append, sizeOf_cons, sizeOf_append] at hsize
    exact ⟨by decide, by decide, by decide, by decide, by decide, by simp [push, init]; omega⟩

end Streamer

/-! ## Positions only show in tokens -/

variable (dx dy : ℕ)

/-- The token, if the text before it had `dy` lines and `dx` more bytes. -/
def Token.shift (t : Token) : Token := ⟨t.lexeme, if t.y = 0 then t.x + dx else t.x, t.y + dy⟩

def Lexer.shift (l : Lexer) : Lexer := ⟨l.scanner, if l.y = 0 then l.x + dx else l.x, l.y + dy⟩

def MessageParser.shift (p : MessageParser) : MessageParser :=
  ⟨p.lexer.shift dx dy, p.streamer.map (Token.shift dx dy)⟩

/-- The lists that were emitted, with other positions. -/
def shiftAll (out : List (Option (List Token))) : List (Option (List Token)) :=
  out.map (Option.map (List.map (Token.shift dx dy)))

lemma Lexer.feedChar_shift (l : Lexer) (ch : Byte) (b : Bool) : (l.shift dx dy).feedChar ch b =
      ((l.feedChar ch b).1.shift dx dy, (l.feedChar ch b).2.map (Token.shift dx dy)) := by
  by_cases hch : ch = byte '\n'
  · simp [feedChar, shift, Token.shift, hch, Nat.add_right_comm]
  · by_cases hy : l.y = 0
    · simp [feedChar, shift, Token.shift, hch, hy, Nat.add_right_comm]
    · simp [feedChar, shift, Token.shift, hch, hy]

lemma MessageParser.feedChar_shift (p : MessageParser) (ch : Byte) (b : Bool) :
    (p.shift dx dy).feedChar ch b =
      ((p.feedChar ch b).1.shift dx dy, shiftAll dx dy (p.feedChar ch b).2) := by
  simp only [feedChar, shift, Lexer.feedChar_shift]
  rw [Streamer.processAll_map (Token.shift dx dy) fun t => rfl]
  rfl

/-- The position of the lexer only shows in the positions of the tokens. -/
theorem MessageParser.feed_shift (p : MessageParser) (chs : Text) :
    (p.shift dx dy).feed chs = ((p.feed chs).1.shift dx dy, shiftAll dx dy (p.feed chs).2) := by
  induction chs generalizing p with
  | nil => rfl
  | cons ch chs ih =>
    simp only [feed, feedChar_shift, ih]
    simp [shiftAll]

/-! ## Starting again -/

namespace MessageParser

variable (p : MessageParser)

lemma feed_invalid : (p.feed [0xFF]).1 = init.shift (p.lexer.x + 1) p.lexer.y := by
  obtain ⟨token, h⟩ := Scanner.feedChar_invalid p.lexer.scanner false
  simp only [feed, feedChar, Lexer.feedChar, h, map_cons, map_nil, Streamer.processAll,
    Streamer.processToken, if_true]
  simp [init, shift, Lexer.shift, Lexer.init, Streamer.map, Streamer.init, byte]

variable (chs : Text)

lemma feed_eq : ∃ ts : List Token, ts.map Token.lexeme = (p.lexer.scanner.feed chs).2 ∧
      (p.feed chs).1.lexer.scanner = (p.lexer.scanner.feed chs).1 ∧
      (p.feed chs).1.streamer = (p.streamer.processAll Token.lexeme ts).1 ∧
      (p.feed chs).2 = (p.streamer.processAll Token.lexeme ts).2 := by
  induction chs generalizing p with
  | nil => exact ⟨[], rfl, rfl, rfl, rfl⟩
  | cons ch chs ih =>
    obtain ⟨ts, h1, h2, h3, h4⟩ := ih (p.feedChar ch false).1
    refine ⟨(p.lexer.feedChar ch false).2 ++ ts, ?_, h2, ?_, ?_⟩
    · rw [map_append, h1]
      simp [Scanner.feed, Lexer.feedChar, feedChar, Function.comp_def]
    · rw [Streamer.processAll_append]
      exact h3
    · rw [Streamer.processAll_append]
      show (p.feedChar ch false).2 ++ _ = _
      rw [h4]
      rfl

lemma feed_lexemes : (Streamer.init : Streamer Lexeme).processAll id (Scanner.init.feed chs).2 =
      ((init.feed chs).1.streamer.map Token.lexeme,
        (init.feed chs).2.map (Option.map (List.map Token.lexeme))) := by
  obtain ⟨ts, hts, -, hstreamer, hout⟩ := init.feed_eq chs
  rw [hstreamer, hout, show Scanner.init = init.lexer.scanner from rfl, ← hts]
  exact Streamer.processAll_map Token.lexeme (fun _ => rfl) Streamer.init ts

lemma feed_scanner : (p.feed chs).1.lexer.scanner = (p.lexer.scanner.feed chs).1 := by
  obtain ⟨-, -, h, -, -⟩ := p.feed_eq chs
  exact h

end MessageParser

/-- The text of an object or an array: the lexer has found the tokens of a message at its end. -/
def IsMessageText (chs : Text) : Prop :=
  ∃ ts, Scanner.init.feed chs = (Scanner.init, ts) ∧ Streamer.IsMessage ts

namespace MessageParser

variable {chs : Text}

lemma feed_message_last (h : IsMessageText chs) :
    (∃ ts, (init.feed chs).2 = [some ts]) ∧ (init.feed chs).1.streamer = Streamer.init := by
  obtain ⟨ts, hfeed, hmsg⟩ := h
  have hall := feed_lexemes chs
  rw [hfeed, (Streamer.processAll_message hmsg).2, Prod.mk.injEq] at hall
  obtain ⟨hstreamer, hout⟩ := hall
  refine ⟨?_, Streamer.eq_init_of_map hstreamer.symm⟩
  obtain ⟨out, hone, hsome⟩ := map_eq_singleton_iff.1 hout.symm
  obtain ⟨toks, rfl, -⟩ := Option.map_eq_some_iff.1 hsome
  exact ⟨toks, hone⟩

lemma feed_message_dropLast (h : IsMessageText chs) : (init.feed chs.dropLast).2 = [] := by
  obtain ⟨ts, hfeed, hmsg⟩ := h
  rcases eq_nil_or_concat' chs with rfl | ⟨chs, ch, rfl⟩
  · rfl
  rw [dropLast_concat]
  rw [Scanner.feed_append, Prod.mk.injEq] at hfeed
  obtain ⟨hlast, rfl⟩ := hfeed
  -- the last byte ends a token, so the bytes before it give a part of the tokens before the last
  obtain ⟨t, ts', hts'⟩ := exists_cons_of_ne_nil (Scanner.feed_singleton_ne_nil hlast)
  have hsplit := (Streamer.processAll_message hmsg).1
  rw [dropLast_append_of_ne_nil (by rw [hts']; simp), Streamer.processAll_append] at hsplit
  have hall := feed_lexemes chs
  rw [Prod.ext_iff] at hall
  have hnil := hall.2.symm.trans (append_eq_nil_iff.1 hsplit).1
  exact map_eq_nil_iff.1 hnil

end MessageParser

/-! ## Main theorem -/

/-- **After the byte `0xFF` the parser is a new one.** On any text it emits what a new parser emits,
and ends as that does, but for the positions of the tokens.  A message is emitted as one list at its
last byte, and the parser is then as good as new. -/
theorem resync_emits (p : MessageParser) (before chs : Text) :
    let q := (p.feed before).1
    let r := (q.feed [0xFF]).1
    let dx := q.lexer.x + 1
    let dy := q.lexer.y
    (r.feed chs).2 = shiftAll dx dy (MessageParser.init.feed chs).2 ∧
      (r.feed chs).1 = (MessageParser.init.feed chs).1.shift dx dy ∧
      (IsMessageText chs → (∃ ts, (MessageParser.init.feed chs).2 = [some ts] ∧
          (r.feed chs).2 = [some (ts.map (Token.shift dx dy))]) ∧
        (r.feed chs.dropLast).2 = [] ∧
        (r.feed chs).1.streamer = Streamer.init ∧
        (r.feed chs).1.lexer.scanner = Scanner.init) := by
  intro q r dx dy
  have hr : r = MessageParser.init.shift dx dy := q.feed_invalid
  have hfeed := MessageParser.feed_shift dx dy MessageParser.init
  rw [hr]
  refine ⟨by rw [hfeed], by rw [hfeed], fun h => ?_⟩
  obtain ⟨⟨ts, hts⟩, hstreamer⟩ := MessageParser.feed_message_last h
  refine ⟨⟨ts, hts, by rw [hfeed, hts]; rfl⟩, ?_, ?_, ?_⟩
  · rw [hfeed, MessageParser.feed_message_dropLast h]
    rfl
  · rw [hfeed, MessageParser.shift, hstreamer]
    rfl
  · rw [hfeed, MessageParser.shift, Lexer.shift, MessageParser.feed_scanner]
    obtain ⟨ts, hscan, -⟩ := h
    exact congrArg Prod.fst hscan

/-- An array after the beginning of an object. -/
theorem resync_array :
    (((MessageParser.init.feed (text "\x7b\"a")).1.feed [0xFF]).1.feed (text "[1]")).1.streamer =
      Streamer.init := by
  refine ((resync_emits MessageParser.init (text "\x7b\"a") (text "[1]")).2.2 ?_).2.2.1
  refine ⟨[op lbracket, ⟨.integer, text "1"⟩, op rbracket], by decide +kernel, ?_⟩
  exact .array (.token (by decide) (by decide) (by decide) .nil) (by decide)

/-- The lists of a new parser and of one that has just seen `0xFF` differ in their positions. -/
theorem resync_position : ((MessageParser.init.feed [0xFF]).1.feed (text "[]")).2 ≠
      (MessageParser.init.feed (text "[]")).2 := by
  decide +kernel

end Qemu.Json
