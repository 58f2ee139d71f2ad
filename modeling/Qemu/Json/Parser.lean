import Qemu.Json.QObject
import Qemu.Json.Streamer

/-!
# The JSON parser

`json-parser.c`: a recursive descent over the list of tokens of one message.  Taking a token when
none is left is a failed assertion, which `Stop.assertion` stands for; the recursion has fuel, and
running out of it is another way to stop.

The monitor runs the parser on whatever a client sends, so the question is which texts can make it
fail an assertion, and with it end the guest.

**Main results:**
- `parseValue_outcome`: with more fuel than tokens, parsing fails an assertion only at the end of a
  list that leaves something open, and a value that is found closes what it opens
- `parse_of_closed`: a list that closes what it opens, or closes more, is parsed to an object or
  `NULL`
- `stream_parses`: this is every list of a stream in which no limit is exceeded
-/

namespace Qemu.Json

open List

/-! ## The context -/

/-- Why parsing stops without a result. -/
inductive Stop
  | assertion
  | outOfFuel
deriving DecidableEq

/-- A `va_list`: what `va_arg` gives for each of the types that the parser asks for. -/
structure VaList (φ : Type) where
  State : Type
  object : State → Option (QObject φ) × State
  int : State → BitVec 32 × State
  long : State → BitVec 64 × State
  longLong : State → BitVec 64 × State
  string : State → Text × State
  double : State → φ × State

variable {φ : Type}

/-- `JSONParserContext`: the tokens from the position on, and the arguments, if there are any. -/
structure Context (V : VaList φ) where
  tokens : List Lexeme
  err : Option Text
  ap : Option V.State

variable {V : VaList φ}

/-- A parsing rule; `none` is `NULL`. -/
abbrev Rule (V : VaList φ) (α : Type) := Context V → Except Stop (Option α × Context V)

namespace Context

/-- `parser_context_peek_token`. -/
def peekToken (c : Context V) : Except Stop Lexeme :=
  match c.tokens with
  | [] => .error .assertion
  | t :: _ => .ok t

/-- `parser_context_pop_token`. -/
def popToken (c : Context V) : Except Stop (Lexeme × Context V) :=
  match c.tokens with
  | [] => .error .assertion
  | t :: ts => .ok (t, { c with tokens := ts })

/-- `parser_context_restore`. -/
def restore (c saved : Context V) : Context V := { c with tokens := saved.tokens }

/-- `parse_error`; the buffer for the message has 1024 bytes. -/
def parseError (c : Context V) (msg : Text) : Context V := { c with err := some (msg.take 1023) }

end Context

/-- `token_is_operator`. -/
def tokenIsOperator (t : Lexeme) (ch : Byte) : Bool := decide (t = op ch)

/-- `token_is_keyword`. -/
def tokenIsKeyword (t : Lexeme) (value : Text) : Bool := decide (t = ⟨.keyword, value⟩)

/-- `token_is_escape`. -/
def tokenIsEscape (t : Lexeme) (value : Text) : Bool := decide (t = ⟨.escape, value⟩)

/-! ## Strings and numbers -/

/-- `wchar_to_utf8`, up to the first NUL. -/
def wcharToUtf8 (w : BitVec 16) : Text :=
  if w = 0 then []
  else if w ≤ 0x007F then [w.setWidth 8 &&& 0x7F]
  else if w ≤ 0x07FF then [0xC0 ||| ((w >>> 6).setWidth 8 &&& 0x1F),
    0x80 ||| (w.setWidth 8 &&& 0x3F)]
  else
    [0xE0 ||| ((w >>> 12).setWidth 8 &&& 0x0F), 0x80 ||| ((w >>> 6).setWidth 8 &&& 0x3F),
      0x80 ||| (w.setWidth 8 &&& 0x3F)]

/-- `hex2decimal`, for a hexadecimal digit. -/
def hex2decimal (ch : Byte) : BitVec 16 :=
  if isDigit ch = true then (ch - byte '0').setWidth 16
  else if byte 'a' ≤ ch ∧ ch ≤ byte 'f' then 10 + (ch - byte 'a').setWidth 16
  else 10 + (ch - byte 'A').setWidth 16

/-- The byte that a letter after a backslash stands for. -/
def simpleEscape (ch : Byte) : Option Byte :=
  if ch = dquote ∨ ch = squote ∨ ch = backslash ∨ ch = byte '/' then some ch
  else if ch = byte 'b' then some 0x08
  else if ch = byte 'f' then some 0x0C
  else if ch = byte 'n' then some 0x0A
  else if ch = byte 'r' then some 0x0D
  else if ch = byte 't' then some 0x09
  else none

/-- The loop of `qstring_from_escaped_str`, from behind the opening quote on. -/
def unescape (quote : Byte) : Text → Except Text Text
  | [] => .ok []
  | ch :: chs =>
    if ch = quote then .ok []
    else if ch = backslash then
      match chs with
      | [] => .error (text "invalid escape sequence in string")
      | e :: chs =>
        if e = byte 'u' then
          match chs with
          | h0 :: h1 :: h2 :: h3 :: chs =>
            if isXdigit h0 = true ∧ isXdigit h1 = true ∧ isXdigit h2 = true ∧
              isXdigit h3 = true then do
              let s ← unescape quote chs
              .ok (wcharToUtf8 ((hex2decimal h0 <<< 12) ||| (hex2decimal h1 <<< 8) |||
                (hex2decimal h2 <<< 4) ||| hex2decimal h3) ++ s)
            else .error (text "invalid hex escape sequence in string")
          | _ => .error (text "invalid hex escape sequence in string")
        else
          match simpleEscape e with
          | some b => do
              let s ← unescape quote chs
              .ok (b :: s)
          | none => .error (text "invalid escape sequence in string")
    else do
      let s ← unescape quote chs
      .ok (ch :: s)

/-- `qstring_from_escaped_str`. -/
def qstringFromEscapedStr (token : Text) : Except Text Text :=
  unescape (if token.head? = some dquote then dquote else squote) token.tail

/-- The number that the decimal digits at the beginning of a text stand for. -/
def decimal : ℕ → Text → ℕ
  | n, [] => n
  | n, ch :: chs => if isDigit ch = true then decimal (10 * n + (ch - byte '0').toNat) chs else n

/-- `strtoll` to the base 10, which stops at the limits of the type. -/
def strtoll : Text → BitVec 64
  | [] => 0
  | ch :: chs =>
    if ch = byte '-' then BitVec.ofInt 64 (max (-2 ^ 63) (-(decimal 0 chs : ℤ)))
    else BitVec.ofInt 64 (min (2 ^ 63 - 1) (decimal 0 (ch :: chs)))

/-! ## Parsing rules -/

/-- The rest of a group, from the token after an item on: more items with a comma before each. -/
def groupLoop {β : Type} (close : Byte) (msg : Text) (item : β → Rule V β) :
    ℕ → β → Lexeme → Rule V β
  | 0, _, _, _ => .error .outOfFuel
  | n + 1, acc, token, c =>
    if tokenIsOperator token close = true then .ok (some acc, c)
    else if tokenIsOperator token comma = true then do
      let (r, c) ← item acc c
      match r with
      | none => .ok (none, c)
      | some acc => do
          let (token, c) ← c.popToken
          groupLoop close msg item n acc token c
    else .ok (none, c.parseError msg)

/-- What follows the opening bracket. -/
def groupItems {β : Type} (close : Byte) (msg : Text) (item : β → Rule V β) (fuel : ℕ) (empty : β) :
    Rule V β := fun c => do
  let peek ← c.peekToken
  if tokenIsOperator peek close = true then do
    let (_, c) ← c.popToken
    .ok (some empty, c)
  else do
    let (r, c) ← item empty c
    match r with
    | none => .ok (none, c)
    | some acc => do
        let (token, c) ← c.popToken
        groupLoop close msg item fuel acc token c

/-- What `parse_object` and `parse_array` have in common. -/
def parseGroup {β : Type} (opening close : Byte) (msg : Text) (item : β → Rule V β) (fuel : ℕ)
    (empty : β) (pack : β → QObject φ) : Rule V (QObject φ) := fun saved => do
  let (token, c) ← saved.popToken
  if tokenIsOperator token opening = true then do
    let (r, c) ← groupItems close msg item fuel empty c
    match r with
    | none => .ok (none, c.restore saved)
    | some acc => .ok (some (pack acc), c)
  else .ok (none, c.restore saved)

/-- `parse_pair`, with `parse_value` as an argument. -/
def parsePair (value : Rule V (QObject φ)) (dict : QDict φ) : Rule V (QDict φ) := fun saved => do
  let _ ← saved.peekToken
  let (key, c) ← value saved
  match key with
  | some (.string key) => do
      let (token, c) ← c.popToken
      if tokenIsOperator token colon = true then do
        let (obj, c) ← value c
        match obj with
        | some obj => .ok (some (qdictPut dict key obj), c)
        | none => .ok (none, (c.parseError (text "Missing value in dict")).restore saved)
      else .ok (none, (c.parseError (text "missing : in object pair")).restore saved)
  | _ => .ok (none, (c.parseError (text "key is not a string in object")).restore saved)

def parseElement (value : Rule V (QObject φ)) (list : List (QObject φ)) :
    Rule V (List (QObject φ)) := fun c => do
  let (obj, c) ← value c
  match obj with
  | some obj => .ok (some (list ++ [obj]), c)
  | none => .ok (none, c.parseError (text "expecting value"))

/-- `parse_object`. -/
def parseObject (value : Rule V (QObject φ)) (fuel : ℕ) : Rule V (QObject φ) :=
  parseGroup lbrace rbrace (text "expected separator in dict") (parsePair value) fuel [] .dict

/-- `parse_array`. -/
def parseArray (value : Rule V (QObject φ)) (fuel : ℕ) : Rule V (QObject φ) :=
  parseGroup lbracket rbracket (text "expected separator in list")
    (parseElement value) fuel [] .list

/-- `parse_keyword`. -/
def parseKeyword : Rule V (QObject φ) := fun saved => do
  let (token, c) ← saved.popToken
  if token.type = .keyword then
    if tokenIsKeyword token (text "true") = true then .ok (some (.bool true), c)
    else if tokenIsKeyword token (text "false") = true then .ok (some (.bool false), c)
    else
      let msg := text "invalid keyword " ++ [0x60] ++ token.token ++ [squote]
      .ok (none, (c.parseError msg).restore saved)
  else .ok (none, c.restore saved)

/-- `parse_escape`. -/
def parseEscape : Rule V (QObject φ) := fun saved =>
  match saved.ap with
  | none => .ok (none, saved)
  | some ap => do
      let (token, c) ← saved.popToken
      let found (obj : QObject φ) (ap : V.State) : Except Stop (Option (QObject φ) × Context V) :=
        .ok (some obj, { c with ap := some ap })
      if tokenIsEscape token (text "%p") = true then
        .ok ((V.object ap).1, { c with ap := some (V.object ap).2 })
      else if tokenIsEscape token (text "%i") = true then
        found (.bool (decide ((V.int ap).1 ≠ 0))) (V.int ap).2
      else if tokenIsEscape token (text "%d") = true then
        found (.int ((V.int ap).1.signExtend 64)) (V.int ap).2
      else if tokenIsEscape token (text "%ld") = true then found (.int (V.long ap).1) (V.long ap).2
      else if tokenIsEscape token (text "%lld") = true ∨
        tokenIsEscape token (text "%I64d") = true then
        found (.int (V.longLong ap).1) (V.longLong ap).2
      else if tokenIsEscape token (text "%s") = true then
        found (.string (V.string ap).1) (V.string ap).2
      else if tokenIsEscape token (text "%f") = true then
        found (.float (V.double ap).1) (V.double ap).2
      else .ok (none, c.restore saved)

/-- `parse_literal`. -/
def parseLiteral [CDouble φ] : Rule V (QObject φ) := fun saved => do
  let (token, c) ← saved.popToken
  match token.type with
  | .string =>
    match qstringFromEscapedStr token.token with
    | .ok s => .ok (some (.string s), c)
    | .error msg => .ok (none, c.parseError msg)
  | .integer => .ok (some (.int (strtoll token.token)), c)
  | .float => .ok (some (.float (CDouble.strtod token.token)), c)
  | _ => .ok (none, c.restore saved)

/-- The second rule is tried if the first one gives `NULL`. -/
def orElse {α : Type} (p q : Rule V α) : Rule V α := fun c => do
  let (obj, c) ← p c
  match obj with
  | some obj => .ok (some obj, c)
  | none => q c

/-- `parse_value`. -/
def parseValue [CDouble φ] : ℕ → Rule V (QObject φ)
  | 0, _ => .error .outOfFuel
  | n + 1, c =>
    orElse (parseObject (parseValue n) n) (orElse (parseArray (parseValue n) n)
        (orElse parseEscape (orElse parseKeyword parseLiteral))) c

/-- `json_parser_parse_err`, with the error and what is left of the arguments. -/
def jsonParserParse [CDouble φ] (V : VaList φ) (tokens : Option (List Lexeme))
    (ap : Option V.State) :
    Except Stop (Option (QObject φ) × Option Text × Option V.State) :=
  match tokens with
  | none => .ok (none, none, ap)
  | some [] => .ok (none, none, ap)
  | some ts => do
      let (obj, c) ← parseValue (ts.length + 1) (⟨ts, none, ap⟩ : Context V)
      .ok (obj, c.err, c.ap)

/-! ## What rules consume -/

def braces (ts : List Lexeme) : ℤ := (ts.map Lexeme.brace).sum

def brackets (ts : List Lexeme) : ℤ := (ts.map Lexeme.bracket).sum

@[simp] lemma braces_nil : braces [] = 0 := rfl

@[simp] lemma brackets_nil : brackets [] = 0 := rfl

@[simp] lemma braces_cons (t : Lexeme) (ts : List Lexeme) :
    braces (t :: ts) = t.brace + braces ts := by
  simp [braces]

@[simp] lemma brackets_cons (t : Lexeme) (ts : List Lexeme) :
    brackets (t :: ts) = t.bracket + brackets ts := by
  simp [brackets]

@[simp] lemma braces_append (ts ts' : List Lexeme) :
    braces (ts ++ ts') = braces ts + braces ts' := by
  simp [braces]

@[simp] lemma brackets_append (ts ts' : List Lexeme) :
    brackets (ts ++ ts') = brackets ts + brackets ts' := by
  simp [brackets]

/-- As much is closed as is opened. -/
def Neutral (ts : List Lexeme) : Prop := braces ts = 0 ∧ brackets ts = 0

/-- Not more is closed than is opened. -/
def Hungry (ts : List Lexeme) : Prop := 0 ≤ braces ts ∧ 0 ≤ brackets ts

/-- There is nothing, or something is left open. -/
def Stuck (ts : List Lexeme) : Prop := ts = [] ∨ Hungry ts ∧ 1 ≤ braces ts + brackets ts

variable {ts : List Lexeme} {t : Lexeme}

lemma Neutral.hungry (h : Neutral ts) : Hungry ts := ⟨h.1.ge, h.2.ge⟩

lemma Stuck.hungry (h : Stuck ts) : Hungry ts := by
  rcases h with rfl | h
  · exact ⟨le_rfl, le_rfl⟩
  · exact h.1

lemma Neutral.hungry_append {ts' : List Lexeme} (h : Neutral ts) (h' : Hungry ts') :
    Hungry (ts ++ ts') := by
  simp only [Neutral, Hungry, braces_append, brackets_append] at h h' ⊢
  omega

lemma Neutral.append {ts' : List Lexeme} (h : Neutral ts) (h' : Neutral ts') :
    Neutral (ts ++ ts') := by
  simp only [Neutral, braces_append, brackets_append] at h h' ⊢
  omega

lemma neutral_singleton (h : t.type ≠ .operator) : Neutral [t] := by
  simp [Neutral, Lexeme.brace, Lexeme.bracket, h]

lemma neutral_comma : Neutral [op comma] := ⟨by decide, by decide⟩

lemma neutral_colon : Neutral [op colon] := ⟨by decide, by decide⟩

lemma tokenIsOperator_iff {ch : Byte} : tokenIsOperator t ch = true ↔ t = op ch :=
  decide_eq_true_iff

variable {opening : Byte}

section Outcome

variable {α β : Type} {P : List Lexeme → Prop}

/-- What a rule finds closes what it opened, or it finds nothing, or the tokens ended too early,
which only happens with the property `P`. -/
def Outcome (P : List Lexeme → Prop) (ts : List Lexeme) : Except Stop (Option α × Context V) → Prop
  | .ok (some _, c) => ∃ used, ts = used ++ c.tokens ∧ Neutral used
  | .ok (none, _) => True
  | .error .assertion => P ts
  | .error .outOfFuel => False

/-- The same for the rest of a group: what is found ends with the closing token. -/
def Ending (close : Byte) (ts : List Lexeme) : Except Stop (Option α × Context V) → Prop
  | .ok (some _, c) => ∃ used, ts = used ++ op close :: c.tokens ∧ Neutral used
  | .ok (none, _) => True
  | .error .assertion => Hungry ts
  | .error .outOfFuel => False

variable {T : Except Stop β → Prop} {c : Context V}

/-- A rule is followed by something else. -/
lemma Outcome.bind {x : Except Stop (Option α × Context V)}
    {k : Option α × Context V → Except Stop β} (hx : Outcome P ts x)
    (herr : P ts → T (.error .assertion))
    (hsome : ∀ a c used, ts = used ++ c.tokens → Neutral used → T (k (some a, c)))
    (hnone : ∀ c, x = .ok (none, c) → T (k (none, c))) : T (x >>= k) := by
  match x, hx with
  | .ok (some a, c), ⟨used, hused, hneutral⟩ => exact hsome a c used hused hneutral
  | .ok (none, c), _ => exact hnone c rfl
  | .error .assertion, h => exact herr h

/-- A token is taken, or none is left. -/
lemma popToken_bind {k : Lexeme × Context V → Except Stop β}
    (hnil : c.tokens = [] → T (.error .assertion))
    (hcons : ∀ t ts, c.tokens = t :: ts → T (k (t, { c with tokens := ts }))) :
    T (c.popToken >>= k) := by
  cases htokens : c.tokens with
  | nil =>
    rw [Context.popToken, htokens]
    exact hnil htokens
  | cons t ts =>
    have hpop : c.popToken = .ok (t, { c with tokens := ts }) := by
      rw [Context.popToken, htokens]
    rw [hpop]
    exact hcons t ts htokens

/-- A token is looked at, or none is left. -/
lemma peekToken_bind {k : Lexeme → Except Stop β} (hnil : c.tokens = [] → T (.error .assertion))
    (hcons : ∀ t ts, c.tokens = t :: ts → T (k t)) : T (c.peekToken >>= k) := by
  cases htokens : c.tokens with
  | nil =>
    rw [Context.peekToken, htokens]
    exact hnil htokens
  | cons t ts =>
    rw [Context.peekToken, htokens]
    exact hcons t ts htokens

lemma hungry_nil : Hungry [] := ⟨le_rfl, le_rfl⟩

variable {n : ℕ} {value : Rule V (QObject φ)}

/-- A pair ends inside of its tokens, or asks for more. -/
lemma parsePair_outcome (hvalue : ∀ c : Context V, c.tokens.length < n →
      Outcome Stuck c.tokens (value c))
    (dict : QDict φ) (c : Context V) (hc : c.tokens.length < n) :
    Outcome Hungry c.tokens (parsePair value dict c) := by
  refine peekToken_bind (T := Outcome Hungry c.tokens) (fun h => ?_) fun _ _ _ => ?_
  · rw [h]
    exact hungry_nil
  refine (hvalue c hc).bind (T := Outcome Hungry c.tokens) Stuck.hungry ?_ fun _ _ => trivial
  intro key c1 used hused hneutral
  cases key with
  | string key =>
    refine popToken_bind (T := Outcome Hungry c.tokens) (fun h => ?_) fun t ts hts => ?_
    · rw [hused, h, append_nil]
      exact hneutral.hungry
    dsimp only
    split_ifs with hop
    · obtain rfl := tokenIsOperator_iff.1 hop
      have hsplit : c.tokens = used ++ [op colon] ++ ts := by
        rw [hused, hts]
        simp
      have hneutral' := hneutral.append neutral_colon
      have hlen : ts.length < n := by
        rw [hsplit] at hc
        simp at hc
        omega
      refine (hvalue { c1 with tokens := ts } hlen).bind (T := Outcome Hungry c.tokens) ?_ ?_
        fun _ _ => trivial
      · intro hstuck
        rw [hsplit]
        exact hneutral'.hungry_append hstuck.hungry
      · intro obj c2 used' hused' hneutral2
        refine ⟨used ++ [op colon] ++ used', ?_, hneutral'.append hneutral2⟩
        rw [hsplit, show ts = used' ++ c2.tokens from hused']
        simp
    · trivial
  | _ => trivial

/-- So does an element of an array. -/
lemma parseElement_outcome
    (hvalue : ∀ c : Context V, c.tokens.length < n → Outcome Stuck c.tokens (value c))
    (list : List (QObject φ)) (c : Context V) (hc : c.tokens.length < n) :
    Outcome Hungry c.tokens (parseElement value list c) := by
  refine (hvalue c hc).bind (T := Outcome Hungry c.tokens) Stuck.hungry ?_ fun _ _ => trivial
  intro obj c1 used hused hneutral
  exact ⟨used, hused, hneutral⟩

variable {close : Byte} {msg : Text} {item : β → Rule V β}

lemma Ending.prepend {used : List Lexeme} {r : Except Stop (Option β × Context V)}
    (h : Ending close ts r) (hused : Neutral used) : Ending close (used ++ ts) r := by
  match r, h with
  | .ok (some _, c), ⟨used', hused', hneutral⟩ =>
    exact ⟨used ++ used', by rw [hused', append_assoc], hused.append hneutral⟩
  | .ok (none, _), _ => trivial
  | .error .assertion, h => exact hused.hungry_append h

/-- An item, and the rest of the loop. -/
lemma nextItem_ending {m : ℕ} {acc : β} (hitem : Outcome Hungry c.tokens (item acc c))
    (hloop : ∀ acc t (c' : Context V), c'.tokens.length < c.tokens.length →
      Ending close (t :: c'.tokens) (groupLoop close msg item m acc t c')) :
    Ending close c.tokens (do
      let (r, c) ← item acc c
      match r with
      | none => .ok (none, c)
      | some acc => do
          let (token, c) ← c.popToken
          groupLoop close msg item m acc token c) := by
  refine hitem.bind (T := Ending close c.tokens) id ?_ fun _ _ => trivial
  intro acc' c1 used hused hneutral
  refine popToken_bind (T := Ending close c.tokens) (fun h => ?_) fun t ts hts => ?_
  · rw [hused, h, append_nil]
    exact hneutral.hungry
  have hlen : ts.length < c.tokens.length := by
    rw [hused, hts]
    simp
    omega
  rw [hused, hts]
  exact (hloop acc' t { c1 with tokens := ts } hlen).prepend hneutral

/-- The loop ends at the closing bracket, or asks for more tokens. -/
lemma groupLoop_ending
    (hitem : ∀ acc c, c.tokens.length < n → Outcome Hungry c.tokens (item acc c)) (m : ℕ) (acc : β)
    (token : Lexeme) (c : Context V) (hm : c.tokens.length < m) (hn : c.tokens.length < n) :
    Ending close (token :: c.tokens) (groupLoop close msg item m acc token c) := by
  induction m generalizing acc token c with
  | zero => omega
  | succ m ih =>
    rw [groupLoop]
    split_ifs with hclose hcomma
    · obtain rfl := tokenIsOperator_iff.1 hclose
      exact ⟨[], rfl, rfl, rfl⟩
    · obtain rfl := tokenIsOperator_iff.1 hcomma
      have hrest := nextItem_ending (hitem acc c hn) fun acc t c' hlen =>
        ih acc t c' (by omega) (by omega)
      exact hrest.prepend neutral_comma
    · trivial

lemma groupItems_ending
    (hitem : ∀ acc c, c.tokens.length < n → Outcome Hungry c.tokens (item acc c))
    {m : ℕ} (empty : β) (c : Context V) (hm : c.tokens.length ≤ m) (hn : c.tokens.length < n) :
    Ending close c.tokens (groupItems close msg item m empty c) := by
  refine peekToken_bind (T := Ending close c.tokens) (fun h => ?_) fun t ts hts => ?_
  · rw [h]
    exact hungry_nil
  split_ifs with hclose
  · obtain rfl := tokenIsOperator_iff.1 hclose
    have hpop : c.popToken = .ok (op close, { c with tokens := ts }) := by
      rw [Context.popToken, hts]
    rw [hpop, hts]
    exact ⟨[], rfl, rfl, rfl⟩
  · exact nextItem_ending (hitem empty c hn) fun acc t c' hlen =>
      groupLoop_ending hitem m acc t c' (by omega) (by omega)

/-- The opening and the closing token of a group. -/
structure Brackets (opening close : Byte) : Prop where
  brace : (op opening).brace + (op close).brace = 0
  bracket : (op opening).bracket + (op close).bracket = 0
  brace_nonneg : 0 ≤ (op opening).brace
  bracket_nonneg : 0 ≤ (op opening).bracket
  opens : 1 ≤ (op opening).brace + (op opening).bracket

/-- An object or an array, with its brackets. -/
lemma parseGroup_outcome {pack : β → QObject φ} (hgroup : Brackets opening close)
    (hitem : ∀ acc c, c.tokens.length < n → Outcome Hungry c.tokens (item acc c)) (empty : β)
    (c : Context V) (hc : c.tokens.length ≤ n) :
    Outcome Stuck c.tokens (parseGroup opening close msg item n empty pack c) := by
  refine popToken_bind (T := Outcome Stuck c.tokens) (fun h => ?_) fun t ts hts => ?_
  · exact .inl h
  dsimp only
  split_ifs with hop
  · obtain rfl := tokenIsOperator_iff.1 hop
    have hlen : ts.length < n := by
      rw [hts] at hc
      simpa using hc
    have hitems : Ending close ts (groupItems close msg item n empty { c with tokens := ts }) :=
      groupItems_ending hitem empty { c with tokens := ts } hlen.le hlen
    rw [hts]
    generalize groupItems close msg item n empty { c with tokens := ts } = r at hitems ⊢
    match r, hitems with
    | .ok (some _, c1), ⟨used, hused, h1, h2⟩ =>
      refine ⟨op opening :: used ++ [op close], ?_, ?_, ?_⟩
      · rw [show ts = _ from hused]
        simp
      · have := hgroup.brace
        simp
        omega
      · have := hgroup.bracket
        simp
        omega
    | .ok (none, _), _ => trivial
    | .error .assertion, ⟨h1, h2⟩ =>
      have := hgroup.brace_nonneg
      have := hgroup.bracket_nonneg
      have := hgroup.opens
      refine .inr ⟨⟨?_, ?_⟩, ?_⟩ <;> simp only [braces_cons, brackets_cons] <;> omega
  · trivial

lemma orElse_outcome {p q : Rule V α} (hp : Outcome P c.tokens (p c))
    (hq : ∀ c', p c = .ok (none, c') → Outcome P c.tokens (q c')) :
    Outcome P c.tokens (orElse p q c) := by
  refine hp.bind (T := Outcome P c.tokens) id ?_ hq
  intro a c' used hused hneutral
  exact ⟨used, hused, hneutral⟩

/-- A group that fails gives its tokens back. -/
lemma parseGroup_restore {pack : β → QObject φ} {empty : β} {c' : Context V}
    (h : parseGroup opening close msg item n empty pack c = .ok (none, c')) :
    c'.tokens = c.tokens := by
  revert h
  refine popToken_bind (T := fun r => r = .ok (none, c') → c'.tokens = c.tokens) ?_ ?_
  · intro _ h
    exact nomatch h
  intro t ts _
  dsimp only
  split_ifs
  · generalize groupItems close msg item n empty { c with tokens := ts } = r
    match r with
    | .error _ =>
      intro h
      exact nomatch h
    | .ok (some _, _) =>
      intro h
      exact nomatch h
    | .ok (none, c1) =>
      rintro ⟨⟩
      rfl
  · rintro ⟨⟩
    rfl

/-- No argument of `%p` is `NULL`. -/
def VaList.NonNull (V : VaList φ) : Prop := ∀ ap, (V.object ap).1 ≠ none

lemma tokenIsEscape_ne {value : Text} (h : tokenIsEscape t value = true) : t.type ≠ .operator := by
  rw [of_decide_eq_true h]
  simp

/-- A rule for one token, which leaves other tokens alone. -/
def Single (ts : List Lexeme) : Except Stop (Option α × Context V) → Prop
  | .ok (some _, c) => ∃ t, ts = t :: c.tokens ∧ t.type ≠ .operator
  | .ok (none, c) => c.tokens = ts
  | .error .assertion => ts = []
  | .error .outOfFuel => False

lemma Single.outcome {r : Except Stop (Option α × Context V)} (h : Single ts r) :
    Outcome Stuck ts r := by
  match r, h with
  | .ok (some _, c), ⟨t, hts, ht⟩ => exact ⟨[t], hts, neutral_singleton ht⟩
  | .ok (none, _), _ => trivial
  | .error .assertion, h => exact .inl h

lemma parseEscape_single (hV : V.NonNull) (c : Context V) : Single c.tokens (parseEscape c) := by
  unfold parseEscape
  split
  · rfl
  rename_i ap hap
  refine popToken_bind (T := Single c.tokens) id fun t ts hts => ?_
  dsimp only
  split_ifs with h1 h2 h3 h4 h5 h6 h7
  · obtain ⟨obj, hobj⟩ := Option.ne_none_iff_exists'.1 (hV ap)
    rw [hobj]
    exact ⟨t, hts, tokenIsEscape_ne h1⟩
  · exact ⟨t, hts, tokenIsEscape_ne h2⟩
  · exact ⟨t, hts, tokenIsEscape_ne h3⟩
  · exact ⟨t, hts, tokenIsEscape_ne h4⟩
  · exact ⟨t, hts, h5.elim tokenIsEscape_ne tokenIsEscape_ne⟩
  · exact ⟨t, hts, tokenIsEscape_ne h6⟩
  · exact ⟨t, hts, tokenIsEscape_ne h7⟩
  · rfl

lemma parseKeyword_single (c : Context V) : Single c.tokens (parseKeyword c) := by
  refine popToken_bind (T := Single c.tokens) id fun t ts hts => ?_
  dsimp only
  split_ifs with htype
  · exact ⟨t, hts, by rw [htype]; simp⟩
  · exact ⟨t, hts, by rw [htype]; simp⟩
  · rfl
  · rfl

lemma parseLiteral_outcome [CDouble φ] (c : Context V) :
    Outcome Stuck c.tokens (parseLiteral c) := by
  refine popToken_bind (T := Outcome Stuck c.tokens) .inl fun t ts hts => ?_
  have hone (h : t.type ≠ .operator) : ∃ used, c.tokens = used ++ ts ∧ Neutral used :=
    ⟨[t], hts, neutral_singleton h⟩
  dsimp only
  split
  · rename_i htype
    split
    · exact hone (by rw [htype]; simp)
    · trivial
  · rename_i htype
    exact hone (by rw [htype]; simp)
  · rename_i htype
    exact hone (by rw [htype]; simp)
  · trivial

lemma brackets_brace : Brackets lbrace rbrace := by constructor <;> decide

lemma brackets_bracket : Brackets lbracket rbracket := by constructor <;> decide

/-- **What `parse_value` makes of the tokens**, with more fuel than tokens. -/
theorem parseValue_outcome [CDouble φ] (hV : V.NonNull) (n : ℕ) (c : Context V)
    (hc : c.tokens.length < n) : Outcome Stuck c.tokens (parseValue n c) := by
  induction n generalizing c with
  | zero => omega
  | succ n ih =>
    rw [parseValue]
    refine orElse_outcome ?_ fun c1 h1 => ?_
    · exact parseGroup_outcome brackets_brace (parsePair_outcome ih) [] c (by omega)
    rw [← parseGroup_restore h1]
    refine orElse_outcome ?_ fun c2 h2 => ?_
    · refine parseGroup_outcome brackets_bracket (parseElement_outcome ih) [] c1 ?_
      rw [parseGroup_restore h1]
      omega
    rw [← parseGroup_restore h2]
    have hescape := parseEscape_single hV c2
    refine orElse_outcome hescape.outcome fun c3 h3 => ?_
    rw [h3] at hescape
    rw [← show c3.tokens = c2.tokens from hescape]
    have hkeyword := parseKeyword_single c3
    refine orElse_outcome hkeyword.outcome fun c4 h4 => ?_
    rw [h4] at hkeyword
    rw [← show c4.tokens = c3.tokens from hkeyword]
    exact parseLiteral_outcome c4

end Outcome

/-! ## Every list of a stream -/

/-- A list that closes what it opens, or closes more, is parsed to an object or `NULL`. -/
theorem parse_of_closed [CDouble φ] (hV : V.NonNull)
    (h : braces ts < 0 ∨ brackets ts < 0 ∨ braces ts = 0 ∧ brackets ts = 0) (ap : Option V.State) :
    ∃ r, jsonParserParse V (some ts) ap = .ok r := by
  match ts with
  | [] => exact ⟨_, rfl⟩
  | t :: ts =>
    have hout := parseValue_outcome hV ((t :: ts).length + 1) ⟨t :: ts, none, ap⟩ (by simp)
    rw [jsonParserParse]
    · generalize parseValue ((t :: ts).length + 1) (⟨t :: ts, none, ap⟩ : Context V) = r at hout ⊢
      match r, hout with
      | .ok (_, c), _ => exact ⟨_, rfl⟩
      | .error .assertion, .inr ⟨⟨h1, h2⟩, h3⟩ =>
        simp only at h1 h2 h3
        omega
    · simp

namespace Streamer

variable {τ : Type} {lexeme : τ → Lexeme} {p : Streamer τ} {t : τ} {ts : List τ}

/-- No limit is exceeded by the token while something is open. -/
def Within (lexeme : τ → Lexeme) (p : Streamer τ) (t : τ) : Prop :=
  (lexeme t).type ≠ .error → (p.push lexeme t).Excessive → (p.push lexeme t).Closed

def WithinAll (lexeme : τ → Lexeme) (p : Streamer τ) : List τ → Prop
  | [] => True
  | t :: ts => p.Within lexeme t ∧ WithinAll lexeme (p.processToken lexeme t).1 ts

instance (p : Streamer τ) (t : τ) : Decidable (p.Within lexeme t) :=
  inferInstanceAs (Decidable (_ → _ → _))

instance decidableWithinAll (p : Streamer τ) : ∀ ts, Decidable (p.WithinAll lexeme ts)
  | [] => .isTrue trivial
  | t :: ts =>
    have := decidableWithinAll (p.processToken lexeme t).1 ts
    inferInstanceAs (Decidable (_ ∧ _))

/-- The counters belong to the tokens that were collected. -/
def Counted (lexeme : τ → Lexeme) (p : Streamer τ) : Prop :=
  p.braceCount = braces (p.tokens.map lexeme) ∧ p.bracketCount = brackets (p.tokens.map lexeme)

lemma counted_init : (init : Streamer τ).Counted lexeme := ⟨rfl, rfl⟩

lemma Counted.push (h : p.Counted lexeme) : (p.push lexeme t).Counted lexeme := by
  obtain ⟨h1, h2⟩ := h
  simp [Counted, Streamer.push, h1, h2]

def Parses [CDouble φ] (V : VaList φ) (lexeme : τ → Lexeme) (out : Option (List τ)) : Prop :=
  ∀ ap, ∃ r, jsonParserParse V (out.map (List.map lexeme)) ap = .ok r

variable [CDouble φ]

/-- A list of tokens that is handed on can be parsed. -/
lemma processToken_counted (hV : V.NonNull) (hp : p.Counted lexeme) (ht : p.Within lexeme t) :
    (p.processToken lexeme t).1.Counted lexeme ∧
      ∀ out ∈ (p.processToken lexeme t).2, Parses V lexeme out := by
  unfold processToken
  split_ifs with herr hdone
  · refine ⟨counted_init, ?_⟩
    rintro out ⟨⟩ ap
    exact ⟨_, rfl⟩
  · refine ⟨counted_init, ?_⟩
    rintro out ⟨⟩ ap
    obtain ⟨h1, h2⟩ := hp.push (t := t)
    have hclosed : (p.push lexeme t).Closed := hdone.elim id (ht herr)
    rw [Closed, h1, h2] at hclosed
    exact parse_of_closed hV hclosed ap
  · refine ⟨hp.push, ?_⟩
    rintro out ⟨⟩

/-- So can all of them. -/
lemma processAll_counted (hV : V.NonNull) (hp : p.Counted lexeme) (hts : p.WithinAll lexeme ts) :
    (p.processAll lexeme ts).1.Counted lexeme ∧
      ∀ out ∈ (p.processAll lexeme ts).2, Parses V lexeme out := by
  induction ts generalizing p with
  | nil => exact ⟨hp, by simp [processAll]⟩
  | cons t ts ih =>
    obtain ⟨ht, hts⟩ := hts
    obtain ⟨hcounted, hout⟩ := processToken_counted hV hp ht
    obtain ⟨hcounted', hout'⟩ := ih hcounted hts
    refine ⟨hcounted', fun out hmem => ?_⟩
    rcases mem_append.1 hmem with hmem | hmem
    · exact hout out (Option.mem_toList.1 hmem)
    · exact hout' out hmem

end Streamer

namespace MessageParser

/-- While something is open, no token exceeds a limit of the parser. -/
def Within (p : MessageParser) : Text → Prop
  | [] => p.lexer.scanner.state ≠ .inStart → p.streamer.WithinAll Token.lexeme
    (p.lexer.feedChar 0 true).2
  | ch :: chs =>
    p.streamer.WithinAll Token.lexeme (p.lexer.feedChar ch false).2 ∧
      Within (p.feedChar ch false).1 chs

instance decidableWithin (p : MessageParser) : ∀ chs, Decidable (p.Within chs)
  | [] => inferInstanceAs (Decidable (_ → _))
  | ch :: chs =>
    have := decidableWithin (p.feedChar ch false).1 chs
    inferInstanceAs (Decidable (_ ∧ _))

/-- The lists of tokens that some bytes give. -/
def emitted (p : MessageParser) (chs : Text) : List (Option (List Token)) :=
  (p.feed chs).2 ++ (p.feed chs).1.flush.2

lemma emitted_parses [CDouble φ] (hV : V.NonNull) {p : MessageParser}
    (hp : p.streamer.Counted Token.lexeme) {chs : Text} (h : p.Within chs) :
    ∀ out ∈ p.emitted chs, Streamer.Parses V Token.lexeme out := by
  induction chs generalizing p with
  | nil =>
    unfold emitted feed flush
    split_ifs with hstart
    · simp
    · exact (Streamer.processAll_counted hV hp (h hstart)).2
  | cons ch chs ih =>
    obtain ⟨hch, hchs⟩ := h
    obtain ⟨hcounted, hout⟩ := Streamer.processAll_counted hV hp hch
    intro out hmem
    rw [emitted, feed, append_assoc] at hmem
    rcases mem_append.1 hmem with hmem | hmem
    · exact hout out hmem
    · exact ih hcounted hchs out hmem

end MessageParser

/-- **No assertion fails in a stream in which no limit is exceeded while something is open**: every
list of tokens is parsed to an object or `NULL`. -/
theorem stream_parses [CDouble φ] (V : VaList φ) (hV : V.NonNull) (chs : Text)
    (h : MessageParser.init.Within chs) (out : Option (List Token))
    (hout : out ∈ MessageParser.init.emitted chs) (ap : Option V.State) :
    ∃ r, jsonParserParse V (out.map (List.map Token.lexeme)) ap = .ok r :=
  MessageParser.emitted_parses hV Streamer.counted_init h out hout ap

/-- The arguments of `qobject_from_json`: there are none. -/
def VaList.none (φ : Type) : VaList φ where
  State := Empty
  object := Empty.elim
  int := Empty.elim
  long := Empty.elim
  longLong := Empty.elim
  string := Empty.elim
  double := Empty.elim

/-- A double that is kept as the text it was read from. -/
instance : CDouble Text := ⟨id, id⟩

/-- Brackets that do not match are parsed to `NULL`. -/
theorem stream_parses_mismatch : MessageParser.init.Within (text "[1,\x7d") ∧
      ∀ out ∈ MessageParser.init.emitted (text "[1,\x7d"),
        ∃ r, jsonParserParse (VaList.none Text) (out.map (List.map Token.lexeme)) none = .ok r := by
  have hwithin : MessageParser.init.Within (text "[1,\x7d") := by decide +kernel
  exact ⟨hwithin, fun out hout =>
    stream_parses (VaList.none Text) (fun ap => ap.elim) _ hwithin out hout
    none⟩

/-! ## Too many brackets -/

section Nesting

lemma parseGroup_of_ne {β : Type} {close : Byte} {msg : Text} {item : β → Rule V β}
    {n : ℕ} {empty : β} {pack : β → QObject φ} (h : t ≠ op opening) (ts : List Lexeme)
    (err : Option Text) (ap : Option V.State) :
    parseGroup opening close msg item n empty pack ⟨t :: ts, err, ap⟩ = .ok
      (none, ⟨t :: ts, err, ap⟩) := by
  have hop : ¬tokenIsOperator t opening = true := fun h' => h (tokenIsOperator_iff.1 h')
  show (if tokenIsOperator t opening = true then _ else _) = _
  rw [if_neg hop]
  rfl

lemma groupItems_of_item {β : Type} {close : Byte} {msg : Text} {item : β → Rule V β}
    {n : ℕ} {empty : β} (h : t ≠ op close) {err : Option Text} {ap : Option V.State}
    (hitem : item empty ⟨t :: ts, err, ap⟩ = .error .assertion) :
    groupItems close msg item n empty ⟨t :: ts, err, ap⟩ = .error .assertion := by
  have hop : ¬tokenIsOperator t close = true := fun h' => h (tokenIsOperator_iff.1 h')
  show (if tokenIsOperator t close = true then (_ : Except Stop (Option β × Context V)) else _) = _
  rw [if_neg hop, hitem]
  rfl

/-- Opening brackets without an end fail an assertion. -/
lemma parseValue_replicate [CDouble φ] (k n : ℕ) (h : k < n) (err : Option Text)
    (ap : Option V.State) :
    parseValue n (⟨List.replicate k (op lbracket), err, ap⟩ : Context V) = .error .assertion := by
  induction k generalizing n with
  | zero =>
    obtain ⟨n, rfl⟩ := Nat.exists_eq_succ_of_ne_zero (Nat.ne_of_gt h)
    rfl
  | succ k ih =>
    obtain ⟨n, rfl⟩ := Nat.exists_eq_succ_of_ne_zero (show n ≠ 0 by omega)
    have hitems : groupItems rbracket (text "expected separator in list")
        (parseElement (parseValue n)) n []
        (⟨replicate k (op lbracket), err, ap⟩ : Context V) = .error .assertion := by
      have hrest := ih n (by omega)
      cases k with
      | zero => rfl
      | succ k =>
        refine groupItems_of_item (by decide) ?_
        rw [parseElement, ← replicate_succ, hrest]
        rfl
    have harray : parseArray (parseValue n) n
        (⟨op lbracket :: replicate k (op lbracket), err, ap⟩ : Context V) =
        .error .assertion := by
      show groupItems rbracket (text "expected separator in list")
        (parseElement (parseValue n)) n []
        (⟨replicate k (op lbracket), err, ap⟩ : Context V) >>= _ = _
      rw [hitems]
      rfl
    rw [replicate_succ, parseValue, orElse, parseObject, parseGroup_of_ne (by decide)]
    show orElse _ _ _ = _
    rw [orElse, harray]
    rfl

lemma parse_replicate [CDouble φ] (V : VaList φ) (k : ℕ) (ap : Option V.State) :
    jsonParserParse V (some (replicate (k + 1) (op lbracket))) ap = .error .assertion := by
  have h := parseValue_replicate (V := V) (k + 1) ((replicate (k + 1) (op lbracket)).length + 1)
    (by simp) none ap
  rw [jsonParserParse, h]
  · rfl
  · simp

lemma feed_replicate (k : ℕ) :
    Scanner.init.feed (replicate k lbracket) = (Scanner.init, replicate k (op lbracket)) := by
  induction k with
  | zero => rfl
  | succ k ih =>
    have hfirst : Scanner.init.feedChar lbracket false = (Scanner.init, [op lbracket]) := by decide
    rw [replicate_succ, Scanner.feed, hfirst]
    simp only [ih]
    rfl

lemma flush_replicate (k : ℕ) :
    (MessageParser.init.feed (replicate k lbracket)).1.flush.2 = [] := by
  have hscan := MessageParser.feed_scanner MessageParser.init (replicate k lbracket)
  rw [show MessageParser.init.lexer.scanner = Scanner.init from rfl, feed_replicate] at hscan
  rw [MessageParser.flush, hscan]
  rfl

lemma push_replicate (k : ℕ) :
    (⟨0, k, replicate k (op lbracket), k⟩ : Streamer Lexeme).push id (op lbracket) =
      ⟨0, (k + 1 : ℕ), replicate (k + 1) (op lbracket), k + 1⟩ := by
  rw [Streamer.push, replicate_succ']
  simp only [id_eq, brace_lbracket, bracket_lbracket]
  rfl

lemma processAll_replicate (k : ℕ) (h : k ≤ 1024) :
    Streamer.init.processAll id (replicate k (op lbracket)) =
      (⟨0, k, replicate k (op lbracket), k⟩, []) := by
  induction k with
  | zero => rfl
  | succ k ih =>
    have hopen : (⟨0, (k + 1 : ℕ), replicate (k + 1) (op lbracket), k + 1⟩ :
        Streamer Lexeme).Open 0 0 0 := by
      constructor <;> simp only [maxNesting, maxTokenSize] <;> omega
    rw [← push_replicate] at hopen
    rw [replicate_succ', Streamer.processAll_append, ih (by omega), Streamer.processAll,
      Streamer.processToken_of_open (by simp [op]) hopen, push_replicate, ← replicate_succ']
    rfl

/-- The bracket after `MAX_NESTING` ones makes the streamer emit the list. -/
lemma processAll_excessive : Streamer.init.processAll id
    (replicate 1024 (op lbracket) ++ [op lbracket]) =
      (Streamer.init, [some (replicate 1025 (op lbracket))]) := by
  have hexcess : ((⟨0, (1024 : ℕ), replicate 1024 (op lbracket), 1024⟩ : Streamer Lexeme).push id
      (op lbracket)).Excessive := by
    rw [push_replicate]
    exact .inr (.inl (by simp [maxNesting]))
  rw [Streamer.processAll_append, processAll_replicate 1024 le_rfl, Streamer.processAll,
    Streamer.processToken, if_neg (by simp [op]), if_pos (.inr hexcess), push_replicate]
  rfl

/-- **The assertion fails for a list that was emitted because of the limit.** -/
theorem nesting_limit_asserts :
    ∃ ts, MessageParser.init.emitted (replicate 1025 lbracket) = [some ts] ∧
      ∀ (φ : Type) [CDouble φ] (V : VaList φ) (ap : Option V.State),
        jsonParserParse V (some (ts.map Token.lexeme)) ap = .error .assertion := by
  have hlex := MessageParser.feed_lexemes (replicate 1025 lbracket)
  rw [feed_replicate, replicate_succ', processAll_excessive, Prod.mk.injEq] at hlex
  obtain ⟨out, hone, hsome⟩ := map_eq_singleton_iff.1 hlex.2.symm
  obtain ⟨ts, rfl, hts⟩ := Option.map_eq_some_iff.1 hsome
  refine ⟨ts, ?_, fun φ _ V ap => ?_⟩
  · rw [MessageParser.emitted, flush_replicate, hone]
    rfl
  · rw [hts]
    exact parse_replicate V 1024 ap

end Nesting

end Qemu.Json
