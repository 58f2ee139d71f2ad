import Qemu.Json.PrintedTokens

/-!
# Printing and parsing

`qobject_from_json` of what `qobject_to_json` or `qobject_to_json_pretty` printed.

The monitor prints what management tools read, and the tools print what the monitor reads, so an
object should survive the way there and back.  What stands in the way are characters above
`U+FFFF`, which the printer takes apart.

**Main results:**
- `parse_tokens`: the parser makes of the tokens of an object the object with its texts recoded
- `round_trip_iff`: the object comes back exactly if no text in it has a character above `U+FFFF`
-/

namespace Qemu.Json

open List QObject

variable {φ : Type} {V : VaList φ}

/-- `qobject_from_jsonv`: the result is that of the last list of tokens. -/
def qobjectFromJsonv [CDouble φ] (V : VaList φ) (chs : Text) (ap : Option V.State) :
    Except Stop (Option (QObject φ)) := do
  let step (r : Option (QObject φ) × Option V.State) (out : Option (List Token)) :
      Except Stop (Option (QObject φ) × Option V.State) := do
    let (obj, _, ap) ← jsonParserParse V (out.map (map Token.lexeme)) r.2
    .ok (obj, ap)
  let r ← (MessageParser.init.emitted chs).foldlM step (none, ap)
  .ok r.1

/-- `qobject_from_json`: the whole text is fed, and then the end of it. -/
def qobjectFromJson (φ : Type) [CDouble φ] (chs : Text) : Except Stop (Option (QObject φ)) :=
  qobjectFromJsonv (VaList.none φ) chs none

/-- `qobject_to_json`. -/
def qobjectToJson [CDouble φ] (signed : Bool) (o : QObject φ) : Text := toJson signed false o 0

/-- `qobject_to_json_pretty`. -/
def qobjectToJsonPretty [CDouble φ] (signed : Bool) (o : QObject φ) : Text := toJson signed true o 0

/-! ## Groups -/

/-- The items of a group with commas between them. -/
def joined : List (List Lexeme) → Bool → List Lexeme
  | [], _ => []
  | item :: items, first =>
    (if first = true then [] else [op comma]) ++ item ++ joined items false

variable {n : ℕ} {o : QObject φ} {t : Lexeme}

section Group

variable {β : Type} {opening close : Byte} {msg : Text} {item : β → Rule V β} {err : Option Text}

lemma popToken_cons (t : Lexeme) (ts : List Lexeme) (ap : Option V.State) :
    (⟨t :: ts, err, ap⟩ : Context V).popToken = .ok (t, ⟨ts, err, ap⟩) := rfl

/-- The rule takes the tokens, and does `f` to what was found before. -/
def Takes (item : β → Rule V β) (ts : List Lexeme) (f : β → β) : Prop :=
  ∀ acc rest err, item acc (⟨ts ++ rest, err, none⟩ : Context V) =
    .ok (some (f acc), ⟨rest, err, none⟩)

variable {α : Type} {ts : α → List Lexeme} {f : α → β → β}

/-- The loop over the items after the first one takes them all, up to the closing bracket. -/
lemma groupLoop_joined (hcomma : close ≠ comma) (items : List α)
    (hitems : ∀ it ∈ items, Takes item (ts it) (f it)) (m : ℕ) (hm : items.length < m) (acc : β)
    (token : Lexeme) (tail rest : List Lexeme)
    (htokens : token :: tail = joined (items.map ts) false ++ op close :: rest) :
    groupLoop close msg item m acc token (⟨tail, err, none⟩ : Context V) =
      .ok (some (items.foldl (fun acc it => f it acc) acc), ⟨rest, err, none⟩) := by
  induction items generalizing m acc token tail with
  | nil =>
    obtain ⟨m, rfl⟩ := Nat.exists_eq_succ_of_ne_zero (Nat.ne_of_gt hm)
    cases htokens
    rw [groupLoop, if_pos (tokenIsOperator_iff.2 rfl)]
    rfl
  | cons it items ih =>
    obtain ⟨m, rfl⟩ := Nat.exists_eq_succ_of_ne_zero (show m ≠ 0 by omega)
    rw [forall_mem_cons] at hitems
    obtain ⟨token', tail', htail⟩ := exists_cons_of_ne_nil
      (show joined (items.map ts) false ++ op close :: rest ≠ [] by simp)
    have hsplit : token :: tail = op comma :: (ts it ++ token' :: tail') := by
      rw [htokens, ← htail]
      simp [joined]
    cases hsplit
    have hnot : ¬tokenIsOperator (op comma) close = true := fun h =>
      hcomma (cons.inj (congrArg Lexeme.token (tokenIsOperator_iff.1 h))).1.symm
    rw [groupLoop, if_neg hnot, if_pos (tokenIsOperator_iff.2 rfl), hitems.1]
    exact ih hitems.2 m (by simpa using hm) (f it acc) token' tail' htail.symm

/-- So does the loop with the first item before it. -/
lemma groupItems_joined (hcomma : close ≠ comma) (items : List α)
    (hitems : ∀ it ∈ items, Takes item (ts it) (f it))
    (hfirst : ∀ it ∈ items, ts it ≠ [] ∧ (ts it).head? ≠ some (op close)) (hn : items.length ≤ n)
    (empty : β) (rest : List Lexeme) : groupItems close msg item n empty
        (⟨joined (items.map ts) true ++ op close :: rest, err, none⟩ : Context V) =
      .ok (some (items.foldl (fun acc it => f it acc) empty), ⟨rest, err, none⟩) := by
  cases items with
  | nil =>
    show (if tokenIsOperator (op close) close = true then _ else _) = _
    rw [if_pos (tokenIsOperator_iff.2 rfl)]
    rfl
  | cons it items =>
    rw [forall_mem_cons] at hitems hfirst
    obtain ⟨⟨hne, hhead⟩, -⟩ := hfirst
    obtain ⟨token, tail, htail⟩ := exists_cons_of_ne_nil
      (show joined (items.map ts) false ++ op close :: rest ≠ [] by simp)
    have hsplit : joined ((it :: items).map ts) true ++ op close :: rest =
        ts it ++ token :: tail := by
      rw [← htail]
      simp [joined]
    obtain ⟨t, ts', hts⟩ := exists_cons_of_ne_nil hne
    have hnot : ¬tokenIsOperator t close = true := fun h => by
      rw [hts, tokenIsOperator_iff.1 h] at hhead
      exact hhead rfl
    have hitem := hitems.1 empty (token :: tail) err
    rw [hsplit]
    rw [hts] at hitem ⊢
    show (if tokenIsOperator t close =
      true then (_ : Except Stop (Option β × Context V)) else _) = _
    rw [if_neg hnot, hitem]
    exact groupLoop_joined hcomma items hitems.2 n (by simpa using hn) (f it empty) token tail rest
      htail.symm

/-- A group is parsed to what its items make of the empty one. -/
lemma parseGroup_joined {pack : β → QObject φ} (hcomma : close ≠ comma) (items : List α)
    (hitems : ∀ it ∈ items, Takes item (ts it) (f it))
    (hfirst : ∀ it ∈ items, ts it ≠ [] ∧ (ts it).head? ≠ some (op close)) (hn : items.length ≤ n)
    (empty : β) (rest : List Lexeme) : parseGroup opening close msg item n empty pack
        (⟨op opening :: (joined (items.map ts) true ++ op close :: rest), err, none⟩ : Context V) =
      .ok (some (pack (items.foldl (fun acc it => f it acc) empty)), ⟨rest, err, none⟩) := by
  show (if tokenIsOperator (op opening) opening =
    true then (_ : Except Stop (Option (QObject φ) × Context V))
    else _) = _
  rw [if_pos (tokenIsOperator_iff.2 rfl), groupItems_joined hcomma items hitems hfirst hn]
  rfl

end Group

/-! ## Values -/

section Values

variable [CDouble φ]

/-- A token that is no operator is a keyword or a literal. -/
lemma parseValue_other (ht : t.type ≠ .operator) (n : ℕ) (ts : List Lexeme) (err : Option Text) :
    parseValue (n + 1) (⟨t :: ts, err, none⟩ : Context V) =
      orElse parseKeyword parseLiteral ⟨t :: ts, err, none⟩ := by
  have hne (ch : Byte) : t ≠ op ch := by
    rintro rfl
    exact ht rfl
  rw [parseValue, orElse, parseObject, parseGroup_of_ne (hne _)]
  show orElse _ _ _ = _
  rw [orElse, parseArray, parseGroup_of_ne (hne _)]
  rfl

/-- A rule that finds `o` in the tokens. -/
def Finds (rule : Rule V (QObject φ)) (ts : List Lexeme) (o : QObject φ) : Prop :=
  ∀ rest err, rule (⟨ts ++ rest, err, none⟩ : Context V) = .ok (some o, ⟨rest, err, none⟩)

/-- A literal is found if `parse_literal` accepts it. -/
lemma finds_literal (ht : t.type ≠ .operator) (hk : t.type ≠ .keyword)
    (hlit : ∀ c : Context V, parseLiteral { c with tokens := t :: c.tokens } = .ok (some o, c))
    (n : ℕ) :
    Finds (V := V) (parseValue (n + 1)) [t] o := by
  intro rest err
  have hkeyword : parseKeyword (⟨t :: rest, err, none⟩ : Context V) =
      .ok (none, ⟨t :: rest, err, none⟩) := by
    show (if t.type = .keyword then (_ : Except Stop (Option (QObject φ) × Context V)) else _) = _
    rw [if_neg hk]
    rfl
  rw [singleton_append, parseValue_other ht, orElse, hkeyword]
  exact hlit ⟨rest, err, none⟩

/-- Booleans come back. -/
lemma finds_bool (b : Bool) (n : ℕ) :
    Finds (V := V) (parseValue (n + 1)) [⟨.keyword, if b = true then text "true" else text "false"⟩]
      (.bool b) := by
  intro rest err
  rw [singleton_append, parseValue_other (by simp)]
  cases b <;> rfl

end Values

/-! ## Numbers -/

lemma decimal_map {ds : List ℕ} (h : ∀ d ∈ ds, d < 10) (n : ℕ) :
    decimal n (ds.map fun d => byte '0' + BitVec.ofNat 8 d) = ds.foldl
      (fun n d => 10 * n + d) n := by
  have hdigit : ∀ d < 10, isDigit (byte '0' + BitVec.ofNat 8 d) = true ∧
      (byte '0' + BitVec.ofNat 8 d - byte '0').toNat = d := by decide
  induction ds generalizing n with
  | nil => rfl
  | cons d ds ih =>
    rw [forall_mem_cons] at h
    rw [map_cons, decimal, if_pos (hdigit d h.1).1, (hdigit d h.1).2, ih h.2]
    rfl

/-- The digits of a number are read back to it. -/
lemma decimal_digits (n : ℕ) : decimal 0 (digits n) = n := by
  by_cases h0 : n = 0
  · rw [h0]
    decide
  have hlt : ∀ d ∈ (Nat.digits 10 n).reverse, d < 10 := fun d hd =>
    Nat.digits_lt_base (by norm_num) (mem_reverse.1 hd)
  rw [digits, if_neg h0, decimal_map hlt, foldl_reverse]
  have h := Nat.ofDigits_digits 10 n
  rw [Nat.ofDigits_eq_foldr] at h
  simpa [Nat.add_comm] using h

/-- `strtoll` stops at the largest number. -/
lemma strtoll_digits (n : ℕ) : strtoll (digits n) = BitVec.ofInt 64 (min (2 ^ 63 - 1) n) := by
  have hminus : ∀ d < 10, byte '0' + BitVec.ofNat 8 d ≠ byte '-' := by decide
  have hdecimal := decimal_digits n
  by_cases h0 : n = 0
  · rw [h0]
    decide
  · obtain ⟨d, ds, hdigits, -, hd, -⟩ := Scanner.digits_eq h0
    rw [hdigits, map_cons] at hdecimal ⊢
    rw [strtoll, if_neg (hminus d hd), hdecimal]

/-- All numbers of 64 bits come back. -/
lemma strtoll_printInt (n : BitVec 64) : strtoll (printInt n) = n := by
  have hlt := BitVec.toInt_lt (x := n)
  have hle := BitVec.le_toInt n
  have hvalue := BitVec.ofInt_toInt (x := n)
  rw [printInt]
  split_ifs with h
  · rw [strtoll, if_pos rfl, decimal_digits]
    rw [show max (-2 ^ 63 : ℤ) (-(n.toInt.natAbs : ℤ)) = n.toInt by omega, hvalue]
  · rw [strtoll_digits, show min (2 ^ 63 - 1 : ℤ) (n.toInt.natAbs : ℤ) = n.toInt by omega, hvalue]

/-! ## Objects -/

section Recode

variable (signed : Bool)

/-- What becomes of a text that is printed and read. -/
def recodeText (s : Text) : Text :=
  match unescape dquote (escapeFrom signed 0 s ++ [dquote]) with
  | .ok s => s
  | .error _ => []

mutual

/-- What becomes of an object that is printed and read. -/
def recodeObject : QObject φ → QObject φ
  | .int n => .int n
  | .float x => .float x
  | .bool b => .bool b
  | .string s => .string (recodeText signed s)
  | .list xs => .list (recodeList xs)
  | .dict es => .dict (recodeDict es [])

def recodeList : List (QObject φ) → List (QObject φ)
  | [] => []
  | x :: xs => recodeObject x :: recodeList xs

def recodeDict : List (Text × QObject φ) → QDict φ → QDict φ
  | [], acc => acc
  | (key, x) :: es, acc => recodeDict es (qdictPut acc (recodeText signed key) (recodeObject x))

end

variable {s : Text}

/-- What the parser makes of an escaped text. -/
lemma unescape_utf8 (h : Utf8 s) :
    unescape dquote (escapeFrom signed 0 s ++ [dquote]) = .ok (recodeText signed s) := by
  obtain ⟨cps, hcps, rfl⟩ := h
  have hread := unescape_escape signed fun cp hcp => (hcps cp hcp).1
  rw [recodeText, hread]

/-- What it makes of a printed string. -/
lemma qstringFromEscapedStr_quoted (h : Utf8 s) :
    qstringFromEscapedStr (quoted signed s) = .ok (recodeText signed s) := by
  exact unescape_utf8 signed h

lemma recodeList_eq (xs : List (QObject φ)) :
    recodeList signed xs = xs.map (recodeObject signed) := by
  induction xs with
  | nil => rw [recodeList, map_nil]
  | cons x xs ih => rw [recodeList, map_cons, ih]

lemma foldl_append_recode (xs acc : List (QObject φ)) :
    xs.foldl (fun acc x => acc ++ [recodeObject signed x]) acc = acc ++ recodeList signed xs := by
  rw [foldl_append_eq_append, recodeList_eq, ← flatMap_def, ← map_eq_flatMap]

lemma foldl_put_recode (es : List (Text × QObject φ)) (acc : QDict φ) :
    es.foldl (fun acc e => qdictPut acc (recodeText signed e.1) (recodeObject signed e.2)) acc =
      recodeDict signed es acc := by
  induction es generalizing acc with
  | nil => rw [recodeDict, foldl_nil]
  | cons e es ih => rw [foldl_cons, ih, recodeDict]

/-- An element goes to the end of the list. -/
lemma takes_element {value : Rule V (QObject φ)} {ts : List Lexeme} (h : Finds value ts o) :
    Takes (parseElement value) ts (fun acc => acc ++ [o]) := by
  intro acc rest err
  rw [parseElement, h]
  rfl

/-- A pair is put into the dict. -/
lemma takes_pair {value : Rule V (QObject φ)} {ts : List Lexeme} {key : Text}
    (hkey : Finds value [t] (.string key)) (h : Finds value ts o) :
    Takes (parsePair value) (t :: op colon :: ts) (fun acc => qdictPut acc key o) := by
  intro acc rest err
  have hfirst := hkey (op colon :: (ts ++ rest)) err
  have hcolon : tokenIsOperator (op colon) colon = true := tokenIsOperator_iff.2 rfl
  rw [singleton_append] at hfirst
  simp only [parsePair, Context.peekToken, popToken_cons, bind, Except.bind, cons_append, hfirst,
    if_pos hcolon, h rest err]

/-- An item is no longer than the group. -/
lemma length_joined_le {items : List (List Lexeme)} {it : List Lexeme} (h : it ∈ items)
    (first : Bool) :
    it.length ≤ (joined items first).length := by
  induction items generalizing first with
  | nil => exact absurd h (not_mem_nil)
  | cons it' items ih =>
    rw [joined]
    rcases mem_cons.1 h with rfl | h
    · simp
      omega
    · have := ih h false
      simp
      omega

/-- A group has no more items than tokens, so that the loop does not run out of fuel. -/
lemma length_le_joined (items : List (List Lexeme)) (h : ∀ it ∈ items, it ≠ []) (first : Bool) :
    items.length ≤ (joined items first).length := by
  induction items generalizing first with
  | nil => exact Nat.zero_le _
  | cons it items ih =>
    rw [forall_mem_cons] at h
    have hpos := length_pos_of_ne_nil h.1
    have := ih h.2 false
    rw [joined]
    simp
    omega

section Tokens

variable [CDouble φ]

/-- Strings come back as they are recoded. -/
lemma finds_string (h : Utf8 s) (n : ℕ) :
    Finds (V := V) (parseValue (n + 1)) [⟨.string, quoted signed s⟩]
      (.string (recodeText signed s)) := by
  refine finds_literal (by simp) (by simp) (fun c => ?_) n
  simp only [parseLiteral, popToken_cons, bind, Except.bind, qstringFromEscapedStr_quoted signed h]

/-- Numbers come back. -/
lemma finds_int (i : BitVec 64) (n : ℕ) :
    Finds (V := V) (parseValue (n + 1)) [⟨.integer, printInt i⟩] (.int i) := by
  refine finds_literal (by simp) (by simp) (fun c => ?_) n
  simp only [parseLiteral, popToken_cons, bind, Except.bind, strtoll_printInt]

/-- An object does not begin with a closing bracket. -/
lemma tokens_head (o : QObject φ) :
    tokens signed o ≠ [] ∧ (tokens signed o).head? ≠ some (op rbracket) ∧
      (tokens signed o).head? ≠ some (op rbrace) := by
  have h1 : op lbracket ≠ op rbracket ∧ op lbracket ≠ op rbrace := by decide
  have h2 : op lbrace ≠ op rbracket ∧ op lbrace ≠ op rbrace := by decide
  cases o <;> simp [tokens, h1, h2] <;> simp [op]

lemma tokensList_eq (xs : List (QObject φ)) (first : Bool) :
    tokensList signed xs first = joined (xs.map (tokens signed)) first := by
  induction xs generalizing first with
  | nil => rfl
  | cons x xs ih => rw [tokensList, map_cons, joined, ih]

def entryTokens (e : Text × QObject φ) : List Lexeme :=
  ⟨.string, quoted signed e.1⟩ :: op colon :: tokens signed e.2

lemma tokensDict_eq (es : List (Text × QObject φ)) (first : Bool) :
    tokensDict signed es first = joined (es.map (entryTokens signed)) first := by
  induction es generalizing first with
  | nil => rfl
  | cons e es ih => rw [tokensDict, map_cons, joined, ih, entryTokens, append_assoc]

/-- A list comes back if its elements do. -/
lemma finds_list {xs : List (QObject φ)} (hn : (tokens signed (.list xs)).length ≤ n)
    (h : ∀ x ∈ xs, Finds (V := V) (parseValue n) (tokens signed x) (recodeObject signed x)) :
    Finds (V := V) (parseValue (n + 1)) (tokens signed (.list xs))
      (recodeObject signed (.list xs)) := by
  intro rest err
  rw [tokens, tokensList_eq] at hn ⊢
  have hlen := length_le_joined (xs.map (tokens signed))
    (fun it hit => by obtain ⟨x, -, rfl⟩ := mem_map.1 hit; exact (tokens_head signed x).1) true
  have hfuel : xs.length ≤ n := by
    simp at hlen hn
    omega
  rw [recodeObject, parseValue, cons_append, append_assoc, singleton_append, orElse,
    parseObject, parseGroup_of_ne (by decide)]
  show orElse _ _ _ = _
  rw [orElse, parseArray, parseGroup_joined (show rbracket ≠ comma by decide) xs
    (fun x hx => takes_element (h x hx))
    (fun x _ => ⟨(tokens_head signed x).1, (tokens_head signed x).2.1⟩) hfuel, foldl_append_recode]
  rfl

/-- A dict comes back if its keys and values do. -/
lemma finds_dict {es : List (Text × QObject φ)} (hn : (tokens signed (.dict es)).length ≤ n)
    (hkey : ∀ e ∈ es, Finds (V := V) (parseValue n) [⟨.string, quoted signed e.1⟩]
      (.string (recodeText signed e.1)))
    (h : ∀ e ∈ es, Finds (V := V) (parseValue n) (tokens signed e.2) (recodeObject signed e.2)) :
    Finds (V := V) (parseValue (n + 1)) (tokens signed (.dict es))
      (recodeObject signed (.dict es)) := by
  intro rest err
  rw [tokens, tokensDict_eq] at hn ⊢
  have hlen := length_le_joined (es.map (entryTokens signed))
    (fun it hit => by obtain ⟨e, -, rfl⟩ := mem_map.1 hit; exact cons_ne_nil _ _) true
  have hfuel : es.length ≤ n := by
    simp at hlen hn
    omega
  have htakes (e : Text × QObject φ) (he : e ∈ es) :
      Takes (parsePair (parseValue n)) (entryTokens signed e)
      (fun acc => qdictPut acc (recodeText signed e.1) (recodeObject signed e.2)) :=
    takes_pair (hkey e he) (h e he)
  have hhead (e : Text × QObject φ) : (entryTokens signed e).head? ≠ some (op rbrace) := by
    simp [entryTokens, op]
  rw [recodeObject, parseValue, cons_append, append_assoc, singleton_append, orElse,
    parseObject, parseGroup_joined (show rbrace ≠ comma by decide) es
      htakes (fun e _ => ⟨cons_ne_nil _ _, hhead e⟩) hfuel,
    foldl_put_recode]
  rfl

/-- **The parser makes of the tokens of an object the object with its texts recoded.** -/
theorem parse_tokens (o : QObject φ) (n : ℕ) (hplain : o.Plain Utf8)
    (hn : (tokens signed o).length ≤ n) :
    Finds (V := V) (parseValue (n + 1)) (tokens signed o) (recodeObject signed o) := by
  induction o generalizing n with
  | int i =>
    rw [tokens, recodeObject]
    exact finds_int i n
  | float => exact hplain.elim
  | bool b =>
    rw [tokens, recodeObject]
    exact finds_bool b n
  | string s =>
    rw [tokens, recodeObject]
    exact finds_string signed hplain n
  | list xs ih =>
    rw [Plain, plainList_iff] at hplain
    refine finds_list signed hn fun x hx => ?_
    have hlen := length_joined_le (mem_map_of_mem (f := tokens signed) hx) true
    rw [tokens, tokensList_eq] at hn
    simp only [length_cons, length_append] at hn
    obtain ⟨n, rfl⟩ := Nat.exists_eq_add_of_le' (show 1 ≤ n by omega)
    exact ih x hx n (hplain x hx) (by omega)
  | dict es ih =>
    rw [Plain, plainDict_iff] at hplain
    have hpos : 1 ≤ n := by
      rw [tokens] at hn
      simp only [length_cons] at hn
      omega
    obtain ⟨n, rfl⟩ := Nat.exists_eq_add_of_le' hpos
    refine finds_dict signed hn (fun e he => finds_string signed (hplain e he).1 n) fun e he => ?_
    have hlen := length_joined_le (mem_map_of_mem (f := entryTokens signed) he) true
    rw [tokens, tokensDict_eq] at hn
    simp only [length_cons, length_append, entryTokens] at hn hlen
    exact ih e he n (hplain e he).2 (by omega)

/-! ## What comes back -/

/-- **What is printed is read as the object with its texts recoded.** -/
theorem from_toJson (pretty : Bool) (V : VaList φ) (o : QObject φ) (hplain : o.Plain Utf8)
    (hdepth : o.depth ≤ 1024) (hsize : Streamer.sizeOf (tokens signed o) ≤ maxTokenSize) :
    qobjectFromJsonv V (toJson signed pretty o 0) none = .ok (some (recodeObject signed o)) := by
  obtain ⟨out, hone, hout⟩ := map_eq_singleton_iff.1
    (emitted_toJson signed pretty o hplain hdepth hsize)
  obtain ⟨t, ts, hts⟩ := exists_cons_of_ne_nil (tokens_head signed o).1
  have hvalue := parse_tokens signed (V := V) o (tokens signed o).length hplain le_rfl [] none
  have hparse : jsonParserParse V (some (tokens signed o)) none =
      .ok (some (recodeObject signed o), none, none) := by
    rw [append_nil] at hvalue
    rw [hts] at hvalue ⊢
    rw [jsonParserParse, hvalue]
    · rfl
    · simp
  rw [qobjectFromJsonv, hone]
  simp only [foldlM_cons, foldlM_nil, hout, hparse]
  rfl

end Tokens

/-- A text in UTF-8 without characters above `U+FFFF`. -/
def Bmp (s : Text) : Prop := ∃ cps, (∀ cp ∈ cps, IsScalar cp ∧ cp ≤ 0xFFFF) ∧ s = utf8 cps

lemma recodeText_utf8 {cps : List (BitVec 21)} (h : ∀ cp ∈ cps, IsScalar cp) :
    recodeText signed (utf8 cps) = recode signed cps := by
  rw [recodeText, unescape_escape signed fun cp hcp => (h cp hcp).1]

/-- A text of the first plane comes back. -/
lemma recodeText_bmp (h : Bmp s) : recodeText signed s = s := by
  obtain ⟨cps, hcps, rfl⟩ := h
  have hscalar : ∀ cp ∈ cps, IsScalar cp := fun cp hcp => (hcps cp hcp).1
  rw [recodeText_utf8 signed hscalar,
    (recode_eq_iff signed fun cp hcp => (hscalar cp hcp).1).2 fun cp hcp => (hcps cp hcp).2]

/-- No byte of the text starts a character of four bytes. -/
def NoLead (s : Text) : Prop := ∀ ch ∈ s, ch < 0xF0

/-- No text comes back with a character of another plane. -/
lemma noLead_recodeText (h : Utf8 s) : NoLead (recodeText signed s) := by
  obtain ⟨cps, hcps, rfl⟩ := h
  rw [recodeText_utf8 signed hcps]
  exact recode_lt signed fun cp hcp => (hcps cp hcp).1

lemma bmp_of_noLead (h : Utf8 s) (h' : NoLead s) : Bmp s := by
  obtain ⟨cps, hcps, rfl⟩ := h
  refine ⟨cps, fun cp hcp => ⟨hcps cp hcp, ?_⟩, rfl⟩
  by_contra hastral
  obtain ⟨ch, hch, hlead⟩ := utf8Char_astral hastral
  exact hlead (h' ch (mem_flatMap.2 ⟨cp, hcp, hch⟩))

/-- A property of all recoded keys and values is one of the recoded dict. -/
lemma plainDict_recodeDict {p : Text → Prop} {es : List (Text × QObject φ)}
    (h : ∀ e ∈ es, p (recodeText signed e.1) ∧ (recodeObject signed e.2).Plain p) (acc : QDict φ)
    (hacc : PlainDict p acc) : PlainDict p (recodeDict signed es acc) := by
  induction es generalizing acc with
  | nil => exact hacc
  | cons e es ih =>
    rw [forall_mem_cons] at h
    rw [recodeDict]
    refine ih h.2 _ (plainDict_iff.2 fun e' he' => ?_)
    rcases mem_qdictPut he' with rfl | he'
    · exact h.1
    · exact plainDict_iff.1 hacc e' he'

/-- No text of the object that comes back has a character above `U+FFFF`. -/
theorem noLead_recode (o : QObject φ) (h : o.Plain Utf8) :
    (recodeObject signed o).Plain NoLead := by
  induction o with
  | int | bool =>
    rw [recodeObject]
    exact h
  | float => exact h.elim
  | string s =>
    rw [recodeObject]
    exact noLead_recodeText signed h
  | list xs ih =>
    rw [Plain, plainList_iff] at h
    rw [recodeObject, recodeList_eq, Plain, plainList_iff]
    exact forall_mem_map.2 fun x hx => ih x hx (h x hx)
  | dict es ih =>
    rw [Plain, plainDict_iff] at h
    rw [recodeObject, Plain]
    exact plainDict_recodeDict signed
      (fun e he => ⟨noLead_recodeText signed (h e he).1, ih e he (h e he).2⟩)
      [] trivial

/-- Keys that are not changed by recoding lead to the recoded values. -/
lemma lookup_recodeDict {es : List (Text × QObject φ)} (hes : (es.map Prod.fst).Nodup)
    (hkeys : ∀ e ∈ es, recodeText signed e.1 = e.1) (acc : QDict φ) (key : Text) :
    (recodeDict signed es acc).lookup key =
      ((es.lookup key).map (recodeObject signed)).or (acc.lookup key) := by
  induction es generalizing acc with
  | nil => rw [recodeDict, lookup_nil, Option.map_none, Option.none_or]
  | cons e es ih =>
    rw [map_cons, nodup_cons] at hes
    rw [forall_mem_cons] at hkeys
    obtain ⟨k, x⟩ := e
    rw [recodeDict, ih hes.2 hkeys.2, lookup_qdictPut, lookup_cons, hkeys.1]
    by_cases hk : key = k
    · subst hk
      have hnone : es.lookup key = none := by
        rw [lookup_eq_none_iff]
        intro e he
        rw [bne_iff_ne]
        intro heq
        exact hes.1 (mem_map.2 ⟨e, he, heq.symm⟩)
      simp [hnone]
    · simp [hk, beq_eq_false_iff_ne.2 hk]

/-- An object without characters above `U+FFFF` comes back. -/
theorem same_recode (o : QObject φ) (hwf : o.WellFormed) (h : o.Plain Bmp) :
    Same o (recodeObject signed o) := by
  induction o with
  | int n =>
    rw [recodeObject]
    exact .int n
  | float => exact h.elim
  | bool b =>
    rw [recodeObject]
    exact .bool b
  | string s =>
    rw [recodeObject, recodeText_bmp signed h]
    exact .string s
  | list xs ih =>
    rw [WellFormed, wellFormedList_iff] at hwf
    rw [Plain, plainList_iff] at h
    rw [recodeObject, recodeList_eq]
    refine .list (length_map _).symm fun i x y hx hy => ?_
    rw [getElem?_map, hx] at hy
    cases hy
    have hmem := mem_of_getElem? hx
    exact ih x hmem (hwf x hmem) (h x hmem)
  | dict es ih =>
    rw [WellFormed, wellFormedDict_iff] at hwf
    rw [Plain, plainDict_iff] at h
    have hlookup := lookup_recodeDict signed hwf.1 (fun e he => recodeText_bmp signed (h e he).1) []
    rw [recodeObject]
    refine .dict (fun key => ?_) fun key x y hx hy => ?_
    · rw [hlookup]
      simp
    rw [hlookup, hx] at hy
    cases hy
    have hmem := mem_of_lookup hx
    exact ih _ hmem (hwf.2 _ hmem) (h _ hmem).2

end Recode

/-! ## Main theorem -/

/-- The text is read as an object equal to `o`. -/
def ComesBack [CDouble φ] (o : QObject φ) (chs : Text) : Prop :=
  ∃ o', qobjectFromJson φ chs = .ok (some o') ∧ Same o o'

/-- An object comes back exactly if all of its texts are of the first plane. -/
lemma comesBack_iff [CDouble φ] (signed pretty : Bool) (hwf : o.WellFormed) (hplain : o.Plain Utf8)
    (hdepth : o.depth ≤ 1024) (hsize : Streamer.sizeOf (tokens signed o) ≤ maxTokenSize) :
    ComesBack o (toJson signed pretty o 0) ↔ o.Plain Bmp := by
  have hfrom := from_toJson signed pretty (VaList.none φ) o hplain hdepth hsize
  constructor
  · rintro ⟨o', hread, hsame⟩
    rw [qobjectFromJson, hfrom] at hread
    cases hread
    exact Plain.imp₂ (fun _ => bmp_of_noLead) hplain
      (hsame.plain hwf (noLead_recode signed o hplain))
  · intro hbmp
    exact ⟨_, hfrom, same_recode signed o hwf hbmp⟩

/-- **Printing and parsing gives the object back exactly if no string or key in it has a character
above `U+FFFF`**, on hosts where `char` is signed and where it is not, for both printers. -/
theorem round_trip_iff [CDouble φ] (signed : Bool) (o : QObject φ) (hwf : o.WellFormed)
    (hplain : o.Plain Utf8) (hdepth : o.depth ≤ 1024)
    (hsize : Streamer.sizeOf (tokens signed o) ≤ maxTokenSize) :
    (ComesBack o (qobjectToJson signed o) ↔ o.Plain Bmp) ∧
      (ComesBack o (qobjectToJsonPretty signed o) ↔ o.Plain Bmp) :=
  ⟨comesBack_iff signed false hwf hplain hdepth hsize,
    comesBack_iff signed true hwf hplain hdepth hsize⟩

/-- A dict with a list, a number, a boolean and texts. -/
def menu : QObject Text :=
  .dict [(text "a", .list [.int (-7), .bool true]), (text "b", .string (utf8 [0x20AC, 0x22]))]

theorem menu_comes_back : ComesBack menu (qobjectToJsonPretty true menu) := by
  have hbmp : menu.Plain Bmp := by
    simp only [menu, Plain, PlainDict, PlainList, and_true]
    have hone (cp : BitVec 21) (h : IsScalar cp ∧ cp ≤ 0xFFFF) :
        ∀ cp' ∈ [cp], IsScalar cp' ∧ cp' ≤ 0xFFFF :=
      forall_mem_singleton.2 h
    exact ⟨⟨[0x61], hone _ (by decide), by decide⟩, trivial,
      ⟨[0x62], hone _ (by decide), by decide⟩, [0x20AC, 0x22],
      forall_mem_cons.2 ⟨by decide, hone _ (by decide)⟩, rfl⟩
  have hutf8 : menu.Plain Utf8 :=
    hbmp.imp₂ (fun _ h _ => h.imp fun _ hcps => ⟨fun cp hcp => (hcps.1 cp hcp).1, hcps.2⟩) hbmp
  have hwf : menu.WellFormed := by
    simp only [menu, WellFormed, WellFormedDict, WellFormedList, and_true]
    decide
  exact (round_trip_iff true menu hwf hutf8 (by decide) (by decide +kernel)).2.2 hbmp

/-- A character of another plane does not come back. -/
lemma not_comesBack_astral (signed : Bool) : ¬ComesBack (.string (utf8 [0x1F600]) : QObject Text)
      (qobjectToJson signed (.string (utf8 [0x1F600]) : QObject Text)) := by
  have hscalar : ∀ cp ∈ [(0x1F600 : BitVec 21)], IsScalar cp :=
    forall_mem_singleton.2 (by decide)
  have hutf8 : (string (utf8 [0x1F600]) : QObject Text).Plain Utf8 := by
    rw [Plain]
    exact ⟨_, hscalar, rfl⟩
  have hsize : Streamer.sizeOf (tokens signed (.string (utf8 [0x1F600]) : QObject Text)) ≤
      maxTokenSize := by
    revert signed
    decide +kernel
  rintro ⟨o', hread, hsame⟩
  have hfrom := from_toJson signed false (VaList.none Text) _ hutf8 (by decide) hsize
  rw [qobjectFromJson, qobjectToJson, hfrom] at hread
  cases hread
  have hlost : ∀ signed, recodeText signed (utf8 [0x1F600]) ≠ utf8 [0x1F600] := by decide +kernel
  rw [recodeObject] at hsame
  generalize hs : recodeText signed (utf8 [0x1F600]) = s at hsame
  cases hsame
  exact hlost signed hs

/-- A string of one character above `U+FFFF` does not come back. -/
theorem astral_lost : ¬ComesBack (.string (utf8 [0x1F600]) : QObject Text)
        (qobjectToJson true (.string (utf8 [0x1F600]) : QObject Text)) ∧
      ¬ComesBack (.string (utf8 [0x1F600]) : QObject Text)
        (qobjectToJson false (.string (utf8 [0x1F600]) : QObject Text)) :=
  ⟨not_comesBack_astral true, not_comesBack_astral false⟩

end Qemu.Json
