import Qemu.Json.Lexer

/-!
# Objects

The `QObject`s that JSON texts stand for.  A `QDict` is a table of 512 lists; `QDict` below is the
list of its entries in the order in which `qdict_iter` visits them, bucket after bucket.

The order of the entries matters, because it is the order in which an object is printed.

**Main results:**
- `lookup_qdictPut`: `qdict_put_obj` changes the value of one key
- `Same.plain`: objects that are equal, with dicts compared as maps, have the same texts
-/

namespace Qemu.Json

open List

/-- The numbers of type `double`, as far as they are printed and read. -/
class CDouble (φ : Type) where
  /-- The output of `%f`. -/
  fmt : φ → Text
  strtod : Text → φ

/-- The text of a string is the part before its terminating NUL. -/
inductive QObject (φ : Type)
  | int (n : BitVec 64)
  | float (x : φ)
  | bool (b : Bool)
  | string (s : Text)
  | list (xs : List (QObject φ))
  | dict (es : List (Text × QObject φ))

abbrev QDict (φ : Type) := List (Text × QObject φ)

variable {φ : Type}

/-! ## The hash table -/

/-- `tdb_hash`. -/
def tdbHash (name : Text) : BitVec 32 :=
  let add (value : BitVec 32) (e : Byte × ℕ) : BitVec 32 :=
    value + (e.1.setWidth 32 <<< (e.2 * 5 % 24))
  1103515243 * name.zipIdx.foldl add (0x238F13AF * BitVec.ofNat 32 name.length) + 12345

/-- `QDICT_BUCKET_MAX`. -/
def qdictBucketMax : ℕ := 512

/-- The list of the table that a key belongs to. -/
def bucket (key : Text) : ℕ := (tdbHash key).toNat % qdictBucketMax

/-- A new entry becomes the head of its bucket. -/
def qdictInsert (key : Text) (value : QObject φ) : QDict φ → QDict φ
  | [] => [(key, value)]
  | e :: es =>
    if bucket key ≤ bucket e.1 then (key, value) :: e :: es else e :: qdictInsert key value es

/-- The value of a key that is there already. -/
def qdictReplace (key : Text) (value : QObject φ) : QDict φ → QDict φ
  | [] => []
  | e :: es => if e.1 = key then (key, value) :: es else e :: qdictReplace key value es

/-- `qdict_put_obj`. -/
def qdictPut (es : QDict φ) (key : Text) (value : QObject φ) : QDict φ :=
  if key ∈ es.map Prod.fst then qdictReplace key value es else qdictInsert key value es

variable {es : QDict φ} {key : Text} {e : Text × QObject φ} {value : QObject φ}

/-- What is found after a new entry was inserted. -/
lemma lookup_qdictInsert (h : key ∉ es.map Prod.fst) (value : QObject φ) (k : Text) :
    (qdictInsert key value es).lookup k = if k = key then some value else es.lookup k := by
  induction es with
  | nil =>
    by_cases hk : k = key <;> simp [qdictInsert, lookup, hk, beq_eq_false_iff_ne.2]
  | cons e es ih =>
    simp only [map_cons, mem_cons, not_or] at h
    rw [qdictInsert]
    split_ifs with hb hk hk
    · simp [lookup, hk]
    · simp [lookup, hk, beq_eq_false_iff_ne.2]
    · rw [lookup_cons, ih h.2, if_pos hk, beq_eq_false_iff_ne.2 (hk ▸ h.1)]
    · rw [lookup_cons, lookup_cons, ih h.2, if_neg hk]

lemma lookup_qdictReplace (h : key ∈ es.map Prod.fst) (value : QObject φ) (k : Text) :
    (qdictReplace key value es).lookup k = if k = key then some value else es.lookup k := by
  induction es with
  | nil => simp at h
  | cons e es ih =>
    rw [qdictReplace]
    split_ifs with he hk hk
    · simp [lookup, hk]
    · rw [lookup_cons, lookup_cons, he, beq_eq_false_iff_ne.2 hk]
    · rw [lookup_cons, ih (by simpa [Ne.symm he] using h), if_pos hk,
        beq_eq_false_iff_ne.2 (hk ▸ Ne.symm he)]
    · rw [lookup_cons, lookup_cons, ih (by simpa [Ne.symm he] using h), if_neg hk]

/-- `qdict_put_obj` changes the value of one key. -/
theorem lookup_qdictPut (es : QDict φ) (key : Text) (value : QObject φ) (k : Text) :
    (qdictPut es key value).lookup k = if k = key then some value else es.lookup k := by
  unfold qdictPut
  split_ifs with h hk hk
  · rw [lookup_qdictReplace h, if_pos hk]
  · rw [lookup_qdictReplace h, if_neg hk]
  · rw [lookup_qdictInsert h, if_pos hk]
  · rw [lookup_qdictInsert h, if_neg hk]

/-! ## The parts of an object -/

namespace QObject

mutual

/-- The object has no floats in it, and all its strings and keys have the property. -/
def Plain (p : Text → Prop) : QObject φ → Prop
  | .int _ => True
  | .float _ => False
  | .bool _ => True
  | .string s => p s
  | .list xs => PlainList p xs
  | .dict es => PlainDict p es

def PlainList (p : Text → Prop) : List (QObject φ) → Prop
  | [] => True
  | x :: xs => Plain p x ∧ PlainList p xs

def PlainDict (p : Text → Prop) : List (Text × QObject φ) → Prop
  | [] => True
  | (key, x) :: es => p key ∧ Plain p x ∧ PlainDict p es

end

mutual

/-- No dict has a key twice. -/
def WellFormed : QObject φ → Prop
  | .int _ => True
  | .float _ => True
  | .bool _ => True
  | .string _ => True
  | .list xs => WellFormedList xs
  | .dict es => (es.map Prod.fst).Nodup ∧ WellFormedDict es

def WellFormedList : List (QObject φ) → Prop
  | [] => True
  | x :: xs => WellFormed x ∧ WellFormedList xs

def WellFormedDict : List (Text × QObject φ) → Prop
  | [] => True
  | (_, x) :: es => WellFormed x ∧ WellFormedDict es

end

mutual

/-- The number of lists and dicts around a part of the object. -/
def depth : QObject φ → ℕ
  | .int _ => 0
  | .float _ => 0
  | .bool _ => 0
  | .string _ => 0
  | .list xs => depthList xs + 1
  | .dict es => depthDict es + 1

def depthList : List (QObject φ) → ℕ
  | [] => 0
  | x :: xs => max (depth x) (depthList xs)

def depthDict : List (Text × QObject φ) → ℕ
  | [] => 0
  | (_, x) :: es => max (depth x) (depthDict es)

end

variable {p q r : Text → Prop}

lemma plainList_iff {xs : List (QObject φ)} : PlainList p xs ↔ ∀ x ∈ xs, Plain p x := by
  induction xs with
  | nil => simp [PlainList]
  | cons x xs ih => rw [PlainList, ih, forall_mem_cons]

lemma plainDict_iff : PlainDict p es ↔ ∀ e ∈ es, p e.1 ∧ Plain p e.2 := by
  induction es with
  | nil => simp [PlainDict]
  | cons e es ih => rw [PlainDict, ih, forall_mem_cons, and_assoc]

lemma wellFormedList_iff {xs : List (QObject φ)} : WellFormedList xs ↔ ∀ x ∈ xs, WellFormed x := by
  induction xs with
  | nil => simp [WellFormedList]
  | cons x xs ih => rw [WellFormedList, ih, forall_mem_cons]

lemma wellFormedDict_iff : WellFormedDict es ↔ ∀ e ∈ es, WellFormed e.2 := by
  induction es with
  | nil => simp [WellFormedDict]
  | cons e es ih => rw [WellFormedDict, ih, forall_mem_cons]

/-- Induction on the parts of an object. -/
@[elab_as_elim, induction_eliminator]
lemma induct {P : QObject φ → Prop} (int : ∀ n, P (.int n)) (float : ∀ x, P (.float x))
    (bool : ∀ b, P (.bool b)) (string : ∀ s, P (.string s))
    (list : ∀ xs, (∀ x ∈ xs, P x) → P (.list xs))
    (dict : ∀ es : QDict φ, (∀ e ∈ es, P e.2) → P (.dict es)) (o : QObject φ) : P o :=
  @QObject.rec φ P (fun xs => ∀ x ∈ xs, P x) (fun es => ∀ e ∈ es, P e.2)
    (fun e => P e.2) int float bool
    string list dict (by simp) (fun _ _ h hs => forall_mem_cons.2 ⟨h, hs⟩) (by simp)
    (fun _ _ h hs => forall_mem_cons.2 ⟨h, hs⟩) (fun _ _ h => h) o

/-- Two properties of all texts of an object are one. -/
lemma Plain.imp₂ (h : ∀ s, p s → q s → r s) {o : QObject φ} (hp : Plain p o) (hq : Plain q o) :
    Plain r o := by
  induction o with
  | int | float | bool => exact hp
  | string s => exact h s hp hq
  | list xs ih =>
    rw [Plain, plainList_iff] at hp hq ⊢
    exact fun x hx => ih x hx (hp x hx) (hq x hx)
  | dict es ih =>
    rw [Plain, plainDict_iff] at hp hq ⊢
    exact fun e he => ⟨h _ (hp e he).1 (hq e he).1, ih e he (hp e he).2 (hq e he).2⟩

end QObject

/-! ## Equality -/

/-- Objects are equal, with dicts compared as maps. -/
inductive Same : QObject φ → QObject φ → Prop
  | int (n : BitVec 64) : Same (.int n) (.int n)
  | float (x : φ) : Same (.float x) (.float x)
  | bool (b : Bool) : Same (.bool b) (.bool b)
  | string (s : Text) : Same (.string s) (.string s)
  | list {xs ys : List (QObject φ)} (hlen : xs.length = ys.length)
      (h : ∀ (i : ℕ) x y, xs[i]? = some x → ys[i]? = some y → Same x y) : Same (.list xs) (.list ys)
  | dict {es fs : QDict φ} (hkeys : ∀ key, es.lookup key = none ↔ fs.lookup key = none)
      (h : ∀ key x y, es.lookup key = some x → fs.lookup key = some y → Same x y) :
      Same (.dict es) (.dict fs)

lemma mem_of_lookup {x : QObject φ} (h : es.lookup key = some x) : (key, x) ∈ es := by
  obtain ⟨l, l', rfl, -⟩ := lookup_eq_some_iff.1 h
  simp

lemma lookup_of_mem (hes : (es.map Prod.fst).Nodup) (h : e ∈ es) : es.lookup e.1 = some e.2 := by
  induction es with
  | nil => exact absurd h not_mem_nil
  | cons e' es ih =>
    rw [map_cons, nodup_cons] at hes
    rcases mem_cons.1 h with rfl | h
    · exact lookup_cons_self
    · have hne : e.1 ≠ e'.1 := fun heq => hes.1 (heq ▸ mem_map_of_mem h)
      rw [lookup_cons, beq_eq_false_iff_ne.2 hne]
      exact ih hes.2 h

/-- Equal objects have the same texts. -/
theorem Same.plain {p : Text → Prop} {o o' : QObject φ} (h : Same o o') (hwf : o.WellFormed)
    (h' : o'.Plain p) : o.Plain p := by
  induction h with
  | int | float | bool | string => exact h'
  | @list xs ys hlen h ih =>
    rw [QObject.WellFormed, QObject.wellFormedList_iff] at hwf
    rw [QObject.Plain, QObject.plainList_iff] at h' ⊢
    intro x hx
    obtain ⟨i, hi, rfl⟩ := getElem_of_mem hx
    have hi' : i < ys.length := hlen ▸ hi
    exact ih i xs[i] ys[i] (getElem?_eq_getElem hi) (getElem?_eq_getElem hi') (hwf _ hx)
      (h' _ (getElem_mem hi'))
  | @dict es fs hkeys h ih =>
    rw [QObject.WellFormed, QObject.wellFormedDict_iff] at hwf
    rw [QObject.Plain, QObject.plainDict_iff] at h' ⊢
    intro e he
    have hlookup := lookup_of_mem hwf.1 he
    obtain ⟨y, hy⟩ := Option.ne_none_iff_exists'.1
      (fun hnone => absurd ((hkeys e.1).2 hnone) (by rw [hlookup]; simp))
    have hmem := h' _ (mem_of_lookup hy)
    exact ⟨hmem.1, ih e.1 e.2 y hlookup hy (hwf.2 e he) hmem.2⟩

lemma mem_qdictInsert (h : e ∈ qdictInsert key value es) : e = (key, value) ∨ e ∈ es := by
  induction es with
  | nil => exact .inl (mem_singleton.1 h)
  | cons e' es ih =>
    rw [qdictInsert] at h
    split_ifs at h
    · exact mem_cons.1 h
    · rcases mem_cons.1 h with h | h
      · exact .inr (h ▸ mem_cons_self)
      · exact (ih h).imp_right (mem_cons_of_mem _)

lemma mem_qdictReplace (h : e ∈ qdictReplace key value es) : e = (key, value) ∨ e ∈ es := by
  induction es with
  | nil => exact absurd h not_mem_nil
  | cons e' es ih =>
    rw [qdictReplace] at h
    split_ifs at h
    · exact (mem_cons.1 h).imp_right (mem_cons_of_mem _)
    · rcases mem_cons.1 h with h | h
      · exact .inr (h ▸ mem_cons_self)
      · exact (ih h).imp_right (mem_cons_of_mem _)

/-- A dict has no other entries after `qdict_put`. -/
lemma mem_qdictPut (h : e ∈ qdictPut es key value) : e = (key, value) ∨ e ∈ es := by
  unfold qdictPut at h
  split_ifs at h
  · exact mem_qdictReplace h
  · exact mem_qdictInsert h

end Qemu.Json
