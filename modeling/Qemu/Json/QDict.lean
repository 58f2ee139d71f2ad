import Qemu.Json.QObject

/-!
# Dictionaries

`qdict.c`: the table of 512 lists that a `QDict` is, and the two ways to visit its entries.

The table is what the rest of QEMU sees of a dictionary, while the parser only needs a map.  So
the table is compared with a map, call by call, and the two walks with the list of its entries.

**Main results:**
- `Holds.put`, `Holds.del`: a call does to the table what it does to a finite map
- `qdict_finite_map`: after any calls, the table has the entries of the map, and each is visited
  once
-/

namespace Qemu.Json

open Function

variable {V : Type}

/-- `QDictEntry`, a key and its value. -/
abbrev QDictEntry (V : Type) := Σ _ : Text, V

abbrev Entries (V : Type) := List (QDictEntry V)

/-- `QDict`.  A list of the table has each of its keys once. -/
structure QDictTable (V : Type) where
  size : ℕ
  table : ℕ → AList fun _ : Text => V

/-- `qdict_new`. -/
def qdictNew : QDictTable V := ⟨0, fun _ => ∅⟩

namespace QDictTable

variable (q : QDictTable V)

/-- `qdict_find`, which finds the value of an entry. -/
def qdictFind (key : Text) (bucket : ℕ) : Option V := (q.table bucket).lookup key

/-- `qdict_get`. -/
def qdictGet (key : Text) : Option V := q.qdictFind key (bucket key)

/-- `qdict_haskey`. -/
def qdictHaskey (key : Text) : Bool := (q.qdictFind key (bucket key)).isSome

/-- `QLIST_INSERT_HEAD` of an entry, whose key must not be in the list. -/
def insertHead (es : AList fun _ : Text => V) (key : Text) (value : V) (h : key ∉ es) :
    AList fun _ : Text => V :=
  ⟨⟨key, value⟩ :: es.entries, List.nodupKeys_cons.2 ⟨h, es.nodupKeys⟩⟩

/-- `qdict_put_obj`: a value is replaced in place, and a new entry becomes the head. -/
def qdictPutObj (key : Text) (value : V) : QDictTable V :=
  let es := q.table (bucket key)
  if h : (q.qdictFind key (bucket key)).isSome then
    { q with table := update q.table (bucket key) (es.replace key value) }
  else
    ⟨q.size + 1, update q.table (bucket key) (insertHead es key value (mt AList.lookup_isSome.2 h))⟩

/-- `qdict_del`. -/
def qdictDel (key : Text) : QDictTable V :=
  if (q.qdictFind key (bucket key)).isSome then
    ⟨q.size - 1, update q.table (bucket key) ((q.table (bucket key)).erase key)⟩
  else q

/-- The lists of the table from a bucket on. -/
def buckets (i : ℕ) : List (Entries V) :=
  (List.range' i (qdictBucketMax - i)).map fun i => (q.table i).entries

/-- What `qdict_iter` visits. -/
def qdictIter : Entries V := (q.buckets 0).flatten

/-- `qdict_next_entry`.  A pointer to an entry is the list from it on, and empty for `NULL`. -/
def qdictNextEntry (firstBucket : ℕ) : Entries V :=
  ((q.buckets firstBucket).find? (!·.isEmpty)).getD []

/-- `qdict_first`. -/
def qdictFirst : Entries V := q.qdictNextEntry 0

/-- `qdict_next`, after an entry and a pointer to what follows in its list. -/
def qdictNext (entry : QDictEntry V) : Entries V → Entries V
  | [] => q.qdictNextEntry (bucket entry.1 + 1)
  | next => next

/-- The walk by `qdict_next` visits these entries from a pointer on. -/
inductive Visits : Entries V → Entries V → Prop
  | null : Visits [] []
  | entry {entry : QDictEntry V} {next es : Entries V} (h : Visits (q.qdictNext entry next) es) :
      Visits (entry :: next) (entry :: es)

end QDictTable

/-- The calls that change a dict. -/
inductive QDictCall (V : Type)
  | put (key : Text) (value : V)
  | del (key : Text)

namespace QDictCall

/-- What a call does to the table. -/
def run (q : QDictTable V) : QDictCall V → QDictTable V
  | put key value => q.qdictPutObj key value
  | del key => q.qdictDel key

/-- What a call does to a map. -/
def onMap (m : Text → Option V) : QDictCall V → Text → Option V
  | put key value => update m key (some value)
  | del key => update m key none

end QDictCall

/-! ## The table as a map -/

open QDictTable List

variable {q : QDictTable V} {m : Text → Option V} {key : Text} {es : AList fun _ : Text => V}

/-- The table has the entries of the map. -/
structure Holds (q : QDictTable V) (m : Text → Option V) : Prop where
  lookup : ∀ i k, (q.table i).lookup k = if i = bucket k then m k else none
  size : q.size = ∑ i ∈ Finset.range qdictBucketMax, (q.table i).entries.length

lemma bucket_lt (key : Text) : bucket key < qdictBucketMax := Nat.mod_lt _ (by decide)

/-- Looking up a key in its bucket. -/
lemma Holds.find (h : Holds q m) (key : Text) : q.qdictFind key (bucket key) = m key := by
  rw [qdictFind, h.lookup, if_pos rfl]

/-- A list of the table changes at one key. -/
lemma Holds.update (h : Holds q m) {size : ℕ} {value : Option V}
    (hes : ∀ k, es.lookup k = if k = key then value else (q.table (bucket key)).lookup k)
    (hsize : size + (q.table (bucket key)).entries.length = q.size + es.entries.length) :
    Holds ⟨size, update q.table (bucket key) es⟩ (update m key value) where
  lookup i k := by
    simp only [update_apply]
    by_cases hi : i = bucket key
    · rw [if_pos hi, hes, h.lookup, hi]
      by_cases hk : k = key
      · rw [hk, if_pos rfl, if_pos rfl, if_pos rfl]
      · rw [if_neg hk, if_neg hk]
    · rw [if_neg hi, h.lookup]
      by_cases hk : k = key
      · rw [hk, if_neg hi, if_neg hi]
      · rw [if_neg hk]
  size := by
    have hmem : bucket key ∈ Finset.range qdictBucketMax := Finset.mem_range.2 (bucket_lt key)
    have hsum := h.size
    rw [← Finset.add_sum_erase _ _ hmem] at hsum ⊢
    simp only [update_self]
    rw [Finset.sum_congr rfl fun i hi => by rw [update_of_ne (Finset.ne_of_mem_erase hi)]]
    omega

/-- What is found after a value was replaced. -/
lemma dlookup_kreplace (value : V) {es : Entries V} (h : key ∈ es.keys) (k : Text) :
    (es.kreplace key value).dlookup k = if k = key then some value else es.dlookup k := by
  induction es with
  | nil => simp at h
  | cons e es ih =>
    by_cases he : key = e.1
    · rw [kreplace, lookmap_cons_some _ _ (dif_pos he)]
      split_ifs with hk
      · rw [hk, dlookup_cons_eq]
      · rw [dlookup_cons_ne _ _ hk, dlookup_cons_ne _ _ (he ▸ hk)]
    rw [kreplace, lookmap_cons_none _ _ (dif_neg he)]
    have hkey : key ∈ es.keys := (mem_cons.1 h).resolve_left he
    by_cases hk : k = e.1
    · rw [hk, if_neg (Ne.symm he)]
      cases e
      rw [dlookup_cons_eq, dlookup_cons_eq]
    · rw [dlookup_cons_ne _ _ hk, dlookup_cons_ne _ _ hk]
      exact ih hkey

/-- What is found after an entry was inserted. -/
lemma lookup_insertHead (value : V) (h : key ∉ es) (k : Text) :
    (insertHead es key value h).lookup k = if k = key then some value else es.lookup k := by
  rw [AList.lookup, insertHead]
  split_ifs with hk
  · rw [hk, dlookup_cons_eq]
  · rw [dlookup_cons_ne _ _ hk, AList.lookup]

/-- Both branches of `qdict_put_obj` change the map alike. -/
lemma Holds.put (h : Holds q m) (key : Text) (value : V) :
    Holds (q.qdictPutObj key value) (Function.update m key (some value)) := by
  rw [qdictPutObj]
  split_ifs with hfind
  · refine h.update (dlookup_kreplace value (AList.lookup_isSome.1 hfind)) ?_
    simp only [AList.replace, kreplace, length_lookmap]
  refine h.update (lookup_insertHead value _) ?_
  rw [insertHead, length_cons]
  omega

/-- A key that is deleted is not found any more. -/
lemma Holds.del (h : Holds q m) (key : Text) :
    Holds (q.qdictDel key) (Function.update m key none) := by
  rw [qdictDel]
  split_ifs with hfind
  · refine h.update (fun k => ?_) ?_
    · split_ifs with hk
      · rw [hk, AList.lookup_erase]
      · rw [AList.lookup_erase_ne hk]
    obtain ⟨v, l₁, l₂, -, hl, hk⟩ := exists_of_kerase (AList.lookup_isSome.1 hfind)
    have hle := Finset.single_le_sum (f := fun i => (q.table i).entries.length)
      (fun _ _ => Nat.zero_le _)
      (Finset.mem_range.2 (bucket_lt key))
    rw [← h.size] at hle
    rw [show ((q.table (bucket key)).erase key).entries = l₁ ++ l₂ from hk]
    simp only [hl, length_append, length_cons] at hle ⊢
    omega
  · rw [update_eq_self_iff.2]
    · exact h
    · rw [← h.find, Option.not_isSome_iff_eq_none.1 hfind]

lemma holds_qdictNew : Holds (qdictNew : QDictTable V) fun _ => none :=
  ⟨fun _ _ => (ite_self none).symm, by simp [qdictNew]⟩

/-- After any calls the table has the entries of the map. -/
lemma Holds.foldl (h : Holds q m) (calls : List (QDictCall V)) :
    Holds (calls.foldl QDictCall.run q) (calls.foldl QDictCall.onMap m) := by
  induction calls generalizing q m with
  | nil => exact h
  | cons c calls ih =>
    cases c with
    | put key value => exact ih (h.put key value)
    | del key => exact ih (h.del key)

/-- An entry is in the bucket of its key. -/
lemma Holds.mem_entries (h : Holds q m) {i : ℕ} {e : QDictEntry V} :
    e ∈ (q.table i).entries ↔ i = bucket e.1 ∧ m e.1 = some e.2 := by
  rw [show e = ⟨e.1, e.2⟩ from rfl, ← AList.mem_lookup_iff, h.lookup, Option.mem_def,
    Option.ite_none_right_eq_some]

lemma Holds.mem_iter (h : Holds q m) (e : QDictEntry V) : e ∈ q.qdictIter ↔ m e.1 = some e.2 := by
  simp only [qdictIter, buckets, ← flatMap_def, mem_flatMap, h.mem_entries]
  constructor
  · rintro ⟨_, -, -, hm⟩
    exact hm
  · intro hm
    exact ⟨_, List.mem_range'_1.2 ⟨Nat.zero_le _, (bucket_lt _).trans_eq (by simp)⟩, rfl, hm⟩

/-- No entry is visited twice. -/
lemma Holds.nodup_iter (h : Holds q m) : q.qdictIter.Nodup := by
  refine List.nodup_flatMap.2 ⟨fun i _ => (q.table i).nodupKeys.nodup, ?_⟩
  refine (nodup_range' ..).imp fun hne e hi hj => hne ?_
  exact (h.mem_entries.1 hi).1.trans (h.mem_entries.1 hj).1.symm

/-! ## The walk -/

/-- The walk through the rest of a list, and on to the next bucket. -/
lemma visits_append {i : ℕ} {p es : Entries V} (h : q.Visits (q.qdictNextEntry (i + 1)) es)
    (hne : p ≠ []) (hp : ∀ e ∈ p, bucket e.1 = i) : q.Visits p (p ++ es) := by
  induction p with
  | nil => exact absurd rfl hne
  | cons e p ih =>
    refine .entry ?_
    cases p with
    | nil =>
      rw [qdictNext, hp e mem_cons_self]
      exact h
    | cons e' p => exact ih (cons_ne_nil _ _) fun e he => hp e (mem_cons_of_mem _ he)

/-- The walk visits the buckets one after the other. -/
lemma Holds.visits (h : Holds q m) (i : ℕ) :
    q.Visits (q.qdictNextEntry i) (q.buckets i).flatten := by
  induction hn : qdictBucketMax - i generalizing i with
  | zero =>
    rw [qdictNextEntry, buckets, hn]
    exact .null
  | succ n ih =>
    have hrest := ih (i + 1) (by omega)
    have hcons : q.buckets i = (q.table i).entries :: q.buckets (i + 1) := by
      rw [buckets, hn, range'_succ, map_cons, buckets, show qdictBucketMax - (i + 1) = n by omega]
    rw [qdictNextEntry, hcons, find?_cons, flatten_cons]
    cases hes : (q.table i).entries with
    | nil => exact hrest
    | cons e es =>
      exact visits_append hrest (cons_ne_nil _ _) fun e' he' => (h.mem_entries.1 (hes ▸ he')).1.symm

/-- **A dict is a finite map**: after any calls it has the entries of the map that the calls make,
and both ways to visit its entries visit each of them once. -/
theorem qdict_finite_map (calls : List (QDictCall V)) :
    let q := calls.foldl QDictCall.run qdictNew
    let m := calls.foldl QDictCall.onMap fun _ => none
    (∀ key, q.qdictGet key = m key) ∧ (∀ key, q.qdictHaskey key = (m key).isSome) ∧
      q.qdictIter.Nodup ∧ (∀ e, e ∈ q.qdictIter ↔ m e.1 = some e.2) ∧ q.size = q.qdictIter.length ∧
      q.Visits q.qdictFirst q.qdictIter := by
  intro q m
  have h : Holds q m := holds_qdictNew.foldl calls
  have hsize : q.size = q.qdictIter.length := by
    rw [h.size, qdictIter, buckets, ← flatMap_def, length_flatMap, ← range_eq_range']
    rfl
  exact ⟨h.find, fun key => congrArg _ (h.find key), h.nodup_iter, h.mem_iter, hsize, h.visits 0⟩

end Qemu.Json
