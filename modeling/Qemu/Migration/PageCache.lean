import Mathlib

/-!
# The page cache of a migration

`page_cache.c`.  The cache has one item for each slot, and the slot of a page is taken from its
address.  Every insertion gives its item an age from a counter of the cache.

`cache_resize` moves the items one by one into a new cache.  The first item for a slot gets an age
from the counter of the *new* cache.  A further item for the slot replaces it if its own age, from
the counter of the old cache, is larger.

**Main results:**
- `cacheInit_valid`, `cacheInsert_valid`, `resized_valid`: the invariant of the cache
- `moved_spec`: which item ends up in each slot of the new cache
- `resizedRight_iff`: it is the youngest item of the slot exactly if the age that the first item
  gets compares with the ages of the others as its old age does
-/

namespace Qemu.PageCache

open Finset List Function

variable {D : Type}

/-! ## What the source computes -/

structure CacheItem (D : Type) where
  itAddr : ℕ
  itAge : ℕ
  itData : Option D

/-- A cache with its array of items.  Only the first `maxNumItems` items are there. -/
structure Cache (D : Type) where
  pageCache : ℕ → CacheItem D
  pageSize : ℕ
  maxNumItems : ℕ
  maxItemAge : ℕ
  numItems : ℕ

/-- `-1` as an address. -/
def noAddr : ℕ := 2 ^ 64 - 1

/-- `is_power_of_2`. -/
def isPowerOf2 (value : BitVec 64) : Bool := value ≠ 0#64 && value &&& (value - 1#64) == 0#64

/-- `pow2floor`. -/
def pow2floor (value : BitVec 64) : BitVec 64 :=
  if isPowerOf2 value = true then value else 0x8000000000000000#64 >>> value.clz

/-- `cache_init`. -/
def cacheInit (numPages : BitVec 64) (pageSize : ℕ) : Option (Cache D) :=
  if numPages.toInt ≤ 0 then none
  else
    let numPages := if isPowerOf2 numPages = true then numPages else pow2floor numPages
    some
      { pageCache := fun _ => { itAddr := noAddr, itAge := 0, itData := none }
        pageSize := pageSize
        maxNumItems := numPages.toNat
        maxItemAge := 0
        numItems := 0 }

/-- `cache_get_cache_pos`. -/
def cacheGetCachePos (cache : Cache D) (address : ℕ) : ℕ :=
  (address / cache.pageSize) &&& (cache.maxNumItems - 1)

/-- `cache_insert`. -/
def cacheInsert (cache : Cache D) (addr : ℕ) (pdata : Option D) : Cache D :=
  let pos := cacheGetCachePos cache addr
  let age := (cache.maxItemAge + 1) % 2 ^ 64
  { cache with
    numItems := if (cache.pageCache pos).itData.isNone then cache.numItems + 1 else cache.numItems
    maxItemAge := age
    pageCache := update cache.pageCache pos { itAddr := addr, itAge := age, itData := pdata } }

/-- The body of the loop of `cache_resize`: one item of the old cache is moved. -/
def moveItem (newCache : Cache D) (oldIt : CacheItem D) : Cache D :=
  if oldIt.itAddr ≠ noAddr then
    let pos := cacheGetCachePos newCache oldIt.itAddr
    let newIt := newCache.pageCache pos
    if newIt.itData.isSome then
      -- keep the MRU page
      if newIt.itAge ≥ oldIt.itAge then newCache
      else { newCache with pageCache := update newCache.pageCache pos oldIt }
    else cacheInsert newCache oldIt.itAddr oldIt.itData
  else newCache

def Cache.items (cache : Cache D) : List (CacheItem D) :=
  (List.range cache.maxNumItems).map cache.pageCache

/-- `cache_resize`: the new size, or none for an error, and the cache. -/
def cacheResize (cache : Cache D) (newNumPages : BitVec 64) : Option ℕ × Cache D :=
  if (pow2floor newNumPages).toNat = cache.maxNumItems then (some cache.maxNumItems, cache)
  else
    match (cacheInit newNumPages cache.pageSize : Option (Cache D)) with
    | none => (none, cache)
    | some newCache =>
      let newCache := cache.items.foldl moveItem newCache
      (some newCache.maxNumItems, { cache with
          pageCache := newCache.pageCache
          maxNumItems := newCache.maxNumItems
          numItems := newCache.numItems })

/-! ## Caches that the functions build -/

def Cache.Occupied (cache : Cache D) (i : ℕ) : Prop := (cache.pageCache i).itData.isSome = true

instance (cache : Cache D) (i : ℕ) : Decidable (cache.Occupied i) :=
  inferInstanceAs (Decidable (_ = _))

def Cache.occupied (cache : Cache D) : ℕ :=
  ((List.range cache.maxNumItems).filter fun i => decide (cache.Occupied i)).length

/-- The invariant of a cache. -/
structure Valid (cache : Cache D) : Prop where
  pos : 0 < cache.maxNumItems
  /-- Pages are in the slots of their addresses. -/
  slot : ∀ i < cache.maxNumItems, cache.Occupied i →
    cacheGetCachePos cache (cache.pageCache i).itAddr = i
  addr : ∀ i < cache.maxNumItems, cache.Occupied i ↔ (cache.pageCache i).itAddr ≠ noAddr
  age : ∀ i < cache.maxNumItems, cache.Occupied i → (cache.pageCache i).itAge ≤ cache.maxItemAge
  numItems : cache.numItems = cache.occupied
  counter : cache.numItems ≤ cache.maxItemAge

/-! ## What a resize is for -/

def Cache.entries (cache : Cache D) : List (CacheItem D) :=
  cache.items.filter fun it => decide (it.itAddr ≠ noAddr)

/-- The slot of an address in a cache with `size` slots. -/
def slotIn (pageSize size address : ℕ) : ℕ := (address / pageSize) &&& (size - 1)

/-- The old items for the slot `p` of a cache with `size` slots. -/
def Cache.candidates (cache : Cache D) (size p : ℕ) : List (CacheItem D) :=
  cache.entries.filter fun it => decide (slotIn cache.pageSize size it.itAddr = p)

/-- The slot holds the youngest of its items, and no page if there is no item for it. -/
def HoldsYoungest (candidates : List (CacheItem D)) (it : CacheItem D) : Prop :=
  (candidates = [] → it.itData = none) ∧
    (candidates ≠ [] → ∃ e ∈ candidates, it.itAddr = e.itAddr ∧ it.itData = e.itData ∧
      ∀ e' ∈ candidates, e'.itAge ≤ e.itAge)

def insertAll (cache : Cache D) (pages : List (ℕ × D)) : Cache D :=
  pages.foldl (fun cache page => cacheInsert cache page.1 (some page.2)) cache

/-- Later insertions are younger, as long as the counter of the ages does not overflow. -/
def YoungerLater (cache : Cache D) : Prop :=
  ∀ (pages : List (ℕ × D)) (addr : ℕ) (data : D), cache.maxItemAge + pages.length + 1 < 2 ^ 64 →
    ∀ i < cache.maxNumItems, cache.Occupied i → (cache.pageCache i).itAge <
      ((cacheInsert (insertAll cache pages) addr (some data)).pageCache
        (cacheGetCachePos cache addr)).itAge

/-- After a successful resize every slot holds its youngest item, the count of the items is right,
and later insertions are younger. -/
def ResizedRight (cache : Cache D) (newNumPages : BitVec 64) : Prop :=
  ∀ size cache', cacheResize cache newNumPages = (some size, cache') →
    (∀ p < size, HoldsYoungest (cache.candidates size p) (cache'.pageCache p)) ∧
      cache'.numItems = cache'.occupied ∧ YoungerLater cache'

/-- The age that the first item for a slot gets: the number of slots that are in use by then. -/
def Cache.firstAge (cache : Cache D) (size p : ℕ) : ℕ :=
  (((cache.entries.takeWhile fun it => decide (slotIn cache.pageSize size it.itAddr ≠ p)).map
    fun it => slotIn cache.pageSize size it.itAddr).toFinset).card + 1

/-- The first item of a slot is the youngest if the age that it gets is not below the others, and
otherwise one of the others is. -/
def AgesCompare (newAge : ℕ) : List (CacheItem D) → Prop
  | [] => True
  | e :: rest =>
    if ∀ e' ∈ rest, e'.itAge ≤ newAge then ∀ e' ∈ rest, e'.itAge ≤ e.itAge
    else ∃ e' ∈ rest, e.itAge ≤ e'.itAge

instance (newAge : ℕ) : DecidablePred (AgesCompare (D := D) newAge)
  | [] => isTrue trivial
  | e :: rest => inferInstanceAs (Decidable (if ∀ e' ∈ rest, e'.itAge ≤ newAge then
      ∀ e' ∈ rest, e'.itAge ≤ e.itAge else ∃ e' ∈ rest, e.itAge ≤ e'.itAge))

/-- The condition under which a resize keeps the youngest pages. -/
def Cache.AgesAgree (cache : Cache D) (newNumPages : BitVec 64) : Prop :=
  (pow2floor newNumPages).toNat = cache.maxNumItems ∨ newNumPages.toInt ≤ 0 ∨
    ∀ p < (pow2floor newNumPages).toNat,
    AgesCompare (cache.firstAge (pow2floor newNumPages).toNat p)
        (cache.candidates (pow2floor newNumPages).toNat p)

instance (cache : Cache D) (newNumPages : BitVec 64) : Decidable (cache.AgesAgree newNumPages) :=
  inferInstanceAs (Decidable (_ ∨ _ ∨ _))

/-! ## The collision rule -/

/-- Of two items for a slot, the one that stays. -/
def keep (it oldIt : CacheItem D) : CacheItem D := if it.itAge ≥ oldIt.itAge then it else oldIt

/-- The first item stays if no other is younger, and otherwise the youngest of the others is
left. -/
lemma foldl_keep (rest : List (CacheItem D)) : ∀ it : CacheItem D,
    (rest.foldl keep it = it ∧ ∀ e ∈ rest, e.itAge ≤ it.itAge) ∨
      (rest.foldl keep it ∈ rest ∧ it.itAge < (rest.foldl keep it).itAge ∧
        ∀ e ∈ rest, e.itAge ≤ (rest.foldl keep it).itAge) := by
  induction rest with
  | nil => exact fun it => .inl ⟨rfl, by simp⟩
  | cons x rest ih =>
    intro it
    rw [foldl_cons]
    by_cases hage : it.itAge ≥ x.itAge
    · rw [keep, if_pos hage]
      rcases ih it with ⟨heq, hall⟩ | ⟨hmem, hlt, hall⟩
      · exact .inl ⟨heq, List.forall_mem_cons.mpr ⟨hage, hall⟩⟩
      · exact .inr ⟨List.mem_cons_of_mem _ hmem, hlt, List.forall_mem_cons.mpr ⟨by omega, hall⟩⟩
    · rw [keep, if_neg hage]
      rcases ih x with ⟨heq, hall⟩ | ⟨hmem, hlt, hall⟩
      · rw [heq]
        exact .inr ⟨List.mem_cons_self, by omega, List.forall_mem_cons.mpr ⟨le_rfl, hall⟩⟩
      · exact .inr ⟨List.mem_cons_of_mem _ hmem, by omega,
          List.forall_mem_cons.mpr ⟨by omega, hall⟩⟩

/-! ## The new cache while it is filled -/

variable {it : CacheItem D} {l : List (CacheItem D)} {p : ℕ} {cache newCache : Cache D}

section Move

variable (pageSize size : ℕ)

def slots (l : List (CacheItem D)) :
    Finset ℕ := (l.map fun it => slotIn pageSize size it.itAddr).toFinset

def forSlot (p : ℕ) (l : List (CacheItem D)) : List (CacheItem D) :=
  l.filter fun it => decide (slotIn pageSize size it.itAddr = p)

/-- The age that the first item for a slot is given. -/
def ageFor (p : ℕ) (l : List (CacheItem D)) : ℕ :=
  (slots pageSize size (l.takeWhile fun it => decide (slotIn pageSize size it.itAddr ≠ p))).card + 1

lemma mem_slots : p ∈ slots pageSize size l ↔ ∃ it ∈ l, slotIn pageSize size it.itAddr = p := by
  simp [slots]

lemma slots_append_singleton (l : List (CacheItem D)) (x : CacheItem D) :
    slots pageSize size (l ++ [x]) = insert (slotIn pageSize size x.itAddr)
      (slots pageSize size l) := by
  rw [slots, map_append, toFinset_append, union_comm]
  rfl

lemma forSlot_append_singleton (p : ℕ) (l : List (CacheItem D)) (x : CacheItem D) :
    forSlot pageSize size p (l ++ [x]) = forSlot pageSize size p l ++
      if slotIn pageSize size x.itAddr = p then [x] else [] := by
  rw [forSlot, filter_append, forSlot]
  by_cases h : slotIn pageSize size x.itAddr = p <;> simp [h]

lemma forSlot_eq_nil : forSlot pageSize size p l = [] ↔ p ∉ slots pageSize size l := by
  simp [forSlot, mem_slots]

lemma ageFor_of_notMem (h : p ∉ slots pageSize size l) (x : CacheItem D)
    (hx : slotIn pageSize size x.itAddr = p) :
    ageFor pageSize size p (l ++ [x]) = (slots pageSize size l).card + 1 := by
  rw [ageFor, takeWhile_append_of_pos]
  · simp [hx]
  · intro it hit
    exact decide_eq_true fun hp => h ((mem_slots _ _).mpr ⟨it, hit, hp⟩)

lemma ageFor_of_mem (h : p ∈ slots pageSize size l) (l' : List (CacheItem D)) :
    ageFor pageSize size p (l ++ l') = ageFor pageSize size p l := by
  obtain ⟨it, hit, hp⟩ := (mem_slots _ _).mp h
  rw [ageFor, takeWhile_append, if_neg, ageFor]
  intro hlen
  have hall := takeWhile_eq_self_iff.mp (List.Sublist.eq_of_length (takeWhile_sublist _) hlen)
  exact absurd hp (of_decide_eq_true (hall it hit))

lemma slotIn_lt (hsize : 0 < size) (addr : ℕ) : slotIn pageSize size addr < size :=
  lt_of_le_of_lt Nat.and_le_right (by omega)

lemma slots_subset (hsize : 0 < size) (l : List (CacheItem D)) :
    slots pageSize size l ⊆ Finset.range size := by
  intro p hp
  obtain ⟨it, -, rfl⟩ := (mem_slots _ _).mp hp
  exact Finset.mem_range.mpr (slotIn_lt pageSize size hsize _)

/-- The new cache after the items `done` have been moved into it. -/
structure Moved (done : List (CacheItem D)) (newCache : Cache D) : Prop where
  pageSize_eq : newCache.pageSize = pageSize
  maxNumItems_eq : newCache.maxNumItems = size
  maxItemAge_eq : newCache.maxItemAge = (slots pageSize size done).card
  numItems_eq : newCache.numItems = (slots pageSize size done).card
  empty : ∀ p, p ∉ slots pageSize size done → newCache.pageCache p =
    { itAddr := noAddr, itAge := 0, itData := none }
  kept : ∀ p e rest, forSlot pageSize size p done = e :: rest →
    newCache.pageCache p = rest.foldl keep { e with itAge := ageFor pageSize size p done }

variable {pageSize size}

/-- What is left in a slot is one of its items. -/
lemma exists_of_foldl_keep {P : CacheItem D → Prop} {e : CacheItem D} {rest : List (CacheItem D)}
    {age : ℕ} (he : P { e with itAge := age }) (hrest : ∀ e' ∈ rest, P e') :
    P (rest.foldl keep { e with itAge := age }) := by
  rcases foldl_keep rest { e with itAge := age } with ⟨heq, -⟩ | ⟨hmem, -, -⟩
  · rwa [heq]
  · exact hrest _ hmem

lemma mem_of_forSlot (h : it ∈ forSlot pageSize size p l) :
    it ∈ l ∧ slotIn pageSize size it.itAddr = p := by
  simpa [forSlot] using h

lemma Moved.kept_other {done rest : List (CacheItem D)} {e x : CacheItem D}
    (h : Moved pageSize size done newCache) (hne : slotIn pageSize size x.itAddr ≠ p)
    (hcons : forSlot pageSize size p (done ++ [x]) = e :: rest) :
    newCache.pageCache p = rest.foldl keep
      { e with itAge := ageFor pageSize size p (done ++ [x]) } := by
  rw [forSlot_append_singleton, if_neg hne, append_nil] at hcons
  have hp : p ∈ slots pageSize size done := by
    by_contra hnot
    rw [(forSlot_eq_nil _ _).mpr hnot] at hcons
    cases hcons
  rw [ageFor_of_mem _ _ hp]
  exact h.kept p e rest hcons

lemma Moved.move {done : List (CacheItem D)} (h : Moved pageSize size done newCache)
    (hpos : 0 < size) (hsize : size < 2 ^ 64) (hdata : ∀ e ∈ done, e.itData.isSome = true)
    {x : CacheItem D} (hx : x.itAddr ≠ noAddr) :
    Moved pageSize size (done ++ [x]) (moveItem newCache x) := by
  have hslot : cacheGetCachePos newCache x.itAddr = slotIn pageSize size x.itAddr := by
    rw [cacheGetCachePos, slotIn, h.pageSize_eq, h.maxNumItems_eq]
  set p₀ := slotIn pageSize size x.itAddr
  by_cases hmem : p₀ ∈ slots pageSize size done
  · -- the slot is in use: the collision rule decides
    obtain ⟨e, rest, hcons⟩ : ∃ e rest, forSlot pageSize size p₀ done = e :: rest :=
      exists_cons_of_ne_nil fun hnil => (forSlot_eq_nil _ _).mp hnil hmem
    have hsome : (newCache.pageCache p₀).itData.isSome = true := by
      have hall : ∀ e' ∈ e :: rest, e'.itData.isSome = true := fun e' he' =>
        hdata e' (mem_of_forSlot (hcons ▸ he')).1
      rw [h.kept p₀ e rest hcons]
      exact exists_of_foldl_keep (P := fun it => it.itData.isSome = true)
        (hall e List.mem_cons_self)
        fun e' he' => hall e' (List.mem_cons_of_mem _ he')
    have hmove : moveItem newCache x = { newCache with
        pageCache := update newCache.pageCache p₀ (keep (newCache.pageCache p₀) x) } := by
      simp only [moveItem, if_pos hx, hslot, hsome, if_true, keep]
      split_ifs
      · rw [update_eq_self]
      · rfl
    have hslots : slots pageSize size (done ++ [x]) = slots pageSize size done := by
      rw [slots_append_singleton, insert_eq_of_mem hmem]
    rw [hmove]
    refine ⟨h.pageSize_eq, h.maxNumItems_eq, ?_, ?_, fun p hp => ?_, fun p e' rest' hcons' => ?_⟩
    · rw [hslots]
      exact h.maxItemAge_eq
    · rw [hslots]
      exact h.numItems_eq
    · rw [hslots] at hp
      have hne : p ≠ p₀ := fun heq => hp (heq ▸ hmem)
      exact (update_of_ne hne _ _).trans (h.empty p hp)
    · by_cases hpp : p₀ = p
      · subst hpp
        rw [forSlot_append_singleton, if_pos rfl, hcons, cons_append] at hcons'
        cases hcons'
        rw [foldl_append, foldl_cons, foldl_nil, ageFor_of_mem _ _ hmem, ← h.kept p₀ e rest hcons]
        exact update_self _ _ _
      · exact (update_of_ne (Ne.symm hpp) _ _).trans (h.kept_other hpp hcons')
  · -- the slot is free: the item is inserted
    have hnone : (newCache.pageCache p₀).itData = none := by rw [h.empty p₀ hmem]
    have hslots : slots pageSize size (done ++ [x]) = insert p₀ (slots pageSize size done) :=
      slots_append_singleton _ _ _ _
    have hcard : (slots pageSize size (done ++ [x])).card =
        (slots pageSize size done).card + 1 := by
      rw [hslots, card_insert_of_notMem hmem]
    have hle : (slots pageSize size (done ++ [x])).card ≤ size := by
      simpa using card_le_card (slots_subset pageSize size hpos (done ++ [x]))
    have hmove : moveItem newCache x = cacheInsert newCache x.itAddr x.itData := by
      simp only [moveItem, if_pos hx, hslot, hnone, Option.isSome_none,
        Bool.false_eq_true, if_false]
    have hage : (newCache.maxItemAge + 1) % 2 ^ 64 = (slots pageSize size (done ++ [x])).card := by
      rw [h.maxItemAge_eq, hcard, Nat.mod_eq_of_lt (by omega)]
    rw [hmove]
    refine ⟨h.pageSize_eq, h.maxNumItems_eq, hage, ?_, fun p hp => ?_, fun p e rest hcons => ?_⟩
    · simp only [cacheInsert, hslot, hnone, Option.isNone_none, if_true, hcard, h.numItems_eq]
    · rw [hslots, mem_insert, not_or] at hp
      simp only [cacheInsert, hslot]
      exact (update_of_ne hp.1 _ _).trans (h.empty p hp.2)
    · simp only [cacheInsert, hslot, hage]
      by_cases hpp : p₀ = p
      · subst hpp
        rw [forSlot_append_singleton, if_pos rfl, (forSlot_eq_nil _ _).mpr hmem,
          nil_append] at hcons
        cases hcons
        rw [update_self, foldl_nil, ageFor_of_notMem _ _ hmem x rfl, hcard]
      · exact (update_of_ne (Ne.symm hpp) _ _).trans (h.kept_other hpp hcons)

end Move

/-! ## The invariant -/

lemma pow2floor_pos {value : BitVec 64} (h : 0 < value.toInt) : 0 < (pow2floor value).toNat := by
  have hne : value ≠ 0#64 := by
    rintro rfl
    simp at h
  rw [pow2floor]
  split_ifs
  · have := BitVec.toNat_inj.not.mpr hne
    exact Nat.pos_of_ne_zero (by simpa using this)
  have hclz : value.clz.toNat < 64 := by
    have := BitVec.clz_lt_iff_ne_zero.mpr hne
    simpa [BitVec.lt_def] using this
  rw [BitVec.ushiftRight_eq', BitVec.toNat_ushiftRight, Nat.shiftRight_eq_div_pow]
  refine Nat.div_pos ?_ (by positivity)
  calc 2 ^ value.clz.toNat ≤ 2 ^ 63 := Nat.pow_le_pow_right (by omega) (by omega)
    _ ≤ _ := by decide

lemma cacheInit_eq {numPages : BitVec 64} {pageSize : ℕ}
    (h : cacheInit numPages pageSize = some cache) :
    0 < numPages.toInt ∧ cache =
      { pageCache := fun _ => { itAddr := noAddr, itAge := 0, itData := none }, pageSize := pageSize
        maxNumItems := (pow2floor numPages).toNat, maxItemAge := 0, numItems := 0 } := by
  rw [cacheInit] at h
  split_ifs at h with hneg hpow
  · exact ⟨by omega, by simpa [pow2floor, hpow] using h.symm⟩
  · exact ⟨by omega, by simpa using h.symm⟩

lemma Cache.occupied_eq_card (cache : Cache D) : cache.occupied =
    ((Finset.range cache.maxNumItems).filter fun i => cache.Occupied i).card := by
  rw [Cache.occupied, ← toFinset_card_of_nodup (nodup_range.filter _)]
  congr 1
  ext i
  simp

/-- A new cache. -/
theorem cacheInit_valid {numPages : BitVec 64} {pageSize : ℕ}
    (h : cacheInit numPages pageSize = some cache) :
    Valid cache := by
  obtain ⟨hpos, rfl⟩ := cacheInit_eq h
  refine ⟨pow2floor_pos hpos, ?_, ?_, ?_, ?_, ?_⟩ <;> simp [Cache.Occupied, Cache.occupied]

lemma cacheGetCachePos_lt (h : 0 < cache.maxNumItems) (addr : ℕ) :
    cacheGetCachePos cache addr < cache.maxNumItems :=
  slotIn_lt cache.pageSize cache.maxNumItems h addr

/-- An insertion of a page, as long as the counter of the ages does not overflow. -/
theorem cacheInsert_valid (h : Valid cache) {addr : ℕ} (haddr : addr ≠ noAddr)
    (hage : cache.maxItemAge + 1 < 2 ^ 64) (data : D) :
    Valid (cacheInsert cache addr (some data)) := by
  set p₀ := cacheGetCachePos cache addr with hp₀
  have hlt : p₀ < cache.maxNumItems := cacheGetCachePos_lt h.pos addr
  have hat : ∀ i, i ≠ p₀ → (cacheInsert cache addr (some data)).pageCache i = cache.pageCache i :=
    fun i hi => update_of_ne hi _ _
  have hself : (cacheInsert cache addr (some data)).pageCache p₀ =
      { itAddr := addr, itAge := cache.maxItemAge + 1, itData := some data } := by
    simp only [cacheInsert, ← hp₀, update_self, Nat.mod_eq_of_lt hage]
  have hmax : (cacheInsert cache addr (some data)).maxItemAge = cache.maxItemAge + 1 :=
    Nat.mod_eq_of_lt hage
  have hocc : ∀ i, (cacheInsert cache addr (some data)).Occupied i ↔ i = p₀ ∨ cache.Occupied i := by
    intro i
    by_cases hi : i = p₀
    · subst hi
      simp [Cache.Occupied, hself]
    · simp [Cache.Occupied, hat i hi, hi]
  have hnum : (cacheInsert cache addr (some data)).numItems =
      if cache.Occupied p₀ then cache.numItems else cache.numItems + 1 := by
    simp only [cacheInsert, ← hp₀]
    rcases hfree : (cache.pageCache p₀).itData with _ | d <;> simp [Cache.Occupied, hfree]
  refine ⟨h.pos, fun i hi hi' => ?_, fun i hi => ?_, fun i hi hi' => ?_, ?_, ?_⟩
  · by_cases hne : i = p₀
    · subst hne
      rw [hself]
      rfl
    · rw [hat i hne]
      exact h.slot i hi (((hocc i).mp hi').resolve_left hne)
  · by_cases hne : i = p₀
    · subst hne
      simp [Cache.Occupied, hself, haddr]
    · rw [Cache.Occupied, hat i hne]
      exact h.addr i hi
  · rw [hmax]
    by_cases hne : i = p₀
    · subst hne
      rw [hself]
    · rw [hat i hne]
      exact Nat.le_succ_of_le (h.age i hi (((hocc i).mp hi').resolve_left hne))
  · have hset : (Finset.range cache.maxNumItems).filter
        (fun i => (cacheInsert cache addr (some data)).Occupied i) =
        insert p₀ ((Finset.range cache.maxNumItems).filter fun i => cache.Occupied i) := by
      simp only [hocc]
      rw [filter_or, filter_eq', if_pos (Finset.mem_range.mpr hlt), Finset.insert_eq]
    have hold := h.numItems
    rw [Cache.occupied_eq_card] at hold ⊢
    rw [hnum, hold]
    change _ = ((Finset.range cache.maxNumItems).filter _).card
    rw [hset]
    by_cases hfree : cache.Occupied p₀
    · rw [if_pos hfree, insert_eq_of_mem (by simp [hlt, hfree])]
    · rw [if_neg hfree, card_insert_of_notMem (by simp [hfree])]
  · have := h.counter
    rw [hnum, hmax]
    split_ifs <;> omega

/-! ## Where the items of a resize end up -/

lemma mem_entries :
    it ∈ cache.entries ↔ ∃ i < cache.maxNumItems, cache.pageCache i = it ∧ it.itAddr ≠ noAddr := by
  simp only [Cache.entries, Cache.items, List.mem_filter, List.mem_map, List.mem_range,
    decide_eq_true_eq]
  rw [← exists_and_right]
  exact exists_congr fun i => and_assoc

lemma Valid.isSome_of_mem (h : Valid cache) (hit : it ∈ cache.entries) :
    it.itData.isSome = true := by
  obtain ⟨i, hi, rfl, hne⟩ := mem_entries.mp hit
  exact (h.addr i hi).mpr hne

lemma Valid.age_of_mem (h : Valid cache) (hit : it ∈ cache.entries) :
    it.itAge ≤ cache.maxItemAge := by
  obtain ⟨i, hi, rfl, hne⟩ := mem_entries.mp hit
  exact h.age i hi ((h.addr i hi).mpr hne)

lemma Valid.eq_of_itAddr_eq (h : Valid cache) {it' : CacheItem D} (hit : it ∈ cache.entries)
    (hit' : it' ∈ cache.entries) (heq : it.itAddr = it'.itAddr) : it = it' := by
  obtain ⟨i, hi, rfl, hne⟩ := mem_entries.mp hit
  obtain ⟨j, hj, rfl, hne'⟩ := mem_entries.mp hit'
  have hij : i = j := by
    rw [← h.slot i hi ((h.addr i hi).mpr hne), ← h.slot j hj ((h.addr j hj).mpr hne'), heq]
  rw [hij]

lemma Valid.entries_length (h : Valid cache) : cache.entries.length = cache.numItems := by
  rw [h.numItems, Cache.occupied, Cache.entries, Cache.items, List.filter_map, length_map]
  congr 1
  refine List.filter_congr fun i hi => ?_
  simp [h.addr i (List.mem_range.mp hi)]

lemma foldl_moveItem_filter (items : List (CacheItem D)) : ∀ newCache : Cache D,
    items.foldl moveItem newCache =
      (items.filter fun it => decide (it.itAddr ≠ noAddr)).foldl moveItem newCache := by
  induction items with
  | nil => exact fun _ => rfl
  | cons it items ih =>
    intro newCache
    by_cases h : it.itAddr = noAddr
    · rw [List.filter_cons_of_neg (by simp [h]), foldl_cons, moveItem, if_neg (not_not.mpr h), ih]
    · rw [List.filter_cons_of_pos (by simp [h]), foldl_cons, foldl_cons, ih]

/-- The whole loop: an induction on the items that are still to be moved. -/
lemma Moved.foldl {pageSize size : ℕ} (hpos : 0 < size) (hsize : size < 2 ^ 64)
    (rest : List (CacheItem D)) : ∀ (done : List (CacheItem D)) (newCache : Cache D),
    Moved pageSize size done newCache →
    (∀ e ∈ done ++ rest, e.itData.isSome = true ∧ e.itAddr ≠ noAddr) →
    Moved pageSize size (done ++ rest) (rest.foldl moveItem newCache) := by
  induction rest with
  | nil =>
    intro done newCache h _
    rwa [append_nil]
  | cons x rest ih =>
    intro done newCache h hall
    have hx := hall x (by simp)
    have hstep := h.move hpos hsize (fun e he => (hall e (mem_append_left _ he)).1) hx.2
    rw [append_cons]
    exact ih _ _ hstep fun e he => hall e (by rwa [← append_cons] at he)

lemma moved_spec (h : Valid cache) {newNumPages : BitVec 64}
    (hinit : cacheInit newNumPages cache.pageSize = some newCache) :
    Moved cache.pageSize (pow2floor newNumPages).toNat cache.entries
      (cache.items.foldl moveItem newCache) := by
  obtain ⟨hpos, rfl⟩ := cacheInit_eq hinit
  have hempty : Moved cache.pageSize (pow2floor newNumPages).toNat ([] : List (CacheItem D))
      { pageCache := fun _ => { itAddr := noAddr, itAge := 0, itData := none }
        pageSize := cache.pageSize
        maxNumItems := (pow2floor newNumPages).toNat, maxItemAge := 0, numItems := 0 } := by
    refine ⟨rfl, rfl, rfl, rfl, fun _ _ => rfl, fun p e rest hcons => ?_⟩
    exact absurd hcons (by simp [forSlot])
  rw [foldl_moveItem_filter]
  refine hempty.foldl (pow2floor_pos hpos) (BitVec.isLt _) cache.entries [] _ fun e he => ?_
  obtain ⟨i, hi, hi', hne⟩ := mem_entries.mp he
  exact ⟨h.isSome_of_mem he, hne⟩

section Resized

variable {size : ℕ} (h : Valid cache) (hpos : 0 < size)
  (hnew : Moved cache.pageSize size cache.entries newCache)

def resized (cache newCache : Cache D) : Cache D :=
  { cache with
    pageCache := newCache.pageCache
    maxNumItems := newCache.maxNumItems
    numItems := newCache.numItems }

lemma ageFor_le {pageSize : ℕ} (hp : p ∈ slots pageSize size l) :
    ageFor pageSize size p l ≤ (slots pageSize size l).card := by
  set before := slots pageSize size
    (l.takeWhile fun it => decide (slotIn pageSize size it.itAddr ≠ p))
    with hbefore
  have hnot : p ∉ before := by
    rw [hbefore, mem_slots]
    rintro ⟨it, hit, hslot⟩
    have hne := mem_takeWhile_imp hit
    exact absurd hslot (of_decide_eq_true hne)
  calc before.card + 1 = (insert p before).card := (card_insert_of_notMem hnot).symm
    _ ≤ _ := card_le_card ?_
  refine insert_subset hp fun q hq => ?_
  obtain ⟨it, hit, hslot⟩ := (mem_slots _ _).mp hq
  exact (mem_slots _ _).mpr ⟨it, (takeWhile_sublist _).subset hit, hslot⟩

include h in
lemma slots_card_le : (slots cache.pageSize size cache.entries).card ≤ cache.numItems := by
  rw [← h.entries_length, slots]
  exact (toFinset_card_le _).trans (length_map _).le

include h hnew in
/-- A slot in use holds one of the old items, perhaps with another age. -/
lemma slot_spec (hp : p ∈ slots cache.pageSize size cache.entries) :
    ∃ e ∈ cache.entries, slotIn cache.pageSize size e.itAddr = p ∧
      (newCache.pageCache p).itAddr = e.itAddr ∧ (newCache.pageCache p).itData = e.itData ∧
      (newCache.pageCache p).itAge ≤ cache.maxItemAge := by
  obtain ⟨e, rest, hcons⟩ : ∃ e rest, forSlot cache.pageSize size p cache.entries = e :: rest :=
    exists_cons_of_ne_nil fun hnil => (forSlot_eq_nil _ _).mp hnil hp
  have hmem : ∀ e' ∈ e :: rest, e' ∈ cache.entries ∧ slotIn cache.pageSize size e'.itAddr = p :=
    fun e' he' => mem_of_forSlot (hcons ▸ he')
  have hage : ageFor cache.pageSize size p cache.entries ≤ cache.maxItemAge :=
    (ageFor_le hp).trans ((slots_card_le h).trans h.counter)
  rw [hnew.kept p e rest hcons]
  refine exists_of_foldl_keep (P := fun it => ∃ e ∈ cache.entries,
    slotIn cache.pageSize size e.itAddr = p ∧ it.itAddr = e.itAddr ∧ it.itData = e.itData ∧
      it.itAge ≤ cache.maxItemAge) ?_ fun e' he' => ?_
  · obtain ⟨he, hslot⟩ := hmem e List.mem_cons_self
    exact ⟨e, he, hslot, rfl, rfl, hage⟩
  · obtain ⟨he, hslot⟩ := hmem e' (List.mem_cons_of_mem _ he')
    exact ⟨e', he, hslot, rfl, rfl, h.age_of_mem he⟩

include h hnew in
lemma occupied_iff (p : ℕ) : (resized cache newCache).Occupied p ↔
    p ∈ slots cache.pageSize size cache.entries := by
  constructor
  · intro hocc
    by_contra hp
    rw [Cache.Occupied, resized, hnew.empty p hp] at hocc
    cases hocc
  · intro hp
    obtain ⟨e, he, -, -, hdata, -⟩ := slot_spec h hnew hp
    rw [Cache.Occupied, resized, hdata]
    exact h.isSome_of_mem he

include h hpos hnew in
lemma resized_numItems : (resized cache newCache).numItems = (resized cache newCache).occupied := by
  rw [Cache.occupied_eq_card]
  change newCache.numItems = _
  rw [hnew.numItems_eq]
  congr 1
  ext p
  simp only [Finset.mem_filter, occupied_iff h hnew]
  refine ⟨fun hp => ⟨?_, hp⟩, fun hp => hp.2⟩
  change p ∈ Finset.range newCache.maxNumItems
  rw [hnew.maxNumItems_eq]
  exact slots_subset _ _ hpos _ hp

include h hpos hnew in
/-- A resize keeps the invariant. -/
theorem resized_valid : Valid (resized cache newCache) := by
  refine ⟨?_, fun p hp hocc => ?_, fun p hp => ?_, fun p hp hocc => ?_,
    resized_numItems h hpos hnew, ?_⟩
  · change 0 < newCache.maxNumItems
    rwa [hnew.maxNumItems_eq]
  · obtain ⟨e, -, hslot, haddr, -⟩ := slot_spec h hnew ((occupied_iff h hnew p).mp hocc)
    change (newCache.pageCache p).itAddr / cache.pageSize &&& (newCache.maxNumItems - 1) = p
    rw [hnew.maxNumItems_eq, haddr]
    exact hslot
  · rw [occupied_iff h hnew]
    constructor
    · intro hmem
      obtain ⟨e, he, -, haddr, -⟩ := slot_spec h hnew hmem
      obtain ⟨i, -, -, hne⟩ := mem_entries.mp he
      change (newCache.pageCache p).itAddr ≠ noAddr
      rwa [haddr]
    · intro hne
      by_contra hp
      exact hne (by rw [resized, hnew.empty p hp])
  · obtain ⟨e, -, -, -, -, hage⟩ := slot_spec h hnew ((occupied_iff h hnew p).mp hocc)
    exact hage
  · change newCache.numItems ≤ cache.maxItemAge
    rw [hnew.numItems_eq]
    exact (slots_card_le h).trans h.counter

end Resized

/-! ## Later insertions -/

lemma insertAll_spec (pages : List (ℕ × D)) : ∀ cache :
    Cache D, cache.maxItemAge + pages.length < 2 ^ 64 →
    (insertAll cache pages).maxItemAge = cache.maxItemAge + pages.length ∧
      (insertAll cache pages).pageSize = cache.pageSize ∧
      (insertAll cache pages).maxNumItems = cache.maxNumItems := by
  induction pages with
  | nil => exact fun _ _ => ⟨rfl, rfl, rfl⟩
  | cons page pages ih =>
    intro cache hlt
    rw [length_cons] at hlt ⊢
    have hage : (cacheInsert cache page.1 (some page.2)).maxItemAge = cache.maxItemAge + 1 :=
      Nat.mod_eq_of_lt (by omega)
    obtain ⟨h₁, h₂, h₃⟩ := ih (cacheInsert cache page.1 (some page.2)) (by rw [hage]; omega)
    refine ⟨?_, h₂, h₃⟩
    exact h₁.trans (by omega)

lemma Valid.youngerLater (h : Valid cache) : YoungerLater cache := by
  intro pages addr data hlt i hi hocc
  obtain ⟨hage, hps, hmax⟩ := insertAll_spec pages cache (by omega)
  have hpos : cacheGetCachePos (insertAll cache pages) addr = cacheGetCachePos cache addr := by
    rw [cacheGetCachePos, hps, hmax, cacheGetCachePos]
  simp only [cacheInsert, hpos, update_self]
  rw [hage, Nat.mod_eq_of_lt hlt]
  have := h.age i hi hocc
  omega

/-! ## The youngest item -/

/-- The slot holds its youngest item exactly if the new age of the first item compares as its old
age does. -/
lemma holdsYoungest_iff {size : ℕ} (h : Valid cache)
    (hnew : Moved cache.pageSize size cache.entries newCache) (p : ℕ) :
    HoldsYoungest (cache.candidates size p) (newCache.pageCache p) ↔
      AgesCompare (cache.firstAge size p) (cache.candidates size p) := by
  change HoldsYoungest (forSlot cache.pageSize size p cache.entries) _ ↔
    AgesCompare (ageFor cache.pageSize size p cache.entries)
      (forSlot cache.pageSize size p cache.entries)
  rcases hcands : forSlot cache.pageSize size p cache.entries with _ | ⟨e, rest⟩
  · have hempty := hnew.empty p ((forSlot_eq_nil _ _).mp hcands)
    simp [HoldsYoungest, AgesCompare, hempty]
  have hmem : ∀ e' ∈ e :: rest, e' ∈ cache.entries := fun e' he' =>
    (mem_of_forSlot (hcands ▸ he')).1
  set newAge := ageFor cache.pageSize size p cache.entries
  have hkept := hnew.kept p e rest hcands
  -- the addresses tell the items apart, so the item that the slot holds is known
  have holder : ∀ m ∈ e :: rest, (newCache.pageCache p).itAddr = m.itAddr →
      (newCache.pageCache p).itData = m.itData →
      (HoldsYoungest (e :: rest) (newCache.pageCache p) ↔
        ∀ e' ∈ e :: rest, e'.itAge ≤ m.itAge) := by
    intro m hm haddr hdata
    constructor
    · rintro ⟨-, hyoung⟩
      obtain ⟨e₀, he₀, haddr₀, -, hall⟩ := hyoung (by simp)
      rwa [h.eq_of_itAddr_eq (hmem m hm) (hmem e₀ he₀) (haddr.symm.trans haddr₀)]
    · exact fun hall => ⟨by simp, fun _ => ⟨m, hm, haddr, hdata, hall⟩⟩
  rw [AgesCompare]
  rcases foldl_keep rest { e with itAge := newAge } with ⟨heq, hall⟩ | ⟨hin, hlt, hall⟩
  · rw [heq] at hkept
    rw [if_pos hall, holder e List.mem_cons_self (by rw [hkept]) (by rw [hkept])]
    simp
  rw [← hkept] at hin hlt hall
  rw [if_neg fun hle => absurd (hle _ hin) (by exact not_le.mpr hlt),
    holder _ (List.mem_cons_of_mem _ hin) rfl rfl]
  constructor
  · exact fun hmax => ⟨_, hin, hmax e List.mem_cons_self⟩
  · rintro ⟨e', he', hle⟩
    exact List.forall_mem_cons.mpr ⟨hle.trans (hall e' he'), hall⟩

/-- In a cache of the same size every item is alone in its slot. -/
lemma holdsYoungest_self (h : Valid cache) (hp : p < cache.maxNumItems) :
    HoldsYoungest (cache.candidates cache.maxNumItems p) (cache.pageCache p) := by
  have hmem : ∀ it, it ∈ cache.candidates cache.maxNumItems p ↔
      cache.pageCache p = it ∧ it.itAddr ≠ noAddr := by
    intro it
    change it ∈ forSlot cache.pageSize cache.maxNumItems p cache.entries ↔ _
    constructor
    · intro hit
      obtain ⟨hent, hslot⟩ := mem_of_forSlot hit
      obtain ⟨i, hi, rfl, hne⟩ := mem_entries.mp hent
      have hown : slotIn cache.pageSize cache.maxNumItems (cache.pageCache i).itAddr = i :=
        h.slot i hi ((h.addr i hi).mpr hne)
      rw [← hslot, hown]
      exact ⟨rfl, hne⟩
    · rintro ⟨rfl, hne⟩
      refine List.mem_filter.mpr ⟨mem_entries.mpr ⟨p, hp, rfl, hne⟩, decide_eq_true ?_⟩
      exact h.slot p hp ((h.addr p hp).mpr hne)
  constructor
  · intro hnil
    by_contra hdata
    have hne := (h.addr p hp).mp (Option.isSome_iff_ne_none.mpr hdata)
    exact absurd ((hmem _).mpr ⟨rfl, hne⟩) (by simp [hnil])
  · intro hnonempty
    obtain ⟨e, he⟩ := exists_mem_of_ne_nil _ hnonempty
    obtain ⟨rfl, hne⟩ := (hmem e).mp he
    refine ⟨_, he, rfl, rfl, fun e' he' => ?_⟩
    rw [((hmem e').mp he').1]

/-- A resize keeps the youngest page of every slot exactly if the ages agree. -/
theorem resizedRight_iff (cache : Cache D) (h : Valid cache) (newNumPages : BitVec 64) :
    ResizedRight cache newNumPages ↔ cache.AgesAgree newNumPages := by
  rw [ResizedRight, Cache.AgesAgree]
  by_cases hsame : (pow2floor newNumPages).toNat = cache.maxNumItems
  · refine iff_of_true (fun size cache' hres => ?_) (.inl hsame)
    rw [cacheResize, if_pos hsame] at hres
    cases hres
    exact ⟨fun p hp => holdsYoungest_self h hp, h.numItems, h.youngerLater⟩
  rcases hinit : (cacheInit newNumPages cache.pageSize : Option (Cache D)) with _ | newCache
  · have hneg : newNumPages.toInt ≤ 0 := by
      by_contra hpos
      rw [cacheInit, if_neg hpos] at hinit
      cases hinit
    refine iff_of_true (fun size cache' hres => ?_) (.inr (.inl hneg))
    rw [cacheResize, if_neg hsame, hinit] at hres
    cases hres
  have hpos := (cacheInit_eq hinit).1
  have hnew := moved_spec h hinit
  have hres : cacheResize cache newNumPages = (some (pow2floor newNumPages).toNat,
      resized cache (cache.items.foldl moveItem newCache)) := by
    rw [cacheResize, if_neg hsame, hinit, ← hnew.maxNumItems_eq]
    rfl
  have hvalid := resized_valid h (pow2floor_pos hpos) hnew
  constructor
  · intro hright
    refine .inr (.inr fun p hp => (holdsYoungest_iff h hnew p).mp ?_)
    exact (hright _ _ hres).1 p hp
  rintro (hsame' | hneg | hall) size cache' hres'
  · exact absurd hsame' hsame
  · omega
  · rw [hres] at hres'
    cases hres'
    exact ⟨fun p hp => (holdsYoungest_iff h hnew p).mpr (hall p hp), hvalid.numItems,
      hvalid.youngerLater⟩

/-- What `cache_init` returns for two pages. -/
def twoSlots : Cache ℕ :=
  { pageCache := fun _ => { itAddr := noAddr, itAge := 0, itData := none }
    pageSize := 4096, maxNumItems := 2, maxItemAge := 0, numItems := 0 }

def twoPages : Cache ℕ :=
  cacheInsert (cacheInsert (cacheInsert twoSlots 0 (some 10)) 4096 (some 20)) 0 (some 30)

lemma twoPages_valid : Valid twoPages := by
  have hinit : cacheInit 2#64 4096 = some twoSlots := by rfl
  have hempty := cacheInit_valid hinit
  exact cacheInsert_valid (cacheInsert_valid (cacheInsert_valid hempty (by decide) (by decide) _)
    (by decide) (by decide) _) (by decide) (by decide) _

/-- The pages stay apart in a cache with four slots. -/
theorem twoPages_grows : Valid twoPages ∧ ResizedRight twoPages 4#64 :=
  ⟨twoPages_valid, (resizedRight_iff twoPages twoPages_valid 4#64).mpr (by decide +kernel)⟩

/-- With one slot left, the page at 0 gets the age 1, so that the older page at 4096 replaces it. -/
theorem twoPages_keeps_older : Valid twoPages ∧ ¬ ResizedRight twoPages 1#64 := by
  refine ⟨twoPages_valid, fun hright => ?_⟩
  have hheld : HoldsYoungest (twoPages.candidates 1 0)
      ((cacheResize twoPages 1#64).2.pageCache 0) := (hright 1 _ (by rfl)).1 0 (by decide)
  obtain ⟨e, he, haddr, -, hyoungest⟩ := hheld.2 (by decide +kernel)
  have hkept : ((cacheResize twoPages 1#64).2.pageCache 0).itAddr = 4096 := by decide +kernel
  have holder : ∀ e ∈ twoPages.candidates 1 0, e.itAddr = 4096 →
      ∃ e' ∈ twoPages.candidates 1 0, e.itAge < e'.itAge := by decide +kernel
  obtain ⟨e', he', hlt⟩ := holder e he (haddr.symm.trans hkept)
  exact absurd (hyoungest e' he') (by omega)

end Qemu.PageCache
