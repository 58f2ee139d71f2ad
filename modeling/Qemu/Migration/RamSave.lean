import Qemu.Migration.PageCache
import Qemu.Migration.XbzrleRoundTrip

/-!
# Live migration of memory

The two ends of a migration in `arch_init.c`, with XBZRLE.  `ram_save_block` sends a dirty page as a
byte, in full or as its difference from the copy in the cache, and `ram_load` applies a difference
to the page that the destination has.  A page of a single byte is sent without a change to the
cache.

Pages are named by their addresses, and any dirty page may be the next one.  The guest writes
between the calls.  What the stream has besides the pages is left out: the headers, the ids of the
blocks, and `RAM_SAVE_FLAG_CONTINUE`, which stands for the id of the page before.

**Main results:**
- `savePage_spec`: one page arrives, and the copies in the cache stay those of the destination
- `migration_transfers`: the destination has every page that is not dirty
-/

namespace Qemu.RamSave

open List Function PageCache Xbzrle

/-! ## What the source computes -/

/-- The host and `TARGET_PAGE_SIZE`. -/
structure Target extends Host where
  pageSize : ℕ
  pos : 0 < pageSize
  words : pageSize % sizeofLong = 0
  le : pageSize ≤ 0x3fff

abbrev Ram := ℕ → List UInt8

abbrev PageCache := Cache (List UInt8)

/-- A page in the stream, with the address of its header. -/
inductive Packet where
  | compress (addr : ℕ) (ch : UInt8)
  | page (addr : ℕ) (data : List UInt8)
  | xbzrle (addr : ℕ) (xhFlags : UInt8) (encoded : List UInt8)

/-- The source: its memory with the bits of `DIRTY_MEMORY_MIGRATION`, the cache, and what was
sent. -/
structure Source where
  ram : Ram
  dirty : ℕ → Bool
  cache : PageCache
  stream : List Packet

/-- `cache_is_cached`. -/
def cacheIsCached (cache : PageCache) (addr : ℕ) : Bool :=
  (cache.pageCache (cacheGetCachePos cache addr)).itAddr == addr

/-- `get_cached_data`. -/
def getCachedData (cache : PageCache) (addr : ℕ) : Option (List UInt8) :=
  (cache.pageCache (cacheGetCachePos cache addr)).itData

/-- A `memcpy` to the page of `get_cached_data`. -/
def setCachedData (cache : PageCache) (addr : ℕ) (data : List UInt8) : PageCache :=
  let pos := cacheGetCachePos cache addr
  let it := { cache.pageCache pos with itData := some data }
  { cache with pageCache := update cache.pageCache pos it }

/-- `is_dup_page`. -/
def isDupPage (page : List UInt8) : Bool := page.all (· == page.headD 0)

/-- `save_xbzrle_page`: the return value, the cache and what is sent. -/
def saveXbzrlePage (t : Target) (lastStage : Bool) (cache : PageCache) (currentData : List UInt8)
    (currentAddr : ℕ) : Option (ℤ × PageCache × List Packet) :=
  if cacheIsCached cache currentAddr = false then
    some (-1, if lastStage = true then cache else cacheInsert cache currentAddr
      (some currentData), [])
  else do
    let prevCachedPage ← getCachedData cache currentAddr
    let (encodedLen, encodedBuf) ←
      xbzrleEncodeBuffer t.toHost prevCachedPage currentData (replicate t.pageSize 0)
    let updated := setCachedData cache currentAddr currentData
    -- unmodified
    if encodedLen = 0 then some (0, cache, [])
    -- overflow
    else if encodedLen = -1 then some (-1, updated, [])
    else some (encodedLen + 1 + 2, if lastStage = true then cache else updated,
      [.xbzrle currentAddr 1 (encodedBuf.take encodedLen.toNat)])

/-- What `ram_save_block` does with a dirty page. -/
def savePage (t : Target) (lastStage : Bool) (s : Source) (addr : ℕ) : Option Source := do
  let p := s.ram addr
  let (cache, packets) ←
    if isDupPage p = true then do
      let ch ← p.head?
      some (s.cache, [Packet.compress addr ch])
    else do
      let (bytesSent, cache, packets) ← saveXbzrlePage t lastStage s.cache p addr
      let p ← (if lastStage = true then some p else getCachedData cache addr)
      some (cache, if bytesSent = -1 then [.page addr p] else packets)
  some { s with dirty := update s.dirty addr false, cache := cache, stream := s.stream ++ packets }

/-- A page in `ram_load`, none for an error. -/
def loadPage (t : Target) (dest : Ram) : Packet → Option Ram
  | .compress addr ch => some (update dest addr (replicate t.pageSize ch))
  | .page addr data => some (update dest addr data)
  | .xbzrle addr xhFlags encoded =>
    if xhFlags ≠ 1 ∨ encoded.length > t.pageSize then none
    else do
      let (ret, host) ← xbzrleDecodeBuffer encoded (dest addr)
      if ret = -1 ∨ ret > t.pageSize then none else some (update dest addr host)

/-- `ram_load`. -/
def ramLoad (t : Target) (dest : Ram) (stream : List Packet) : Option Ram :=
  stream.foldlM (loadPage t) dest

/-! ## The cache -/

section Cached

variable {cache : PageCache} {addr : ℕ} {data : List UInt8}

/-- The cache has the copy `data` of a page. -/
def Holds (cache : PageCache) (addr : ℕ) (data : List UInt8) : Prop :=
  cacheIsCached cache addr = true ∧ getCachedData cache addr = some data

/-- Every slot with an address has a page. -/
structure Filled (cache : PageCache) : Prop where
  pos : 0 < cache.maxNumItems
  data : ∀ i < cache.maxNumItems, (cache.pageCache i).itAddr ≠ noAddr →
    (cache.pageCache i).itData.isSome = true

lemma Filled.holds (h : Filled cache) (haddr : addr ≠ noAddr)
    (hin : cacheIsCached cache addr = true) :
    ∃ data, Holds cache addr data := by
  have hdata := h.data _ (cacheGetCachePos_lt h.pos addr) (by rwa [beq_iff_eq.mp hin])
  obtain ⟨data, hdata⟩ := Option.isSome_iff_exists.mp hdata
  exact ⟨data, hin, hdata⟩

/-- The cache after a page was sent: its copy is `data`, unless the guest is stopped. -/
structure Follows (lastStage : Bool) (cache : PageCache) (addr : ℕ) (data : List UInt8)
    (cache' : PageCache) : Prop where
  filled : Filled cache'
  other : ∀ a d, a ≠ addr → Holds cache' a d → Holds cache a d
  sent : lastStage = false → ∀ d, Holds cache' addr d → d = data

lemma Follows.refl {lastStage : Bool} (h : Filled cache)
    (hcopy : lastStage = false → ∀ d, Holds cache addr d → d = data) :
    Follows lastStage cache addr data cache :=
  ⟨h, fun _ _ _ hd => hd, hcopy⟩

/-- A new item in the slot of the page. -/
lemma Filled.update (h : Filled cache) (cache' : PageCache)
    (hcache : cache'.pageSize = cache.pageSize ∧ cache'.maxNumItems = cache.maxNumItems) (age : ℕ)
    (hitems : cache'.pageCache = update cache.pageCache (cacheGetCachePos cache addr)
      { itAddr := addr, itAge := age, itData := some data }) (lastStage : Bool) :
    Follows lastStage cache addr data cache' ∧ Holds cache' addr data := by
  have hslot : ∀ a, cacheGetCachePos cache' a = cacheGetCachePos cache a := by
    intro a
    rw [cacheGetCachePos, cacheGetCachePos, hcache.1, hcache.2]
  have hholds : Holds cache' addr data := by
    simp [Holds, cacheIsCached, getCachedData, hslot, hitems]
  refine ⟨⟨⟨hcache.2 ▸ h.pos, ?_⟩, ?_, ?_⟩, hholds⟩
  · intro i hi hne
    by_cases heq : i = cacheGetCachePos cache addr
    · simp [hitems, heq]
    · rw [hitems, update_of_ne heq] at hne ⊢
      exact h.data i (hcache.2 ▸ hi) hne
  · intro a d ha hd
    simp only [Holds, cacheIsCached, getCachedData, hslot, hitems, beq_iff_eq] at hd ⊢
    by_cases heq : cacheGetCachePos cache a = cacheGetCachePos cache addr
    · simp only [heq, update_self] at hd
      exact absurd hd.1.symm ha
    · simpa only [update_of_ne heq] using hd
  · intro _ d hd
    exact Option.some.inj (hd.2.symm.trans hholds.2)

lemma setCachedData_follows (h : Filled cache) (hin : cacheIsCached cache addr = true)
    (data : List UInt8) (lastStage : Bool) :
    Follows lastStage cache addr data (setCachedData cache addr data) ∧
      Holds (setCachedData cache addr data) addr data := by
  refine h.update (setCachedData cache addr data) ⟨rfl, rfl⟩
    (cache.pageCache (cacheGetCachePos cache addr)).itAge ?_ lastStage
  simp only [cacheIsCached, beq_iff_eq] at hin
  simp only [setCachedData, hin]

end Cached

/-! ## A page -/

variable {t : Target} {lastStage : Bool} {s : Source} {dest₀ dest : Ram} {addr : ℕ}
  {data : List UInt8}

/-- The difference from the page of the destination, if there is one that fits, brings it up to
date. -/
lemma encoded_loads (hdata : data.length = t.pageSize) (hdest : (dest addr).length = t.pageSize) :
    ∃ ret buf, xbzrleEncodeBuffer t.toHost (dest addr) data
      (replicate t.pageSize 0) = some (ret, buf) ∧
      (ret = -1 ∨ (ret = 0 ∧ dest addr = data) ∨ 0 < ret ∧
        loadPage t dest (.xbzrle addr 1 (buf.take ret.toNat)) = some (update dest addr data)) := by
  have hle := t.le
  obtain ⟨ret, buf, henc, -, hout⟩ := xbzrleEncodeBuffer_spec t.toHost (replicate t.pageSize 0)
    (hdest.trans hdata.symm) (by rw [hdest, t.words]) (hdest ▸ hle)
  refine ⟨ret, buf, henc, ?_⟩
  rcases hout with hret | hsame | ⟨segs, rfl, hfit, hbytes, hpatch, hwf, hspan⟩
  · exact .inl hret
  · exact .inr (.inl hsame)
  rw [length_replicate] at hfit
  rw [drop_zero, drop_zero] at hpatch
  by_cases hzero : (encoding segs).length = 0
  · refine .inr (.inl ⟨by omega, ?_⟩)
    rwa [eq_nil_of_encoding_length hzero, patch] at hpatch
  have hdec := decodeLoop_segments (encoding segs) (by omega) segs
    ((encoding segs).length + 1) [] []
    (dest addr) rfl (by simp) (by simp; omega) hwf (by omega)
  have hsrc : buf.take ((0 + (encoding segs).length : ℕ) : ℤ).toNat = encoding segs := by
    rw [Int.toNat_natCast, hbytes, take_zero, nil_append]
  simp only [length_nil, nil_append, CharP.cast_eq_zero, hpatch] at hdec
  refine .inr (.inr ⟨by omega, ?_⟩)
  rw [hsrc, loadPage, if_neg (by simp; omega), xbzrleDecodeBuffer, hdec]
  exact if_neg (by omega)

lemma saveXbzrlePage_spec (lastStage : Bool) {cache : PageCache} (h : Filled cache)
    (hdata : data.length = t.pageSize) (hdest : (dest addr).length = t.pageSize)
    (haddr : addr ≠ noAddr) (hcopy : ∀ d, Holds cache addr d → dest addr = d) :
    ∃ bytesSent cache' packets,
      saveXbzrlePage t lastStage cache data addr = some (bytesSent, cache', packets) ∧
      Follows lastStage cache addr data cache' ∧
      (lastStage = false → getCachedData cache' addr = some data) ∧
      (bytesSent = -1 ∨ bytesSent ≠ -1 ∧
        ramLoad t dest packets = some (update dest addr data)) := by
  rw [saveXbzrlePage]
  by_cases hin : cacheIsCached cache addr = true
  · obtain ⟨old, hold⟩ := h.holds haddr hin
    obtain rfl := hcopy old hold
    obtain ⟨hfollows, hholds⟩ := setCachedData_follows h hin data lastStage
    obtain ⟨ret, buf, henc, hret⟩ := encoded_loads hdata hdest
    simp only [hin, hold.2, henc, Option.bind_eq_bind, Option.bind_some]
    rcases hret with rfl | ⟨rfl, rfl⟩ | ⟨hpos, hload⟩
    · exact ⟨-1, _, [], by simp, hfollows, fun _ => hholds.2, .inl rfl⟩
    · refine ⟨0, cache, [], by simp, .refl h ?_, fun _ => hold.2, .inr ⟨by simp, ?_⟩⟩
      · intro _ d hd
        exact (hcopy d hd).symm
      · rw [update_eq_self]; rfl
    · have hloads : ramLoad t dest [.xbzrle addr 1 (buf.take ret.toNat)] =
          some (update dest addr data) := by
        rw [ramLoad, foldlM_cons, hload]; rfl
      rw [if_neg (by simp), if_neg (by omega), if_neg (by omega)]
      cases lastStage with
      | true => exact ⟨_, cache, _, rfl, .refl h nofun, nofun, .inr ⟨by omega, hloads⟩⟩
      | false => exact ⟨_, _, _, rfl, hfollows, fun _ => hholds.2, .inr ⟨by omega, hloads⟩⟩
  · rw [if_pos (by simpa using hin)]
    cases lastStage with
    | true => exact ⟨-1, cache, [], rfl, .refl h nofun, nofun, .inl rfl⟩
    | false =>
      obtain ⟨hfollows, hholds⟩ := h.update (cacheInsert cache addr (some data))
        ⟨rfl, rfl⟩ _ rfl false
      exact ⟨-1, _, [], rfl, hfollows, fun _ => hholds.2, .inl rfl⟩

/-- The two ends.  Before the last stage every copy in the cache is the page of the destination, and
in it those of dirty pages are. -/
structure Synced (t : Target) (dest₀ : Ram) (lastStage : Bool) (s : Source) (dest : Ram) :
    Prop where
  loaded : ramLoad t dest₀ s.stream = some dest
  filled : Filled s.cache
  ramLength : ∀ a, (s.ram a).length = t.pageSize
  destLength : ∀ a, (dest a).length = t.pageSize
  clean : ∀ a, s.dirty a = false → dest a = s.ram a
  copy : ∀ a d, a ≠ noAddr → Holds s.cache a d → (lastStage = true → s.dirty a = true) → dest a = d

lemma Synced.saved (h : Synced t dest₀ lastStage s dest) {cache : PageCache} {packets : List Packet}
    (hcache : Follows lastStage s.cache addr (s.ram addr) cache)
    (hload : ramLoad t dest packets = some (update dest addr (s.ram addr))) :
    Synced t dest₀ lastStage { s with
        dirty := update s.dirty addr false, cache := cache, stream := s.stream ++ packets }
      (update dest addr (s.ram addr)) := by
  have hloaded := h.loaded
  rw [ramLoad] at hloaded hload
  refine ⟨?_, hcache.filled, h.ramLength, ?_, ?_, ?_⟩
  · rw [ramLoad, foldlM_append, hloaded]
    exact hload
  · intro a
    by_cases ha : a = addr
    · simp [ha, h.ramLength]
    · simp [ha, h.destLength]
  · intro a hclean
    by_cases ha : a = addr
    · simp [ha]
    · simp only [update_of_ne ha] at hclean ⊢
      exact h.clean a hclean
  · intro a d hne hd hdirty
    by_cases ha : a = addr
    · subst ha
      rw [update_self, hcache.sent (by simpa using hdirty) d hd]
    · simp only [update_of_ne ha] at hdirty ⊢
      exact h.copy a d hne (hcache.other a d ha hd) hdirty

lemma isDupPage_eq (h : isDupPage data = true) (hlen : 0 < data.length) :
    ∃ ch, data.head? = some ch ∧ data = replicate data.length ch := by
  cases data with
  | nil => simp at hlen
  | cons ch rest =>
    refine ⟨ch, rfl, eq_replicate_iff.mpr ⟨rfl, ?_⟩⟩
    intro b hb
    simpa using all_eq_true.mp h b hb

/-- A dirty page may be sent next: before the last stage, a page of a single byte must not be in the
cache. -/
def Sendable (lastStage : Bool) (s : Source) (addr : ℕ) : Prop :=
  s.dirty addr = true ∧ addr ≠ noAddr ∧
    (lastStage = false → isDupPage (s.ram addr) = true → cacheIsCached s.cache addr = false)

lemma savePage_spec (h : Synced t dest₀ lastStage s dest) (hsend : Sendable lastStage s addr) :
    ∃ s', savePage t lastStage s addr = some s' ∧
      Synced t dest₀ lastStage s' (update dest addr (s.ram addr)) := by
  obtain ⟨hdirty, haddr, hdup⟩ := hsend
  rw [savePage]
  by_cases hsame : isDupPage (s.ram addr) = true
  · obtain ⟨ch, hhead, hpage⟩ := isDupPage_eq hsame (h.ramLength addr ▸ t.pos)
    simp only [hsame, hhead]
    refine ⟨_, rfl, h.saved (.refl h.filled ?_) ?_⟩
    · intro hlive d hd
      exact absurd hd.1 (by simp [hdup hlive hsame])
    · rw [hpage, h.ramLength]; rfl
  · obtain ⟨bytesSent, cache, packets, hsave, hfollows, hcached, hsent⟩ :=
      saveXbzrlePage_spec lastStage h.filled (h.ramLength addr) (h.destLength addr) haddr
        fun d hd => h.copy addr d haddr hd fun _ => hdirty
    have hp : (if lastStage = true then some (s.ram addr) else getCachedData cache addr) =
        some (s.ram addr) := by
      cases lastStage <;> simp [hcached]
    simp only [hsame, hsave, Option.bind_eq_bind, Option.bind_some, hp]
    refine ⟨_, rfl, h.saved hfollows ?_⟩
    rcases hsent with rfl | ⟨hne, hload⟩
    · rfl
    · rwa [if_neg hne]

/-! ## A migration -/

/-- The runs after `ram_save_setup`, and whether they are in the last stage. -/
inductive Reached (t : Target) : Bool → Source → Prop where
  | setup {s : Source} (numPages : BitVec 64) : cacheInit numPages t.pageSize = some s.cache →
      s.stream = [] → (∀ a, s.dirty a = true) → (∀ a, (s.ram a).length = t.pageSize) →
      Reached t false s
  | write {s : Source} (addr : ℕ) {data : List UInt8} : Reached t false s →
      data.length = t.pageSize →
      Reached t false { s with ram := update s.ram addr data, dirty := update s.dirty addr true }
  | stop {s : Source} : Reached t false s → Reached t true s
  | save {lastStage : Bool} {s s' : Source} {addr : ℕ} : Reached t lastStage s →
      Sendable lastStage s addr → savePage t lastStage s addr = some s' → Reached t lastStage s'

lemma Reached.synced (h : Reached t lastStage s) (hdest : ∀ a, (dest₀ a).length = t.pageSize) :
    ∃ dest, Synced t dest₀ lastStage s dest := by
  induction h with
  | setup numPages hcache hstream hdirty hram =>
    obtain ⟨hpos, heq⟩ := cacheInit_eq hcache
    refine ⟨dest₀, by rw [hstream]; rfl, ⟨by simp [heq, pow2floor_pos hpos], by simp [heq]⟩, hram,
      hdest, by simp [hdirty], ?_⟩
    intro a d _ hd
    simp [heq, Holds, getCachedData] at hd
  | @write s addr data _ hdata ih =>
    obtain ⟨dest, h⟩ := ih
    refine ⟨dest, h.loaded, h.filled, ?_, h.destLength, ?_,
      fun a d hne hd _ => h.copy a d hne hd nofun⟩
    · intro a
      by_cases ha : a = addr
      · simp [ha, hdata]
      · simp [ha, h.ramLength]
    · intro a hclean
      have ha : a ≠ addr := by rintro rfl; simp at hclean
      simp only [update_of_ne ha] at hclean ⊢
      exact h.clean a hclean
  | stop _ ih =>
    obtain ⟨dest, h⟩ := ih
    exact ⟨dest, { h with copy := fun a d hne hd _ => h.copy a d hne hd nofun }⟩
  | save _ hsend hsave ih =>
    obtain ⟨dest, h⟩ := ih
    obtain ⟨_, hsave', hs'⟩ := savePage_spec h hsend
    cases hsave.symm.trans hsave'
    exact ⟨_, hs'⟩

/-- **At any time** the destination can load what was sent and then has every page that is not
dirty, the copies in the cache are its pages until the guest is stopped, and the next page can be
sent. -/
theorem migration_transfers (h : Reached t lastStage s) (dest₀ : Ram)
    (hdest : ∀ a, (dest₀ a).length = t.pageSize) :
    (∃ dest, ramLoad t dest₀ s.stream = some dest ∧ (∀ a, s.dirty a = false → dest a = s.ram a) ∧
      (lastStage = false → ∀ a d, a ≠ noAddr → Holds s.cache a d → dest a = d)) ∧
      ∀ a, Sendable lastStage s a → ∃ s', savePage t lastStage s a = some s' := by
  obtain ⟨dest, hs⟩ := h.synced hdest
  refine ⟨⟨dest, hs.loaded, hs.clean, ?_⟩, ?_⟩
  · rintro rfl a d hne hd
    exact hs.copy a d hne hd nofun
  intro a hsend
  obtain ⟨s', hsave, -⟩ := savePage_spec hs hsend
  exact ⟨s', hsave⟩

/-- Pages of eight bytes. -/
def smallTarget : Target :=
  { littleEndian64 with pageSize := 8, pos := by decide, words := by decide, le := by decide }

/-- Equal pages after `ram_save_setup`, with a cache of one page. -/
def equalPages : Source :=
  { ram := fun _ => [0, 1, 2, 3, 4, 5, 6, 7], dirty := fun _ => true
    cache := { pageCache := fun _ => { itAddr := noAddr, itAge := 0, itData := none }
               pageSize := 8, maxNumItems := 1, maxItemAge := 0, numItems := 0 }
    stream := [] }

/-- A page is sent in full, changed by the guest, and sent again as a difference. -/
theorem changedPage_transferred : ∃ s dest, Reached smallTarget false s ∧ s.dirty 8 = false ∧
    s.stream = [.page 8 [0, 1, 2, 3, 4, 5, 6, 7], .xbzrle 8 1 [0, 1, 9]] ∧
    ramLoad smallTarget equalPages.ram s.stream = some dest ∧
      dest 8 = [9, 1, 2, 3, 4, 5, 6, 7] := by
  have hsetup : Reached smallTarget false equalPages :=
    .setup 1#64 rfl rfl (fun _ => rfl) fun _ => rfl
  obtain ⟨s₁, h₁⟩ : ∃ s₁, some s₁ = savePage smallTarget false equalPages 8 := ⟨_, rfl⟩
  have hsaved : Reached smallTarget false s₁ := hsetup.save ⟨rfl, by decide, by decide⟩ h₁.symm
  have hwrite := hsaved.write 8 (show [9, 1, 2, 3, 4, 5, 6, 7].length =
    smallTarget.pageSize from rfl)
  cases h₁
  have hagain := hwrite.save (show Sendable false _ 8 from ⟨rfl, by decide, by decide⟩) rfl
  obtain ⟨⟨dest, hload, hclean, -⟩, -⟩ := migration_transfers hagain equalPages.ram fun _ => rfl
  exact ⟨_, dest, hagain, rfl, rfl, hload, hclean 8 rfl⟩

end Qemu.RamSave
