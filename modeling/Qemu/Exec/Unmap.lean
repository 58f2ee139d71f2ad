import Qemu.Exec.TbRuns

/-!
# Giving a direct mapping of guest RAM back

`cpu_physical_memory_unmap` of a direct mapping that was written to marks the written memory dirty
and invalidates the code in it.  It goes through the memory in steps of a page from the start of the
mapping, which need not be the start of a page, while the dirty flags and the lists of translated
blocks are kept by the page.  What is done for a step concerns the page that the step starts in.

**Main results:**
- `writeChunk_spec`, `unmapLoop_spec`: what a step and the loop do
- `written_iff`: every page is flagged and all code is invalidated exactly if the unmapping is
  careful
- `careful_of_aligned`: so it is if the mapping starts at a page and pages with code are protected
-/

namespace Qemu.Exec

open Nat Option RamList

/-- What is known about the memory of the guest: the dirty flags and the translated code. -/
structure Guest (t : Target) where
  ram : RamList t
  tbs : TbDb

variable {t : Target}

namespace Guest

/-- One step of `cpu_physical_memory_unmap`; none if an array bound or a null pointer is passed. -/
def writeChunk (g : Guest t) (addr1 l : ℕ) : Option (Guest t) :=
  match g.ram.isDirty addr1 with
  | none => none
  | some true => some g
  | some false => do
      -- invalidate code
      let tbs ← (g.tbs.tbInvalidatePhysPageRange t addr1 (addr1 + l)).toOption
      -- set dirty bit
      let ram ← g.ram.setDirtyFlags addr1 (0xff &&& ~~~codeDirtyFlag)
      some ⟨ram, tbs⟩

end Guest

/-- The loop of `cpu_physical_memory_unmap`. -/
def unmapLoop : ℕ → Guest t → ℕ → ℕ → Option (Guest t)
  | _, g, _, 0 => some g
  | 0, _, _, _ + 1 => none
  | fuel + 1, g, addr1, accessLen + 1 =>
    let l := min t.pageSize (accessLen + 1)
    match g.writeChunk addr1 l with
    | none => none
    | some g' => unmapLoop fuel g' (addr1 + l) (accessLen + 1 - l)

variable {g g' : Guest t} {V : View} {addr len a l : ℕ}

namespace Guest

/-- `cpu_physical_memory_unmap` of a direct mapping of the RAM at `addr1`, with `is_write`. -/
def unmap (g : Guest t) (addr1 accessLen : ℕ) : Option (Guest t) :=
  unmapLoop accessLen g addr1 accessLen

/-- All dirty flags of the page are set, so that nothing is done for it. -/
def AllDirty (g : Guest t) (addr : ℕ) : Prop := g.ram.getDirtyFlags addr = some 0xff

open scoped Pair

/-- No block is hit in both of its parts, and the query for the migration flag stays inside of the
map. -/
def ChunkCareful (g : Guest t) (V : View) (a l : ℕ) : Prop :=
  ¬ g.AllDirty a →
    (∀ b ∈ V.live, ¬ (g.tbs.PartHit t a (a + l) (b, 0) ∧ g.tbs.PartHit t a (a + l) (b, 1))) ∧
    (a % t.pageSize = 0 ∨ a / t.pageSize + 1 < g.ram.physDirty.length)

/-- The blocks with code in a step, on the page that it starts in. -/
def killedAt (g : Guest t) (V : View) (a l : ℕ) : Set ℕ :=
  {b | b ∈ V.live ∧ ¬ g.AllDirty a ∧ g.tbs.Meets t a (a + l) b}

/-- What a step of `l` bytes at `a` does: the code goes away, and the page is flagged. -/
structure Stepped (g : Guest t) (V : View) (a l : ℕ) (g' : Guest t) : Prop where
  tbs : g'.tbs.tbs = g.tbs.tbs
  linked : Linked t g'.tbs (V.without (g.killedAt V a l))
  length : g'.ram.physDirty.length = g.ram.physDirty.length
  flags : ∀ q, g'.ram.physDirty[q]? =
    if q = a / t.pageSize then (g.ram.physDirty[q]?).map (· ||| 0xfd) else g.ram.physDirty[q]?

end Guest

/-! ## One step -/

lemma setDirtyFlags_eq {r : RamList t} {flags : BitVec 8} (dirtyFlags : BitVec 8)
    (hflags : r.getDirtyFlags a = some flags) (hm : hasMigration dirtyFlags = true) :
    (a % t.pageSize = 0 ∨ a / t.pageSize + 1 < r.physDirty.length →
      ∃ r', r.setDirtyFlags a dirtyFlags = some r' ∧
        r'.physDirty = r.physDirty.set (a / t.pageSize) (flags ||| dirtyFlags)) ∧
    (¬ (a % t.pageSize = 0 ∨ a / t.pageSize + 1 < r.physDirty.length) →
      r.setDirtyFlags a dirtyFlags = none) := by
  have hlt : a / t.pageSize < r.physDirty.length := (List.getElem?_eq_some_iff.mp hflags).1
  have hget : r.physDirty[a / t.pageSize]? = some flags := hflags
  rw [setDirtyFlags, migrationDirty, if_pos hm, getDirty, rangePages_page hlt]
  by_cases hz : a % t.pageSize = 0
  · refine ⟨fun _ => ?_, fun h => absurd (.inl hz) h⟩
    rw [if_pos hz]
    simp only [pagesDirty, hget, hflags, bind_eq_bind, bind_some, map_some]
    exact ⟨_, rfl, rfl⟩
  rw [if_neg hz]
  constructor
  · rintro (h | h)
    · exact absurd h hz
    · simp only [pagesDirty, hget, hflags, List.getElem?_eq_getElem h, bind_eq_bind,
        bind_some, map_some]
      exact ⟨_, rfl, rfl⟩
  · intro h
    have hnone : r.physDirty[a / t.pageSize + 1]? = none :=
      List.getElem?_eq_none (not_lt.mp fun hlt => h (.inr hlt))
    simp [pagesDirty, hget, hnone]

/-- **A step** flags its page and takes away the code that it finds there. -/
lemma writeChunk_spec (L : Linked t g.tbs V) (hpage : a / t.pageSize < g.ram.physDirty.length)
    (hl : 0 < l) :
    (g.ChunkCareful V a l → ∃ g', g.writeChunk a l = some g' ∧ g.Stepped V a l g') ∧
    (¬ g.ChunkCareful V a l → g.writeChunk a l = none) := by
  obtain ⟨flags, hflags⟩ : ∃ flags, g.ram.getDirtyFlags a = some flags :=
    ⟨_, List.getElem?_eq_getElem hpage⟩
  have hget : g.ram.physDirty[a / t.pageSize]? = some flags := hflags
  by_cases hdirty : flags = 0xff
  · subst hdirty
    have hskip : g.writeChunk a l = some g := by
      simp [Guest.writeChunk, isDirty, hflags]
    refine ⟨fun _ => ⟨g, hskip, rfl, ?_, rfl, fun q => ?_⟩, fun h => absurd (fun h' => ?_) h⟩
    · have hset : g.killedAt V a l = ∅ := by
        simp [Guest.killedAt, Guest.AllDirty, hflags]
      rw [hset, View.without_empty]
      exact L
    · split_ifs with hq
      · rw [hq, hget]
        rfl
      · rfl
    · exact absurd hflags h'
  have hnot : ¬ g.AllDirty a := fun h =>
    hdirty (Option.some.inj (hflags.symm.trans h))
  have hisDirty : g.ram.isDirty a = some false := by
    rw [isDirty, hflags]
    exact congrArg some (decide_eq_false hdirty)
  have hstep : g.writeChunk a l = (g.tbs.tbInvalidatePhysPageRange t a (a + l)).toOption.bind
      fun tbs => (g.ram.setDirtyFlags a (0xff &&& ~~~codeDirtyFlag)).bind fun ram =>
        some ⟨ram, tbs⟩ := by
    rw [Guest.writeChunk, hisDirty]
    rfl
  obtain ⟨hok, herr⟩ := L.invalidateRange a (a + l)
  obtain ⟨hset, hunset⟩ :=
    setDirtyFlags_eq (0xff &&& ~~~codeDirtyFlag) hflags (by decide)
  have hmeets := L.hit_iff_meets a (a + l) fun _ _ _ _ => by omega
  constructor
  · intro hcareful
    obtain ⟨hno, hin⟩ := hcareful hnot
    obtain ⟨s', hs', htbs, L'⟩ := hok hno
    obtain ⟨r', hr', hphys⟩ := hset hin
    refine ⟨⟨r', s'⟩, by rw [hstep, hs', hr']; rfl, htbs, ?_, by rw [hphys, List.length_set],
      fun q => ?_⟩
    · rw [hmeets] at L'
      simpa [Guest.killedAt, hnot] using L'
    split_ifs with hq
    · rw [hphys, hq, List.getElem?_set_self hpage, hget]
      rfl
    · rw [hphys, List.getElem?_set_ne (Ne.symm hq)]
  · intro hcareful
    rw [hstep]
    by_cases hno : ∀ b ∈ V.live, ¬ (g.tbs.PartHit t a (a + l) (b, 0) ∧
      g.tbs.PartHit t a (a + l) (b, 1))
    · obtain ⟨s', hs', -⟩ := hok hno
      rw [hs', hunset fun hin => hcareful fun _ => ⟨hno, hin⟩]
      rfl
    · rw [herr hno]
      rfl

/-! ## The loop -/

lemma chunkCareful_congr {a' l' : ℕ} (htbs : g'.tbs.tbs = g.tbs.tbs)
    (hlen : g'.ram.physDirty.length = g.ram.physDirty.length)
    (hflags : g'.ram.getDirtyFlags a' = g.ram.getDirtyFlags a') {K : Set ℕ}
    (hK : ∀ b ∈ K, ∃ n, g.tbs.pageOf t (b, n) ≠ some (a' / t.pageSize)) :
    g'.ChunkCareful (V.without K) a' l' ↔ g.ChunkCareful V a' l' := by
  have hhit : ∀ e, g'.tbs.PartHit t a' (a' + l') e ↔ g.tbs.PartHit t a' (a' + l') e := by
    intro e
    simp only [TbDb.PartHit, TbDb.pageOf, TbDb.hits, htbs]
  simp only [Guest.ChunkCareful, Guest.AllDirty, hflags, hlen, hhit]
  refine imp_congr_right fun _ => and_congr_left fun _ => ⟨fun h b hb hit => ?_, fun h b hb => ?_⟩
  · refine h b ⟨hb, fun hbK => ?_⟩ hit
    obtain ⟨n, hn⟩ := hK b hbK
    fin_cases n
    · exact hn hit.1.1
    · exact hn hit.2.1
  · exact h b hb.1

/-- The loop makes a step of `l` bytes at `a`. -/
def Chunk (t : Target) (addr len a l : ℕ) : Prop :=
  ∃ i, i * t.pageSize < len ∧ a = addr + i * t.pageSize ∧ l = min t.pageSize (len - i * t.pageSize)

lemma not_chunk_zero : ¬ Chunk t addr 0 a l := by
  rintro ⟨i, hi, -⟩
  omega

lemma chunk_iff (hlen : 0 < len) : Chunk t addr len a l ↔ a = addr ∧ l = min t.pageSize len ∨
      Chunk t (addr + min t.pageSize len) (len - min t.pageSize len) a l := by
  constructor
  · rintro ⟨i, hi, rfl, rfl⟩
    cases i with
    | zero => simp
    | succ i =>
      rw [succ_mul] at hi ⊢
      refine .inr ⟨i, ?_, ?_, ?_⟩ <;> rw [min_eq_left (by omega : t.pageSize ≤ len)]
      · omega
      · omega
      · rw [show len - t.pageSize - i * t.pageSize = len - (i * t.pageSize + t.pageSize) by omega]
  · rintro (⟨rfl, rfl⟩ | ⟨i, hi, rfl, rfl⟩)
    · exact ⟨0, by simpa using hlen, by simp, by simp⟩
    have hle : t.pageSize ≤ len := by omega
    rw [min_eq_left hle] at hi ⊢
    refine ⟨i + 1, ?_, ?_, ?_⟩ <;> rw [succ_mul]
    · omega
    · omega
    · rw [show len - t.pageSize - i * t.pageSize = len - (i * t.pageSize + t.pageSize) by omega]

lemma Chunk.page_lt (h : Chunk t (addr + min t.pageSize len) (len - min t.pageSize len) a l) :
    addr / t.pageSize < a / t.pageSize := by
  obtain ⟨i, hi, rfl, -⟩ := h
  have hle : t.pageSize ≤ len := by omega
  rw [min_eq_left hle]
  calc addr / t.pageSize < (addr + t.pageSize) / t.pageSize := by
        rw [add_div_right _ t.pageSize_pos]
        exact lt_succ_self _
    _ ≤ (addr + t.pageSize + i * t.pageSize) / t.pageSize :=
        Nat.div_le_div_right (Nat.le_add_right _ _)

namespace Guest

/-- The blocks that some step takes away. -/
def killed (g : Guest t) (V : View) (addr len : ℕ) : Set ℕ :=
  {b | b ∈ V.live ∧ ∃ a l, Chunk t addr len a l ∧ ¬ g.AllDirty a ∧ g.tbs.Meets t a (a + l) b}

/-- All flags but that for code are set on the pages that steps start in, and no others. -/
def Flagged (g g' : Guest t) (addr len : ℕ) : Prop :=
  ∀ q, ((∃ a l, Chunk t addr len a l ∧ q = a / t.pageSize) →
      g'.ram.physDirty[q]? = (g.ram.physDirty[q]?).map (· ||| 0xfd)) ∧
    ((¬ ∃ a l, Chunk t addr len a l ∧ q = a / t.pageSize) →
      g'.ram.physDirty[q]? = g.ram.physDirty[q]?)

end Guest

lemma killed_zero : g.killed V addr 0 = ∅ := by
  simp [Guest.killed, not_chunk_zero]

lemma unmapLoop_zero {fuel : ℕ} : unmapLoop fuel g addr 0 = some g := by
  cases fuel <;> rfl

lemma unmapLoop_succ {fuel : ℕ} (hlen : 0 < len) : unmapLoop (fuel + 1) g addr len =
    (g.writeChunk addr (min t.pageSize len)).bind fun g' =>
      unmapLoop fuel g' (addr + min t.pageSize len) (len - min t.pageSize len) := by
  obtain ⟨m, rfl⟩ := Nat.exists_eq_add_of_lt hlen
  rw [unmapLoop, Nat.zero_add]
  cases g.writeChunk addr (min t.pageSize (m + 1)) <;> rfl

/-! ### The steps behind the first one -/

namespace Guest.Stepped

variable {g₁ : Guest t}

/-- A step on another page finds the flags as they were. -/
lemma getDirtyFlags_eq (h : g.Stepped V addr l g₁) (hlt : addr / t.pageSize < a / t.pageSize) :
    g₁.ram.getDirtyFlags a = g.ram.getDirtyFlags a := by
  rw [getDirtyFlags, getDirtyFlags, h.flags, if_neg hlt.ne']

lemma careful_iff (h : g.Stepped V addr (min t.pageSize len) g₁) (hlen : 0 < len)
    (hcareful : g.ChunkCareful V addr (min t.pageSize len)) :
    (∀ a l, Chunk t addr len a l → g.ChunkCareful V a l) ↔
      ∀ a l, Chunk t (addr + min t.pageSize len) (len - min t.pageSize len) a l →
        g₁.ChunkCareful (V.without (g.killedAt V addr (min t.pageSize len))) a l := by
  have hsame : ∀ a l, Chunk t (addr + min t.pageSize len) (len - min t.pageSize len) a l →
      (g₁.ChunkCareful (V.without (g.killedAt V addr (min t.pageSize len))) a l ↔
        g.ChunkCareful V a l) := by
    intro a l hc
    refine chunkCareful_congr h.tbs h.length (h.getDirtyFlags_eq hc.page_lt) ?_
    rintro b ⟨-, -, n, hn, -⟩
    exact ⟨n, by rw [hn]; simpa using hc.page_lt.ne⟩
  refine forall_congr' fun a => forall_congr' fun l => ?_
  rw [chunk_iff hlen]
  constructor
  · exact fun hall hc => (hsame a l hc).mpr (hall (.inr hc))
  · rintro hall (⟨rfl, rfl⟩ | hc)
    · exact hcareful
    · exact (hsame a l hc).mp (hall hc)

lemma killed_eq (h : g.Stepped V addr (min t.pageSize len) g₁) (hlen : 0 < len) :
    g.killed V addr len = g.killedAt V addr (min t.pageSize len) ∪
      g₁.killed (V.without (g.killedAt V addr (min t.pageSize len))) (addr + min t.pageSize len)
        (len - min t.pageSize len) := by
  -- a later step kills the blocks that it would have killed before, but for those that are gone
  have hlater : ∀ b a l, Chunk t (addr + min t.pageSize len) (len - min t.pageSize len) a l →
      (¬ g₁.AllDirty a ∧ g₁.tbs.Meets t a (a + l) b ↔
        ¬ g.AllDirty a ∧ g.tbs.Meets t a (a + l) b) := by
    intro b a l hc
    simp only [AllDirty, h.getDirtyFlags_eq hc.page_lt, TbDb.Meets, TbDb.pageOf, h.tbs]
  ext b
  simp only [killed, chunk_iff hlen, Set.mem_union, Set.mem_ofPred_eq, View.without, Set.mem_sdiff]
  constructor
  · rintro ⟨hb, a, l, ⟨rfl, rfl⟩ | hc, hmeets⟩
    · exact .inl ⟨hb, hmeets⟩
    · exact or_iff_not_imp_left.mpr fun hK => ⟨⟨hb, hK⟩, a, l, hc, (hlater b a l hc).mpr hmeets⟩
  · rintro (⟨hb, hmeets⟩ | ⟨⟨hb, -⟩, a, l, hc, hmeets⟩)
    · exact ⟨hb, addr, _, .inl ⟨rfl, rfl⟩, hmeets⟩
    · exact ⟨hb, a, l, .inr hc, (hlater b a l hc).mp hmeets⟩

lemma flagged (h : g.Stepped V addr (min t.pageSize len) g₁) (hlen : 0 < len)
    (hrest : g₁.Flagged g' (addr + min t.pageSize len) (len - min t.pageSize len)) :
    g.Flagged g' addr len := by
  intro q
  constructor
  · rintro ⟨a, l, hc, rfl⟩
    rcases (chunk_iff hlen).mp hc with ⟨rfl, rfl⟩ | hc
    · rw [(hrest _).2, h.flags, if_pos rfl]
      rintro ⟨a', l', hc', heq⟩
      exact hc'.page_lt.ne heq
    · rw [(hrest _).1 ⟨a, l, hc, rfl⟩, h.flags, if_neg hc.page_lt.ne']
  · intro hq
    rw [(hrest q).2, h.flags, if_neg]
    · rintro rfl
      exact hq ⟨addr, _, (chunk_iff hlen).mpr (.inl ⟨rfl, rfl⟩), rfl⟩
    · rintro ⟨a, l, hc, rfl⟩
      exact hq ⟨a, l, (chunk_iff hlen).mpr (.inr hc), rfl⟩

end Guest.Stepped

/-- **The loop** flags the pages that its steps start in, and takes away the code there. -/
lemma unmapLoop_spec (addr len : ℕ) {fuel : ℕ} (L : Linked t g.tbs V)
    (hram : addr + len ≤ g.ram.physDirty.length * t.pageSize) (hfuel : len ≤ fuel) :
    ((∀ a l, Chunk t addr len a l → g.ChunkCareful V a l) →
      ∃ g', unmapLoop fuel g addr len = some g' ∧ g'.tbs.tbs = g.tbs.tbs ∧
        Linked t g'.tbs (V.without (g.killed V addr len)) ∧ g.Flagged g' addr len) ∧
    ((¬ ∀ a l, Chunk t addr len a l → g.ChunkCareful V a l) →
      unmapLoop fuel g addr len = none) := by
  have hpos := t.pageSize_pos
  induction len using Nat.strong_induction_on generalizing g V addr fuel with
  | _ len ih =>
  rcases Nat.eq_zero_or_pos len with rfl | hlen
  · refine ⟨fun _ => ⟨g, unmapLoop_zero, rfl, ?_, fun q => ⟨?_, fun _ => rfl⟩⟩,
      fun h => absurd ?_ h⟩
    · rwa [killed_zero, View.without_empty]
    · rintro ⟨a, l, h, -⟩
      exact absurd h not_chunk_zero
    · exact fun a l h => absurd h not_chunk_zero
  obtain ⟨fuel, rfl⟩ := Nat.exists_eq_add_of_lt (hlen.trans_le hfuel)
  have hpage : addr / t.pageSize < g.ram.physDirty.length :=
    Nat.div_lt_of_lt_mul (by rw [mul_comm]; omega)
  obtain ⟨hstep, hfail⟩ := writeChunk_spec (l := min t.pageSize len) L hpage (by omega)
  rw [unmapLoop_succ hlen]
  by_cases hcareful : g.ChunkCareful V addr (min t.pageSize len)
  · obtain ⟨g₁, hg₁, h₁⟩ := hstep hcareful
    rw [hg₁, h₁.careful_iff hlen hcareful, h₁.killed_eq hlen, ← View.without_without]
    obtain ⟨hok, hno⟩ := ih (len - min t.pageSize len) (by omega) (addr + min t.pageSize len)
      h₁.linked (by rw [h₁.length]; omega) (show len - min t.pageSize len ≤ 0 + fuel by omega)
    refine ⟨fun h => ?_, hno⟩
    obtain ⟨g', hg', htbs, L', hflags⟩ := hok h
    exact ⟨g', hg', htbs.trans h₁.tbs, L', h₁.flagged hlen hflags⟩
  · rw [hfail hcareful]
    refine ⟨fun h => absurd (h addr _ ?_) hcareful, fun _ => rfl⟩
    exact (chunk_iff hlen).mpr (.inl ⟨rfl, rfl⟩)

/-! ## What the unmapping is for -/

namespace Guest

/-- The pages of the written bytes are flagged for migration, and no live block has code there. -/
def Written (g' : Guest t) (addr len : ℕ) : Prop :=
  (∀ x, addr ≤ x → x < addr + len → g'.ram.flagged (x / t.pageSize) = true) ∧
    ∃ V, Linked t g'.tbs V ∧ ∀ b ∈ V.live, ∀ n, ∀ x ∈ (g'.tbs.tbs b).codeBytes t n,
      ¬ (addr ≤ x ∧ x < addr + len)

/-- The steps can be made, the last page is flagged already if no step starts in it, and every block
with code in the written bytes has some in a step on its first page. -/
structure UnmapCareful (g : Guest t) (V : View) (addr len : ℕ) : Prop where
  steps : ∀ a l, Chunk t addr len a l → g.ChunkCareful V a l
  pages : 0 < len → t.pageSize ≤ addr % t.pageSize + (len - 1) % t.pageSize →
    g.ram.flagged ((addr + len - 1) / t.pageSize) = true
  code : ∀ b ∈ V.live, (∃ n, ∃ x ∈ (g.tbs.tbs b).codeBytes t n, addr ≤ x ∧ x < addr + len) →
    b ∈ g.killed V addr len

end Guest

/-- The steps start in all pages of the mapping, but not in the last one if the mapping reaches
further into it than the last step. -/
lemma exists_chunk_iff {x : ℕ} (h1 : addr ≤ x) (h2 : x < addr + len) :
    (∃ a l, Chunk t addr len a l ∧ x / t.pageSize = a / t.pageSize) ↔
      (t.pageSize ≤ addr % t.pageSize + (len - 1) % t.pageSize →
        x / t.pageSize ≠ (addr + len - 1) / t.pageSize) := by
  have hpos := t.pageSize_pos
  have hfirst : addr / t.pageSize ≤ x / t.pageSize := Nat.div_le_div_right h1
  have hlast : x / t.pageSize ≤ (addr + len - 1) / t.pageSize := Nat.div_le_div_right (by omega)
  have hchunk : (∃ a l, Chunk t addr len a l ∧ x / t.pageSize = a / t.pageSize) ↔
      x / t.pageSize - addr / t.pageSize ≤ (len - 1) / t.pageSize := by
    rw [Nat.le_div_iff_mul_le hpos]
    constructor
    · rintro ⟨a, l, ⟨i, hi, rfl, rfl⟩, heq⟩
      rw [heq, add_mul_div_right _ _ hpos, Nat.add_sub_cancel_left]
      omega
    · intro hle
      refine ⟨_, _, ⟨x / t.pageSize - addr / t.pageSize, by omega, rfl, rfl⟩, ?_⟩
      rw [add_mul_div_right _ _ hpos]
      omega
  rw [Nat.add_sub_assoc (by omega), Nat.add_div hpos] at hlast ⊢
  rw [hchunk]
  split_ifs at hlast ⊢ with hcarry
  · simp only [hcarry, forall_const]
    omega
  · simp only [hcarry, false_imp_iff, iff_true]
    omega

lemma flagged_or {r r' : RamList t} {q : ℕ} (hq : q < r.physDirty.length)
    (h : r'.physDirty[q]? = (r.physDirty[q]?).map (· ||| 0xfd)) : r'.flagged q = true := by
  rw [flagged, h, List.getElem?_eq_getElem hq]
  show hasMigration (_ ||| 0xfd) = true
  rw [hasMigration_or, show hasMigration 0xfd = true by decide, Bool.or_true]

/-- **Unmapping** leaves every written page flagged and no code in the written bytes exactly if it
is careful. -/
theorem written_iff (L : Linked t g.tbs V)
    (hram : addr + len ≤ g.ram.physDirty.length * t.pageSize) :
    (∃ g', g.unmap addr len = some g' ∧ g'.Written addr len) ↔ g.UnmapCareful V addr len := by
  obtain ⟨hok, hno⟩ := unmapLoop_spec _ _ L hram le_rfl
  constructor
  · rintro ⟨g', hg', hpages, V', L', hcode⟩
    have hsteps : ∀ a l, Chunk t addr len a l → g.ChunkCareful V a l := by
      by_contra h
      exact absurd (hg'.symm.trans (hno h)) (by simp)
    obtain ⟨g'', hg'', htbs, L'', hflags⟩ := hok hsteps
    obtain rfl : g' = g'' := Option.some.inj (hg'.symm.trans hg'')
    refine ⟨hsteps, fun hlen hcarry => ?_, fun b hb hmeets => ?_⟩
    · have hnone :=
          (exists_chunk_iff (t := t) (show addr ≤ addr + len - 1 by omega) (by omega)).not.mpr
        fun h => h hcarry rfl
      have hflagged := hpages (addr + len - 1) (by omega) (by omega)
      rwa [flagged, (hflags _).2 hnone] at hflagged
    by_contra hkilled
    obtain ⟨n, x, hx, hin⟩ := hmeets
    have hlive : b ∈ V'.live := by
      rw [L'.live_unique L'']
      exact ⟨hb, hkilled⟩
    exact hcode b hlive n x (by rwa [htbs]) hin
  · intro h
    obtain ⟨g', hg', htbs, L', hflags⟩ := hok h.steps
    refine ⟨g', hg', fun x hx hx' => ?_, _, L', fun b hb n x hx hin => ?_⟩
    · by_cases hstep : ∃ a l, Chunk t addr len a l ∧ x / t.pageSize = a / t.pageSize
      · exact flagged_or (Nat.div_lt_of_lt_mul (by rw [mul_comm]; omega)) ((hflags _).1 hstep)
      · rw [flagged, (hflags _).2 hstep]
        obtain ⟨hcarry, heq⟩ := Classical.not_imp.mp ((exists_chunk_iff hx hx').not.mp hstep)
        rw [not_not.mp heq]
        exact h.pages (by omega) hcarry
    · rw [htbs] at hx
      exact hb.2 (h.code b hb.1 ⟨n, x, hx, hin⟩)

lemma Tb.Sound.page_of_mem {tb : Tb} (h : tb.Sound t) {n : Fin 2} {x : ℕ}
    (hx : x ∈ tb.codeBytes t n) : (tb.pageAddr n).map (· / t.pageSize) = some (x / t.pageSize) := by
  have hpos := t.pageSize_pos
  have hpc := mod_lt tb.pc hpos
  have hsize := h.size_le
  have hpage : ∀ p, p * t.pageSize ≤ x → x < p * t.pageSize + t.pageSize → p = x / t.pageSize := by
    intro p h1 h2
    exact (Nat.div_eq_of_lt_le h1 (by rwa [succ_mul])).symm
  fin_cases n
  · obtain ⟨p, hp⟩ := h.page_zero
    simp only [Tb.codeBytes, Fin.zero_eta, if_true, Tb.physPc, hp, getD_some, Set.mem_Ico] at hx
    simp only [Fin.zero_eta, hp, map_some, Nat.mul_div_cancel _ hpos]
    rw [hpage p (by omega) (by omega)]
  by_cases hcross : t.pageSize < tb.pc % t.pageSize + tb.size
  · obtain ⟨p, hp⟩ : ∃ p, tb.pageAddr 1 = some (p * t.pageSize) := by
      have := h.page_one
      rwa [if_pos hcross] at this
    simp only [Tb.codeBytes, Fin.mk_one, one_ne_zero, if_false, hp, getD_some, Set.mem_Ico] at hx
    simp only [Fin.mk_one, hp, map_some, Nat.mul_div_cancel _ hpos]
    rw [hpage p (by omega) (by omega)]
  · simp only [Tb.codeBytes, Fin.mk_one, one_ne_zero, if_false, Set.mem_Ico] at hx
    omega

lemma exists_chunk_of_aligned {x : ℕ} (haddr : addr % t.pageSize = 0) (h1 : addr ≤ x)
    (h2 : x < addr + len) :
    ∃ a l, Chunk t addr len a l ∧ x / t.pageSize = a / t.pageSize ∧ a ≤ x ∧ x < a + l := by
  have hpos := t.pageSize_pos
  obtain ⟨p, rfl⟩ := dvd_of_mod_eq_zero haddr
  obtain ⟨y, rfl⟩ := Nat.exists_eq_add_of_le h1
  have hdiv := div_add_mod y t.pageSize
  have hmod := mod_lt y hpos
  rw [mul_comm] at hdiv
  refine ⟨_, _, ⟨y / t.pageSize, by omega, rfl, rfl⟩, ?_, by omega, by omega⟩
  rw [mul_add_div hpos, mul_add_div hpos, Nat.mul_div_cancel _ hpos]

/-- **An aligned mapping** is unmapped carefully if pages with code are not all dirty, and no block
has both of its parts on one page. -/
theorem careful_of_aligned (L : Linked t g.tbs V) (haddr : addr % t.pageSize = 0)
    (hcode : ∀ b ∈ V.live, ∀ n p, g.tbs.pageOf t (b, n) = some p → g.ram.physDirty[p]? ≠ some 0xff)
    (hfold : ∀ b ∈ V.live, g.tbs.pageOf t (b, 0) ≠ g.tbs.pageOf t (b, 1)) :
    g.UnmapCareful V addr len := by
  refine ⟨fun a l hc _ => ⟨fun b hb hit => ?_, .inl ?_⟩, fun _ hcarry => ?_, ?_⟩
  · exact hfold b hb (hit.1.1.trans hit.2.1.symm)
  · obtain ⟨i, -, rfl, -⟩ := hc
    rw [add_mul_mod_self_right, haddr]
  · rw [haddr, Nat.zero_add] at hcarry
    exact absurd (mod_lt _ t.pageSize_pos) (not_lt.mpr hcarry)
  · rintro b hb ⟨n, x, hx, h1, h2⟩
    obtain ⟨a, l, hc, hpage, h3, h4⟩ := exists_chunk_of_aligned haddr h1 h2
    have hpageOf : g.tbs.pageOf t (b, n) = some (a / t.pageSize) := by
      rw [← hpage]
      exact (L.sound b hb).page_of_mem hx
    exact ⟨hb, a, l, hc, hcode b hb n _ hpageOf, n, hpageOf, x, hx, h3, h4⟩

def threePages : Guest pc :=
  ⟨⟨[0, 0, 0], 0, by decide⟩, TbDb.init.tbGenCode pc ⟨0x100, 0, 0, 0x1100, 0x20, 0⟩⟩

lemma threePages_linked : Linked pc threePages.tbs
    (View.empty.link pc 0 ⟨0x100, 0, 0, 0x1100, 0x20, 0⟩) :=
  (linked_empty rfl rfl rfl).genCode ⟨by decide, by decide, by decide, by decide⟩

/-- An aligned mapping of one page and a half. -/
theorem threePages_written : ∃ g', threePages.unmap 0x1000 0x1800 = some g' ∧
    g'.Written 0x1000 0x1800 := by
  refine (written_iff threePages_linked (by decide)).mpr
    (careful_of_aligned threePages_linked (by decide) ?_ ?_)
  · intro b _ n p _ h
    exact absurd (List.mem_of_getElem? h) (by decide)
  · rintro b (rfl | h)
    · decide +kernel
    · exact absurd h (Set.notMem_empty _)

/-- A mapping of 512 bytes that starts 256 bytes before the end of a page: the loop makes one step,
and the second page is not flagged. -/
theorem straddling_page_not_flagged : ∃ V, Linked pc threePages.tbs V ∧
      ¬ ∃ g', threePages.unmap 0xf00 0x200 = some g' ∧ g'.Written 0xf00 0x200 := by
  refine ⟨_, threePages_linked, ?_⟩
  rintro ⟨g', hg', hpages, -⟩
  have hpage := hpages 0x1000 (by decide) (by decide)
  have hnot : (threePages.unmap 0xf00 0x200).map (fun g' => g'.ram.flagged (0x1000 / pc.pageSize)) =
      some false := by decide +kernel
  rw [hg', map_some, hpage] at hnot
  cases hnot

end Qemu.Exec
