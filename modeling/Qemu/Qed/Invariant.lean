import Qemu.Qed.Layout

/-!
# What the guest may see

An entry for a cluster of the guest can be found in the L2 table of the file, in a copy of it in the
cache, or it is missing as long as the L1 table of the file has no such L2 table.  When a table
could not be written these versions differ.  `Good` says that all of them point to clusters with the
right use, and that what each of them shows of a sector is among the values `P` that the sector may
have.

**Main results:** a lemma for each kind of change to the tables in memory and to the file, from
`Good.extend`, which gives a use to new clusters, to `Good.writeL1`.
-/

namespace Qemu.Qed

open List Function

/-! ## The cache -/

namespace L2Cache

variable {entries : List CachedL2Table} {e : CachedL2Table} {offset : ℕ}

lemma mem_modify {h : CachedL2Table → CachedL2Table} :
    e ∈ modify entries offset h ↔ ∃ e₀ ∈ entries, (if e₀.offset = offset then h e₀ else e₀) = e :=
  mem_map

lemma exists_of_mem_modify {h : CachedL2Table → CachedL2Table}
    (he : e ∈ modify entries offset h)
    (hkeep : ∀ e, (h e).offset = e.offset ∧ (h e).table = e.table) :
    ∃ e₀ ∈ entries, e₀.offset = e.offset ∧ e₀.table = e.table := by
  obtain ⟨e₀, he₀, rfl⟩ := mem_modify.mp he
  refine ⟨e₀, he₀, ?_⟩
  split_ifs
  · exact ⟨(hkeep e₀).1.symm, (hkeep e₀).2.symm⟩
  · exact ⟨rfl, rfl⟩

lemma exists_of_mem_ref (he : e ∈ ref entries offset) :
    ∃ e₀ ∈ entries, e₀.offset = e.offset ∧ e₀.table = e.table :=
  exists_of_mem_modify he fun _ => ⟨rfl, rfl⟩

lemma exists_of_mem_unref (he : e ∈ unref entries offset) :
    ∃ e₀ ∈ entries, e₀.offset = e.offset ∧ e₀.table = e.table :=
  exists_of_mem_modify he fun _ => ⟨rfl, rfl⟩

lemma find_modify (entries : List CachedL2Table) (offset : ℕ) (h : CachedL2Table → CachedL2Table)
    (hkeep : ∀ e, (h e).offset = e.offset) (offset' : ℕ) :
    find (modify entries offset h) offset' =
      (find entries offset').map fun e => if e.offset = offset then h e else e := by
  rw [find, modify, find?_map, find]
  congr 2
  funext e
  simp only [comp]
  split_ifs
  · rw [hkeep]
  · rfl

lemma mem_of_find (h : find entries offset = some e) : e ∈ entries ∧ e.offset = offset :=
  ⟨List.mem_of_find?_eq_some h, by simpa using find?_some h⟩

lemma find_ref (h : find entries offset = some e) :
    ∃ e', find (ref entries offset) offset = some e' := by
  rw [ref, find_modify entries offset (fun e => { e with ref := e.ref + 1 }) (fun _ => rfl), h]
  exact ⟨_, rfl⟩

lemma mem_evict {n : ℕ} (h : e ∈ evict n entries) : e ∈ entries := by
  induction entries generalizing n with
  | nil => exact h
  | cons e' entries ih =>
    rw [evict] at h
    split_ifs at h with href hsize
    · rcases mem_cons.mp h with rfl | h
      · exact mem_cons_self
      · exact mem_cons_of_mem _ (ih h)
    · exact mem_cons_of_mem _ h
    · exact mem_cons_of_mem _ (ih h)

lemma mem_commit {new : CachedL2Table} (h : e ∈ commit entries new) : e ∈ entries ∨ e = new := by
  rw [commit] at h
  split at h
  · exact .inl h
  rcases mem_append.mp h with h | h
  · split_ifs at h
    · exact .inl (mem_evict h)
    · exact .inl h
  · exact .inr (mem_singleton.mp h)

lemma find_commit (entries : List CachedL2Table) (new : CachedL2Table) :
    ∃ e, find (commit entries new) new.offset = some e := by
  rw [commit]
  split
  · next e h => exact ⟨e, h⟩
  rw [find, find?_append]
  generalize find? (fun e => e.offset == new.offset)
    (if maxL2CacheSize ≤ entries.length then evict entries.length entries else entries) = found
  cases found with
  | none => exact ⟨new, by simp⟩
  | some e => exact ⟨e, rfl⟩

end L2Cache

/-! ## The invariant -/

section Good

variable {c : Context} {owner owner' : ℕ → Use} {P P' : ℕ → Set Sector} {s s' : State} {f f' : File}

/-- The versions of an entry. -/
inductive Version (c : Context) (s : State) (f : File) (j i : ℕ) : ℕ → Prop
  | absent (h : f.table c.g.l1TableOffset j = 0) : Version c s f j i 0
  | file (h : s.l1Table j ≠ 0) : Version c s f j i (f.table (s.l1Table j) i)
  | cached {e : CachedL2Table} (he : e ∈ s.l2Cache) (h : e.offset = s.l1Table j) :
      Version c s f j i (e.table i)

/-- An entry of an L2 table that may be seen. -/
structure Seen (c : Context) (owner : ℕ → Use) (P : ℕ → Set Sector) (f : File)
    (cluster offset : ℕ) :
    Prop where
  ok : EntryOk c.g owner cluster offset
  view : ∀ q, q / c.g.spc = cluster → entryView c f offset q ∈ P q

/-- The tables in memory and in the file. -/
structure Good (c : Context) (owner : ℕ → Use) (P : ℕ → Set Sector) (s : State) (f : File) :
    Prop where
  owns : Owns c.g owner s.fileSize
  written : ∀ k, owner k ≠ .free → (k + 1) * c.g.spc ≤ f.length
  l1 : ∀ j < c.g.tableNelems, L1Ok c.g owner j (s.l1Table j)
  l1_file : ∀ j < c.g.tableNelems,
    f.table c.g.l1TableOffset j = s.l1Table j ∨ f.table c.g.l1TableOffset j = 0
  cached : ∀ e ∈ s.l2Cache, ∃ j < c.g.tableNelems, e.offset = s.l1Table j ∧ e.offset ≠ 0
  seen : ∀ j < c.g.tableNelems, ∀ i < c.g.tableNelems, ∀ v, Version c s f j i v →
    Seen c owner P f (j * c.g.tableNelems + i) v

variable {cluster offset j v : ℕ} {g : Geometry} {U : Use → Prop}

lemma EntryOk.mono (h : EntryOk g owner cluster offset)
    (howner : ∀ k, owner k ≠ .free → owner' k = owner k) :
    EntryOk g owner' cluster offset := by
  rcases h with h | h | ⟨hdvd, h⟩
  · exact .inl h
  · exact .inr (.inl h)
  · refine .inr (.inr ⟨hdvd, ?_⟩)
    rw [howner _ (by rw [h]; exact nofun), h]

lemma L1Ok.mono (h : L1Ok g owner j offset) (howner : ∀ k, owner k ≠ .free → owner' k = owner k) :
    L1Ok g owner' j offset := by
  rcases h with h | ⟨hdvd, h⟩
  · exact .inl h
  · refine .inr ⟨hdvd, fun k hk => ?_⟩
    rw [howner _ (by rw [h k hk]; exact nofun), h k hk]

lemma L1Ok.owned (h : L1Ok g owner j offset) (hne : offset ≠ 0) :
    TableOwned g owner (.l2 j) offset := by
  rcases h with h | h
  · exact absurd h hne
  · exact h

/-- An L2 table belongs to one index of the L1 table. -/
lemma Good.l1_inj (h : Good c owner P s f) {j' : ℕ} (hj : j < c.g.tableNelems)
    (hj' : j' < c.g.tableNelems) (hne : s.l1Table j ≠ 0) (heq : s.l1Table j = s.l1Table j') :
    j = j' := by
  have h₁ := ((h.l1 j hj).owned hne).2 0 c.g.tableSize_pos
  have h₂ := ((h.l1 j' hj').owned (heq ▸ hne)).2 0 c.g.tableSize_pos
  rw [heq, h₂] at h₁
  exact (Use.l2.inj h₁).symm

lemma Good.absent (h : Good c owner P s f) (hj : j < c.g.tableNelems) (hzero : s.l1Table j = 0) :
    f.table c.g.l1TableOffset j = 0 := by
  simpa [hzero] using h.l1_file j hj

lemma Good.mono (h : Good c owner P s f) (hP : ∀ q, P q ⊆ P' q) : Good c owner P' s f :=
  { h with seen := fun j hj i hi v hv =>
      ⟨(h.seen j hj i hi v hv).ok, fun q hq => hP q ((h.seen j hj i hi v hv).view q hq)⟩ }

lemma Good.narrow (h : Good c owner P s f)
    (hP : ∀ j < c.g.tableNelems, ∀ i < c.g.tableNelems, ∀ v, Version c s f j i v →
      ∀ q, q / c.g.spc = j * c.g.tableNelems + i → entryView c f v q ∈ P' q) :
    Good c owner P' s f :=
  { h with seen := fun j hj i hi v hv => ⟨(h.seen j hj i hi v hv).ok, hP j hj i hi v hv⟩ }

/-- **New uses** of clusters that were free. -/
lemma Good.extend (h : Good c owner P s f) (howner : ∀ k, owner k ≠ .free → owner' k = owner k)
    (howns : Owns c.g owner' s.fileSize)
    (hwritten : ∀ k, owner' k ≠ .free → (k + 1) * c.g.spc ≤ f.length) :
    Good c owner' P s f where
  __ := h
  owns := howns
  written := hwritten
  l1 j hj := (h.l1 j hj).mono howner
  seen j hj i hi v hv := ⟨(h.seen j hj i hi v hv).ok.mono howner, (h.seen j hj i hi v hv).view⟩

/-- **The cache** may lose tables and gets those of the file, and the file size may grow. -/
lemma Good.recache (h : Good c owner P s f) (hl1 : s'.l1Table = s.l1Table)
    (hcache : ∀ e ∈ s'.l2Cache, (∃ e₀ ∈ s.l2Cache, e₀.offset = e.offset ∧ e₀.table = e.table) ∨
      ∃ j < c.g.tableNelems, e.offset = s.l1Table j ∧ e.offset ≠ 0 ∧
        ∀ i < c.g.tableNelems, e.table i = f.table e.offset i)
    (hsize : s.fileSize ≤ s'.fileSize) (hdvd : c.g.clusterSize ∣ s'.fileSize) :
    Good c owner P s' f where
  owns := { h.owns with
    fileSize_dvd := hdvd
    used_lt := fun k hk => (h.owns.used_lt k hk).trans hsize }
  written := h.written
  l1 j hj := hl1 ▸ h.l1 j hj
  l1_file j hj := hl1 ▸ h.l1_file j hj
  cached e he := by
    rw [hl1]
    rcases hcache e he with ⟨e₀, he₀, hoffset, _⟩ | ⟨j, hj, hoffset, hne, _⟩
    · rw [← hoffset]
      exact h.cached e₀ he₀
    · exact ⟨j, hj, hoffset, hne⟩
  seen j hj i hi v hv := by
    refine h.seen j hj i hi v ?_
    cases hv with
    | absent habsent => exact .absent habsent
    | file hne =>
      rw [hl1] at hne ⊢
      exact .file hne
    | @cached e he hoffset =>
      rw [hl1] at hoffset
      rcases hcache e he with ⟨e₀, he₀, hoffset₀, htable⟩ | ⟨j', hj', hoffset', hne, htable⟩
      · rw [← htable]
        exact .cached he₀ (hoffset₀.trans hoffset)
      · rw [htable i hi, hoffset]
        exact .file (hoffset ▸ hne)

lemma Version.congr (h : Good c owner P s f) {i : ℕ} (hj : j < c.g.tableNelems)
    (hi : i < c.g.tableNelems) (hf : Keeps c.g owner U f f') (hU₁ : U .l1) (hU₂ : ∀ j, U (.l2 j))
    (hv : Version c s f' j i v) :
    Version c s f j i v := by
  cases hv with
  | absent habsent =>
    refine .absent ?_
    rw [← habsent]
    exact (table_congr ⟨h.owns.l1_dvd, h.owns.l1⟩ hj hf hU₁).symm
  | file hne =>
    rw [table_congr ((h.l1 j hj).owned hne) hi hf (hU₂ j)]
    exact .file hne
  | cached he hoffset => exact .cached he hoffset

/-- **Data** is written to free clusters, or belongs to sectors that may have this value. -/
lemma Good.writeData (h : Good c owner P s f) (hlength : f.length ≤ f'.length)
    (hf : ∀ x, f'.sectors x = f.sectors x ∨ owner (x / c.g.spc) = .free ∨
      ∃ cluster, owner (x / c.g.spc) = .data cluster ∧
        ∀ q, q / c.g.spc = cluster → q % c.g.spc = x % c.g.spc →
          f'.sectors x ∈ P q) :
    Good c owner P s f' := by
  have htable : Keeps c.g owner (fun u => u ≠ .free ∧ ∀ cluster, u ≠ .data cluster) f f' := by
    intro x hx
    rcases hf x with hx' | hx' | ⟨_, hx', _⟩
    · exact hx'
    · exact absurd hx' hx.1
    · exact absurd hx' (hx.2 _)
  refine ⟨h.owns, fun k hk => (h.written k hk).trans hlength, h.l1, ?_, h.cached, ?_⟩
  · intro j hj
    rw [table_congr ⟨h.owns.l1_dvd, h.owns.l1⟩ hj htable ⟨nofun, nofun⟩]
    exact h.l1_file j hj
  intro j hj i hi v hv
  obtain ⟨hok, hview⟩ := h.seen j hj i hi v
    (hv.congr h hj hi htable ⟨nofun, nofun⟩ fun _ => ⟨nofun, nofun⟩)
  refine ⟨hok, fun q hq => ?_⟩
  have hold := hview q hq
  rw [entryView] at hold ⊢
  split_ifs at hold ⊢ with h₀ h₁
  · exact hold
  · exact hold
  · obtain ⟨hdvd, howner⟩ := hok.allocated h₀ h₁
    have hcluster := div_dataSector (g := c.g) (q := q) hdvd
    rcases hf (v / 512 + q % c.g.spc) with hx | hx | ⟨cluster, hx, hdata⟩
    · rw [hx]
      exact hold
    · rw [hcluster, howner] at hx
      cases hx
    · rw [hcluster, howner] at hx
      exact hdata q (hq.trans (Use.data.inj hx)) (mod_dataSector hdvd).symm

/-- What is seen through an entry does not change with the tables. -/
lemma Seen.congr (h : Seen c owner P f cluster v) (hf : Keeps c.g owner U f f')
    (hU : ∀ i, U (.data i)) :
    Seen c owner P f' cluster v := by
  refine ⟨h.ok, fun q hq => ?_⟩
  subst hq
  rw [entryView_congr h.ok fun x hx _ => hf x (hx ▸ hU _)]
  exact h.view q rfl

@[simp] lemma l1Table_setTable (offset : ℕ) (table : Table) :
    (setTable s offset table).l1Table = s.l1Table :=
  rfl

lemma mem_setTable {table : Table} {e : CachedL2Table} : e ∈ (setTable s offset table).l2Cache ↔
      ∃ e₀ ∈ s.l2Cache, (if e₀.offset = offset then { e₀ with table := table } else e₀) = e :=
  L2Cache.mem_modify

/-- **An L2 table in memory** gets new entries. -/
lemma Good.setTable (h : Good c owner P s f) (hj : j < c.g.tableNelems) {table : Table}
    (htable : ∀ i < c.g.tableNelems, Seen c owner P f (j * c.g.tableNelems + i) (table i)) :
    Good c owner P (setTable s (s.l1Table j) table) f := by
  refine ⟨h.owns, h.written, h.l1, h.l1_file, fun e he => ?_, fun j' hj' i hi v hv => ?_⟩
  · obtain ⟨e₀, he₀, rfl⟩ := mem_setTable.mp he
    split_ifs
    · exact h.cached e₀ he₀
    · exact h.cached e₀ he₀
  cases hv with
  | absent habsent => exact h.seen j' hj' i hi 0 (.absent habsent)
  | file hne => exact h.seen j' hj' i hi _ (.file hne)
  | @cached e he hoffset =>
    obtain ⟨e₀, he₀, rfl⟩ := mem_setTable.mp he
    split_ifs at hoffset ⊢ with heq
    · obtain ⟨_, _, _, hne⟩ := h.cached e₀ he₀
      have hoffset : e₀.offset = s.l1Table j' := hoffset
      obtain rfl := h.l1_inj hj' hj (by rwa [← hoffset]) (hoffset.symm.trans heq)
      exact htable i hi
    · exact h.seen j' hj' i hi _ (.cached he₀ hoffset)

/-- **An L2 table in the file** gets the entries of one in memory. -/
lemma Good.writeL2 (h : Good c owner P s f) (hj : j < c.g.tableNelems) (hne : s.l1Table j ≠ 0)
    {e : CachedL2Table} (he : e ∈ s.l2Cache) (hoffset : e.offset = s.l1Table j)
    (hlength : f.length ≤ f'.length) (hf : Keeps c.g owner (· ≠ .l2 j) f f')
    (htable : ∀ i < c.g.tableNelems, f'.table (s.l1Table j) i = f.table (s.l1Table j) i ∨
      f'.table (s.l1Table j) i = e.table i) :
    Good c owner P s f' := by
  refine ⟨h.owns, fun k hk => (h.written k hk).trans hlength, h.l1, ?_, h.cached, ?_⟩
  · intro j' hj'
    rw [table_congr ⟨h.owns.l1_dvd, h.owns.l1⟩ hj' hf nofun]
    exact h.l1_file j' hj'
  intro j' hj' i hi v hv
  suffices hold : Seen c owner P f (j' * c.g.tableNelems + i) v from hold.congr hf nofun
  cases hv with
  | absent habsent =>
    refine h.seen j' hj' i hi 0 (.absent ?_)
    rw [← habsent]
    exact (table_congr ⟨h.owns.l1_dvd, h.owns.l1⟩ hj' hf nofun).symm
  | file hne' =>
    by_cases hjj : j' = j
    · subst hjj
      rcases htable i hi with hi' | hi'
      · rw [hi']
        exact h.seen j' hj' i hi _ (.file hne)
      · rw [hi']
        exact h.seen j' hj' i hi _ (.cached he hoffset)
    · rw [table_congr ((h.l1 j' hj').owned hne') hi hf fun heq => hjj (Use.l2.inj heq)]
      exact h.seen j' hj' i hi _ (.file hne')
  | cached he' hoffset' => exact h.seen j' hj' i hi _ (.cached he' hoffset')

/-- **The L1 table in memory** gets a new L2 table, which is in the file. -/
lemma Good.setL1 (h : Good c owner P s f) (hj : j < c.g.tableNelems) (hzero : s.l1Table j = 0)
    (howned : TableOwned c.g owner (.l2 j) offset)
    (htable : ∀ i < c.g.tableNelems, Seen c owner P f (j * c.g.tableNelems + i) (f.table offset i))
    (hl1 : s'.l1Table = update s.l1Table j offset) (hcache : s'.l2Cache = s.l2Cache)
    (hsize : s'.fileSize = s.fileSize) : Good c owner P s' f where
  owns := hsize ▸ h.owns
  written := h.written
  l1 j' hj' := by
    rw [hl1, update_apply]
    split_ifs with hjj
    · rw [hjj]
      exact .inr howned
    · exact h.l1 j' hj'
  l1_file j' hj' := by
    rw [hl1, update_apply]
    split_ifs with hjj
    · rw [hjj]
      exact .inr (h.absent hj hzero)
    · exact h.l1_file j' hj'
  cached e he := by
    obtain ⟨j', hj', hoffset, hne'⟩ := h.cached e (hcache ▸ he)
    refine ⟨j', hj', ?_, hne'⟩
    rw [hl1, update_of_ne]
    · exact hoffset
    · rintro rfl
      exact hne' (hoffset.trans hzero)
  seen j' hj' i hi v hv := by
    cases hv with
    | absent habsent => exact h.seen j' hj' i hi 0 (.absent habsent)
    | file hne' =>
      simp only [hl1, update_apply] at hne' ⊢
      split_ifs at hne' ⊢ with hjj
      · rw [hjj]
        exact htable i hi
      · exact h.seen j' hj' i hi _ (.file hne')
    | @cached e he hoffset =>
      rw [hcache] at he
      rw [hl1, update_apply] at hoffset
      split_ifs at hoffset with hjj
      · -- a new table cannot be in the cache already
        obtain ⟨j'', hj'', hoffset'', hne''⟩ := h.cached e he
        have hown := ((h.l1 j'' hj'').owned (hoffset'' ▸ hne'')).2 0 c.g.tableSize_pos
        rw [← hoffset'', hoffset, howned.2 0 c.g.tableSize_pos] at hown
        obtain rfl := Use.l2.inj hown
        exact absurd (hoffset''.trans hzero) hne''
      · exact h.seen j' hj' i hi _ (.cached he hoffset)

/-- **The L1 table in the file** gets entries of the one in memory. -/
lemma Good.writeL1 (h : Good c owner P s f) (hlength : f.length ≤ f'.length)
    (hf : Keeps c.g owner (· ≠ .l1) f f')
    (htable : ∀ j < c.g.tableNelems, f'.table c.g.l1TableOffset j = f.table c.g.l1TableOffset j ∨
      f'.table c.g.l1TableOffset j = s.l1Table j) : Good c owner P s f' := by
  refine ⟨h.owns, fun k hk => (h.written k hk).trans hlength, h.l1, ?_, h.cached, ?_⟩
  · intro j hj
    rcases htable j hj with hj' | hj'
    · rw [hj']
      exact h.l1_file j hj
    · exact .inl hj'
  intro j hj i hi v hv
  suffices hold : Seen c owner P f (j * c.g.tableNelems + i) v from hold.congr hf nofun
  cases hv with
  | absent habsent =>
    rcases htable j hj with hj' | hj'
    · exact h.seen j hj i hi 0 (.absent (hj'.symm.trans habsent))
    · exact h.seen j hj i hi 0 (.absent (h.absent hj (hj'.symm.trans habsent)))
  | file hne =>
    rw [table_congr ((h.l1 j hj).owned hne) hi hf nofun]
    exact h.seen j hj i hi _ (.file hne)
  | cached he hoffset => exact h.seen j hj i hi _ (.cached he hoffset)

/-! ## Offsets that are accepted -/

/-- A cluster in use is in the file, after the header. -/
lemma Owns.checkClusterOffset {fileSize : ℕ} (h : Owns g owner fileSize)
    (hdvd : g.clusterSize ∣ offset) (hfree : owner (offset / g.clusterSize) ≠ .free)
    (hheader : owner (offset / g.clusterSize) ≠ .header) :
    g.checkClusterOffset fileSize offset = true := by
  have hsize := h.used_lt _ hfree
  have hstart : g.headerSize ≤ offset / g.clusterSize := by
    by_contra hlt
    exact hheader ((h.header _).mpr (by omega))
  have hpos := g.clusterSize_pos
  obtain ⟨t, rfl⟩ := hdvd
  rw [Nat.mul_div_cancel_left _ hpos] at hsize hstart
  simp only [Geometry.checkClusterOffset, Bool.and_eq_true, decide_eq_true_eq]
  refine ⟨⟨Nat.mul_mod_right _ _, ?_⟩, ?_⟩
  · rw [Nat.mul_comm g.clusterSize]
    exact Nat.mul_le_mul_right _ hstart
  · calc g.clusterSize * t < g.clusterSize * t + g.clusterSize := by omega
      _ = (t + 1) * g.clusterSize := by ring
      _ ≤ fileSize := hsize

lemma Owns.checkTableOffset {u : Use} {fileSize : ℕ} (h : Owns g owner fileSize)
    (howned : TableOwned g owner u offset) (hfree : u ≠ .free) (hheader : u ≠ .header) :
    g.checkTableOffset fileSize offset = true := by
  have hpos := g.clusterSize_pos
  have hsize := h.tableSize_ge
  have hlast : (offset + (g.tableSize - 1) * g.clusterSize) / g.clusterSize =
      offset / g.clusterSize + (g.tableSize - 1) := Nat.add_mul_div_right _ _ hpos
  have hfirst := howned.2 0 (by omega)
  have hend := howned.2 (g.tableSize - 1) (by omega)
  rw [Nat.add_zero] at hfirst
  simp only [Geometry.checkTableOffset, Bool.and_eq_true, decide_eq_true_eq]
  refine ⟨⟨?_, ?_⟩, ?_⟩
  · have : 0 < (g.tableSize - 1) * g.clusterSize := Nat.mul_pos (by omega) hpos
    omega
  · exact h.checkClusterOffset howned.1 (by rwa [hfirst]) (by rwa [hfirst])
  · refine h.checkClusterOffset (Dvd.dvd.add howned.1 (Nat.dvd_mul_left _ _)) ?_ ?_
    · rwa [hlast, hend]
    · rwa [hlast, hend]

/-! ## Entries that have reached the file -/

def fileEntry (c : Context) (f : File) (cluster : ℕ) : ℕ :=
  let offset := f.table c.g.l1TableOffset (cluster / c.g.tableNelems)
  if offset = 0 then 0 else f.table offset (cluster % c.g.tableNelems)

/-- The tables in memory say about a cluster what those in the file say. -/
structure Agrees (c : Context) (s : State) (f : File) (cluster : ℕ) : Prop where
  l1 : f.table c.g.l1TableOffset (cluster / c.g.tableNelems) = s.l1Table (cluster / c.g.tableNelems)
  cached : ∀ e ∈ s.l2Cache, e.offset = s.l1Table (cluster / c.g.tableNelems) →
    e.table (cluster % c.g.tableNelems) = f.table e.offset (cluster % c.g.tableNelems)

lemma Version.eq_fileEntry (h : Good c owner P s f) (hagrees : Agrees c s f cluster)
    (hv : Version c s f (cluster / c.g.tableNelems) (cluster % c.g.tableNelems) v) :
    v = fileEntry c f cluster := by
  rw [fileEntry, hagrees.l1]
  cases hv with
  | absent habsent => rw [← hagrees.l1, habsent, if_pos rfl]
  | file hne => rw [if_neg hne]
  | @cached e he hoffset =>
    obtain ⟨_, _, _, hne⟩ := h.cached e he
    rw [if_neg (hoffset ▸ hne), ← hoffset]
    exact hagrees.cached e he hoffset

end Good

end Qemu.Qed
