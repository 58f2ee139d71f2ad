import Qemu.Qed.Whole

/-!
# Opening an image

`bdrv_qed_open`, for writing, with the check of `block/qed-check.c` that it makes when
`QED_F_NEED_CHECK` is set.  The check clears entries that are no valid offsets and counts clusters
that are referenced twice; the flag stays when there are such clusters.

**Main results:**
* `Consistent.good` — the tables of a consistent file are right after they have been read.
* `bdrvQedOpen_consistent` — opening leaves a consistent file as it is, apart from the flag.
-/

namespace Qemu.Qed

/-! ## The check -/

/-- `QEDCheck`: the bitmap, and the corruptions that are left. -/
structure Check where
  used : ℕ → Bool
  corruptions : ℕ

section Check

variable (c : Context) (fix : Bool)

/-- The loop of `qed_set_used_clusters`. -/
def setUsedLoop : ℕ → ℕ → (ℕ → Bool) → ℕ → (ℕ → Bool) × ℕ
  | 0, _, used, corruptions => (used, corruptions)
  | n + 1, cluster, used, corruptions =>
    setUsedLoop n (cluster + 1) (Function.update used cluster true)
      (if used cluster then corruptions + 1 else corruptions)

/-- `qed_set_used_clusters`. -/
def setUsedClusters (check : Check) (offset n : ℕ) : Check × Bool :=
  let (used, corruptions) := setUsedLoop n (c.g.bytesToClusters offset) check.used 0
  (⟨used, check.corruptions + corruptions⟩, decide (corruptions = 0))

/-- A round of `qed_check_l2_table`: the table, and the number of invalid offsets. -/
def checkL2Entry (fileSize : ℕ) (acc : Check × Table × ℕ) (i : ℕ) : Check × Table × ℕ :=
  let (check, table, invalid) := acc
  let offset := table i
  if offset = 0 ∨ offset = 1 then (check, table, invalid)
  else if c.g.checkClusterOffset fileSize offset = false then
    if fix then (check, Function.update table i 0, invalid + 1)
    else ({ check with corruptions := check.corruptions + 1 }, table, invalid + 1)
  else ((setUsedClusters c check offset 1).1, table, invalid)

/-- `qed_check_l2_table`. -/
def checkL2Table (fileSize : ℕ) (check : Check) (table : Table) : Check × Table × ℕ :=
  (List.range c.g.tableNelems).foldl (checkL2Entry c fix fileSize) (check, table, 0)

/-- `qed_read_l2_table_sync`. -/
def readL2TableSync (s : State) (f : File) (l2Table : L2Ref) (offset : ℕ) : State :=
  let s := unrefL2 s l2Table
  let l2Cache :=
    match L2Cache.find s.l2Cache offset with
    | some _ => s.l2Cache
    | none => L2Cache.commit s.l2Cache ⟨offset, f.table offset, 1⟩
  { s with l2Cache := L2Cache.ref l2Cache offset }

/-- `qed_check_l1_table` on its way: the image, the check, the L2 table, and the number of invalid
L1 entries. -/
structure CheckRun where
  s : State
  f : File
  check : Check
  l2Table : L2Ref
  invalid : ℕ

/-- A round of `qed_check_l1_table`. -/
def checkL1Entry (k : CheckRun) (i : ℕ) : CheckRun :=
  let offset := k.s.l1Table i
  if offset = 0 then k
  else if c.g.checkTableOffset k.s.fileSize offset = false then
    if fix then
      { k with
        s := { k.s with l1Table := Function.update k.s.l1Table i 0 }, invalid := k.invalid + 1 }
    else { k with
      check := { k.check with corruptions := k.check.corruptions + 1 }, invalid := k.invalid + 1 }
  else
    let (check, unique) := setUsedClusters c k.check offset c.g.tableSize
    if unique = false then { k with check := check }
    else
      let s := readL2TableSync k.s k.f k.l2Table offset
      let (check, table, invalid) :=
        checkL2Table c fix s.fileSize check (L2Ref.table s (.cached offset))
      let f :=
        if 0 < invalid ∧ fix = true then
          k.f.apply (writeTable .l2Update offset table 0 c.g.tableNelems) else k.f
      ⟨setTable s offset table, f, check, .cached offset, k.invalid⟩

/-- `qed_check_l1_table`. -/
def checkL1Table (s : State) (f : File) (check : Check) : CheckRun :=
  let check := (setUsedClusters c check c.g.l1TableOffset c.g.tableSize).1
  let k := (List.range c.g.tableNelems).foldl (checkL1Entry c fix) ⟨s, f, check, .none, 0⟩
  let f :=
    if 0 < k.invalid ∧ fix = true then
      k.f.apply (writeTable .l1Update c.g.l1TableOffset k.s.l1Table 0 c.g.tableNelems)
    else k.f
  { k with s := unrefL2 k.s k.l2Table, f := f, l2Table := .none }

/-- `qed_check` and `qed_check_mark_clean`. -/
def qedCheck (s : State) (f : File) : State × File :=
  let k := checkL1Table c fix s f ⟨fun _ => false, 0⟩
  if 0 < k.check.corruptions ∨ k.s.needCheck = false then (k.s, k.f)
  else ({ k.s with needCheck := false }, k.f.apply (.writeHeader false))

/-- `bdrv_qed_open`. -/
def bdrvQedOpen (f : File) : State × File :=
  let s := openImage c f
  if s.needCheck then qedCheck c true s f else (s, f)

end Check

/-! ## Consistent files -/

/-- Every entry is nothing, zeroes, or an offset of clusters in the file that nothing else refers
to. -/
structure Consistent (c : Context) (owner : ℕ → Use) (f : File) : Prop where
  owns : Owns c.g owner (c.g.startOfCluster (f.length * 512))
  l1 : ∀ j < c.g.tableNelems, L1Ok c.g owner j (f.table c.g.l1TableOffset j)
  l2 : ∀ j < c.g.tableNelems, f.table c.g.l1TableOffset j ≠ 0 → ∀ i < c.g.tableNelems,
    EntryOk c.g owner (j * c.g.tableNelems + i) (f.table (f.table c.g.l1TableOffset j) i)

/-- What a file shows to the guest. -/
def imageSector (c : Context) (f : File) (q : ℕ) : Sector :=
  entryView c f (fileEntry c f (q / c.g.spc)) q

section Consistent

variable {c : Context} {owner : ℕ → Use} {P : ℕ → Set Sector} {s : State} {f : File}

lemma Owns.written (h : Owns c.g owner (c.g.startOfCluster (f.length * 512))) {k : ℕ}
    (hk : owner k ≠ .free) :
    (k + 1) * c.g.spc ≤ f.length := by
  have hle := (h.used_lt k hk).trans (Nat.div_mul_le_self _ _)
  rw [c.g.clusterSize_eq, Nat.mul_left_comm] at hle
  omega

/-- **An image** that has been read. -/
lemma Consistent.good (h : Consistent c owner f) :
    Good c owner (fun q => {imageSector c f q}) (openImage c f) f where
  __ := h
  written k hk := h.owns.written hk
  l1_file j _ := .inl rfl
  cached e he := by cases he
  seen j hj i hi v hv := by
    obtain ⟨hdiv, hmod⟩ := div_mod_cluster (j := j) hi
    have hentry : v = fileEntry c f (j * c.g.tableNelems + i) := by
      rw [fileEntry, hdiv, hmod]
      cases hv with
      | absent habsent => rw [if_pos habsent]
      | file hne =>
        rw [if_neg (show f.table c.g.l1TableOffset j ≠ 0 from hne)]
        rfl
      | cached he => cases he
    refine ⟨?_, fun q hq => ?_⟩
    · rw [hentry, fileEntry, hdiv, hmod]
      split_ifs with hzero
      · exact .inl rfl
      · exact h.l2 j hj hzero i hi
    · show entryView c f v q = imageSector c f q
      rw [imageSector, hq, hentry]

lemma openImage_agrees (f : File) (cluster : ℕ) : Agrees c (openImage c f) f cluster :=
  ⟨rfl, fun _ he => nomatch he⟩

/-- The file is consistent on its own. -/
lemma Good.consistent (h : Good c owner P s f) : Consistent c owner f := by
  refine ⟨{ h.owns with fileSize_dvd := Nat.dvd_mul_left _ _, used_lt := fun k hk => ?_ },
    fun j hj => ?_, fun j hj hne i hi => ?_⟩
  · refine Nat.mul_le_mul_right _ ((Nat.le_div_iff_mul_le c.g.clusterSize_pos).mpr ?_)
    rw [c.g.clusterSize_eq, Nat.mul_left_comm, Nat.mul_comm f.length]
    exact Nat.mul_le_mul_left _ (h.written k hk)
  · rcases h.l1_file j hj with heq | hzero
    · rw [heq]
      exact h.l1 j hj
    · exact .inl hzero
  · have heq := (h.l1_file j hj).resolve_right hne
    rw [heq] at hne ⊢
    exact (h.seen j hj i hi _ (.file hne)).ok

lemma checkL2Entry_valid (fix : Bool) (check : Check) (invalid : ℕ) {fileSize i : ℕ} {table : Table}
    (h : table i = 0 ∨ table i = 1 ∨ c.g.checkClusterOffset fileSize (table i) = true) :
    ∃ check', checkL2Entry c fix fileSize (check, table, invalid) i = (check', table, invalid) := by
  rw [checkL2Entry]
  by_cases hzero : table i = 0 ∨ table i = 1
  · exact ⟨check, if_pos hzero⟩
  have hvalid := h.resolve_left fun h => hzero (.inl h)
  have hvalid := hvalid.resolve_left fun h => hzero (.inr h)
  simp only [if_neg hzero, hvalid]
  exact ⟨_, rfl⟩

lemma checkL2Table_valid (fix : Bool) (fileSize : ℕ) (check : Check) (table : Table)
    (h : ∀ i < c.g.tableNelems, table i = 0 ∨ table i = 1 ∨
      c.g.checkClusterOffset fileSize (table i) = true) :
    ∃ check', checkL2Table c fix fileSize check table = (check', table, 0) := by
  have hloop : ∀ (is : List ℕ) (check : Check), (∀ i ∈ is, i < c.g.tableNelems) →
      ∃ check', is.foldl (checkL2Entry c fix fileSize) (check, table, 0) = (check', table, 0) := by
    intro is
    induction is with
    | nil => exact fun check _ => ⟨check, rfl⟩
    | cons i is ih =>
      intro check his
      obtain ⟨check₁, hentry⟩ := checkL2Entry_valid fix check 0 (h i (his i List.mem_cons_self))
      rw [List.foldl_cons, hentry]
      exact ih check₁ fun j hj => his j (List.mem_cons_of_mem _ hj)
  exact hloop _ check fun i hi => List.mem_range.mp hi

lemma readL2TableSync_recached (f : File) (l2Table : L2Ref) {j : ℕ} (hj : j < c.g.tableNelems)
    (hne : s.l1Table j ≠ 0) :
    Recached c f s (readL2TableSync s f l2Table (s.l1Table j)) ∧
      ∃ e, L2Cache.find (readL2TableSync s f l2Table (s.l1Table j)).l2Cache
        (s.l1Table j) = some e := by
  have hunref := recached_unref (c := c) (f := f) (s := s) l2Table
  rw [readL2TableSync]
  simp only
  generalize unrefL2 s l2Table = s₁ at hunref ⊢
  rw [← hunref.l1Table] at hne ⊢
  rcases hfind : L2Cache.find s₁.l2Cache (s₁.l1Table j) with _ | e
  · have hcommit := recached_commit (c := c) (f := f) _ hj hne fun _ _ => rfl
    obtain ⟨e, he⟩ := L2Cache.find_commit s₁.l2Cache ⟨s₁.l1Table j, f.table (s₁.l1Table j), 1⟩
    exact ⟨hunref.trans (hcommit.trans (recached_ref _)), L2Cache.find_ref he⟩
  · exact ⟨hunref.trans (recached_ref _), L2Cache.find_ref hfind⟩

/-- **A round** of the check leaves consistent tables as they are. -/
lemma checkL1Entry_recached {k : CheckRun} {j : ℕ} (hgood : Good c owner P s f)
    (hj : j < c.g.tableNelems) (hs : Recached c f s k.s) (hf : k.f = f) (hinvalid : k.invalid = 0) :
    Recached c f s (checkL1Entry c true k j).s ∧ (checkL1Entry c true k j).f = f ∧
      (checkL1Entry c true k j).invalid = 0 := by
  rw [checkL1Entry]
  by_cases hzero : k.s.l1Table j = 0
  · simp only [if_pos hzero]
    exact ⟨hs, hf, hinvalid⟩
  have hgood₁ := hs.good hgood
  have hcheck := hgood₁.owns.checkTableOffset ((hgood₁.l1 j hj).owned hzero) (by simp) (by simp)
  simp only [if_neg hzero, hcheck, Bool.true_eq_false, if_false]
  by_cases hunique : (setUsedClusters c k.check (k.s.l1Table j) c.g.tableSize).2 = false
  · rw [if_pos hunique]
    exact ⟨hs, hf, hinvalid⟩
  rw [if_neg hunique]
  subst hf
  obtain ⟨hread, e, hfind⟩ := readL2TableSync_recached k.f k.l2Table hj hzero
  generalize readL2TableSync k.s k.f k.l2Table (k.s.l1Table j) = s₂ at hread hfind ⊢
  have hs₂ := hs.trans hread
  have hgood₂ := hs₂.good hgood
  have htable : L2Ref.table s₂ (.cached (k.s.l1Table j)) = e.table := by
    rw [L2Ref.table, hfind]
    rfl
  obtain ⟨he, hoffset⟩ := L2Cache.mem_of_find hfind
  obtain ⟨check', hvalid⟩ := checkL2Table_valid true s₂.fileSize
    (setUsedClusters c k.check (k.s.l1Table j) c.g.tableSize).1 e.table fun i hi => by
      have hok := (hgood₂.seen j hj i hi _ (.cached he (hoffset.trans (by rw [hread.l1Table])))).ok
      rcases hok with h₀ | h₁ | ⟨hdvd, howner⟩
      · exact .inl h₀
      · exact .inr (.inl h₁)
      · exact .inr (.inr (hgood₂.owns.checkClusterOffset hdvd (by simp [howner])
          (by simp [howner])))
  rw [htable, hvalid]
  simp only [lt_self_iff_false, false_and, if_false]
  refine ⟨hs₂.trans ⟨rfl, rfl, rfl, rfl, rfl, fun e' he' => .inl ?_⟩, trivial, hinvalid⟩
  obtain ⟨e₁, he₁, rfl⟩ := mem_setTable.mp he'
  split_ifs with heq
  · exact ⟨e, he, hoffset.trans heq.symm, rfl⟩
  · exact ⟨e₁, he₁, rfl, rfl⟩

/-- The whole check leaves consistent tables as they are. -/
lemma checkL1Table_recached (check : Check) (hgood : Good c owner P s f) :
    Recached c f s (checkL1Table c true s f check).s ∧ (checkL1Table c true s f check).f = f := by
  have hloop : ∀ (js : List ℕ) (k : CheckRun), (∀ j ∈ js, j < c.g.tableNelems) →
      Recached c f s k.s → k.f = f →
      k.invalid = 0 → Recached c f s (js.foldl (checkL1Entry c true) k).s ∧
        (js.foldl (checkL1Entry c true) k).f = f ∧
        (js.foldl (checkL1Entry c true) k).invalid = 0 := by
    intro js
    induction js with
    | nil => exact fun k _ hs hf hinvalid => ⟨hs, hf, hinvalid⟩
    | cons j js ih =>
      intro k hjs hs hf hinvalid
      obtain ⟨hs', hf', hinvalid'⟩ :=
        checkL1Entry_recached hgood (hjs j List.mem_cons_self) hs hf hinvalid
      exact ih _ (fun i hi => hjs i (List.mem_cons_of_mem _ hi)) hs' hf' hinvalid'
  rw [checkL1Table]
  simp only
  obtain ⟨hs, hf, hinvalid⟩ := hloop (List.range c.g.tableNelems)
    ⟨s, f, (setUsedClusters c check c.g.l1TableOffset c.g.tableSize).1, .none, 0⟩
    (fun j hj => List.mem_range.mp hj) .refl rfl rfl
  simp only [hinvalid, lt_irrefl, false_and, if_false]
  exact ⟨hs.trans (recached_unref _), hf⟩

/-- **Opening** a consistent file changes the flag at most. -/
theorem bdrvQedOpen_consistent (h : Consistent c owner f) :
    (∃ needCheck, (bdrvQedOpen c f).2 = { f with needCheck := needCheck }) ∧
      Good c owner (fun q => {imageSector c f q}) (bdrvQedOpen c f).1 (bdrvQedOpen c f).2 ∧
      (∀ cluster, Agrees c (bdrvQedOpen c f).1 (bdrvQedOpen c f).2 cluster) ∧
      Quiet (bdrvQedOpen c f).1 := by
  have hgood := h.good
  rw [bdrvQedOpen]
  split_ifs with hneed
  · obtain ⟨hs, hf⟩ := checkL1Table_recached ⟨fun _ => false, 0⟩ hgood
    rw [qedCheck]
    simp only
    generalize checkL1Table c true (openImage c f) f ⟨fun _ => false, 0⟩ = k at hs hf ⊢
    have hquiet : Quiet k.s := ⟨hs.plugged, hs.queue⟩
    split_ifs
    · rw [hf]
      exact ⟨⟨f.needCheck, rfl⟩, hs.good hgood,
        fun cluster => hs.agrees (openImage_agrees f cluster), hquiet⟩
    rw [hf]
    have himg : SameImage k.s { k.s with needCheck := false } f (f.apply (.writeHeader false)) :=
      ⟨⟨rfl, rfl⟩, rfl, rfl⟩
    have hgood₁ := hs.good hgood
    exact ⟨⟨false, rfl⟩, himg.good hgood₁ le_rfl hgood₁.owns.fileSize_dvd,
      fun cluster => himg.agrees (hs.agrees (openImage_agrees f cluster)), hquiet⟩
  · exact ⟨⟨f.needCheck, rfl⟩, hgood, openImage_agrees f, rfl, rfl⟩

end Consistent

end Qemu.Qed
