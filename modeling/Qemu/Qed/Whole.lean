import Qemu.Qed.Write

/-!
# Whole requests

A request goes through its pieces, and leaves the queue.

The lemmas about one piece speak of the sectors of that piece.  What a caller wants to know is
about the whole range of a request, so the pieces are put together here, with an invariant that
says how far the request has come.

**Main results:**
* `reach_writeRequest` — a write request fails, or has written all its sectors.
* `reach_readRequest` — a read request returns what its sectors may be.
-/

namespace Qemu.Qed

variable {c : Context} {fails : Failures} {owner : ℕ → Use} {P : ℕ → Set Sector} {d : ℕ → Sector}
  {start p e l m size : ℕ} {s s' : State} {f f' : File} {acb : Acb} {k : ℕ} {b : Bool}
  {Q : Run → Prop}
  {req : Request} {ret : Option Errno} {buf : ℕ → Sector} {failed : Bool}

lemma assign_assign {l' : ℕ} : assign (assign P d p l) d (p + l) l' = assign P d p (l + l') := by
  funext q
  simp only [assign]
  split_ifs <;> first | rfl | omega

lemma assign_nothing : assign P d p 0 = P := by
  funext q
  exact if_neg (by omega)

lemma widen_assign_subset (hle : p + l ≤ e) (q : ℕ) :
    widen (assign P d p l) d (p + l) e q ⊆ widen P d p e q := by
  simp only [widen, assign]
  split_ifs <;> first
    | omega
    | exact subset_rfl
    | exact Set.singleton_subset_iff.mpr (Set.mem_insert _ _)

/-! ## Write requests -/

lemma Failed.widen {id : ℕ} {r : Run} (h : Failed c (assign P d p l) d (p + l) e id r)
    (hle : p + l ≤ e) :
    Failed c P d p e id r := by
  obtain ⟨hact, hid, hfailed, ⟨owner, hgood⟩, hidle⟩ := h
  exact ⟨hact, hid, hfailed, ⟨owner, hgood.mono (widen_assign_subset hle)⟩, hidle⟩

lemma cluster_lt {g : Geometry} {cluster : ℕ} (himage : 512 * e ≤ g.imageSize)
    (h : cluster * g.spc < e) : cluster / g.tableNelems < g.tableNelems := by
  have hlt := g.l1Index_lt (p := cluster * g.spc) (by omega)
  rwa [Nat.mul_div_cancel _ g.spc_pos] at hlt

/-- The rest of a request relies on what the first piece has left. -/
lemma Relies.rest {zero : Bool} (h : Relies c s f zero p e) (hwritten : Written c P d p l s f s' f')
    (himage : 512 * e ≤ c.g.imageSize) (hlt : p + l < e) (haligned : (p + l) % c.g.spc = 0) :
    Relies c s' f' zero (p + l) e := by
  have hpos := c.g.spc_pos
  have hp := Nat.div_le_div_right (c := c.g.spc) (Nat.le_add_right p l)
  refine ⟨fun cluster hlo hhi => ?_, fun q hq hzero => ?_⟩
  · exact hwritten.agrees cluster (cluster_lt himage hhi) (h.agrees cluster (by omega) hhi)
  rcases hq with ⟨hlo, heq⟩ | hhi
  · -- the piece has ended with a cluster
    obtain ⟨t, ht⟩ := Nat.dvd_of_mod_eq_zero haligned
    rw [ht, Nat.mul_div_cancel_left _ hpos] at heq
    have hq' := Nat.div_add_mod q c.g.spc
    rw [heq] at hq'
    omega
  refine h.edges q (.inr hhi) (hzero.imp_right fun hentry => ?_)
  have hlast : (e - 1) / c.g.spc * c.g.spc < e := by
    have := Nat.div_mul_le_self (e - 1) c.g.spc
    omega
  have hafter : p + l ≤ (e - 1) / c.g.spc * c.g.spc := by
    obtain ⟨t, ht⟩ := Nat.dvd_of_mod_eq_zero haligned
    rw [ht, Nat.mul_comm]
    refine Nat.mul_le_mul_right _ ((Nat.le_div_iff_mul_le hpos).mpr ?_)
    rw [Nat.mul_comm, ← ht]
    omega
  rw [hhi.2] at hentry ⊢
  refine (hwritten.entry _ (cluster_lt himage hlast) hafter (h.agrees _ ?_ hlast)).symm.trans hentry
  exact Nat.div_le_div_right (by omega)

/-- A write request has written all its sectors. -/
structure Done (c : Context) (P : ℕ → Set Sector) (d : ℕ → Sector) (p e id : ℕ) (s : State)
    (f : File) (b : Bool)
    (r : Run) : Prop where
  act : r.act = .complete none
  acb : r.acb.id = id
  good : ∃ owner, Good c owner (assign P d p (e - p)) r.s r.f
  idle : Idle r.s id
  failed : r.failed = b
  agrees : ∀ cluster, cluster / c.g.tableNelems < c.g.tableNelems → Agrees c s f cluster →
    Agrees c r.s r.f cluster

/-- **A write request** fails, or has written all its sectors. -/
lemma reach_writeRequest (hgood : Good c owner P s f) (hwrite : WriteAcb acb d start)
    (hacb : AcbAt acb start p e) (hstart : start ≤ p) (hpe : p ≤ e)
    (hfits : Fits c.g (512 * p) (512 * (e - p))) (himage : 512 * e ≤ c.g.imageSize)
    (hidle : Idle s acb.id) (hrelies : p < e → Relies c s f acb.zero p e)
    (hkept : Kept c fails acb.zero size) (hsize : size ≤ s.fileSize) :
    Reach c fails (runOf (nextIo c s acb none) f k b)
      fun r => Failed c P d p e acb.id r ∨ Done c P d p e acb.id s f b r := by
  induction hn : e - p using Nat.strong_induction_on generalizing owner P s f acb p k with
  | h n ih =>
    subst hn
    rcases Nat.eq_or_lt_of_le hpe with rfl | hpe
    · refine Reach.now (.inr ?_)
      rw [nextIo]
      simp only [hacb.pos, hacb.endPos, le_refl, if_true]
      refine ⟨rfl, rfl, ⟨owner, ?_⟩, hidle, rfl, fun _ _ h => h⟩
      rw [Nat.sub_self, assign_nothing]
      exact hgood
    refine reach_writePiece hgood hwrite hacb hstart hpe hfits himage hidle
      (hrelies hpe) hkept hsize
      (fun r h => .now (.inl h)) fun l s' f' acb' k' hl hle haligned hsame hat hidle' hwritten => ?_
    obtain ⟨owner', hgood'⟩ := hwritten.good
    have hrest := hfits.mono (512 * (p + l)) (512 * (e - (p + l))) (by omega) (by omega)
    have hwrite' : WriteAcb acb' d start :=
      ⟨hsame.write.trans hwrite.write, by rw [hsame.zero, hsame.qiov]; exact hwrite.data⟩
    have hidle'' : Idle s' acb'.id := hsame.id ▸ hidle'
    have hrelies' : p + l < e → Relies c s' f' acb'.zero (p + l) e := fun hlt => by
      rw [hsame.zero]
      exact (hrelies hpe).rest hwritten himage hlt (haligned.resolve_left hlt.ne)
    refine (ih (e - (p + l)) (by omega) hgood' hwrite' hat (by omega) hle hrest hidle'' hrelies'
      (hsame.zero ▸ hkept) (hsize.trans hwritten.size) rfl).mono fun r hr => ?_
    rw [hsame.id] at hr
    rcases hr with hr | hr
    · exact .inl (hr.widen hle)
    refine .inr ⟨hr.act, hr.acb, ?_, hr.idle, hr.failed, fun cluster hcl h =>
      hr.agrees cluster hcl (hwritten.agrees cluster hcl h)⟩
    obtain ⟨owner'', hgood''⟩ := hr.good
    rw [assign_assign, show l + (e - (p + l)) = e - p by omega] at hgood''
    exact ⟨owner'', hgood''⟩

/-! ## Read requests -/

/-- The sectors of a piece, in the clusters that have been found. -/
lemma Found.view {l2Table : L2Ref} {kind : ClusterKind} {offset q : ℕ}
    (h : Found c s f l2Table p e kind offset l m) (hgood : Good c owner P s f)
    (himage : 512 * e ≤ c.g.imageSize) (hp : p ≤ q) (hq : q < p + l) :
    entryView c f (kind.entry c.g offset (q / c.g.spc - p / c.g.spc)) q ∈ P q := by
  have hle := h.le.trans pieceLimit_le
  have hm := clustersOf_le h.clusters
  obtain ⟨i, hi, hcluster⟩ := exists_cluster (g := c.g) hp hq
  rw [hcluster, Nat.add_sub_cancel_left]
  refine (hgood.seen _ (c.g.l1Index_lt (by have := h.pos; omega)) _ (by have := h.inTable; omega) _
    (h.version i (by omega))).view q ?_
  rw [cluster_eq, hcluster]

def HasRead (P : ℕ → Set Sector) (qiov : ℕ → Sector) (start p : ℕ) : Prop :=
  ∀ q, start ≤ q → q < p → qiov (q - start) ∈ P q

lemma HasRead.fill {qiov data : ℕ → Sector} (h : HasRead P qiov start p) (hstart : start ≤ p)
    (hdata : ∀ q, p ≤ q → q < p + l → data (q - p) ∈ P q) :
    HasRead P (fillBuffer qiov (p - start) l data) start (p + l) := by
  intro q hlo hhi
  rw [fillBuffer]
  split_ifs with hrange
  · rw [show q - start - (p - start) = q - p by omega]
    exact hdata q (by omega) hhi
  · exact h q hlo (by omega)

/-- **A piece of a read request.** -/
lemma reach_readPiece (hgood : Good c owner P s f) (hread : acb.write = false)
    (hacb : AcbAt acb start p e) (hdata : HasRead P acb.qiov start p)
    (hstart : start ≤ p) (hpe : p < e) (hfits : Fits c.g (512 * p) (512 * (e - p)))
    (himage : 512 * e ≤ c.g.imageSize)
    (hnext : ∀ l s' acb', 0 < l → p + l ≤ e → Recached c f s s' → acb'.write = false →
      acb'.id = acb.id →
      AcbAt acb' start (p + l) e → HasRead P acb'.qiov start (p + l) →
        Reach c fails (runOf (nextIo c s' acb' none) f k b) Q) :
    Reach c fails (runOf (nextIo c s acb none) f k b) Q := by
  refine reach_findCluster hgood hacb hpe himage hfits
    fun s₁ l2Table kind offset l m hrecached hfound => ?_
  have hle : p + l ≤ e := by
    have := hfound.le.trans pieceLimit_le
    omega
  have hview : ∀ q, p ≤ q → q < p + l → _ :=
    fun q hp hq => hfound.view (hrecached.good hgood) himage hp hq
  have hfilled : ∀ data : ℕ → Sector, (∀ q, p ≤ q → q < p + l → data (q - p) ∈ P q) →
      Reach c fails (runOf (nextIo c s₁ { acb with
        qiovOffset := 512 * (p - start), curPos := 512 * p, curLen := 512 * l, l2Table := l2Table,
        qiov := fillBuffer acb.qiov (p - start) l data } none) f k b) Q := by
    intro data hdata'
    refine hnext l s₁ _ hfound.pos hle hrecached hread rfl ⟨?_, ?_, hacb.endPos⟩
      (hdata.fill hstart hdata')
    · exact (Nat.mul_add _ _ _).symm
    · show 512 * (p - start) + 512 * l = _
      omega
  rw [ioFn, if_neg (by simp [hread])]
  have hdiv : ∀ a, 512 * a / 512 = a := fun a => Nat.mul_div_cancel_left a (by omega)
  have hbacking : kind = .l1 ∨ kind = .l2 → ∀ q, p ≤ q → q < p + l →
      readBackingFile c.backing (512 * p) (512 * l) (q - p) ∈ P q := by
    intro hkind q hp hq
    rw [readBackingFile_sector (by omega), show p + (q - p) = q by omega]
    have := hview q hp hq
    rcases hkind with rfl | rfl
    · exact this
    · exact this
  cases kind with
  | found =>
    refine Reach.step ?_
    obtain ⟨h₀, h₁⟩ := hfound.allocated rfl
    have hpiece : ∀ q, p ≤ q → q < p + l →
        f.sectors ((offset + c.g.offsetIntoCluster (512 * p)) / 512 + (q - p)) ∈ P q := by
      intro q hp hq
      have hv := hview q hp hq
      obtain ⟨i, hi⟩ := Nat.le.dest (Nat.div_le_div_right (c := c.g.spc) hp)
      have hq' := Nat.div_add_mod' q c.g.spc
      have hp' := Nat.div_add_mod' p c.g.spc
      rw [← hi, Nat.add_sub_cancel_left, ClusterKind.entry, entryView_run h₀ h₁] at hv
      rw [← hi, Nat.add_mul] at hq'
      rw [c.g.offsetIntoCluster_sector, Nat.add_mul_div_left _ _ (by omega)]
      rwa [show offset / 512 + p % c.g.spc + (q - p) =
        offset / 512 + i * c.g.spc + q % c.g.spc by omega]
    have := hfilled (fun i => f.sectors
      ((offset + c.g.offsetIntoCluster (512 * p)) / 512 + i)) hpiece
    simp only [readData, Run.step, runOf, Run.goOn, hdiv]
    exact this
  | zero =>
    simp only [readData, hdiv]
    exact Reach.step (hfilled _ fun q hp hq => hview q hp hq)
  | l2 =>
    simp only [readData, hdiv]
    exact Reach.step (hfilled _ (hbacking (.inr rfl)))
  | l1 =>
    simp only [readData, hdiv]
    exact Reach.step (hfilled _ (hbacking (.inl rfl)))

/-- A read request has read all its sectors. -/
structure ReadDone (c : Context) (P : ℕ → Set Sector) (start e id : ℕ) (s : State) (f : File)
    (b : Bool) (r : Run) :
    Prop where
  act : r.act = .complete none
  acb : r.acb.id = id
  recached : Recached c f s r.s
  file : r.f = f
  failed : r.failed = b
  data : HasRead P r.acb.qiov start e

/-- **A read request** returns what its sectors may be. -/
lemma reach_readRequest (hgood : Good c owner P s f) (hread : acb.write = false)
    (hacb : AcbAt acb start p e) (hdata : HasRead P acb.qiov start p)
    (hstart : start ≤ p) (hpe : p ≤ e) (hfits : Fits c.g (512 * p) (512 * (e - p)))
    (himage : 512 * e ≤ c.g.imageSize) :
    Reach c fails (runOf (nextIo c s acb none) f k b) (ReadDone c P start e acb.id s f b) := by
  induction hn : e - p using Nat.strong_induction_on generalizing s acb p with
  | h n ih =>
    subst hn
    rcases Nat.eq_or_lt_of_le hpe with rfl | hpe
    · refine Reach.now ?_
      rw [nextIo]
      simp only [hacb.pos, hacb.endPos, le_refl, if_true]
      exact ⟨rfl, rfl, .refl, rfl, rfl, hdata⟩
    · refine reach_readPiece hgood hread hacb hdata hstart hpe hfits himage
        fun l s' acb' hl hle hrecached hread' hid hat hdata' => ?_
      have hrest := hfits.mono (512 * (p + l)) (512 * (e - (p + l))) (by omega) (by omega)
      refine (ih (e - (p + l)) (by omega) (hrecached.good hgood) hread' hat hdata'
        (by omega) hle hrest rfl).mono
        fun r hr => ?_
      exact ⟨hr.act, hr.acb.trans hid, hrecached.trans hr.recached, hr.file, hr.failed, hr.data⟩

/-! ## From the start to the end -/

lemma iterate_complete {r : Run} (h : r.act = .complete ret) (n : ℕ) :
    (Run.step c fails)^[n] r = r := by
  refine Function.iterate_fixed ?_ n
  rw [Run.step, h]

lemma Serves.of_reach (h : Serves c fails req s f ret s' f' buf failed)
    (hrefused : req.refused c = none) (hreach : Reach c fails (req.start c s f) Q)
    (hQ : ∀ r, Q r → ∃ ret, r.act = .complete ret) :
    ∃ r, Q r ∧ r.act = .complete ret ∧ s' = (aioComplete r.s r.acb).1 ∧ f' = r.f ∧
      buf = r.acb.qiov ∧
      failed = r.failed := by
  cases h with
  | refused h => rw [hrefused] at h; cases h
  | @served n r ret _ hrun hret =>
    obtain ⟨m, hm⟩ := hreach
    obtain ⟨ret', hret'⟩ := hQ _ hm
    have heq : (Run.step c fails)^[m] (req.start c s f) = r := by
      rcases Nat.le_total n m with hle | hle
      · obtain ⟨i, rfl⟩ := Nat.le.dest hle
        rw [Nat.add_comm, Function.iterate_add_apply, hrun, iterate_complete hret]
      · obtain ⟨i, rfl⟩ := Nat.le.dest hle
        rw [← hrun, Nat.add_comm, Function.iterate_add_apply, iterate_complete hret']
    rw [heq] at hm
    exact ⟨r, hm, hret, rfl, rfl, rfl, rfl⟩

/-- A request that comes to an end is served. -/
lemma Reach.serves (h : Reach c fails (req.start c s f) Q) (hrefused : req.refused c = none) :
    ∃ r, Q r ∧ ∀ ret, r.act = .complete ret →
      Serves c fails req s f ret (aioComplete r.s r.acb).1 r.f r.acb.qiov r.failed := by
  obtain ⟨n, hn⟩ := h
  exact ⟨_, hn, fun ret hret => .served hrefused rfl hret⟩

def Quiet (s : State) : Prop := s.plugged = false ∧ s.allocatingWriteReqs = []

/-- The end of a request leaves the tables alone. -/
lemma aioComplete_recached (owner : ℕ → Use) (P : ℕ → Set Sector) (f : File) (acb : Acb)
    (hidle : Idle s acb.id) :
    (Good c owner P s f → Good c owner P (aioComplete s acb).1 f) ∧
      (∀ cluster, Agrees c s f cluster → Agrees c (aioComplete s acb).1 f cluster) ∧
        Quiet (aioComplete s acb).1 := by
  have hunref := recached_unref (c := c) (f := f) (s := s) acb.l2Table
  rw [aioComplete]
  simp only
  generalize unrefL2 s acb.l2Table = s₁ at hunref ⊢
  have hidle₁ := hunref.idle hidle
  have hkeep : ∀ s₂ : State, SameTables s₁ s₂ → s₂.fileSize = s₁.fileSize → Quiet s₂ →
      (Good c owner P s f → Good c owner P s₂ f) ∧
        (∀ cluster, Agrees c s f cluster → Agrees c s₂ f cluster) ∧ Quiet s₂ := by
    intro s₂ htables hsize hquiet
    refine ⟨fun hgood => ?_, fun cluster h => htables.agrees (hunref.agrees h), hquiet⟩
    have hgood₁ := hunref.good hgood
    exact htables.good hgood₁ hsize.ge (hsize ▸ hgood₁.owns.fileSize_dvd)
  obtain ⟨hplugged, hqueue⟩ := hidle₁
  rcases hqueue with hqueue | hqueue
  · rw [if_neg (by rw [hqueue]; exact nofun)]
    exact hkeep s₁ ⟨rfl, rfl⟩ rfl ⟨hplugged, hqueue⟩
  rw [if_pos (by rw [hqueue]; rfl)]
  simp only [hqueue, List.tail_cons, List.head?_nil]
  split_ifs
  · exact hkeep _ ⟨rfl, rfl⟩ rfl ⟨hplugged, rfl⟩
  · exact hkeep _ ⟨rfl, rfl⟩ rfl ⟨hplugged, rfl⟩

end Qemu.Qed
