import Qemu.Exec.TbRange

/-!
# Runs of the database of translation blocks

Every operation on the database is compared with what it should do to the view, `TbOp.view`.  For
`tb_invalidate_phys_page_range` that is to take away the blocks with a byte of code in the range on
the page of its start, and no others.

**Main results:**
- `Linked.genCode`, `Linked.findSlow`: entering and finding a block
- `Linked.run_iff`: an operation does what it should exactly if it is careful
- `linked_throughout_iff`: every operation of a run does so exactly if they all are careful
- `modified_code_not_entered`: then no block with modified code can be entered
-/

namespace Qemu.Exec

open List Set TbDb View Function
open Chain (Lost Links Table)

variable {t : Target} {s : TbDb} {V : View} {b : ℕ} {e : Part} {c : Code}

/-! ## Entering a block -/

namespace Code

/-- A block has at most a page of code, the MMU maps whole pages, and `nextPage` is one. -/
structure Valid (t : Target) (c : Code) : Prop where
  size_pos : 0 < c.size
  size_le : c.size ≤ t.pageSize
  physPc_mod : c.physPc % t.pageSize = c.pc % t.pageSize
  nextPage_mod : c.nextPage % t.pageSize = 0

def second (t : Target) (c : Code) : Option ℕ :=
  if c.pc / t.pageSize ≠ (c.pc + c.size - 1) / t.pageSize then some c.nextPage else none

def tb (t : Target) (c : Code) : Tb :=
  ⟨c.pc, c.csBase, c.flags, c.size, ![some (c.physPc / t.pageSize * t.pageSize), c.second t]⟩

lemma crosses_iff (h : c.Valid t) : c.pc / t.pageSize ≠ (c.pc + c.size - 1) / t.pageSize ↔
    t.pageSize < c.pc % t.pageSize + c.size := by
  have hpos := t.pageSize_pos
  have hsize := h.size_pos
  have hdiv : (c.pc + c.size - 1) / t.pageSize =
      c.pc / t.pageSize + (c.pc % t.pageSize + c.size - 1) / t.pageSize := by
    have := Nat.div_add_mod c.pc t.pageSize
    rw [show c.pc + c.size - 1 = t.pageSize * (c.pc / t.pageSize) +
      (c.pc % t.pageSize + c.size - 1) by omega, Nat.mul_add_div hpos]
  rw [hdiv]
  have := Nat.div_eq_zero_iff (a := c.pc % t.pageSize + c.size - 1) (b := t.pageSize)
  omega

lemma tb_sound (h : c.Valid t) : (c.tb t).Sound t := by
  refine ⟨h.size_pos, h.size_le, ⟨_, rfl⟩, ?_⟩
  show if t.pageSize < c.pc % t.pageSize + c.size then
    ∃ p, c.second t = some (p * t.pageSize) else c.second t = none
  rw [second]
  split_ifs with h1 h2 h2
  · exact ⟨c.nextPage / t.pageSize,
      congrArg some (Nat.div_mul_cancel (Nat.dvd_of_mod_eq_zero h.nextPage_mod)).symm⟩
  · exact absurd ((crosses_iff h).mpr h1) h2
  · exact absurd ((crosses_iff h).mp h2) h1
  · rfl

lemma tb_physPc (h : c.Valid t) : (c.tb t).physPc t = c.physPc := by
  show c.physPc / t.pageSize * t.pageSize + c.pc % t.pageSize = c.physPc
  rw [← h.physPc_mod, mul_comm]
  exact Nat.div_add_mod ..

end Code

open scoped Pair

def View.enter (t : Target) (lists : ℕ → List Part) (b : ℕ) (c : Code) : ℕ → List Part :=
  let lists' := update lists (c.physPc / t.pageSize) ((b, 0) :: lists (c.physPc / t.pageSize))
  match c.second t with
  | none => lists'
  | some a => update lists' (a / t.pageSize) ((b, 1) :: lists' (a / t.pageSize))

def View.link (t : Target) (V : View) (b : ℕ) (c : Code) : View where
  live := insert b V.live
  hash := update V.hash (tbPhysHashFunc c.physPc) (b :: V.hash (tbPhysHashFunc c.physPc))
  page := enter t V.page b c
  jumps := update V.jumps b []
  cache := V.cache

lemma Code.pageOf_zero (t : Target) (c : Code) :
    ((c.tb t).pageAddr 0).map (· / t.pageSize) = some (c.physPc / t.pageSize) :=
  congrArg some (Nat.mul_div_cancel _ t.pageSize_pos)

variable {lists : ℕ → List Part}

lemma mem_enter {p : ℕ} : e ∈ enter t lists b c p ↔
      e ∈ lists p ∨ e.1 = b ∧ ((c.tb t).pageAddr e.2).map (· / t.pageSize) = some p := by
  obtain ⟨d, n⟩ := e
  have h0 := c.pageOf_zero t
  have h1 : (c.tb t).pageAddr 1 = c.second t := rfl
  cases h2 : c.second t with
  | none | some a =>
    simp only [enter, h2, update_apply]
    fin_cases n
    · simp only [Fin.zero_eta, h0]
      grind
    · simp only [Fin.mk_one, h1, h2]
      grind

lemma enter_old (t : Target) (lists : ℕ → List Part) (b : ℕ) (c : Code) (p : ℕ) :
    ∃ X, enter t lists b c p = X ++ lists p := by
  cases h2 : c.second t with
  | none =>
    simp only [enter, h2, update_apply]
    split_ifs with h
    · exact ⟨[(b, 0)], by rw [h]; rfl⟩
    · exact ⟨[], rfl⟩
  | some a =>
    simp only [enter, h2, update_apply]
    split_ifs with h h' h'
    · exact ⟨[(b, 1), (b, 0)], by rw [h, h']; rfl⟩
    · exact ⟨[(b, 1)], by rw [h]; rfl⟩
    · exact ⟨[(b, 0)], by rw [h']; rfl⟩
    · exact ⟨[], rfl⟩

lemma enter_new {p : ℕ} (h0 : ((c.tb t).pageAddr 0).map (· / t.pageSize) = some p)
    (h1 : ((c.tb t).pageAddr 1).map (· / t.pageSize) = some p) :
    ∃ A B, enter t lists b c p = A ++ (b, 1) :: (b, 0) :: B := by
  obtain ⟨a, ha, rfl⟩ := Option.map_eq_some_iff.mp h1
  have h2 : c.second t = some a := ha
  have hpage : c.physPc / t.pageSize = a / t.pageSize :=
    Option.some.inj ((c.pageOf_zero t).symm.trans h0)
  exact ⟨[], lists (a / t.pageSize), by simp [enter, h2, hpage]⟩

lemma tbGenCode_table (T : Table s.firstTb s.pageNext lists) (hb : ∀ l n, (s.nbTbs, n) ∉ lists l) :
    Table (s.tbGenCode t c).firstTb (s.tbGenCode t c).pageNext (enter t lists s.nbTbs c) := by
  have hpage : c.physPc / t.pageSize * t.pageSize / t.pageSize = c.physPc / t.pageSize :=
    Nat.mul_div_cancel _ t.pageSize_pos
  have hfirst := T.push (k := c.physPc / t.pageSize) fun l => hb l 0
  rw [tbGenCode, ← Code.second]
  cases h2 : c.second t with
  | none =>
    simp only [enter, h2, tbLinkPage, linkSecond, tbAllocPage, unchain, hpage]
    exact hfirst
  | some a =>
    simp only [enter, h2, tbLinkPage, linkSecond, tbAllocPage, unchain, hpage]
    refine hfirst.push fun l => ?_
    rw [update_apply]
    split_ifs with hl
    · simp [hb]
    · exact hb l 1

lemma tbGenCode_eq (s : TbDb) (c : Code) :
    s.tbGenCode t c =
      { tbs := update s.tbs s.nbTbs (c.tb t)
        nbTbs := s.nbTbs + 1
        physHash := (Chain.push s.physHash s.physHashNext (tbPhysHashFunc c.physPc) s.nbTbs).1
        physHashNext := (Chain.push s.physHash s.physHashNext (tbPhysHashFunc c.physPc) s.nbTbs).2
        firstTb := (s.tbGenCode t c).firstTb
        pageNext := (s.tbGenCode t c).pageNext
        jmpFirst := update s.jmpFirst s.nbTbs (.first s.nbTbs)
        jmpNext := cleared s.jmpNext [(s.nbTbs, 0), (s.nbTbs, 1)]
        jump := cleared s.jump [(s.nbTbs, 0), (s.nbTbs, 1)]
        jmpCache := s.jmpCache } := by
  have hnil : ∀ {β : Type} (f : Part → Option β), cleared f [] = f := fun f => by
    funext e
    simp [cleared]
  have hpages : ∀ (f : Fin 2 → Option ℕ) (x y : Option ℕ),
      update (update f 0 x) 1 y = ![x, y] := by
    intro f x y
    funext n
    fin_cases n <;> simp
  cases h2 : c.second t <;>
    · rw [tbGenCode, ← Code.second, h2]
      simp only [tbLinkPage, linkSecond, tbAllocPage, unchain,
        update_self, update_idem, hpages, cleared_cons, hnil, Code.tb, h2]

lemma tbGenCode_tbs (s : TbDb) (c : Code) :
    (s.tbGenCode t c).tbs = update s.tbs s.nbTbs (c.tb t) := by
  rw [tbGenCode_eq]

/-- **`tb_gen_code`** enters a block. -/
theorem Linked.genCode (L : Linked t s V) (hc : c.Valid t) :
    Linked t (s.tbGenCode t c) (V.link t s.nbTbs c) := by
  have hnew : s.nbTbs ∉ V.live := fun h => lt_irrefl _ (L.lt _ h)
  have hne : ∀ a ∈ V.live, a ≠ s.nbTbs := fun a ha h => hnew (h ▸ ha)
  have hold : ∀ a ∈ V.live, (s.tbGenCode t c).tbs a = s.tbs a := fun a ha => by
    rw [tbGenCode_tbs, update_of_ne (hne a ha)]
  have hb : (s.tbGenCode t c).tbs s.nbTbs = c.tb t := by
    rw [tbGenCode_tbs, update_self]
  have hpart : ∀ l n, (s.nbTbs, n) ∉ V.page l := fun l n h => hnew ((L.mem_page l _).mp h).1
  refine ⟨?_, ?_, ?_, fun h a => ?_, tbGenCode_table L.page hpart, fun p e => ?_, fun p a => ?_, ?_,
    ?_, fun cpu h a ha => ?_⟩
  · rintro a (rfl | ha)
    · rw [tbGenCode_eq]
      exact Nat.lt_succ_self _
    · rw [tbGenCode_eq]
      exact (L.lt a ha).trans (Nat.lt_succ_self _)
  · rintro a (rfl | ha)
    · rw [hb]
      exact Code.tb_sound hc
    · rw [hold a ha]
      exact L.sound a ha
  · rw [tbGenCode_eq]
    exact L.hash.push fun l h => hnew ((L.mem_hash l _).mp h).1
  · show a ∈ update V.hash (tbPhysHashFunc c.physPc) _ h ↔
      a ∈ insert s.nbTbs V.live ∧ tbPhysHashFunc (((s.tbGenCode t c).tbs a).physPc t) = h
    have hmem := L.mem_hash h a
    rw [Set.mem_insert_iff, update_apply]
    rcases eq_or_ne a s.nbTbs with rfl | hne'
    · rw [hb, Code.tb_physPc hc]
      grind
    by_cases ha : a ∈ V.live
    · rw [hold a ha]
      have : tbPhysHashFunc ((s.tbs a).physPc t) = s.hashOf t a := rfl
      grind
    · grind
  · show e ∈ enter t V.page s.nbTbs c p ↔ e.1 ∈ insert s.nbTbs V.live ∧
      ((((s.tbGenCode t c).tbs e.1).pageAddr e.2).map (· / t.pageSize)) = some p
    rw [mem_enter, L.mem_page, Set.mem_insert_iff]
    by_cases he : e.1 = s.nbTbs
    · rw [he, hb]
      simp [hnew]
    by_cases ha : e.1 ∈ V.live
    · rw [hold _ ha]
      simp [he, ha, pageOf]
    · simp [he, ha]
  · show (a, 0) ∈ enter t V.page s.nbTbs c p → (a, 1) ∈ enter t V.page s.nbTbs c p →
      ∃ A B, enter t V.page s.nbTbs c p = A ++ (a, 1) :: (a, 0) :: B
    intro h0 h1
    rw [mem_enter] at h0 h1
    rcases eq_or_ne a s.nbTbs with rfl | hne'
    · exact enter_new ((h0.resolve_left (hpart p 0)).2) ((h1.resolve_left (hpart p 1)).2)
    obtain ⟨A, B, hsplit⟩ := L.twice p a (h0.resolve_right fun h => hne' h.1)
      (h1.resolve_right fun h => hne' h.1)
    obtain ⟨X, hX⟩ := enter_old t V.page s.nbTbs c p
    exact ⟨X ++ A, B, by rw [hX, hsplit, append_assoc]⟩
  · have hJ := L.jumps.new hnew (fun _ h => hnew h) (s.tbGenCode t c)
      (by rw [tbGenCode_eq]; exact Nat.le_succ _) (by rw [tbGenCode_eq]; exact Nat.lt_succ_self _)
      (by rw [tbGenCode_eq]) (by rw [tbGenCode_eq]) (by rw [tbGenCode_eq])
    have hsrc : {e : Part | e.1 ∈ insert s.nbTbs V.live} =
        {e | e.1 ∈ V.live} ∪ {e | e.1 = s.nbTbs} := by
      ext e
      exact or_comm
    show Jumps _ (insert s.nbTbs V.live) {e | e.1 ∈ insert s.nbTbs V.live} _
    rw [hsrc]
    exact hJ
  · rw [tbGenCode_eq]
    exact L.cache
  · obtain ⟨hlive, hhash⟩ := L.cached cpu h a ha
    exact ⟨Set.mem_insert_of_mem _ hlive, by rw [hold a hlive, hhash]⟩

/-! ## Finding a block -/

/-- The view with a block at the head of its bucket. -/
def View.toFront (V : View) (h b : ℕ) : View :=
  { V with
    hash := update (fun l => (V.hash l).filter (· ≠ b)) h (b :: (V.hash h).filter (· ≠ b)) }

def View.cacheJump (t : Target) (V : View) (cpu pc b : ℕ) : View :=
  { V with
    cache := update V.cache cpu (update (V.cache cpu) (tbJmpCacheHashFunc t pc) (some b)) }

lemma Linked.cacheJump (L : Linked t s V) (hb : b ∈ V.live) (cpu : ℕ) :
    Linked t (s.cacheJump t cpu (s.tbs b).pc b) (V.cacheJump t cpu (s.tbs b).pc b) := by
  refine { L with
    jumps := L.jumps.congr _ rfl rfl rfl rfl, cache := ?_, cached := fun cpu' h a ha => ?_ }
  · simp only [TbDb.cacheJump, View.cacheJump, L.cache]
  simp only [View.cacheJump, update_apply] at ha
  split_ifs at ha with hcpu
  · rw [update_apply] at ha
    split_ifs at ha with hh
    · cases ha
      exact ⟨hb, hh.symm⟩
    · exact L.cached _ h a ha
  · exact L.cached cpu' h a ha

lemma Linked.toFront (L : Linked t s V) {A B : List ℕ} {p : ℕ → Bool} {h : ℕ}
    (hsplit : V.hash h = A ++ b :: B) (hA : ∀ a ∈ A, p a = false) (hp : p b = true) :
    ∃ heads next, Chain.remove s.physHash s.physHashNext h p s.fuel = .ok (b, heads, next) ∧
      Linked t { s with physHash := (Chain.push heads next h b).1,
                        physHashNext := (Chain.push heads next h b).2 } (V.toFront h b) := by
  obtain ⟨heads, next, hrem, hT, -⟩ := L.hash.remove_eq hsplit hA hp (L.length_hash h)
  have hbmem : b ∈ V.hash h := by rw [hsplit]; simp
  refine ⟨heads, next, hrem, { L with
    hash := hT.push fun l hl => ?_, mem_hash := fun l a => ?_, jumps :=
      L.jumps.congr _ rfl rfl rfl rfl }⟩
  · simpa using (mem_filter.mp hl).2
  show a ∈ (V.toFront h b).hash l ↔ a ∈ V.live ∧ s.hashOf t a = l
  rw [← L.mem_hash]
  simp only [View.toFront, update_apply]
  have hb' := L.mem_hash l b
  have hb'' := (L.mem_hash h b).mp hbmem
  split_ifs with hl
  · subst hl
    simp only [mem_cons, mem_filter, decide_eq_true_eq]
    rcases eq_or_ne a b with rfl | hab
    · simp [hbmem]
    · simp [hab]
  · simp only [mem_filter, decide_eq_true_eq]
    refine and_iff_left_of_imp fun ha => ?_
    rintro rfl
    exact hl ((hb'.mp ha).2.symm.trans hb''.2)

/-- What `tb_find_slow` should do. -/
def View.find (t : Target) (s : TbDb) (V : View) (cpu : ℕ) (c : Code) : View :=
  match (V.hash (tbPhysHashFunc c.physPc)).find? (s.isFor t c) with
  | some b => (V.toFront (tbPhysHashFunc c.physPc) b).cacheJump t cpu c.pc b
  | none => (V.link t s.nbTbs c).cacheJump t cpu c.pc s.nbTbs

/-- **`tb_find_slow`** finds a block or enters a new one. -/
theorem Linked.findSlow (L : Linked t s V) (hc : c.Valid t) (cpu : ℕ) :
    ∃ s', s.tbFindSlow t cpu c = .ok s' ∧ Linked t s' (V.find t s cpu c) := by
  rw [tbFindSlow, find]
  cases hfind : (V.hash (tbPhysHashFunc c.physPc)).find? (s.isFor t c) with
  | none =>
    have hnone : ∀ b ∈ V.hash (tbPhysHashFunc c.physPc), s.isFor t c b = false := by
      simpa using hfind
    simp only [L.hash.remove_null hnone (L.length_hash _)]
    refine ⟨_, rfl, ?_⟩
    have hpc : ((s.tbGenCode t c).tbs s.nbTbs).pc = c.pc := by
      rw [tbGenCode_tbs, update_self]
      rfl
    have := (L.genCode hc).cacheJump (mem_insert s.nbTbs V.live) cpu
    rwa [hpc] at this
  | some b =>
    obtain ⟨hb, A, B, hsplit, hA⟩ := find?_eq_some_iff_append.mp hfind
    obtain ⟨heads, next, hrem, L'⟩ := L.toFront hsplit (fun a ha => by simpa using hA a ha) hb
    simp only [hrem]
    refine ⟨_, rfl, ?_⟩
    have hlive : b ∈ V.live := ((L.mem_hash _ b).mp (by rw [hsplit]; simp)).1
    have hpc : (s.tbs b).pc = c.pc := by
      simp only [isFor, Bool.and_eq_true, beq_iff_eq] at hb
      exact hb.1.1.1.1
    have := L'.cacheJump hlive cpu
    rwa [hpc] at this

lemma tbAddJump_eq (s : TbDb) (e : Part) (d : ℕ) : s.tbAddJump e d = { s with
      jump := (s.tbAddJump e d).jump
      jmpNext := (s.tbAddJump e d).jmpNext
      jmpFirst := (s.tbAddJump e d).jmpFirst } := by
  rw [tbAddJump]
  cases s.jmpNext e <;> rfl

/-- `tb_add_jump` chains a jump of a live block to a live block. -/
lemma Linked.addJump (L : Linked t s V) {d : ℕ} (he : e.1 ∈ V.live) (hd : d ∈ V.live) :
    Linked t (s.tbAddJump e d) { V with
        jumps := if s.jump e = none then update V.jumps d (e :: V.jumps d) else V.jumps } := by
  have hJ := L.jumps.add (e := e) he hd
  rw [tbAddJump_eq] at hJ ⊢
  exact { L with jumps := hJ }

/-! ## Runs -/

def View.empty : View := ⟨∅, fun _ => [], fun _ => [], fun _ => [], fun _ _ => none⟩

lemma linked_empty (hhash : s.physHash = fun _ => none) (hpage : s.firstTb = fun _ => none)
    (hcache : s.jmpCache = fun _ _ => none) : Linked t s empty := by
  refine ⟨fun _ h => absurd h (notMem_empty _), fun _ h => absurd h (notMem_empty _),
    ⟨fun k => ?_, fun _ => nodup_nil, fun _ _ _ => disjoint_nil_left _⟩, fun h b => ?_,
    ⟨fun k => ?_, fun _ => nodup_nil, fun _ _ _ => disjoint_nil_left _⟩, fun p e => ?_,
    fun _ _ h => absurd h (by simp [empty]), ?_, hcache, fun _ _ _ h => absurd h (by simp [empty])⟩
  · exact congrFun hhash k
  · simp [empty]
  · exact congrFun hpage k
  · simp [empty]
  · exact ⟨fun _ h => absurd h (notMem_empty _), fun _ h => absurd h (notMem_empty _),
      fun _ h => absurd h (notMem_empty _), fun _ h => absurd h (notMem_empty _),
      fun _ h => absurd h (notMem_empty _), fun _ h => absurd h (notMem_empty _)⟩

namespace TbOp

/-- Jumps are chained between live blocks, and live blocks are invalidated. -/
def Valid (t : Target) (V : View) : TbOp → Prop
  | .genCode c => c.Valid t
  | .findSlow _ c => c.Valid t
  | .addJump e d => e.1 ∈ V.live ∧ d ∈ V.live
  | .physInvalidate b => b ∈ V.live
  | .invalidateRange _ _ => True
  | .flush => True

/-- What an operation should do to the view. -/
noncomputable def view (t : Target) (s : TbDb) (V : View) : TbOp → View
  | .genCode c => V.link t s.nbTbs c
  | .findSlow cpu c => V.find t s cpu c
  | .addJump e d =>
    { V with
      jumps := if s.jump e = none then update V.jumps d (e :: V.jumps d) else V.jumps }
  | .physInvalidate b => V.without {b}
  | .invalidateRange start stop => V.without {b | b ∈ V.live ∧ s.Meets t start stop b}
  | .flush => empty

/-- No block has both of its parts hit by the range, and none is hit by an empty one. -/
def Careful (t : Target) (s : TbDb) (V : View) : TbOp → Prop
  | .invalidateRange start stop =>
    ∀ b ∈ V.live, (∀ n, s.PartHit t start stop (b, n) → start < stop) ∧
      ¬ (s.PartHit t start stop (b, 0) ∧ s.PartHit t start stop (b, 1))
  | _ => True

end TbOp

/-- The database determines the live blocks. -/
lemma Linked.live_unique {V' : View} (L : Linked t s V) (L' : Linked t s V') :
    V.live = V'.live := by
  ext b
  have h : b ∈ V.hash (s.hashOf t b) ↔ b ∈ V'.hash (s.hashOf t b) := by
    rw [(L.hash.links _).unique (L'.hash.links _)]
  simpa [L.mem_hash, L'.mem_hash] using h

/-- The blocks that are hit are those that the range meets. -/
lemma Linked.hit_iff_meets (L : Linked t s V) (start stop : ℕ)
    (h : ∀ b ∈ V.live, ∀ n, s.PartHit t start stop (b, n) → start < stop) :
    {b | b ∈ V.live ∧ ∃ n, s.PartHit t start stop (b, n)} =
      {b | b ∈ V.live ∧ s.Meets t start stop b} := by
  ext b
  refine and_congr_right fun hb => exists_congr fun n => ⟨fun hit => ?_, fun hmeet => ?_⟩
  · exact ⟨hit.1, (hits_iff (L.sound b hb) (h b hb n hit) hit.1).mp hit.2⟩
  · obtain ⟨hp, a, ha, h1, h2⟩ := hmeet
    exact ⟨hp, (hits_iff (L.sound b hb) (h1.trans_lt h2) hp).mpr ⟨a, ha, h1, h2⟩⟩

/-- **One operation** does to the view what it should exactly if it is careful. -/
theorem Linked.run_iff (L : Linked t s V) {op : TbOp} (hop : op.Valid t V) :
    (∃ s', op.run t s = .ok s' ∧ Linked t s' (op.view t s V)) ↔ op.Careful t s V := by
  cases op with
  | genCode c => exact iff_of_true ⟨_, rfl, L.genCode hop⟩ trivial
  | findSlow cpu c => exact iff_of_true (L.findSlow hop cpu) trivial
  | addJump e d =>
    exact iff_of_true ⟨_, rfl, L.addJump hop.1 hop.2⟩ trivial
  | physInvalidate b =>
    obtain ⟨s', hs', L', -⟩ := L.invalidate hop
    exact iff_of_true ⟨s', hs', L'⟩ trivial
  | invalidateRange start stop =>
    obtain ⟨hok, herr⟩ := L.invalidateRange start stop
    constructor
    · rintro ⟨s', hs', L'⟩ b hb
      have hno : ∀ b ∈ V.live, ¬ (s.PartHit t start stop (b, 0) ∧
          s.PartHit t start stop (b, 1)) := by
        by_contra h
        exact absurd (hs'.symm.trans (herr h)) (by simp)
      refine ⟨fun n hit => ?_, hno b hb⟩
      obtain ⟨s'', hs'', -, L''⟩ := hok hno
      obtain rfl : s' = s'' := Except.ok.inj (hs'.symm.trans hs'')
      -- the range is not empty: the block is gone, so it should have gone
      have hlive : V.live \ {b | b ∈ V.live ∧ s.Meets t start stop b} =
          V.live \ {b | b ∈ V.live ∧ ∃ n, s.PartHit t start stop (b, n)} := L'.live_unique L''
      have hgone : b ∉ V.live \ {b | b ∈ V.live ∧ s.Meets t start stop b} := by
        rw [hlive]
        exact fun h => h.2 ⟨hb, n, hit⟩
      obtain ⟨-, m, -, a, -, h1, h2⟩ := not_not.mp fun h => hgone ⟨hb, h⟩
      exact h1.trans_lt h2
    · intro hcareful
      obtain ⟨s', hs', -, L'⟩ := hok fun b hb => (hcareful b hb).2
      rw [L.hit_iff_meets _ _ fun b hb => (hcareful b hb).1] at L'
      exact ⟨s', hs', L'⟩
  | flush => exact iff_of_true ⟨_, rfl, linked_empty rfl rfl rfl⟩ trivial

/-- Every operation of the run has `P`, in the state and the view before it. -/
def EachOp (t : Target) (P : TbDb → View → TbOp → Prop) : TbDb → View → List TbOp → Prop
  | _, _, [] => True
  | s, V, op :: ops =>
    P s V op ∧ ∀ s', op.run t s = .ok s' → EachOp t P s' (op.view t s V) ops

/-- The database represents the view before the run and after each operation, none of which reads a
null pointer. -/
def LinkedThroughout (t : Target) : TbDb → View → List TbOp → Prop
  | s, V, [] => Linked t s V
  | s, V, op :: ops =>
    Linked t s V ∧ ∃ s', op.run t s = .ok s' ∧ LinkedThroughout t s' (op.view t s V) ops

lemma LinkedThroughout.linked {ops : List TbOp} (h : LinkedThroughout t s V ops) :
    Linked t s V := by
  cases ops with
  | nil => exact h
  | cons op ops => exact h.1

/-- **Runs from any state.** -/
theorem Linked.throughout_iff (L : Linked t s V) {ops : List TbOp}
    (hops : EachOp t (fun _ => TbOp.Valid t) s V ops) :
    LinkedThroughout t s V ops ↔ EachOp t (TbOp.Careful t) s V ops := by
  induction ops generalizing s V with
  | nil => exact iff_of_true L trivial
  | cons op ops ih =>
    obtain ⟨hop, hrest⟩ := hops
    constructor
    · rintro ⟨-, s', hs', hthrough⟩
      refine ⟨(L.run_iff hop).mp ⟨s', hs', hthrough.linked⟩, fun s'' hs'' => ?_⟩
      obtain rfl : s' = s'' := Except.ok.inj (hs'.symm.trans hs'')
      exact (ih hthrough.linked (hrest s' hs')).mp hthrough
    · rintro ⟨hcareful, hall⟩
      obtain ⟨s', hs', L'⟩ := (L.run_iff hop).mpr hcareful
      exact ⟨L, s', hs', (ih L' (hrest s' hs')).mpr (hall s' hs')⟩

/-- **Every run of the database from its start**: each live block is on its one hash list and on its
one or two page lists, each jump list is circular, and each operation takes away exactly what it
should without reading a null pointer, if and only if no range that is invalidated is empty inside a
block or hits both parts of one. -/
theorem linked_throughout_iff {ops : List TbOp}
    (hops : EachOp t (fun _ => TbOp.Valid t) .init .empty ops) :
    LinkedThroughout t .init .empty ops ↔ EachOp t (TbOp.Careful t) .init .empty ops :=
  (linked_empty rfl rfl rfl).throughout_iff hops

def foldedCode : Code := ⟨0xff0, 0, 0, 0x5ff0, 0x20, 0x5000⟩

lemma foldedCode_valid : foldedCode.Valid pc := ⟨by decide, by decide, by decide, by decide⟩

/-- The folded block is chained to itself, and goes when its first byte on the page is written. -/
theorem folded_block_invalidated : LinkedThroughout pc .init .empty
      [.genCode foldedCode, .addJump (0, 0) 0, .invalidateRange 0x5000 0x5001] := by
  refine (linked_throughout_iff ?_).mpr ⟨trivial, ?_⟩
  · refine ⟨foldedCode_valid, ?_⟩
    rintro _ ⟨⟩
    exact ⟨⟨mem_insert _ _, mem_insert _ _⟩, fun _ _ => ⟨trivial, fun _ _ => trivial⟩⟩
  rintro _ ⟨⟩
  refine ⟨trivial, ?_⟩
  rintro _ ⟨⟩
  refine ⟨?_, fun _ _ => trivial⟩
  rintro b (rfl | h)
  · exact ⟨fun _ _ => by decide, fun h => absurd h.1.2 (by decide +kernel)⟩
  · exact absurd h (notMem_empty _)

/-- A write to the whole page hits both parts of the folded block, which is then invalidated twice:
the second walk along its hash list reads a null pointer. -/
theorem folded_block_invalidated_twice : EachOp pc (fun _ => TbOp.Valid pc) .init .empty
        [.genCode foldedCode, .invalidateRange 0x5000 0x6000] ∧
      ¬ LinkedThroughout pc .init .empty [.genCode foldedCode, .invalidateRange 0x5000 0x6000] := by
  refine ⟨⟨foldedCode_valid, fun _ _ => ⟨trivial, fun _ _ => trivial⟩⟩, ?_⟩
  rintro ⟨-, s₁, hs₁, -, s₂, hs₂, -⟩
  cases hs₁
  have hok : (TbOp.run pc (init.tbGenCode pc foldedCode)
      (.invalidateRange 0x5000 0x6000)).isOk = false := by decide +kernel
  rw [hs₂] at hok
  exact absurd hok (by simp [Except.isOk, Except.toBool])

/-! ## The blocks that can be entered -/

/-- The blocks that a CPU can get to without generating code. -/
inductive Enterable (s : TbDb) : ℕ → Prop
  | cached {cpu h b : ℕ} (hb : s.jmpCache cpu h = some b) : Enterable s b
  | bucket {h b : ℕ} (hb : s.physHash h = some b) : Enterable s b
  | next {b d : ℕ} (hb : Enterable s b) (hd : s.physHashNext b = some d) : Enterable s d
  | jump {b d : ℕ} {n : Fin 2} (hb : Enterable s b) (hd : s.jump (b, n) = some d) : Enterable s d

lemma Linked.live_of_enterable (L : Linked t s V) (h : Enterable s b) : b ∈ V.live := by
  induction h with
  | @cached cpu h b hb => exact (L.cached cpu h b (by rwa [← L.cache])).1
  | @bucket h b hb => exact ((L.mem_hash h b).mp ((L.hash.links h).mem_of_ptr (.inl rfl) hb)).1
  | @next b d _ hd ih =>
    have hmem := (L.mem_hash _ b).mpr ⟨ih, rfl⟩
    exact ((L.mem_hash _ d).mp ((L.hash.links _).mem_of_ptr (.inr ⟨b, hmem, rfl⟩) hd)).1
  | @jump b d n _ hd ih => exact L.jumps.target (b, n) ih d hd

/-- Only live blocks can be entered after an operation, and none with code in a range that it
invalidates. -/
def LeavesLive (t : Target) (s : TbDb) (V : View) (op : TbOp) : Prop :=
  ∃ s', op.run t s = .ok s' ∧ ∀ b, Enterable s' b → b ∈ (op.view t s V).live ∧
    ∀ start stop, op = .invalidateRange start stop → ¬ s.Meets t start stop b

lemma Linked.leavesLive (L : Linked t s V) {ops : List TbOp}
    (hvalid : EachOp t (fun _ => TbOp.Valid t) s V ops)
    (hcareful : EachOp t (TbOp.Careful t) s V ops) : EachOp t (LeavesLive t) s V ops := by
  induction ops generalizing s V with
  | nil => trivial
  | cons op ops ih =>
    obtain ⟨s', hs', L'⟩ := (L.run_iff hvalid.1).mpr hcareful.1
    refine ⟨⟨s', hs', fun b hb => ?_⟩, fun s'' hs'' => ?_⟩
    · have hlive := L'.live_of_enterable hb
      refine ⟨hlive, ?_⟩
      rintro start stop rfl hmeets
      exact hlive.2 ⟨hlive.1, hmeets⟩
    · obtain rfl : s' = s'' := Except.ok.inj (hs'.symm.trans hs'')
      exact ih L' (hvalid.2 s' hs') (hcareful.2 s' hs')

/-- **Code that has been written to is not entered again**, in every careful run. -/
theorem modified_code_not_entered {ops : List TbOp}
    (hvalid : EachOp t (fun _ => TbOp.Valid t) .init .empty ops)
    (hcareful : EachOp t (TbOp.Careful t) .init .empty ops) :
    EachOp t (LeavesLive t) .init .empty ops :=
  (linked_empty rfl rfl rfl).leavesLive hvalid hcareful

theorem folded_block_not_entered :
    EachOp pc (LeavesLive pc) .init .empty
      [.genCode foldedCode, .invalidateRange 0x5000 0x5001] := by
  refine modified_code_not_entered ⟨foldedCode_valid,
    fun _ _ => ⟨trivial, fun _ _ => trivial⟩⟩ ⟨trivial, ?_⟩
  rintro _ ⟨⟩
  refine ⟨?_, fun _ _ => trivial⟩
  rintro b (rfl | h)
  · exact ⟨fun _ _ => by decide, fun h => absurd h.1.2 (by decide +kernel)⟩
  · exact absurd h (notMem_empty _)

end Qemu.Exec
