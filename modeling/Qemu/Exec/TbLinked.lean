import Qemu.Exec.TbJumps

/-!
# The lists of a database, and taking a block off them

A `View` of the database is what it is for: the blocks that are live, and the lists that they are
on.  `Linked t s V` says that the database `s` represents the view `V`: the hash lists and the page
lists hold every live block once for each bucket and page that it belongs to, the jump lists are as
in `Jumps`, and the jump caches name live blocks only.

A block both of whose parts lie on the same page is on that page's list twice, with its second part
right before its first.

**Main results:**
- `Linked.invalidate`: `tb_phys_invalidate` of a live block takes it, and nothing else, away
- `Linked.invalidate_dead`: of a block that is not live it reads through a null pointer
-/

namespace Qemu.Exec

open List

open Chain (Lost Links Table)

variable {t : Target} {s : TbDb} {b : ℕ} {e : Part}

/-! ## Views -/

/-- The live blocks and the lists that they are on. -/
structure View where
  live : Set ℕ
  hash : ℕ → List ℕ
  page : ℕ → List Part
  jumps : ℕ → List Part
  cache : ℕ → ℕ → Option ℕ

open Classical in
/-- A block is not in `K`. -/
noncomputable def outside (K : Set ℕ) (b : ℕ) : Bool := decide (b ∉ K)

@[simp] lemma outside_eq_true {K : Set ℕ} : outside K b = true ↔ b ∉ K := by simp [outside]

/-- The view without the blocks in `K`. -/
noncomputable def View.without (V : View) (K : Set ℕ) : View where
  live := V.live \ K
  hash h := (V.hash h).filter (outside K)
  page p := (V.page p).filter (outside K ·.1)
  jumps d := (V.jumps d).filter (outside K ·.1)
  cache cpu h := (V.cache cpu h).filter (outside K)

namespace TbDb

def hashOf (t : Target) (s : TbDb) (b : ℕ) : ℕ := tbPhysHashFunc ((s.tbs b).physPc t)

def pageOf (t : Target) (s : TbDb) (e : Part) : Option ℕ :=
  ((s.tbs e.1).pageAddr e.2).map (· / t.pageSize)

end TbDb

/-- What `tb_gen_code` makes: code of at most a page, with a second page exactly if it crosses into
one. -/
structure Tb.Sound (t : Target) (b : Tb) : Prop where
  size_pos : 0 < b.size
  size_le : b.size ≤ t.pageSize
  page_zero : ∃ p, b.pageAddr 0 = some (p * t.pageSize)
  page_one : if t.pageSize < b.pc % t.pageSize + b.size then
    ∃ p, b.pageAddr 1 = some (p * t.pageSize) else b.pageAddr 1 = none

/-- The database `s` represents the view `V`. -/
structure Linked (t : Target) (s : TbDb) (V : View) : Prop where
  lt : ∀ b ∈ V.live, b < s.nbTbs
  sound : ∀ b ∈ V.live, (s.tbs b).Sound t
  hash : Table s.physHash s.physHashNext V.hash
  mem_hash : ∀ h b, b ∈ V.hash h ↔ b ∈ V.live ∧ s.hashOf t b = h
  page : Table s.firstTb s.pageNext V.page
  mem_page : ∀ p e, e ∈ V.page p ↔ e.1 ∈ V.live ∧ s.pageOf t e = some p
  twice : ∀ p b, (b, 0) ∈ V.page p → (b, 1) ∈ V.page p →
    ∃ A B, V.page p = A ++ (b, 1) :: (b, 0) :: B
  jumps : Jumps s V.live {e | e.1 ∈ V.live} V.jumps
  cache : s.jmpCache = V.cache
  cached : ∀ cpu h b, V.cache cpu h = some b →
    b ∈ V.live ∧ tbJmpCacheHashFunc t (s.tbs b).pc = h

variable {V : View}

lemma Linked.length_hash (L : Linked t s V) (h : ℕ) : (V.hash h).length < s.fuel := by
  have hsub : V.hash h ⊆ range s.nbTbs := fun b hb =>
    mem_range.mpr (L.lt b ((L.mem_hash h b).mp hb).1)
  have hle := (subperm_of_subset (L.hash.nodup h) hsub).length_le
  rw [length_range] at hle
  rw [TbDb.fuel]
  omega

lemma Linked.length_page (L : Linked t s V) (p : ℕ) : (V.page p).length < s.fuel := by
  have hle := length_le_of_parts (L.page.nodup p) fun e he => L.lt e.1 ((L.mem_page p e).mp he).1
  rw [TbDb.fuel]
  omega

/-! ## Off the hash list -/

lemma Linked.tbRemove_eq (L : Linked t s V) (hb : b ∈ V.live) :
    ∃ heads next, s.tbRemove (s.hashOf t b) b =
        .ok { s with physHash := heads, physHashNext := next } ∧
      Table heads next fun h => (V.hash h).filter (· ≠ b) := by
  obtain ⟨A, B, hsplit⟩ := append_of_mem ((L.mem_hash _ b).mpr ⟨hb, rfl⟩)
  have hnd := L.hash.nodup (s.hashOf t b)
  rw [hsplit] at hnd
  obtain ⟨heads, next, hrem, hT, -⟩ := L.hash.remove_eq (p := (· == b)) hsplit
    (fun x hx => beq_eq_false_iff_ne.mpr (by grind)) (beq_self_eq_true b) (L.length_hash _)
  exact ⟨heads, next, by rw [TbDb.tbRemove, hrem]; rfl, hT⟩

/-! ## Off the page lists -/

/-- `x` is right before the first entry of `b` on a page list. -/
def BeforeFirst (lists : ℕ → List Part) (b : ℕ) (x : Part) : Prop :=
  ∃ p A e B, lists p = A ++ x :: e :: B ∧ e.1 = b ∧ ∀ y ∈ A ++ [x], y.1 ≠ b

lemma beforeFirst_of_lastPlace {lists : ℕ → List Part} {p : ℕ} {A B : List Part} {x : Part}
    (hsplit : lists p = A ++ e :: B) (he : e.1 = b) (hA : ∀ y ∈ A, y.1 ≠ b)
    (hx : Chain.lastPlace none A = some x) : BeforeFirst lists b x := by
  obtain ⟨A', rfl⟩ := Chain.eq_append_of_lastPlace hx
  exact ⟨p, A', e, B, by simpa using hsplit, he, hA⟩

section Leave

variable {lists : ℕ → List Part}

lemma leavePage_eq (T : Table s.firstTb s.pageNext lists) (hfuel : ∀ p, (lists p).length < s.fuel)
    {p : ℕ} (hp : s.pageOf t e = some p) {A B : List Part} {y : Part}
    (hsplit : lists p = A ++ y :: B) (hy : y.1 = e.1) (hA : ∀ x ∈ A, x.1 ≠ e.1) :
    ∃ heads next, s.leavePage t e none = .ok { s with firstTb := heads, pageNext := next } ∧
      Table heads next (fun q => (lists q).filter (· ≠ y)) ∧
      ∀ x, next x = s.pageNext x ∨ Chain.lastPlace none A = some x := by
  obtain ⟨a, ha, rfl⟩ := Option.map_eq_some_iff.mp hp
  obtain ⟨heads, next, hrem, hT, hframe⟩ := T.remove_eq (p := fun x => x.1 == e.1) hsplit
    (fun x hx => beq_eq_false_iff_ne.mpr (hA x hx)) (beq_iff_eq.mpr hy) (hfuel _)
  refine ⟨heads, next, ?_, hT, fun x => or_iff_not_imp_right.mpr (hframe x)⟩
  rw [TbDb.leavePage, ha]
  simp only [reduceCtorEq, if_false, TbDb.tbPageRemove, hrem, Except.map]

lemma part_eq_or {x : Part} : x.1 = b ↔ x = (b, 0) ∨ x = (b, 1) := by
  obtain ⟨c, n⟩ := x
  fin_cases n <;> simp

lemma leaveTwo_eq (T : Table s.firstTb s.pageNext lists) (hfuel : ∀ p, (lists p).length < s.fuel)
    {p₀ p₁ : ℕ} (hp₀ : s.pageOf t (b, 0) = some p₀) (hp₁ : s.pageOf t (b, 1) = some p₁)
    {A₀ B₀ A₁ B₁ : List Part} {y₀ y₁ : Part} (hy : ∀ x : Part, x.1 = b ↔ x = y₀ ∨ x = y₁)
    (h₀ : lists p₀ = A₀ ++ y₀ :: B₀) (hA₀ : ∀ x ∈ A₀, x.1 ≠ b)
    (h₁ : (lists p₁).filter (· ≠ y₀) = A₁ ++ y₁ :: B₁) (hA₁ : ∀ x ∈ A₁, x.1 ≠ b) :
    ∃ heads next, (s.leavePage t (b, 0) none >>= fun s => s.leavePage t (b, 1) none) =
        .ok { s with firstTb := heads, pageNext := next } ∧
      Table heads next (fun q => (lists q).filter (·.1 ≠ b)) ∧
      ∀ x, next x = s.pageNext x ∨ Chain.lastPlace none A₀ = some x ∨
      Chain.lastPlace none A₁ = some x := by
  obtain ⟨heads, next, hleave, hT, hframe⟩ :=
    leavePage_eq T hfuel hp₀ h₀ ((hy y₀).mpr (.inl rfl)) hA₀
  obtain ⟨heads', next', hleave', hT', hframe'⟩ :=
    leavePage_eq (s := { s with firstTb := heads, pageNext := next }) (e := (b, 1)) hT
      (fun p => (length_filter_le _ _).trans_lt (hfuel p)) hp₁ h₁
      ((hy y₁).mpr (.inr rfl)) hA₁
  refine ⟨heads', next', by rw [hleave]; exact hleave', ?_, fun x => ?_⟩
  · convert hT' using 2
    rw [filter_filter]
    refine filter_congr fun x _ => ?_
    simp only [ne_eq, hy x, not_or, ← Bool.decide_and, decide_eq_decide]
    tauto
  · rcases hframe' x with hx | hx
    · exact (hframe x).imp hx.trans .inl
    · exact .inr (.inr hx)

lemma exists_split {l : List Part} (hnd : l.Nodup) (he : e ∈ l)
    (honly : ∀ x ∈ l, x.1 = e.1 → x = e) :
    ∃ A B, l = A ++ e :: B ∧ ∀ x ∈ A, x.1 ≠ e.1 := by
  obtain ⟨A, B, rfl⟩ := append_of_mem he
  refine ⟨A, B, rfl, fun x hx hxe => ?_⟩
  obtain rfl := honly x (by simp [hx]) hxe
  grind

lemma leavePages_eq (T : Table s.firstTb s.pageNext lists) (hfuel : ∀ p, (lists p).length < s.fuel)
    (hmem : ∀ p n, (b, n) ∈ lists p ↔ s.pageOf t (b, n) = some p)
    (htwice : ∀ p, (b, 0) ∈ lists p → (b, 1) ∈ lists p →
      ∃ A B, lists p = A ++ (b, 1) :: (b, 0) :: B)
    (p₀ : ℕ) (hp₀ : s.pageOf t (b, 0) = some p₀) :
    ∃ heads next, (s.leavePage t (b, 0) none >>= fun s => s.leavePage t (b, 1) none) =
        .ok { s with firstTb := heads, pageNext := next } ∧
      Table heads next (fun q => (lists q).filter (·.1 ≠ b)) ∧
      ∀ x, next x = s.pageNext x ∨ BeforeFirst lists b x := by
  have hmem₀ := (hmem p₀ 0).mpr hp₀
  have hnd := T.nodup p₀
  cases hp₁ : s.pageOf t (b, 1) with
  | none =>
    have hsecond : ∀ q, (b, 1) ∉ lists q := fun q => by simp [hmem, hp₁]
    obtain ⟨A, B, hsplit, hA⟩ := exists_split hnd hmem₀ fun x hx hxb =>
      (part_eq_or.mp hxb).resolve_right fun h => hsecond p₀ (h ▸ hx)
    obtain ⟨heads, next, hleave, hT, hframe⟩ := leavePage_eq T hfuel hp₀ hsplit rfl hA
    refine ⟨heads, next, ?_, ?_, fun x =>
      (hframe x).imp id (beforeFirst_of_lastPlace hsplit rfl hA)⟩
    · have hnone : (s.tbs b).pageAddr 1 = none := Option.map_eq_none_iff.mp hp₁
      rw [hleave]
      simp only [bind, Except.bind, TbDb.leavePage, hnone]
    · convert hT using 2
      refine filter_congr fun x hx => ?_
      have : x ≠ (b, 1) := by rintro rfl; exact hsecond _ hx
      simp [part_eq_or, this]
  | some p₁ =>
    have hmem₁ := (hmem p₁ 1).mpr hp₁
    rcases eq_or_ne p₁ p₀ with rfl | hne
    · -- both parts are on one page, where the second is found first
      obtain ⟨A, B, hsplit⟩ := htwice p₁ hmem₀ hmem₁
      rw [hsplit] at hnd
      have hA : ∀ x ∈ A, x.1 ≠ b := by
        intro x hx hxb
        rcases part_eq_or.mp hxb with rfl | rfl <;> grind
      have hrest : (lists p₁).filter (· ≠ ((b, 1) : Part)) = A ++ (b, 0) :: B := by
        rw [← congrFun (T.update_eq_filter hsplit) p₁, Function.update_self]
      obtain ⟨heads, next, hleave, hT, hframe⟩ := leaveTwo_eq T hfuel hp₀ hp₁
        (fun x => part_eq_or.trans or_comm) hsplit hA hrest hA
      exact ⟨heads, next, hleave, hT, fun x =>
        (hframe x).imp id fun h => beforeFirst_of_lastPlace hsplit rfl hA (or_self_iff.mp h)⟩
    · have hout₀ : (b, 1) ∉ lists p₀ := by simp [hmem, hp₁, hne]
      have hout₁ : (b, 0) ∉ lists p₁ := by simp [hmem, hp₀, hne.symm]
      obtain ⟨A₀, B₀, h₀, hA₀⟩ := exists_split hnd hmem₀ fun x hx hxb =>
        (part_eq_or.mp hxb).resolve_right fun h => hout₀ (h ▸ hx)
      obtain ⟨A₁, B₁, h₁, hA₁⟩ := exists_split (T.nodup p₁) hmem₁ fun x hx hxb =>
        (part_eq_or.mp hxb).resolve_left fun h => hout₁ (h ▸ hx)
      have hrest : (lists p₁).filter (· ≠ ((b, 0) : Part)) = A₁ ++ (b, 1) :: B₁ := by
        rw [← h₁]
        exact filter_eq_self.mpr fun x hx =>
          decide_eq_true (by rintro rfl; exact hout₁ hx)
      obtain ⟨heads, next, hleave, hT, hframe⟩ := leaveTwo_eq T hfuel hp₀ hp₁
        (fun x => part_eq_or) h₀ hA₀ hrest hA₁
      refine ⟨heads, next, hleave, hT, fun x => (hframe x).imp id fun h => ?_⟩
      rcases h with h | h
      · exact beforeFirst_of_lastPlace h₀ rfl hA₀ h
      · exact beforeFirst_of_lastPlace h₁ rfl hA₁ h

end Leave

/-! ## Off all of them -/

lemma View.without_singleton (V : View) (b : ℕ) :
    V.without {b} =
      { live := V.live \ {b}
        hash := fun h => (V.hash h).filter (· ≠ b)
        page := fun p => (V.page p).filter (·.1 ≠ b)
        jumps := fun d => (V.jumps d).filter (·.1 ≠ b)
        cache := fun cpu h => (V.cache cpu h).filter (· ≠ b) } := by
  have hb : ∀ c, outside {b} c = decide (c ≠ b) := fun c => by rw [Bool.eq_iff_iff]; simp
  simp only [View.without, hb, funext hb]

lemma ite_eq_filter {o : Option ℕ} {q : Prop} [Decidable q] (hq : o = some b → q) :
    (if q ∧ o = some b then none else o) = o.filter (· ≠ b) := by
  cases o with
  | none => simp
  | some c =>
    rcases eq_or_ne c b with rfl | hcb
    · simp [hq rfl, Option.filter]
    · simp [hcb, Option.filter]

/-- The jumps of the block and those to it go. -/
lemma Jumps.gone {live : Set ℕ} {jumps : ℕ → List Part}
    (J : Jumps s live {e | e.1 ∈ live} jumps) (hb : b ∈ live) :
    ∃ jump' next' first', (s.tbJmpRemove (b, 0) >>= fun s => s.tbJmpRemove (b, 1) >>= fun s =>
        resetJumps s.fuel s (s.jmpFirst b) >>= fun s =>
          .ok { s with jmpFirst := Function.update s.jmpFirst b (.first b) }) =
        .ok { s with jump := jump', jmpNext := next', jmpFirst := first' } ∧
      Jumps { s with jump := jump', jmpNext := next', jmpFirst := first' } (live \ {b})
        {e | e.1 ∈ live \ {b}} (fun d => (jumps d).filter (·.1 ≠ b)) := by
  obtain ⟨n₁, f₁, h₁, J₁⟩ := J.remove (e := (b, 0)) hb
  obtain ⟨n₂, f₂, h₂, J₂⟩ := J₁.remove (e := (b, 1)) ⟨hb, by simp⟩
  obtain ⟨j₃, n₃, h₃, J₃⟩ := J₂.reset hb
  refine ⟨j₃, n₃, Function.update f₂ b (.first b), ?_, ?_⟩
  · rw [h₁]
    simp only [bind, Except.bind]
    rw [h₂]
    simp only
    rw [h₃]
  · convert J₃ using 1
    · ext e
      simp only [Set.mem_ofPred_eq, Set.mem_sdiff, Set.mem_singleton_iff, part_eq_or, not_or]
      tauto
    · funext d
      rw [filter_filter]
      refine filter_congr fun x _ => ?_
      simp only [ne_eq, part_eq_or, not_or, ← Bool.decide_and, decide_eq_decide]
      tauto

/-- **`tb_phys_invalidate`** takes a live block off every list, and nothing else.  The links of a
page list change only right before the first entry of the block. -/
theorem Linked.invalidate (L : Linked t s V) (hb : b ∈ V.live) :
    ∃ s', s.tbPhysInvalidate t b none = .ok s' ∧ Linked t s' (V.without {b}) ∧
      s'.tbs = s.tbs ∧ s'.nbTbs = s.nbTbs ∧
      ∀ x, s'.pageNext x = s.pageNext x ∨ BeforeFirst V.page b x := by
  obtain ⟨p₀, hp₀⟩ := (L.sound b hb).page_zero
  obtain ⟨hh, hn, hrem, hH⟩ := L.tbRemove_eq hb
  obtain ⟨ph, pn, hleave, hP, hframe⟩ :=
    leavePages_eq (s := { s with physHash := hh, physHashNext := hn }) (t := t) (b := b) L.page
      L.length_page (fun p n => by rw [L.mem_page]; exact and_iff_right hb)
      (fun p => L.twice p b) p₀ (by
        simp only [TbDb.pageOf, hp₀, Option.map_some, Option.some.injEq]
        exact Nat.mul_div_cancel _ t.pageSize_pos)
  let s₁ : TbDb := TbDb.uncache t
    { s with physHash := hh, physHashNext := hn, firstTb := ph, pageNext := pn } b
  obtain ⟨j, n, f, hjumps, hJ⟩ := (L.jumps.congr s₁ rfl rfl rfl rfl).gone hb
  refine ⟨{ s₁ with jump := j, jmpNext := n, jmpFirst := f }, ?_, ?_, rfl, rfl, hframe⟩
  · let k : TbDb → Except Lost TbDb := fun s =>
      (s.uncache t b).tbJmpRemove (b, 0) >>= fun s => s.tbJmpRemove (b, 1) >>= fun s =>
        resetJumps s.fuel s (s.jmpFirst b) >>= fun s =>
          .ok { s with jmpFirst := Function.update s.jmpFirst b (.first b) }
    show (s.tbRemove (s.hashOf t b) b >>= fun s => s.leavePage t (b, 0) none >>= fun s =>
      s.leavePage t (b, 1) none >>= k) = _
    rw [hrem]
    refine (bind_assoc _ _ k).symm.trans ?_
    rw [hleave]
    exact hjumps
  rw [View.without_singleton]
  refine ⟨fun c hc => L.lt c hc.1, fun c hc => L.sound c hc.1, hH, fun h c => ?_, hP,
    fun p e => ?_, fun p c => ?_, hJ, ?_, fun cpu h c => ?_⟩
  · rw [mem_filter, L.mem_hash]
    simp only [ne_eq, decide_eq_true_eq, Set.mem_sdiff, Set.mem_singleton_iff]
    exact and_right_comm
  · rw [mem_filter, L.mem_page]
    simp only [ne_eq, decide_eq_true_eq, Set.mem_sdiff, Set.mem_singleton_iff]
    exact and_right_comm
  · intro h₀ h₁
    have hcb : c ≠ b := by simpa using (mem_filter.mp h₀).2
    obtain ⟨A, B, hsplit⟩ :=
      L.twice p c (mem_of_mem_filter h₀) (mem_of_mem_filter h₁)
    exact ⟨A.filter (·.1 ≠ b), B.filter (·.1 ≠ b), by simp [hsplit, hcb]⟩
  · funext cpu h
    show (if h = tbJmpCacheHashFunc t (s.tbs b).pc ∧ s.jmpCache cpu h = some b then none
      else s.jmpCache cpu h) = (V.cache cpu h).filter (· ≠ b)
    rw [L.cache]
    exact ite_eq_filter fun hc => (L.cached cpu h b hc).2.symm
  · intro hc
    rw [Option.filter_eq_some_iff] at hc
    have := L.cached cpu h c hc.1
    exact ⟨⟨this.1, by simpa using hc.2⟩, this.2⟩

/-- Of a block that is not live, `tb_phys_invalidate` reads through a null pointer. -/
theorem Linked.invalidate_dead (L : Linked t s V) (hb : b ∉ V.live) :
    s.tbPhysInvalidate t b none = .error .null := by
  have hout : ∀ x ∈ V.hash (s.hashOf t b), (x == b) = false := fun x hx =>
    beq_eq_false_iff_ne.mpr (by rintro rfl; exact hb ((L.mem_hash _ x).mp hx).1)
  have hrem : s.tbRemove (s.hashOf t b) b = .error .null := by
    rw [TbDb.tbRemove, L.hash.remove_null hout (L.length_hash _)]
    rfl
  show (s.tbRemove (s.hashOf t b) b >>= _) = _
  rw [hrem]
  rfl

end Qemu.Exec
