import Qemu.Exec.TbLinked

/-!
# Invalidating a range of bytes

The loop of `tb_invalidate_phys_page_range` reads the next entry of the page list before it
invalidates the block of the current one.  If both parts of the block lie on the page, that next
entry is the block itself, and if the range hits both parts the block is invalidated a second time,
from lists that it is no longer on.

**Main results:**
- `invalidateLoop_spec`: what the loop does, and when it reads through a null pointer
- `hits_iff`: the test of the loop finds the parts with a byte in the range
- `Linked.invalidateRange`: what `tb_invalidate_phys_page_range` does
-/

namespace Qemu.Exec

open List

open Chain (Lost Links Table)

variable {t : Target} {s : TbDb} {V : View} {b : ℕ} {e : Part}

/-! ## The loop over a page -/

lemma View.without_empty (V : View) : V.without ∅ = V := by
  have hall : ∀ b, outside ∅ b = true := by simp
  have hcache : ∀ o : Option ℕ, o.filter (fun _ => true) = o := fun o => by cases o <;> rfl
  simp only [View.without, hall, funext hall, Set.sdiff_empty, filter_true, hcache]

lemma View.without_without (V : View) (K K' : Set ℕ) :
    (V.without K).without K' = V.without (K ∪ K') := by
  have hK : ∀ b, outside (K ∪ K') b = (outside K b && outside K' b) := fun b => by
    rw [Bool.eq_iff_iff]
    simp
  simp only [View.without, filter_filter, Option.filter_filter, hK, funext hK, Set.sdiff_sdiff,
    Bool.and_comm]

/-- The entries after the current one are not right before the first entry of its block. -/
lemma not_beforeFirst (L : Linked t s V) {p : ℕ} {kept rest R : List Part} {x : Part}
    (hpage : V.page p = kept ++ e :: R) (hnd : (kept ++ e :: rest).Nodup) (hx : x ∈ rest)
    (hxp : s.pageOf t x = some p) : ¬ BeforeFirst V.page e.1 x := by
  rintro ⟨q, A, y, B, hsplit, -, hA⟩
  have hxq := ((L.mem_page q x).mp (by rw [hsplit]; simp)).2
  obtain rfl : p = q := Option.some.inj (hxp.symm.trans hxq)
  have heq : (A ++ [x]) ++ (y :: B) = kept ++ e :: R := by rw [← hpage, hsplit]; simp
  have hkept : x ∈ kept := by
    rcases append_eq_append_iff.mp heq with ⟨C, hC, -⟩ | ⟨C, hC, hC'⟩
    · rw [hC]
      simp
    cases C with
    | nil =>
      rw [append_nil] at hC
      rw [← hC]
      simp
    | cons c C =>
      obtain ⟨rfl, -⟩ := cons.inj hC'
      exact absurd rfl (hA e (by rw [hC]; simp))
  grind

/-- The blocks of the parts in a list that the range hits, in the order of the list. -/
def hitBlocks (t : Target) (s : TbDb) (start stop : ℕ) (l : List Part) : List ℕ :=
  (l.filter (s.hits t start stop)).map Prod.fst

/-- The blocks of a list are live and different. -/
def Fresh (V : View) (K : List ℕ) : Prop := K.Nodup ∧ ∀ b ∈ K, b ∈ V.live

lemma fresh_cons {K : List ℕ} (hb : b ∈ V.live) : Fresh V (b :: K) ↔ Fresh (V.without {b}) K := by
  simp only [Fresh, nodup_cons, mem_cons, forall_eq_or_imp, View.without, Set.mem_sdiff,
    Set.mem_singleton_iff]
  constructor
  · rintro ⟨⟨hne, hnodup⟩, -, hall⟩
    exact ⟨hnodup, fun c hc => ⟨hall c hc, fun h => hne (h ▸ hc)⟩⟩
  · rintro ⟨hnodup, hall⟩
    exact ⟨⟨fun hc => (hall _ hc).2 rfl, hnodup⟩, hb, fun c hc => (hall c hc).1⟩

open Classical in
/-- **The loop** over the entries `rest` of a page, of which those before it that are left are
`kept`.  An entry in `rest` may belong to a block that has just been invalidated, which must not be
hit. -/
lemma invalidateLoop_spec {p : ℕ} (start stop : ℕ) (rest kept : List Part)
    {cur : Option Part} {fuel : ℕ} (L : Linked t s V)
    (hpage : V.page p = kept ++ rest.filter (·.1 ∈ V.live)) (hnd : (kept ++ rest).Nodup)
    (hrest : ∀ e ∈ rest, s.pageOf t e = some p)
    (hlinks : Links (Chain.places cur s.pageNext) none rest none) (hfuel : rest.length < fuel) :
    (Fresh V (hitBlocks t s start stop rest) →
      ∃ s', invalidateLoop t start stop fuel s cur = .ok s' ∧ s'.tbs = s.tbs ∧
        Linked t s' (V.without {b | b ∈ hitBlocks t s start stop rest})) ∧
    (¬ Fresh V (hitBlocks t s start stop rest) →
      invalidateLoop t start stop fuel s cur = .error .null) := by
  induction rest generalizing s V kept cur fuel with
  | nil =>
    obtain ⟨n, rfl⟩ : ∃ n, fuel = n + 1 := ⟨fuel - 1, by simp at hfuel; omega⟩
    obtain rfl : cur = none := hlinks
    have hblocks : hitBlocks t s start stop [] = [] := rfl
    refine ⟨fun _ => ⟨s, rfl, rfl, ?_⟩, fun h => absurd (by simp [Fresh, hblocks]) h⟩
    simpa [hblocks, View.without_empty] using L
  | cons e rest ih =>
    obtain ⟨n, rfl⟩ : ∃ n, fuel = n + 1 := ⟨fuel - 1, by simp at hfuel; omega⟩
    obtain rfl : cur = some e := hlinks.1
    have hfuel' : rest.length < n := by simpa using hfuel
    have hrest' : ∀ x ∈ rest, s.pageOf t x = some p := fun x hx =>
      hrest x (mem_cons_of_mem _ hx)
    rw [invalidateLoop]
    by_cases hhit : s.hits t start stop e = true
    · have hblocks : hitBlocks t s start stop (e :: rest) =
          e.1 :: hitBlocks t s start stop rest := by
        simp [hitBlocks, hhit]
      rw [if_pos hhit, hblocks]
      by_cases hlive : e.1 ∈ V.live
      · obtain ⟨s', hs', L', htbs, -, hframe⟩ := L.invalidate hlive
        have hblocks' : hitBlocks t s' start stop rest = hitBlocks t s start stop rest := by
          have : TbDb.hits t s' start stop = TbDb.hits t s start stop := by
            funext x
            simp only [TbDb.hits, htbs]
          rw [hitBlocks, hitBlocks, this]
        rw [filter_cons_of_pos (by simpa using hlive)] at hpage
        have hset : {b | b ∈ e.1 :: hitBlocks t s start stop rest} =
            {e.1} ∪ {b | b ∈ hitBlocks t s start stop rest} := by
          ext c
          simp
        rw [hs', fresh_cons hlive, hset, ← View.without_without, ← hblocks', ← htbs]
        refine ih (kept.filter (·.1 ≠ e.1)) L' ?_ ?_ ?_ ?_ hfuel'
        · rw [View.without_singleton]
          simp only [hpage, filter_append, ne_eq, filter_cons_of_neg, not_true_eq_false,
            decide_false, Bool.false_eq_true, not_false_eq_true, filter_filter]
          congr 1
          refine filter_congr fun x _ => ?_
          rw [Bool.eq_iff_iff]
          simp [and_comm]
        · refine hnd.sublist (List.Sublist.append filter_sublist (sublist_cons_self ..))
        · intro x hx
          rw [TbDb.pageOf, htbs]
          exact hrest' x hx
        · refine hlinks.2.congr rfl fun x hx => ?_
          exact (hframe x).resolve_right (not_beforeFirst L hpage hnd hx (hrest' x hx))
      · have hdead : ¬ Fresh V (e.1 :: hitBlocks t s start stop rest) := fun h =>
          hlive (h.2 e.1 mem_cons_self)
        exact ⟨fun h => absurd h hdead, fun _ => by rw [L.invalidate_dead hlive]⟩
    · have hblocks : hitBlocks t s start stop (e :: rest) = hitBlocks t s start stop rest := by
        simp [hitBlocks, hhit]
      rw [if_neg hhit, hblocks]
      refine ih (kept ++ [e].filter (·.1 ∈ V.live)) L ?_ ?_ hrest' ?_ hfuel'
      · rw [hpage, append_assoc, ← filter_append, singleton_append]
      · rw [append_assoc]
        refine hnd.sublist (List.Sublist.append_left ?_ kept)
        exact (List.Sublist.append_right filter_sublist rest)
      · exact hlinks.2.congr rfl fun _ _ => rfl

/-! ## A range of bytes -/

open scoped Pair

def Tb.codeBytes (t : Target) (tb : Tb) (n : Fin 2) : Set ℕ :=
  if n = 0 then
    Set.Ico (tb.physPc t) ((tb.pageAddr 0).getD 0 + min (tb.pc % t.pageSize + tb.size) t.pageSize)
  else
    Set.Ico ((tb.pageAddr 1).getD 0)
      ((tb.pageAddr 1).getD 0 + (tb.pc % t.pageSize + tb.size - t.pageSize))

namespace TbDb

/-- A block has a byte of code in the range, on the page of the start of the range. -/
def Meets (t : Target) (s : TbDb) (start stop b : ℕ) : Prop :=
  ∃ n, s.pageOf t (b, n) = some (start / t.pageSize) ∧ ∃ a ∈ (s.tbs b).codeBytes t n,
    start ≤ a ∧ a < stop

/-- A part of a block is on the page of the start of the range and is hit. -/
def PartHit (t : Target) (s : TbDb) (start stop : ℕ) (e : Part) : Prop :=
  s.pageOf t e = some (start / t.pageSize) ∧ s.hits t start stop e = true

end TbDb

/-- The test of the loop finds the parts with a byte in the range. -/
lemma hits_iff {start stop : ℕ} (hs : (s.tbs e.1).Sound t) (hlt : start < stop)
    (hp : s.pageOf t e = some (start / t.pageSize)) :
    s.hits t start stop e = true ↔ ∃ a ∈ (s.tbs e.1).codeBytes t e.2, start ≤ a ∧ a < stop := by
  obtain ⟨b, n⟩ := e
  have hpos := t.pageSize_pos
  have hstart := Nat.div_add_mod start t.pageSize
  have hmod := Nat.mod_lt start hpos
  have hpc := Nat.mod_lt (s.tbs b).pc hpos
  have hsize := hs.size_pos
  have hsize' := hs.size_le
  obtain ⟨a, ha, hap⟩ := Option.map_eq_some_iff.mp hp
  simp only at ha hsize hsize'
  fin_cases n
  · obtain ⟨p, hp₀⟩ := hs.page_zero
    obtain rfl : p * t.pageSize = a := Option.some.inj (hp₀.symm.trans ha)
    rw [Nat.mul_div_cancel _ hpos] at hap
    subst hap
    simp only [TbDb.hits, Tb.extent, Tb.codeBytes, Tb.physPc, Fin.zero_eta, if_true, hp₀,
      Option.getD_some, Set.mem_Ico, Bool.not_eq_true', Bool.or_eq_false_iff,
      decide_eq_false_iff_not]
    rw [mul_comm] at hstart
    constructor
    · rintro ⟨h1, h2⟩
      exact ⟨max start (start / t.pageSize * t.pageSize + (s.tbs b).pc % t.pageSize),
        ⟨by omega, by omega⟩, by omega, by omega⟩
    · rintro ⟨a, ⟨h1, h2⟩, h3, h4⟩
      omega
  · have hcross : t.pageSize < (s.tbs b).pc % t.pageSize + (s.tbs b).size := by
      by_contra h
      have := hs.page_one
      rw [if_neg h] at this
      simp [this] at ha
    have hend : ((s.tbs b).pc + (s.tbs b).size) % t.pageSize =
        (s.tbs b).pc % t.pageSize + (s.tbs b).size - t.pageSize := by
      rw [← Nat.mod_add_mod, Nat.mod_eq_sub_mod (by omega), Nat.mod_eq_of_lt (by omega)]
    obtain ⟨p, hp₁⟩ : ∃ p, (s.tbs b).pageAddr 1 = some (p * t.pageSize) := by
      have := hs.page_one
      rwa [if_pos hcross] at this
    obtain rfl : p * t.pageSize = a := Option.some.inj (hp₁.symm.trans ha)
    rw [Nat.mul_div_cancel _ hpos] at hap
    subst hap
    simp only [TbDb.hits, Tb.extent, Tb.codeBytes, Fin.mk_one, one_ne_zero, if_false, hp₁, hend,
      Option.getD_some, Set.mem_Ico, Bool.not_eq_true', Bool.or_eq_false_iff,
      decide_eq_false_iff_not]
    rw [mul_comm] at hstart
    constructor
    · rintro ⟨h1, h2⟩
      exact ⟨start, ⟨by omega, by omega⟩, le_rfl, hlt⟩
    · rintro ⟨a, ⟨h1, h2⟩, h3, h4⟩
      omega

lemma Linked.mem_hitBlocks (L : Linked t s V) {start stop : ℕ} :
    b ∈ hitBlocks t s start stop (V.page (start / t.pageSize)) ↔
      b ∈ V.live ∧ ∃ n, s.PartHit t start stop (b, n) := by
  simp only [hitBlocks, mem_map, mem_filter, L.mem_page, TbDb.PartHit]
  constructor
  · rintro ⟨⟨c, n⟩, ⟨⟨hc, hp⟩, hh⟩, rfl⟩
    exact ⟨hc, n, hp, hh⟩
  · rintro ⟨hb, n, hp, hh⟩
    exact ⟨(b, n), ⟨⟨hb, hp⟩, hh⟩, rfl⟩

/-- The blocks that are hit are different unless one is hit in both of its parts. -/
lemma Linked.fresh_iff (L : Linked t s V) {start stop : ℕ} :
    Fresh V (hitBlocks t s start stop (V.page (start / t.pageSize))) ↔
      ∀ b ∈ V.live, ¬ (s.PartHit t start stop (b, 0) ∧ s.PartHit t start stop (b, 1)) := by
  have hall : ∀ b ∈ hitBlocks t s start stop (V.page (start / t.pageSize)), b ∈ V.live :=
    fun b hb => (L.mem_hitBlocks.mp hb).1
  rw [Fresh, and_iff_left hall, hitBlocks, nodup_map_iff_inj_on ((L.page.nodup _).filter _)]
  constructor
  · rintro hinj b hb ⟨h0, h1⟩
    have := hinj (b, 0) (mem_filter.mpr ⟨(L.mem_page _ _).mpr ⟨hb, h0.1⟩, h0.2⟩)
      (b, 1) (mem_filter.mpr ⟨(L.mem_page _ _).mpr ⟨hb, h1.1⟩, h1.2⟩) rfl
    simp at this
  rintro hno ⟨b, n⟩ hx ⟨c, m⟩ hy (rfl : b = c)
  obtain ⟨hxp, hxh⟩ := mem_filter.mp hx
  obtain ⟨hyp, hyh⟩ := mem_filter.mp hy
  obtain ⟨hlive, hxp⟩ := (L.mem_page _ _).mp hxp
  have hyp := ((L.mem_page _ _).mp hyp).2
  have hno' := hno b hlive
  fin_cases n <;> fin_cases m
  · rfl
  · exact absurd ⟨⟨hxp, hxh⟩, ⟨hyp, hyh⟩⟩ hno'
  · exact absurd ⟨⟨hyp, hyh⟩, ⟨hxp, hxh⟩⟩ hno'
  · rfl

/-- **`tb_invalidate_phys_page_range`** takes away the blocks that are hit, or reads a null
pointer. -/
lemma Linked.invalidateRange (L : Linked t s V) (start stop : ℕ) :
    ((∀ b ∈ V.live, ¬ (s.PartHit t start stop (b, 0) ∧ s.PartHit t start stop (b, 1))) →
      ∃ s', s.tbInvalidatePhysPageRange t start stop = .ok s' ∧ s'.tbs = s.tbs ∧
        Linked t s' (V.without {b | b ∈ V.live ∧ ∃ n, s.PartHit t start stop (b, n)})) ∧
    (¬ (∀ b ∈ V.live, ¬ (s.PartHit t start stop (b, 0) ∧ s.PartHit t start stop (b, 1))) →
      s.tbInvalidatePhysPageRange t start stop = .error .null) := by
  classical
  have hlive : ∀ e ∈ V.page (start / t.pageSize), e.1 ∈ V.live := fun e he =>
    ((L.mem_page _ e).mp he).1
  have hspec := invalidateLoop_spec start stop (V.page (start / t.pageSize)) [] L
    (by rw [nil_append, filter_eq_self.mpr fun e he => decide_eq_true (hlive e he)])
    (by simpa using L.page.nodup _) (fun e he => ((L.mem_page _ e).mp he).2) (L.page.links _)
    (L.length_page _)
  simp only [L.fresh_iff, L.mem_hitBlocks] at hspec
  exact hspec

end Qemu.Exec
