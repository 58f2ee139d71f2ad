import Mathlib
import Qemu.Lib.Ring

/-!
# The table of constants and copies

While `tcg_constant_folding` of `tcg/optimize.c` runs over the ops, the array `temps` says what is
known about each temp: that it holds a constant, or that it is a copy.  The copies of one value form
a class.  One of them is its representative (`TCG_TEMP_HAS_COPY`), the others (`TCG_TEMP_COPY`) keep
it in `val`, and all are linked in a ring, so that a new representative can be chosen when the old
one is overwritten.

**Main results:**
- `resetTemp_spec`: `reset_temp` succeeds, and takes the temp out of its class
- `linkCopy_spec`: `tcg_opt_gen_mov` puts the destination into the class of the source
-/

namespace Qemu.Tcg

open Function List

/-- The type of a temp. -/
inductive TcgType where
  | i32
  | i64
  deriving DecidableEq, Repr

/-- The temps of a translation block: globals first.  `TCG_MAX_TEMPS` is 512. -/
structure TcgContext where
  nbGlobals : ℕ
  nbTemps : ℕ
  type : ℕ → TcgType
  isLocal : ℕ → Bool
  globals_le : nbGlobals ≤ nbTemps
  temps_le : nbTemps ≤ 512

/-- `tcg_temp_state`. -/
inductive TempState where
  | undef
  | const
  | copy
  | hasCopy
  | any
  deriving DecidableEq, Repr

/-- `struct tcg_temp_info`. -/
structure TempInfo where
  state : TempState
  prevCopy : ℕ
  nextCopy : ℕ
  val : BitVec 64
  deriving DecidableEq, Repr

/-- The array `temps`. -/
abbrev TempTable := ℕ → TempInfo

namespace TempTable

/-- The table after `memset(temps, 0, ...)`. -/
def cleared : TempTable := fun _ => ⟨.undef, 0, 0, 0#64⟩

def modify (T : TempTable) (t : ℕ) (f : TempInfo → TempInfo) : TempTable :=
  update T t (f (T t))

/-- The temp that reads of `t` are replaced by. -/
def repOf (T : TempTable) (t : ℕ) : ℕ :=
  if (T t).state = .copy then (T t).val.toNat else t

/-- The constant known to be in `t`. -/
def constOf (T : TempTable) (t : ℕ) : Option (BitVec 64) :=
  if (T t).state = .const then some (T t).val else none

/-- The links `next_copy`. -/
def next (T : TempTable) : ℕ → ℕ := fun t => (T t).nextCopy

/-- The links `prev_copy`. -/
def prev (T : TempTable) : ℕ → ℕ := fun t => (T t).prevCopy

def unlink (T : TempTable) (temp : ℕ) : TempTable :=
  let nextCopy := (T temp).nextCopy
  let prevCopy := (T temp).prevCopy
  let T := T.modify nextCopy fun i => { i with prevCopy := prevCopy }
  T.modify prevCopy fun i => { i with nextCopy := nextCopy }

end TempTable

open TempTable

/-- The end of `reset_temp`: a representative that is left alone has no copy any more. -/
def forgetTemp (T : TempTable) (temp : ℕ) (newBase : Option ℕ) : TempTable :=
  let T := T.modify temp fun i => { i with state := .any }
  match newBase with
  | none => T
  | some base =>
    if (T base).nextCopy = base then T.modify base fun i => { i with state := .any } else T

/-- `reset_temp`.  The loops need fuel for the ring, which has no more elements than there are
temps. -/
def resetTemp (ctx : TcgContext) (T : TempTable) (temp : ℕ) : Option TempTable :=
  match (T temp).state with
  | .hasCopy =>
    (Ring.walk T.next temp (ctx.nbTemps + 1) (T temp).nextCopy).map fun ring =>
      match ring.find? fun i => decide (ctx.nbGlobals ≤ i) with
      | some newBase =>
        let T := T.modify newBase fun i => { i with state := .hasCopy }
        let T := ring.foldl
          (fun T i => T.modify i fun info => { info with val := BitVec.ofNat 64 newBase }) T
        forgetTemp (T.unlink temp) temp (some newBase)
      | none =>
        let T := ring.foldl (fun T i => T.modify i fun info => { info with state := .any }) T
        forgetTemp (T.unlink temp) temp none
  | .copy => some (forgetTemp (T.unlink temp) temp (some (T temp).val.toNat))
  | _ => some (forgetTemp T temp none)

/-- `src` becomes a representative, of a class that has no copies yet. -/
def makeRep (T : TempTable) (src : ℕ) : TempTable :=
  if (T src).state ≠ .hasCopy then
    T.modify src fun i => { i with state := .hasCopy, nextCopy := src, prevCopy := src }
  else T

/-- `dst` becomes a copy, linked behind its representative. -/
def linkBehind (T : TempTable) (dst src : ℕ) : TempTable :=
  let T := T.modify dst fun i =>
    { i with
      state := .copy, val := BitVec.ofNat 64 src, nextCopy := (T src).nextCopy, prevCopy := src }
  let T := T.modify (T dst).nextCopy fun i => { i with prevCopy := dst }
  T.modify src fun i => { i with nextCopy := dst }

/-- The part of `tcg_opt_gen_mov` that makes `dst` a copy of `src`. -/
def linkCopy (T : TempTable) (dst src : ℕ) : TempTable := linkBehind (makeRep T src) dst src

/-! ## Classes of copies -/

/-- The temps of `l` are the copies of the representative `r`, in a ring.  Only temps that are not
globals, and of one locality, are ever linked. -/
structure CopyClass (ctx : TcgContext) (T : TempTable) (r : ℕ) (l : List ℕ) : Prop where
  ring : Ring.IsRing T.next T.prev r l
  ne_nil : l ≠ []
  rep : (T r).state = .hasCopy
  member : ∀ t ∈ l, (T t).state = .copy ∧ (T t).val = BitVec.ofNat 64 r
  range : ∀ t ∈ r :: l, ctx.nbGlobals ≤ t ∧ t < ctx.nbTemps
  locality : ∀ t ∈ r :: l, ctx.isLocal t = ctx.isLocal r

/-- Every representative and every copy is in a class. -/
structure TableOk (ctx : TcgContext) (T : TempTable) : Prop where
  rep : ∀ r, (T r).state = .hasCopy → ∃ l, CopyClass ctx T r l
  copy : ∀ t, (T t).state = .copy → ∃ r l, CopyClass ctx T r l ∧ t ∈ l

section Basics

variable {ctx : TcgContext} {T T' : TempTable} {r t u : ℕ} {l : List ℕ} (f : TempInfo → TempInfo)

@[simp] lemma modify_same : T.modify t f t = f (T t) :=
  update_self ..

lemma modify_ne (h : u ≠ t) : T.modify t f u = T u :=
  update_of_ne h ..

lemma modify_apply : T.modify t f u = if u = t then f (T u) else T u := by
  rw [TempTable.modify, update_apply]
  split
  next h => rw [h]
  next => rfl

lemma tableOk_cleared : TableOk ctx cleared :=
  ⟨fun r h => by simp [cleared] at h, fun t h => by simp [cleared] at h⟩

lemma CopyClass.lt (h : CopyClass ctx T r l) (ht : t ∈ r :: l) : t < 2 ^ 64 := by
  have := (h.range t ht).2
  have := ctx.temps_le
  omega

lemma CopyClass.repOf_eq (h : CopyClass ctx T r l) (ht : t ∈ l) : T.repOf t = r := by
  obtain ⟨hs, hv⟩ := h.member t ht
  rw [repOf, if_pos hs, hv, BitVec.toNat_ofNat, Nat.mod_eq_of_lt (h.lt (by simp))]

lemma repOf_of_ne_copy (h : (T t).state ≠ .copy) : T.repOf t = t := if_neg h

lemma CopyClass.state (h : CopyClass ctx T r l) (ht : t ∈ r :: l) :
    (T t).state = .hasCopy ∧ t = r ∨ (T t).state = .copy ∧ t ∈ l := by
  rcases mem_cons.mp ht with rfl | ht
  · exact .inl ⟨h.rep, rfl⟩
  · exact .inr ⟨(h.member t ht).1, ht⟩

lemma CopyClass.eq_of_hasCopy (h : CopyClass ctx T r l) (ht : t ∈ r :: l)
    (hs : (T t).state = .hasCopy) :
    t = r := by
  simpa [hs] using h.state ht

lemma CopyClass.mem_of_copy (h : CopyClass ctx T r l) (ht : t ∈ r :: l) (hs : (T t).state = .copy) :
    t ∈ l := by
  simpa [hs] using h.state ht

lemma CopyClass.constOf_eq_none (h : CopyClass ctx T r l) (ht : t ∈ r :: l) :
    T.constOf t = none := by
  rcases h.state ht with ⟨hs, -⟩ | ⟨hs, -⟩ <;> simp [constOf, hs]

lemma CopyClass.repOf_of_mem (h : CopyClass ctx T r l) (ht : t ∈ r :: l) : T.repOf t = r := by
  rcases h.state ht with ⟨hs, rfl⟩ | ⟨-, ht⟩
  · exact repOf_of_ne_copy (by rw [hs]; simp)
  · exact h.repOf_eq ht

/-- A temp represents itself, or its representative has a class. -/
lemma TableOk.repOf_cases (hT : TableOk ctx T) (t : ℕ) :
    T.repOf t = t ∨ ∃ l, CopyClass ctx T (T.repOf t) l ∧ t ∈ l := by
  by_cases hs : (T t).state = .copy
  · obtain ⟨r, l, hc, ht⟩ := hT.copy t hs
    exact .inr ⟨l, by rwa [hc.repOf_eq ht], ht⟩
  · exact .inl (repOf_of_ne_copy hs)

lemma TableOk.state_repOf (hT : TableOk ctx T) (t : ℕ) : (T (T.repOf t)).state ≠ .copy := by
  by_cases h : (T t).state = .copy
  · obtain ⟨r, l, hc, ht⟩ := hT.copy t h
    rw [hc.repOf_eq ht, hc.rep]
    simp
  · rwa [repOf_of_ne_copy h]

/-- A class is not changed by a change to temps outside of it. -/
lemma CopyClass.congr (h : CopyClass ctx T r l) (heq : ∀ t ∈ r :: l, T' t = T t) :
    CopyClass ctx T' r l := by
  refine ⟨h.ring.congr (fun a ha => ?_) (fun a ha => ?_), h.ne_nil, ?_, fun t ht => ?_,
    h.range, h.locality⟩
  · rw [TempTable.next, heq a ha, TempTable.next]
  · rw [TempTable.prev, heq a ha, TempTable.prev]
  · rw [heq r (by simp), h.rep]
  · rw [heq t (by simp [ht])]
    exact h.member t ht

/-- Two classes with a common temp are the same. -/
lemma CopyClass.rep_unique {r' : ℕ} {l' : List ℕ} (h : CopyClass ctx T r l)
    (h' : CopyClass ctx T r' l') (ht : t ∈ r :: l) (ht' : t ∈ r' :: l') : r = r' :=
  (h.repOf_of_mem ht).symm.trans (h'.repOf_of_mem ht')

/-- A temp is in the class of `r` exactly if `r` represents it. -/
lemma TableOk.repOf_eq_iff (hT : TableOk ctx T) (hc : CopyClass ctx T r l) :
    T.repOf t = r ↔ t ∈ r :: l := by
  refine ⟨fun h => ?_, hc.repOf_of_mem⟩
  subst h
  rcases hT.repOf_cases t with h | ⟨l', hc', ht'⟩
  · rw [h]
    exact mem_cons_self
  · rw [hc.ring.unique hc'.ring]
    exact mem_cons_of_mem _ ht'

lemma CopyClass.mem_of_mem {r' : ℕ} {l' : List ℕ} (h : CopyClass ctx T r l)
    (h' : CopyClass ctx T r' l') (ht : t ∈ r :: l) (ht' : t ∈ r' :: l') (hu : u ∈ r :: l) :
    u ∈ r' :: l' := by
  obtain rfl := h.rep_unique h' ht ht'
  rwa [← h.ring.unique h'.ring]

end Basics

/-! ## Links -/

section Links

variable {T : TempTable} {temp : ℕ}

lemma next_unlink : (T.unlink temp).next = Ring.unlinkNext T.next T.prev temp := by
  funext t
  simp only [TempTable.next, unlink, Ring.unlinkNext, TempTable.prev, modify_apply, update_apply]
  grind

lemma prev_unlink : (T.unlink temp).prev = Ring.unlinkPrev T.next T.prev temp := by
  funext t
  simp only [TempTable.next, unlink, Ring.unlinkPrev, TempTable.prev, modify_apply, update_apply]
  grind

lemma state_unlink (t : ℕ) : (T.unlink temp t).state = (T t).state := by
  simp only [unlink, modify_apply]
  split_ifs <;> rfl

lemma val_unlink (t : ℕ) : (T.unlink temp t).val = (T t).val := by
  simp only [unlink, modify_apply]
  split_ifs <;> rfl

/-- The links of a temp that is not next to the one taken out. -/
lemma unlink_of_ne {t : ℕ} (h1 : t ≠ T.next temp) (h2 : t ≠ T.prev temp) :
    T.unlink temp t = T t := by
  simp only [unlink]
  rw [modify_ne _ (show t ≠ (T temp).prevCopy from h2),
    modify_ne _ (show t ≠ (T temp).nextCopy from h1)]

end Links

/-! ## Taking a temp out of its class -/

section Reset

variable {ctx : TcgContext} {T T' : TempTable} {temp r : ℕ} {l : List ℕ}

lemma TableOk.replace {S : ℕ → Prop} (hT : TableOk ctx T) (hout : ∀ t, ¬ S t → T' t = T t)
    (hclosed : ∀ r l t u, CopyClass ctx T r l → t ∈ r :: l → u ∈ r :: l → S t → S u)
    (hrep : ∀ r, S r → (T' r).state = .hasCopy → ∃ l, CopyClass ctx T' r l)
    (hcopy : ∀ t, S t → (T' t).state = .copy → ∃ r l, CopyClass ctx T' r l ∧ t ∈ l) :
    TableOk ctx T' := by
  have hkeep : ∀ r l t, CopyClass ctx T r l → t ∈ r :: l → ¬ S t → CopyClass ctx T' r l :=
    fun r l t hc ht hS => hc.congr fun u hu => hout u fun hSu => hS (hclosed r l u t hc hu ht hSu)
  refine ⟨fun r hr => ?_, fun t ht => ?_⟩
  · by_cases hS : S r
    · exact hrep r hS hr
    · rw [hout r hS] at hr
      obtain ⟨l, hc⟩ := hT.rep r hr
      exact ⟨l, hkeep r l r hc (by simp) hS⟩
  · by_cases hS : S t
    · exact hcopy t hS ht
    · rw [hout t hS] at ht
      obtain ⟨r, l, hc, hmem⟩ := hT.copy t ht
      exact ⟨r, l, hkeep r l t hc (by simp [hmem]) hS, hmem⟩

/-- One temp has been forgotten: the constants and the classes of the others are left. -/
structure Forgets (T T' : TempTable) (temp : ℕ) : Prop where
  state : (T' temp).state = .any
  const : ∀ t, t ≠ temp → T'.constOf t = T.constOf t
  copy : ∀ t, (T' t).state = .copy → (T t).state = .copy
  same : ∀ t u, t ≠ temp → u ≠ temp → (T'.repOf t = T'.repOf u ↔ T.repOf t = T.repOf u)
  alone : ∀ t, T'.repOf t = temp ↔ t = temp

lemma forgetTemp_apply (base t : ℕ) : forgetTemp T temp (some base) t
      = if t = temp ∨ (t = base ∧ T.next base = base) then { T t with state := .any } else T t := by
  have hnext : (T.modify temp (fun i => { i with state := .any }) base).nextCopy = T.next base := by
    rw [modify_apply]
    split <;> rfl
  simp only [forgetTemp, hnext]
  by_cases hb : T.next base = base
  · rw [if_pos hb, modify_apply, modify_apply]
    grind
  · rw [if_neg hb, modify_apply]
    simp [hb]

lemma next_forgetTemp (base : ℕ) : (forgetTemp T temp (some base)).next = T.next := by
  funext t
  rw [TempTable.next, forgetTemp_apply]
  split <;> rfl

lemma prev_forgetTemp (base : ℕ) : (forgetTemp T temp (some base)).prev = T.prev := by
  funext t
  rw [TempTable.prev, forgetTemp_apply]
  split <;> rfl

lemma forgets_of_class (b : ℕ) (l' : List ℕ) (hT : TableOk ctx T) (hc : CopyClass ctx T r l)
    (htemp : temp ∈ r :: l) (hout : ∀ t, t ∉ r :: l → T' t = T t)
    (hself : (T' temp).state = .any) (hmem : ∀ t, t ∈ b :: l' ↔ t ∈ r :: l ∧ t ≠ temp)
    (hb : b = r ∨ temp = r) (hnew : (l' = [] ∧ (T' b).state = .any) ∨ CopyClass ctx T' b l') :
    TableOk ctx T' ∧ Forgets T T' temp := by
  have hstate : ∀ t, t ∈ r :: l → (T' t).state = .hasCopy ∨ (T' t).state = .copy →
      CopyClass ctx T' b l' ∧ t ∈ b :: l' := by
    intro t ht hs
    have hne : t ≠ temp := by
      rintro rfl
      simp [hself] at hs
    have hin := (hmem t).mpr ⟨ht, hne⟩
    rcases hnew with ⟨rfl, hany⟩ | hclass
    · obtain rfl := mem_singleton.mp hin
      simp [hany] at hs
    · exact ⟨hclass, hin⟩
  have hok : TableOk ctx T' := by
    refine hT.replace (S := (· ∈ r :: l)) hout
      (fun r' l2 t u hc' ht hu hS => hc'.mem_of_mem hc ht hS hu) (fun t ht hs => ?_)
      (fun t ht hs => ?_)
    · obtain ⟨hclass, hin⟩ := hstate t ht (.inl hs)
      exact ⟨l', hclass.eq_of_hasCopy hin hs ▸ hclass⟩
    · obtain ⟨hclass, hin⟩ := hstate t ht (.inr hs)
      exact ⟨b, l', hclass, hclass.mem_of_copy hin hs⟩
  have hrepin : ∀ t, t ∈ r :: l → t ≠ temp → T'.repOf t = b := by
    intro t ht hne
    have hin := (hmem t).mpr ⟨ht, hne⟩
    rcases hnew with ⟨rfl, hany⟩ | hclass
    · obtain rfl := mem_singleton.mp hin
      exact repOf_of_ne_copy (by rw [hany]; simp)
    · exact (hok.repOf_eq_iff hclass).mpr hin
  have hrepout : ∀ t, t ∉ r :: l → T'.repOf t = T.repOf t := by
    intro t ht
    rw [repOf, repOf, hout t ht]
  have hnotin : ∀ t, t ∉ r :: l → ∀ u ∈ r :: l, T.repOf t ≠ u := by
    rintro t ht _ hu rfl
    rcases hT.repOf_cases t with h | ⟨l2, hc', ht'⟩
    · exact ht (h ▸ hu)
    · exact ht (hc'.mem_of_mem hc mem_cons_self hu (mem_cons_of_mem _ ht'))
  have hbmem := (hmem b).mp mem_cons_self
  refine ⟨hok, hself, fun t hne => ?_, fun t hs => ?_, fun t u ht hu => ?_, fun t => ?_⟩
  · by_cases ht : t ∈ r :: l
    · have hin := (hmem t).mpr ⟨ht, hne⟩
      rw [hc.constOf_eq_none ht]
      rcases hnew with ⟨rfl, hany⟩ | hclass
      · obtain rfl := mem_singleton.mp hin
        exact if_neg (by rw [hany]; simp)
      · exact hclass.constOf_eq_none hin
    · rw [constOf, constOf, hout t ht]
  · by_cases ht : t ∈ r :: l
    · obtain ⟨hclass, hin⟩ := hstate t ht (.inr hs)
      rcases mem_cons.mp ht with rfl | ht
      · exfalso
        rcases hb with rfl | rfl
        · rw [hclass.rep] at hs
          simp at hs
        · rw [hself] at hs
          simp at hs
      · exact (hc.member t ht).1
    · rwa [hout t ht] at hs
  · by_cases ht' : t ∈ r :: l <;> by_cases hu' : u ∈ r :: l
    · rw [hrepin t ht' ht, hrepin u hu' hu, (hT.repOf_eq_iff hc).mpr ht',
        (hT.repOf_eq_iff hc).mpr hu']
      simp
    · rw [hrepin t ht' ht, hrepout u hu', (hT.repOf_eq_iff hc).mpr ht']
      exact iff_of_false (hnotin u hu' b hbmem.1).symm (hnotin u hu' r mem_cons_self).symm
    · rw [hrepin u hu' hu, hrepout t ht', (hT.repOf_eq_iff hc).mpr hu']
      exact iff_of_false (hnotin t ht' b hbmem.1) (hnotin t ht' r mem_cons_self)
    · rw [hrepout t ht', hrepout u hu']
  · rcases eq_or_ne t temp with rfl | hne
    · simp [repOf_of_ne_copy (show (T' t).state ≠ .copy by rw [hself]; simp)]
    by_cases ht : t ∈ r :: l
    · rw [hrepin t ht hne]
      exact iff_of_false hbmem.2 hne
    · rw [hrepout t ht]
      exact iff_of_false (hnotin t ht temp htemp) hne

lemma forgets_unlink {T1 : TempTable} (b : ℕ) (l' : List ℕ) (hT : TableOk ctx T)
    (hc : CopyClass ctx T r l) (htemp : temp ∈ r :: l) (hout : ∀ t, t ∉ r :: l → T1 t = T t)
    (hlinks : T1.next temp ∈ r :: l ∧ T1.prev temp ∈ r :: l)
    (hring : Ring.IsRing (T1.unlink temp).next (T1.unlink temp).prev b l')
    (hmem : ∀ t, t ∈ b :: l' ↔ t ∈ r :: l ∧ t ≠ temp) (hb : b = r ∨ temp = r)
    (hrep : (T1 b).state = .hasCopy)
    (hmember : ∀ t ∈ l', (T1 t).state = .copy ∧ (T1 t).val = BitVec.ofNat 64 b) :
    TableOk ctx (forgetTemp (T1.unlink temp) temp (some b))
      ∧ Forgets T (forgetTemp (T1.unlink temp) temp (some b)) temp := by
  have hself : (T1.unlink temp).next b = b ↔ l' = [] := hring.next_eq_self_iff
  refine forgets_of_class b l' hT hc htemp (fun t ht => ?_) ?_ hmem hb ?_
  · rw [forgetTemp_apply, if_neg (by grind), unlink_of_ne (by grind) (by grind), hout t ht]
  · rw [forgetTemp_apply, if_pos (.inl rfl)]
  · by_cases hne : l' = []
    · exact .inl ⟨hne, by rw [forgetTemp_apply, if_pos (.inr ⟨rfl, hself.mpr hne⟩)]⟩
    have hsame : ∀ t ∈ b :: l', forgetTemp (T1.unlink temp) temp (some b) t = T1.unlink temp t := by
      intro t ht
      rw [forgetTemp_apply, if_neg (by grind)]
    refine .inr ⟨by rwa [next_forgetTemp, prev_forgetTemp], hne, ?_, fun t ht => ?_,
      fun t ht => hc.range t ((hmem t).mp ht).1, fun t ht => ?_⟩
    · rw [hsame b mem_cons_self, state_unlink, hrep]
    · rw [hsame t (mem_cons_of_mem _ ht), state_unlink, val_unlink]
      exact hmember t ht
    · rw [hc.locality t ((hmem t).mp ht).1, hc.locality b ((hmem b).mp mem_cons_self).1]

/-- Forgetting a copy: it leaves its class, and the others keep their representative. -/
lemma reset_copy (hT : TableOk ctx T) (hstate : (T temp).state = .copy) :
    TableOk ctx (forgetTemp (T.unlink temp) temp (some (T temp).val.toNat))
      ∧ Forgets T (forgetTemp (T.unlink temp) temp (some (T temp).val.toNat)) temp := by
  obtain ⟨r, l, hc, hmem⟩ := hT.copy temp hstate
  have hval : (T temp).val.toNat = r := by
    have := hc.repOf_eq hmem
    rwa [repOf, if_pos hstate] at this
  obtain ⟨A, B, rfl⟩ := append_of_mem hmem
  rw [hval]
  have hnd := hc.ring.nodup
  have hring := hc.ring.unlink
  rw [← next_unlink, ← prev_unlink] at hring
  exact forgets_unlink r (A ++ B) hT hc (by simp) (fun _ _ => rfl)
    (hc.ring.links_mem (by simp)) hring
    (by grind) (.inl rfl) hc.rep fun t ht => hc.member t (by grind)

/-- A loop that makes the same change to the entries of a list. -/
lemma foldl_modify {f : TempInfo → TempInfo} {ring : List ℕ} (hnd : ring.Nodup) (T : TempTable)
    (t : ℕ) : ring.foldl (fun T i => T.modify i f) T t = if t ∈ ring then f (T t) else T t := by
  induction ring generalizing T with
  | nil => rfl
  | cons i ring ih =>
    obtain ⟨hi, hring⟩ := nodup_cons.mp hnd
    rw [foldl_cons, ih hring, modify_apply]
    by_cases h : t = i
    · subst h
      simp [hi]
    · simp [h]

/-- Forgetting a representative: the next temp of the ring takes its place. -/
lemma reset_hasCopy (hT : TableOk ctx T) (hstate : (T temp).state = .hasCopy) :
    ∃ T', resetTemp ctx T temp = some T' ∧ TableOk ctx T' ∧ Forgets T T' temp := by
  obtain ⟨l, hc⟩ := hT.rep temp hstate
  obtain ⟨n, l, rfl⟩ := exists_cons_of_ne_nil hc.ne_nil
  have hnd := hc.ring.nodup
  have hlen : (n :: l).length < ctx.nbTemps + 1 := by
    have hsub : (n :: l) ⊆ range ctx.nbTemps := fun t ht =>
      mem_range.mpr (hc.range t (mem_cons_of_mem _ ht)).2
    have := ((nodup_cons.mp hnd).2.subperm hsub).length_le
    rw [length_range] at this
    omega
  have hwalk : Ring.walk T.next temp (ctx.nbTemps + 1) (T temp).nextCopy = some (n :: l) :=
    hc.ring.walk_eq hlen
  have hfind : (n :: l).find? (fun i => decide (ctx.nbGlobals ≤ i)) = some n := by
    rw [find?_cons_of_pos]
    simpa using (hc.range n (by simp)).1
  let T1 := (n :: l).foldl (fun T i => T.modify i fun info =>
      { info with val := BitVec.ofNat 64 n })
    (T.modify n fun i => { i with state := .hasCopy })
  have hT1 : ∀ t, T1 t = if t = n then { T t with state := .hasCopy, val := BitVec.ofNat 64 n }
      else if t ∈ l then { T t with val := BitVec.ofNat 64 n } else T t := by
    intro t
    have h := foldl_modify (f := fun info => { info with val := BitVec.ofNat 64 n })
      (nodup_cons.mp hnd).2 (T.modify n fun i => { i with state := .hasCopy }) t
    rw [show T1 t = _ from h, modify_apply]
    grind
  have hnext1 : T1.next = T.next := by
    funext t
    rw [TempTable.next, hT1]
    split_ifs <;> rfl
  have hprev1 : T1.prev = T.prev := by
    funext t
    rw [TempTable.prev, hT1]
    split_ifs <;> rfl
  refine ⟨forgetTemp (T1.unlink temp) temp (some n), ?_, ?_⟩
  · rw [resetTemp, hstate]
    simp only [hwalk, Option.map_some, hfind]
    rfl
  have hring : Ring.IsRing (T1.unlink temp).next (T1.unlink temp).prev n l := by
    have := hc.ring.rotate.unlink
    rwa [append_nil, ← hnext1, ← hprev1, ← next_unlink, ← prev_unlink] at this
  have hlinks := hc.ring.links_mem (a := temp) (by simp)
  rw [← hnext1, ← hprev1] at hlinks
  refine forgets_unlink n l hT hc (by simp) (fun t ht => ?_) hlinks hring (by grind) (.inr rfl) ?_
    fun t ht => ?_
  · rw [hT1, if_neg (by grind), if_neg (by grind)]
  · rw [hT1, if_pos rfl]
  · rw [hT1, if_neg (by grind), if_pos ht]
    exact ⟨(hc.member t (by grind)).1, rfl⟩

lemma reset_other (hT : TableOk ctx T) (h1 : (T temp).state ≠ .hasCopy)
    (h2 : (T temp).state ≠ .copy) :
    TableOk ctx (forgetTemp T temp none) ∧ Forgets T (forgetTemp T temp none) temp := by
  have happly : ∀ t, forgetTemp T temp none t = if t =
      temp then { T t with state := .any } else T t := by
    intro t
    rw [forgetTemp]
    exact modify_apply _
  have hnot : ∀ r l, CopyClass ctx T r l → temp ∉ r :: l := by
    intro r l hc hmem
    exact (hc.state hmem).elim (fun h => h1 h.1) fun h => h2 h.1
  have hrep : ∀ t, repOf (forgetTemp T temp none) t = T.repOf t := by
    intro t
    rw [repOf, repOf, happly]
    split
    next h => rw [h, if_neg h2, if_neg (by simp)]
    next => rfl
  refine ⟨hT.replace (S := (· = temp)) (fun t ht => ?_) ?_ (fun t ht hs => ?_) (fun t ht hs => ?_),
    ?_, fun t hne => ?_, fun t hs => ?_, fun t u _ _ => ?_, fun t => ?_⟩
  · rw [happly, if_neg ht]
  · rintro r l t u hc ht - rfl
    exact absurd ht (hnot r l hc)
  · rw [happly, if_pos ht] at hs
    simp at hs
  · rw [happly, if_pos ht] at hs
    simp at hs
  · rw [happly, if_pos rfl]
  · rw [constOf, constOf, happly, if_neg hne]
  · rw [happly] at hs
    split at hs
    · simp at hs
    · exact hs
  · rw [hrep, hrep]
  · rw [hrep]
    constructor
    · rintro rfl
      rcases hT.repOf_cases t with h | ⟨l, hc, -⟩
      · exact h.symm
      · exact absurd mem_cons_self (hnot _ l hc)
    · rintro rfl
      exact repOf_of_ne_copy h2

/-- **`reset_temp`** finds the ring it needs, and takes the temp out of its class. -/
theorem resetTemp_spec (hT : TableOk ctx T) (temp : ℕ) :
    ∃ T', resetTemp ctx T temp = some T' ∧ TableOk ctx T' ∧ Forgets T T' temp := by
  cases hs : (T temp).state with
  | hasCopy => exact reset_hasCopy hT hs
  | copy => exact ⟨_, by rw [resetTemp, hs], reset_copy hT hs⟩
  | undef | const | any => exact ⟨_, by rw [resetTemp, hs],
      reset_other hT (by rw [hs]; simp) (by rw [hs]; simp)⟩

end Reset

/-! ## Putting a temp into a class -/

section Link

variable {ctx : TcgContext} {T : TempTable} {dst src : ℕ}

lemma linkBehind_state (t : ℕ) :
    (linkBehind T dst src t).state = if t = dst then .copy else (T t).state := by
  simp only [linkBehind, modify_apply]
  split_ifs <;> simp_all

lemma linkBehind_val (t : ℕ) :
    (linkBehind T dst src t).val = if t = dst then BitVec.ofNat 64 src else (T t).val := by
  simp only [linkBehind, modify_apply]
  split_ifs <;> simp_all

lemma linkBehind_next : (linkBehind T dst src).next = Ring.insertNext T.next src dst := by
  funext t
  simp only [linkBehind, TempTable.next, Ring.insertNext, modify_apply, update_apply]
  grind

lemma linkBehind_prev : (linkBehind T dst src).prev = Ring.insertPrev T.next T.prev src dst := by
  funext t
  simp only [linkBehind, TempTable.next, TempTable.prev, Ring.insertPrev,
    modify_apply, update_apply]
  grind

lemma linkBehind_out {t : ℕ} (h1 : t ≠ dst) (h2 : t ≠ src) (h3 : t ≠ T.next src) :
    linkBehind T dst src t = T t := by
  simp only [TempTable.next] at h3
  simp only [linkBehind, modify_apply]
  grind

/-- The representative with its ring, before `dst` joins. -/
lemma makeRep_class (hT : TableOk ctx T) (hcopy : (T src).state ≠ .copy) :
    ∃ l, Ring.IsRing (makeRep T src).next (makeRep T src).prev src l
      ∧ (∀ t ∈ l, (T t).state = .copy ∧ (T t).val = BitVec.ofNat 64 src
        ∧ (ctx.nbGlobals ≤ t ∧ t < ctx.nbTemps) ∧ ctx.isLocal t = ctx.isLocal src)
      ∧ (∀ r m t, CopyClass ctx T r m → t ∈ src :: l → t ∈ r :: m → ∀ u ∈ r :: m, u ∈ src :: l)
      ∧ (∀ t, T.repOf t = src ↔ t ∈ src :: l) := by
  by_cases hs : (T src).state = .hasCopy
  · obtain ⟨l, hc⟩ := hT.rep src hs
    refine ⟨l, ?_, fun t ht => ⟨(hc.member t ht).1, (hc.member t ht).2,
      hc.range t (mem_cons_of_mem _ ht), hc.locality t (mem_cons_of_mem _ ht)⟩,
      fun r m t hc' ht ht' u hu =>
        hc'.mem_of_mem hc ht' ht hu, fun t => hT.repOf_eq_iff hc⟩
    rw [makeRep, if_neg (by simpa using hs)]
    exact hc.ring
  refine ⟨[], Ring.IsRing.singleton ?_ ?_, by simp, fun r m t hc ht ht' => ?_, fun t => ?_⟩
  · rw [makeRep, if_pos hs, TempTable.next, modify_same]
  · rw [makeRep, if_pos hs, TempTable.prev, modify_same]
  · obtain rfl := mem_singleton.mp ht
    exact (hc.state ht').elim (fun h => absurd h.1 hs) fun h => absurd h.1 hcopy
  · rw [mem_singleton]
    constructor
    · rintro rfl
      rcases hT.repOf_cases t with h | ⟨l, hc, -⟩
      · exact h.symm
      · exact absurd hc.rep hs
    · rintro rfl
      exact repOf_of_ne_copy hcopy

/-- **`tcg_opt_gen_mov`** makes the destination a copy of the source and leaves the other
classes. -/
theorem linkCopy_spec (hT : TableOk ctx T) (hdst : (T dst).state = .any)
    (hcopy : (T src).state ≠ .copy) (hconst : (T src).state ≠ .const) (hne : dst ≠ src)
    (hrsrc : ctx.nbGlobals ≤ src ∧ src < ctx.nbTemps)
    (hrdst : ctx.nbGlobals ≤ dst ∧ dst < ctx.nbTemps) (hloc : ctx.isLocal src = ctx.isLocal dst) :
    TableOk ctx (linkCopy T dst src)
      ∧ (∀ t, (linkCopy T dst src).constOf t = if t = dst then none else T.constOf t)
      ∧ ∀ t, (linkCopy T dst src).repOf t = if t = dst then src else T.repOf t := by
  obtain ⟨l, hring, hmem, hclosed, hrep⟩ := makeRep_class hT hcopy
  have hmake : ∀ t, t ≠ src → makeRep T src t = T t := by
    intro t ht
    rw [makeRep]
    split
    · exact modify_ne _ ht
    · rfl
  have hmakes : (makeRep T src src).state = .hasCopy := by
    rw [makeRep]
    split
    next => rw [modify_same]
    next h => exact not_not.mp h
  have hdstl : dst ∉ src :: l := by
    intro h
    rcases mem_cons.mp h with h | h
    · exact hne h
    · rw [(hmem dst h).1] at hdst
      simp at hdst
  have hnextmem := (hring.links_mem (a := src) (by simp)).1
  have hclass : CopyClass ctx (linkCopy T dst src) src (dst :: l) := by
    refine ⟨?_, by simp, ?_, fun t ht => ?_, fun t ht => ?_, fun t ht => ?_⟩
    · rw [linkCopy, linkBehind_next, linkBehind_prev]
      exact hring.insert hdstl
    · rw [linkCopy, linkBehind_state, if_neg hne.symm, hmakes]
    · rw [linkCopy, linkBehind_state, linkBehind_val]
      rcases mem_cons.mp ht with rfl | ht
      · simp
      have h1 : t ≠ dst := by grind
      have h2 : t ≠ src := by grind
      rw [if_neg h1, if_neg h1, hmake t h2]
      exact ⟨(hmem t ht).1, (hmem t ht).2.1⟩
    · rcases mem_cons.mp ht with rfl | ht
      · exact hrsrc
      · rcases mem_cons.mp ht with rfl | ht
        · exact hrdst
        · exact (hmem t ht).2.2.1
    · rcases mem_cons.mp ht with rfl | ht
      · rfl
      · rcases mem_cons.mp ht with rfl | ht
        · exact hloc.symm
        · exact (hmem t ht).2.2.2
  have hout : ∀ t, ¬ (t = dst ∨ t ∈ src :: l) → linkCopy T dst src t = T t := by
    intro t ht
    rw [linkCopy, linkBehind_out (by grind) (by grind) (by grind), hmake t (by grind)]
  have hok : TableOk ctx (linkCopy T dst src) := by
    refine hT.replace (S := fun t => t = dst ∨ t ∈ src :: l) hout ?_ (fun t ht hs => ?_)
      (fun t ht hs => ?_)
    · rintro r m t u hc ht hu (rfl | hS)
      · rcases hc.state ht with ⟨h, -⟩ | ⟨h, -⟩ <;> rw [h] at hdst <;> cases hdst
      · exact .inr (hclosed r m t hc hS ht u hu)
    · rw [hclass.eq_of_hasCopy (by grind) hs]
      exact ⟨_, hclass⟩
    · exact ⟨_, _, hclass, hclass.mem_of_copy (by grind) hs⟩
  refine ⟨hok, fun t => ?_, fun t => ?_⟩
  · rw [constOf, linkCopy, linkBehind_state, linkBehind_val]
    rcases eq_or_ne t dst with rfl | h
    · simp
    rw [if_neg h, if_neg h, if_neg h]
    rcases eq_or_ne t src with rfl | h'
    · rw [hmakes, constOf, if_neg hconst, if_neg (by simp)]
    · rw [hmake t h', constOf]
  · rcases eq_or_ne t dst with rfl | h
    · rw [if_pos rfl]
      exact hclass.repOf_eq mem_cons_self
    rw [if_neg h]
    by_cases ht : t ∈ src :: l
    · rw [(hrep t).mpr ht]
      exact (hok.repOf_eq_iff hclass).mpr (by grind)
    · rw [repOf, hout t (by grind), repOf]

end Link

end Qemu.Tcg
