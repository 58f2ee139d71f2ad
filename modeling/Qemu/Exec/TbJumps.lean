import Qemu.Exec.TbDatabase

/-!
# The circular lists of chained jumps

`Jumps s live src jumps` says that the jump lists of the blocks in `live` are what the generated
code does: the list of a block `d` is circular through its `jmp_first`, and it holds exactly the
jumps in `src` that go to `d`.  The set `src` of jumps that count is a parameter since
`tb_phys_invalidate` takes the jumps of a block off their lists one by one, and without changing
where they go.

**Main results:**
- `Jumps.remove`: `tb_jmp_remove` finds its jump and takes it off
- `Jumps.reset`: the loop that redirects the jumps to a block that goes
- `Jumps.add`: `tb_add_jump`
- `Jumps.new`: a new block
-/

namespace Qemu.Exec

open List Function
open Chain (Lost Links)

variable {s : TbDb} {live : Set ℕ} {src : Set Part} {jumps : ℕ → List Part} {e : Part} {d : ℕ}

/-- The jump lists of the blocks in `live` hold the jumps in `src`. -/
structure Jumps (s : TbDb) (live : Set ℕ) (src : Set Part) (jumps : ℕ → List Part) : Prop where
  lt : ∀ e ∈ src, e.1 < s.nbTbs
  ring : ∀ d ∈ live,
    Links s.jmpPlace (some (.first d)) ((jumps d).map .next) (some (.first d))
  nodup : ∀ d ∈ live, (jumps d).Nodup
  mem : ∀ d ∈ live, ∀ e, e ∈ jumps d ↔ e ∈ src ∧ s.jump e = some d
  target : ∀ e ∈ src, ∀ d, s.jump e = some d → d ∈ live
  next_none : ∀ e ∈ src, (s.jmpNext e = none ↔ s.jump e = none)

lemma length_le_of_parts {l : List Part} {n : ℕ} (hnd : l.Nodup) (hlt : ∀ e ∈ l, e.1 < n) :
    l.length ≤ 2 * n := by
  have hsub : l ⊆ range n ×ˢ finRange 2 := fun e he =>
    mem_product.mpr ⟨List.mem_range.mpr (hlt e he), mem_finRange _⟩
  have hle := (subperm_of_subset hnd hsub).length_le
  rw [length_product, length_range, length_finRange] at hle
  omega

lemma map_next_nodup {l : List Part} (h : l.Nodup) : (l.map JmpPtr.next).Nodup :=
  h.map fun _ _ hab => JmpPtr.next.inj hab

lemma Jumps.length_lt (J : Jumps s live src jumps) (hd : d ∈ live) : (jumps d).length < s.fuel := by
  have hle := length_le_of_parts (J.nodup d hd) fun e he => J.lt e ((J.mem d hd e).mp he).1
  rw [TbDb.fuel]
  omega

lemma Jumps.unique (J : Jumps s live src jumps) {d' : ℕ} (hd : d ∈ live) (hd' : d' ∈ live)
    (he : e ∈ jumps d) (he' : e ∈ jumps d') : d = d' :=
  Option.some.inj (((J.mem d hd e).mp he).2.symm.trans ((J.mem d' hd' e).mp he').2)

lemma Jumps.congr (J : Jumps s live src jumps) (s' : TbDb) (hnb : s'.nbTbs = s.nbTbs)
    (hfirst : s'.jmpFirst = s.jmpFirst) (hnext : s'.jmpNext = s.jmpNext)
    (hjump : s'.jump = s.jump) : Jumps s' live src jumps := by
  have hplace : s'.jmpPlace = s.jmpPlace := by
    funext j
    rcases j with _ | _ | _ <;> simp [TbDb.jmpPlace, hfirst, hnext]
  exact ⟨hnb ▸ J.lt, hplace ▸ J.ring, J.nodup, hjump ▸ J.mem, hjump ▸ J.target,
    hjump ▸ hnext ▸ J.next_none⟩

/-! ## Taking a jump off its list -/

namespace TbDb

lemma setJmpPlace_eq (s : TbDb) (i : Option JmpPtr) (v : JmpPtr) : s.setJmpPlace i v =
      { s with
        jmpNext := (s.setJmpPlace i v).jmpNext, jmpFirst := (s.setJmpPlace i v).jmpFirst } := by
  rcases i with _ | _ | _ <;> rfl

lemma jmpPlace_setJmpPlace (s : TbDb) {i : JmpPtr} (v : JmpPtr) :
    (s.setJmpPlace (some i) v).jmpPlace = update s.jmpPlace (some i) (some v) := by
  funext j
  rcases i with e | b <;> rcases j with _ | e' | b' <;>
    simp [setJmpPlace, jmpPlace, update_apply, apply_ite some]

lemma jmpPlace_clear (s : TbDb) (e : Part) :
    TbDb.jmpPlace { s with jmpNext := update s.jmpNext e none } =
      update s.jmpPlace (some (.next e)) none := by
  funext j
  rcases j with _ | e' | b' <;> simp [jmpPlace, update_apply]

end TbDb

/-- The place that points to a jump, found by going round the circle from the jump itself. -/
lemma Jumps.locate_eq (J : Jumps s live src jumps) (hd : d ∈ live) {A B : List Part}
    (hsplit : jumps d = A ++ e :: B) :
    Chain.locate s.jmpPlace (· == .next e) s.fuel (some (.next e)) =
      .ok (Chain.lastPlace (some (JmpPtr.first d)) (A.map JmpPtr.next), JmpPtr.next e) := by
  have hring := J.ring d hd
  have hnd := J.nodup d hd
  have hlen := J.length_lt hd
  rw [hsplit, map_append, map_cons] at hring
  rw [hsplit] at hnd hlen
  have hout : ∀ x ∈ B.map JmpPtr.next ++ JmpPtr.first d :: A.map JmpPtr.next,
      (x == JmpPtr.next e) = false := by
    intro x hx
    simp only [mem_append, mem_map, mem_cons] at hx
    rw [beq_eq_false_iff_ne]
    rcases hx with ⟨a, ha, rfl⟩ | rfl | ⟨a, ha, rfl⟩
    · rintro ⟨⟩
      grind
    · simp
    · rintro ⟨⟩
      grind
  rw [Chain.locate_end hring.rotate hout (beq_self_eq_true _) (by simp at hlen ⊢; omega),
    Chain.lastPlace_append]

lemma lastPlace_first (d : ℕ) (A : List Part) :
    ∃ i, Chain.lastPlace (some (JmpPtr.first d)) (A.map JmpPtr.next) = some i ∧
      (i = .first d ∨ ∃ a ∈ A, i = .next a) := by
  rcases Chain.lastPlace_cases (some (JmpPtr.first d)) (A.map JmpPtr.next) with ⟨-, h⟩ | ⟨x, hx, h⟩
  · exact ⟨_, h, .inl rfl⟩
  · obtain ⟨a, ha, rfl⟩ := mem_map.mp hx
    exact ⟨_, h, .inr ⟨a, ha, rfl⟩⟩

/-- The lists after the pointer to the jump `e`, which goes to `d`, has been redirected. -/
lemma Jumps.unlink (J : Jumps s live src jumps) (hd : d ∈ live) {A B : List Part}
    (hsplit : jumps d = A ++ e :: B) {i v : JmpPtr} (hv : s.jmpNext e = some v)
    (hi : Chain.lastPlace (some (JmpPtr.first d)) (A.map JmpPtr.next) = some i) {s' : TbDb}
    (hnb : s'.nbTbs = s.nbTbs) (hjump : s'.jump = s.jump)
    (hplace : s'.jmpPlace = update (update s.jmpPlace (some i) (some v)) (some (.next e)) none) :
    Jumps s' live (src \ {e}) fun d => (jumps d).filter (· ≠ e) := by
  have hnd := J.nodup d hd
  have hring := J.ring d hd
  have heA : ∀ x ∈ A ++ B, x ≠ e := by rw [hsplit] at hnd; grind
  have hAmem : ∀ a ∈ A, a ∈ jumps d := by rw [hsplit]; grind
  -- a field that is written is the one of `d`, of a jump to `d`, or of `e`
  have hi' : i = .first d ∨ ∃ a ∈ A, i = .next a := by
    obtain ⟨i', hi', h⟩ := lastPlace_first d A
    rwa [Option.some.inj (hi.symm.trans hi')]
  have hfilter : (jumps d).filter (· ≠ e) = A ++ B := by
    rw [hsplit, filter_append, filter_cons_of_neg (by simp), ← filter_append]
    exact filter_eq_self.mpr fun x hx => decide_eq_true (heA x hx)
  refine ⟨fun a ha => hnb ▸ J.lt a ha.1, fun d' hd' => ?_, fun d' hd' => (J.nodup d' hd').filter _,
    fun d' hd' a => ?_, fun a ha => hjump ▸ J.target a ha.1, fun a ha => ?_⟩
  · by_cases hdd : d' = d
    · subst hdd
      rw [hsplit, map_append, map_cons] at hring
      have hlinks := hring.unlink (by rw [hsplit] at hnd; simpa using map_next_nodup hnd)
        (fun x hx h => by obtain rfl := Option.some.inj h; simp at hx)
      rw [hi, show s.jmpPlace (some (.next e)) = some v from hv, ← map_append] at hlinks
      rw [hfilter, hplace]
      refine hlinks.congr (update_of_ne (by simp) ..) fun x hx => ?_
      obtain ⟨a, ha, rfl⟩ := mem_map.mp hx
      exact update_of_ne (by simpa using heA a ha) ..
    · have he : e ∉ jumps d' := fun he =>
        hdd (J.unique hd' hd he (by rw [hsplit]; simp))
      have hself : (jumps d').filter (· ≠ e) = jumps d' :=
        filter_eq_self.mpr fun x hx => decide_eq_true (by rintro rfl; exact he hx)
      rw [hself, hplace]
      refine (J.ring d' hd').congr ?_ fun x hx => ?_
      · rw [update_of_ne (by simp), update_of_ne]
        rcases hi' with rfl | ⟨a, -, rfl⟩ <;> simp [hdd]
      obtain ⟨b, hb, rfl⟩ := mem_map.mp hx
      have hbe : b ≠ e := by rintro rfl; exact he hb
      rw [update_of_ne (by simpa using hbe), update_of_ne]
      rcases hi' with rfl | ⟨a, ha, rfl⟩
      · simp
      · simp only [ne_eq, Option.some.injEq, JmpPtr.next.injEq]
        rintro rfl
        exact hdd (J.unique hd' hd hb (hAmem b ha))
  · rw [mem_filter, J.mem d' hd', hjump]
    simp only [Set.mem_sdiff, Set.mem_singleton_iff, decide_eq_true_eq]
    tauto
  · have hnext : s'.jmpNext a = s'.jmpPlace (some (.next a)) := rfl
    rw [hnext, hplace, hjump, update_of_ne (by simpa using ha.2), ← J.next_none a ha.1]
    by_cases hai : JmpPtr.next a = i
    · subst hai
      have haA : a ∈ A := by simpa using hi'
      have hgo := ((J.mem d hd a).mp (hAmem a haA)).2
      rw [update_self, J.next_none a ha.1, hgo]
      simp
    · rw [update_of_ne (by simpa using hai)]
      rfl

/-- **`tb_jmp_remove`** takes a jump off the list that it is on. -/
theorem Jumps.remove (J : Jumps s live src jumps) (he : e ∈ src) :
    ∃ next' first', s.tbJmpRemove e = .ok { s with jmpNext := next', jmpFirst := first' } ∧
      Jumps { s with jmpNext := next', jmpFirst := first' } live (src \ {e})
        fun d => (jumps d).filter (· ≠ e) := by
  cases hn : s.jmpNext e with
  | none =>
    have hjump := (J.next_none e he).mp hn
    have hout : ∀ d ∈ live, (jumps d).filter (· ≠ e) = jumps d := by
      intro d hd
      refine filter_eq_self.mpr fun a ha => decide_eq_true ?_
      rintro rfl
      simpa [hjump] using ((J.mem d hd a).mp ha).2
    refine ⟨s.jmpNext, s.jmpFirst, by rw [TbDb.tbJmpRemove, hn], ?_⟩
    refine ⟨fun a ha => J.lt a ha.1, fun d hd => ?_, fun d hd => (J.nodup d hd).filter _,
      fun d hd a => ?_, fun a ha => J.target a ha.1, fun a ha => J.next_none a ha.1⟩
    · rw [hout d hd]
      exact J.ring d hd
    · rw [mem_filter, J.mem d hd]
      simp only [Set.mem_sdiff, Set.mem_singleton_iff, decide_eq_true_eq]
      tauto
  | some v =>
    obtain ⟨d, hjump⟩ : ∃ d, s.jump e = some d := Option.ne_none_iff_exists'.mp fun h => by
      simp [(J.next_none e he).mpr h] at hn
    have hd := J.target e he d hjump
    obtain ⟨A, B, hsplit⟩ := append_of_mem ((J.mem d hd e).mpr ⟨he, hjump⟩)
    obtain ⟨i, hi, -⟩ := lastPlace_first d A
    have hloc := J.locate_eq hd hsplit
    rw [hi] at hloc
    refine ⟨Function.update (s.setJmpPlace (some i) v).jmpNext e none,
      (s.setJmpPlace (some i) v).jmpFirst, ?_, J.unlink hd hsplit hn hi rfl rfl ?_⟩
    · simp only [TbDb.tbJmpRemove, hn, hloc, Except.map]
      rw [TbDb.setJmpPlace_eq]
    · rw [← TbDb.jmpPlace_setJmpPlace, ← TbDb.jmpPlace_clear]
      rfl

/-! ## The other changes -/

def cleared {β : Type*} (f : Part → Option β) (l : List Part) : Part → Option β :=
  fun e => if e ∈ l then none else f e

lemma cleared_cons {β : Type*} (f : Part → Option β) (l : List Part) :
    cleared f (e :: l) = cleared (update f e none) l := by
  funext a
  simp only [cleared, mem_cons, update_apply]
  grind

/-- The loop redirects all jumps of a list.  The link of a jump is read before it is cleared, hence
the pointer `p`. -/
lemma resetJumps_eq {l : List Part} {p : JmpPtr} (hnd : l.Nodup)
    (h : Links (Chain.places (some p) fun x => s.jmpPlace (some x)) none (l.map .next)
      (some (.first d)))
    {fuel : ℕ} (hfuel : l.length < fuel) :
    resetJumps fuel s p = .ok { s with
      jump := cleared s.jump l, jmpNext := cleared s.jmpNext l } := by
  induction l generalizing s p fuel with
  | nil =>
    obtain ⟨n, rfl⟩ : ∃ n, fuel = n + 1 := ⟨fuel - 1, by simp at hfuel; omega⟩
    obtain rfl : p = .first d := Option.some.inj h
    rfl
  | cons e l ih =>
    obtain ⟨n, rfl⟩ : ∃ n, fuel = n + 1 := ⟨fuel - 1, by simp at hfuel; omega⟩
    obtain rfl : p = .next e := Option.some.inj h.1
    obtain ⟨he, hnd'⟩ := nodup_cons.mp hnd
    obtain ⟨v, hv⟩ : ∃ v, s.jmpNext e = some v := by
      cases l with
      | nil => exact ⟨_, h.2⟩
      | cons a l => exact ⟨_, h.2.1⟩
    have hrest : Links (Chain.places (some v) fun x => (s.unchain e).jmpPlace (some x)) none
        (l.map .next) (some (.first d)) := by
      refine h.2.congr hv.symm fun x hx => ?_
      obtain ⟨a, ha, rfl⟩ := mem_map.mp hx
      exact update_of_ne (by rintro rfl; exact he ha) ..
    rw [resetJumps, hv]
    simp only
    rw [ih hnd' hrest (by simpa using hfuel), cleared_cons, cleared_cons]
    rfl

/-- **The block `d` goes**: with its own jumps off their lists, the loop leaves the lists of the
other blocks. -/
theorem Jumps.reset (J : Jumps s live src jumps) (hd : d ∈ live) :
    ∃ jump' next', resetJumps s.fuel s
      (s.jmpFirst d) = .ok { s with jump := jump', jmpNext := next' } ∧
      Jumps { s with
        jump := jump', jmpNext := next', jmpFirst := update s.jmpFirst d (.first d) }
        (live \ {d}) src jumps := by
  refine ⟨cleared s.jump (jumps d), cleared s.jmpNext (jumps d),
    resetJumps_eq (J.nodup d hd) ((J.ring d hd).congr rfl fun _ _ => rfl) (J.length_lt hd), ?_⟩
  have hother : ∀ d' ∈ live \ {d}, ∀ a ∈ jumps d', a ∉ jumps d := fun d' hd' a ha ha' =>
    hd'.2 (J.unique hd'.1 hd ha ha')
  refine ⟨J.lt, fun d' hd' => ?_, fun d' hd' => J.nodup d' hd'.1, fun d' hd' a => ?_,
    fun a ha d' hgo => ?_, fun a ha => ?_⟩
  · refine (J.ring d' hd'.1).congr ?_ fun x hx => ?_
    · exact congrArg some (update_of_ne (by simpa using hd'.2) ..)
    · obtain ⟨a, ha, rfl⟩ := mem_map.mp hx
      exact if_neg (hother d' hd' a ha)
  · rw [J.mem d' hd'.1]
    simp only [cleared]
    have := J.mem d hd a
    have := hd'.2
    grind
  · have := J.mem d hd a
    have := J.target a ha d'
    simp only [cleared] at hgo
    grind
  · have := J.next_none a ha
    simp only [cleared]
    grind

/-- `tb_add_jump` puts a jump that is on no list at the head of its target's. -/
theorem Jumps.add (J : Jumps s live src jumps) (he : e ∈ src) (hd : d ∈ live) :
    Jumps (s.tbAddJump e d) live src
      (if s.jump e = none then update jumps d (e :: jumps d) else jumps) := by
  cases hn : s.jmpNext e with
  | some v =>
    rw [if_neg (fun h => by simp [(J.next_none e he).mpr h] at hn), TbDb.tbAddJump, hn]
    exact J
  | none =>
    have hjump := (J.next_none e he).mp hn
    have hout : ∀ d' ∈ live, e ∉ jumps d' := fun d' hd' h => by
      simpa [hjump] using ((J.mem d' hd' e).mp h).2
    rw [if_pos hjump, TbDb.tbAddJump, hn]
    refine ⟨J.lt, fun d' hd' => ?_, fun d' hd' => ?_, fun d' hd' a => ?_, fun a ha d' hgo => ?_,
      fun a ha => ?_⟩
    · have hlinks : ∀ x ∈ (jumps d').map JmpPtr.next, TbDb.jmpPlace
          { s with
            jump := update s.jump e (some d), jmpNext := update s.jmpNext e (some (s.jmpFirst d)),
            jmpFirst := update s.jmpFirst d (.next e) } (some x) =
          s.jmpPlace (some x) := by
        intro x hx
        obtain ⟨a, ha, rfl⟩ := mem_map.mp hx
        exact update_of_ne (by rintro rfl; exact hout d' hd' ha) ..
      by_cases hdd : d' = d
      · subst hdd
        rw [update_self]
        exact ⟨congrArg some (update_self ..), (J.ring d' hd').congr (update_self ..) hlinks⟩
      · rw [update_of_ne hdd]
        exact (J.ring d' hd').congr (congrArg some (update_of_ne hdd ..)) hlinks
    · by_cases hdd : d' = d
      · subst hdd
        rw [update_self]
        exact nodup_cons.mpr ⟨hout d' hd', J.nodup d' hd'⟩
      · rw [update_of_ne hdd]
        exact J.nodup d' hd'
    · have := J.mem d' hd' a
      simp only [update_apply]
      grind
    · have := J.target a ha d'
      simp only [update_apply] at hgo
      grind
    · have := J.next_none a ha
      simp only [update_apply]
      grind

/-- A new block starts with an empty list and with jumps that go nowhere. -/
theorem Jumps.new (J : Jumps s live src jumps) {b : ℕ} (hb : b ∉ live)
    (hsrc : ∀ n, (b, n) ∉ src) (s' : TbDb) (hnb : s.nbTbs ≤ s'.nbTbs) (hlt : b < s'.nbTbs)
    (hfirst : s'.jmpFirst = update s.jmpFirst b (.first b))
    (hnext : s'.jmpNext = cleared s.jmpNext [(b, 0), (b, 1)])
    (hjump : s'.jump = cleared s.jump [(b, 0), (b, 1)]) :
    Jumps s' (insert b live) (src ∪ {e | e.1 = b}) (update jumps b []) := by
  have hpart : ∀ a : Part, a ∈ [(b, (0 : Fin 2)), (b, 1)] ↔ a.1 = b := by
    rintro ⟨c, n⟩
    fin_cases n <;> simp
  have hnew : ∀ a ∈ src, a.1 ≠ b := fun a ha hab => hsrc a.2 (by rwa [← hab])
  have hclear : ∀ {β : Type} (f : Part → Option β) (a : Part), a ∈ src →
      cleared f [(b, 0), (b, 1)] a = f a := fun f a ha =>
    if_neg ((hpart a).not.mpr (hnew a ha))
  have hgone : ∀ {β : Type} (f : Part → Option β) (a : Part), a.1 = b →
      cleared f [(b, 0), (b, 1)] a = none := fun f a ha => if_pos ((hpart a).mpr ha)
  refine ⟨?_, fun d hd => ?_, fun d hd => ?_, fun d hd a => ?_, ?_, ?_⟩
  · rintro a (ha | ha)
    · exact (J.lt a ha).trans_le hnb
    · exact ha ▸ hlt
  · rcases eq_or_ne d b with rfl | hdb
    · rw [update_self]
      show some (s'.jmpFirst d) = some (.first d)
      rw [hfirst, update_self]
    have hd' := Set.mem_of_mem_insert_of_ne hd hdb
    rw [update_of_ne hdb]
    refine (J.ring d hd').congr ?_ fun x hx => ?_
    · show some (s'.jmpFirst d) = some (s.jmpFirst d)
      rw [hfirst, update_of_ne hdb]
    · obtain ⟨a, ha, rfl⟩ := mem_map.mp hx
      show s'.jmpNext a = s.jmpNext a
      rw [hnext, hclear _ a ((J.mem d hd' a).mp ha).1]
  · rcases eq_or_ne d b with rfl | hdb
    · rw [update_self]
      exact nodup_nil
    · rw [update_of_ne hdb]
      exact J.nodup d (Set.mem_of_mem_insert_of_ne hd hdb)
  · rw [hjump]
    rcases eq_or_ne d b with rfl | hdb
    · rw [update_self]
      refine ⟨fun h => absurd h (by simp), ?_⟩
      rintro ⟨ha | ha, hgo⟩
      · rw [hclear _ a ha] at hgo
        exact absurd (J.target a ha d hgo) hb
      · simp [hgone s.jump a ha] at hgo
    · rw [update_of_ne hdb, J.mem d (Set.mem_of_mem_insert_of_ne hd hdb)]
      constructor
      · rintro ⟨ha, hgo⟩
        exact ⟨.inl ha, by rwa [hclear _ a ha]⟩
      · rintro ⟨ha | ha, hgo⟩
        · exact ⟨ha, by rwa [hclear _ a ha] at hgo⟩
        · simp [hgone s.jump a ha] at hgo
  · rw [hjump]
    rintro a (ha | ha) d hgo
    · rw [hclear _ a ha] at hgo
      exact Set.mem_insert_of_mem _ (J.target a ha d hgo)
    · simp [hgone s.jump a ha] at hgo
  · rw [hjump, hnext]
    rintro a (ha | ha)
    · rw [hclear _ a ha, hclear _ a ha]
      exact J.next_none a ha
    · simp [hgone s.jump a ha, hgone s.jmpNext a ha]

end Qemu.Exec
