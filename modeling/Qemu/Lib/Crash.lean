import Mathlib

/-!
# Disks that lose writes in a crash

A disk has the contents that its users see, and the contents that it may have after a crash: any of
the writes since the last flush may be lost, each on its own.

A statement about every possible image covers all crashes at once, so a program that writes and
flushes is followed step by step and no crash has to be part of the model.

**Main results:**
- `Disk.Sound.writes`: nothing need be lost
- `Disk.mem_writes_of_mem`: writes can be lost
- `Disk.Holds.writes`, `Disk.holds_flush`: what a crash can leave at one place
-/

namespace Qemu.Crash

open Function

variable {S V : Type} [DecidableEq S]

/-- What a disk holds now, and what it may hold after a crash. -/
structure Disk (S V : Type) where
  current : S → V
  possible : Set (S → V)

namespace Disk

variable {d : Disk S V} {s s' : S} {v : V}

/-- A disk on which nothing is pending. -/
def synced (img : S → V) : Disk S V := ⟨img, {img}⟩

/-- The write takes place, or it is lost in the crash. -/
def write (d : Disk S V) (s : S) (v : V) : Disk S V where
  current := update d.current s v
  possible := d.possible ∪ {img | ∃ old ∈ d.possible, img = update old s v}

/-- Writes one after the other. -/
def writes (d : Disk S V) (l : List (S × V)) : Disk S V := l.foldl (fun d x => d.write x.1 x.2) d

/-- Everything written so far is safe. -/
def flush (d : Disk S V) : Disk S V := synced d.current

/-- It is possible that nothing is lost. -/
def Sound (d : Disk S V) : Prop := d.current ∈ d.possible

omit [DecidableEq S] in
lemma sound_synced (img : S → V) : (synced img).Sound := rfl

lemma Sound.write (h : d.Sound) : (d.write s v).Sound := .inr ⟨d.current, h, rfl⟩

/-- Nothing need be lost, however much is written. -/
lemma Sound.writes (h : d.Sound) (l : List (S × V)) : (d.writes l).Sound := by
  induction l generalizing d with
  | nil => exact h
  | cons x l ih => exact ih h.write

variable {img : S → V} {P : V → Prop}

lemma mem_write_of_mem (h : img ∈ d.possible) : img ∈ (d.write s v).possible := .inl h

/-- All writes can be lost. -/
lemma mem_writes_of_mem (h : img ∈ d.possible) (l : List (S × V)) :
    img ∈ (d.writes l).possible := by
  induction l generalizing d with
  | nil => exact h
  | cons x l ih => exact ih (mem_write_of_mem h)

/-! ## One place -/

/-- The place holds one of the values in `P`, now and after a crash. -/
def Holds (d : Disk S V) (s : S) (P : V → Prop) :
    Prop := P (d.current s) ∧ ∀ img ∈ d.possible, P (img s)

omit [DecidableEq S] in
lemma holds_synced (h : P (img s)) : (synced img).Holds s P := by
  refine ⟨h, fun img' himg' => ?_⟩
  rw [synced, Set.mem_singleton_iff] at himg'
  rw [himg']
  exact h

omit [DecidableEq S] in
/-- What holds now and after a crash is not lost by a flush. -/
lemma Holds.flush (h : d.Holds s P) : d.flush.Holds s P := holds_synced h.1

omit [DecidableEq S] in
/-- After a flush only what is there now matters. -/
lemma holds_flush (h : P (d.current s)) : d.flush.Holds s P := holds_synced h

/-- A write of a good value, or one to another place. -/
lemma Holds.write (h : d.Holds s P) (hv : s' = s → P v) : (d.write s' v).Holds s P := by
  have hupdate : ∀ img : S → V, P (img s) → P (update img s' v s) := by
    intro img himg
    rcases eq_or_ne s s' with rfl | hne
    · rw [update_self]
      exact hv rfl
    · rw [update_of_ne hne]
      exact himg
  refine ⟨hupdate _ h.1, ?_⟩
  rintro img (himg | ⟨old, hold, rfl⟩)
  · exact h.2 img himg
  · exact hupdate old (h.2 old hold)

/-- Several such writes. -/
lemma Holds.writes (h : d.Holds s P) {l : List (S × V)} (hl : ∀ x ∈ l, x.1 = s → P x.2) :
    (d.writes l).Holds s P := by
  induction l generalizing d with
  | nil => exact h
  | cons x l ih =>
    exact ih (h.write (hl x List.mem_cons_self)) fun y hy => hl y (List.mem_cons_of_mem _ hy)

/-- The value of a place after writes of one value to it. -/
lemma current_writes {l : List (S × V)} (hl : ∀ x ∈ l, x.1 = s → x.2 = v)
    (h : d.current s = v ∨ ∃ x ∈ l, x.1 = s) : (d.writes l).current s = v := by
  induction l generalizing d with
  | nil => exact h.resolve_right fun ⟨x, hx, _⟩ => absurd hx List.not_mem_nil
  | cons x l ih =>
    refine ih (fun y hy => hl y (List.mem_cons_of_mem _ hy)) ?_
    rcases eq_or_ne x.1 s with hx | hx
    · left
      show update d.current x.1 x.2 s = v
      rw [hx, update_self]
      exact hl x List.mem_cons_self hx
    rcases h with h | ⟨y, hy, hys⟩
    · left
      show update d.current x.1 x.2 s = v
      rw [update_of_ne (Ne.symm hx)]
      exact h
    · rcases List.mem_cons.mp hy with rfl | hy
      · exact absurd hys hx
      · exact .inr ⟨y, hy, hys⟩

end Disk

end Qemu.Crash
