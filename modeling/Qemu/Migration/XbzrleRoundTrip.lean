import Qemu.Migration.Xbzrle

/-!
# Decoding what was encoded

The encoded buffer is a list of *segments*, each a zero run and the bytes of a nonzero run.  The
encoder writes segments that turn the old buffer into the new one, and the decoder applies them to
its output.

The destination applies a packet to its own copy of the page, and cannot tell a wrong result from a
right one, so the codec has to be exact.

**Main results:**
- `decodeLoop_segments`: the decoder applies the segments that are well formed
- `encodeLoop_spec`: the encoder writes such segments, or fails
- `xbzrle_codec`: the round trip, with the buffers for which the encoder returns 0
-/

namespace Qemu.Xbzrle

open List Option

/-! ## Segments -/

structure Segment where
  zrun : ℕ
  data : List UInt8

def ulebBytes (n : ℕ) : List UInt8 :=
  if n < 0x80 then [UInt8.ofNat n] else [UInt8.ofNat (n &&& 0x7f ||| 0x80), UInt8.ofNat (n >>> 7)]

def Segment.bytes (s : Segment) :
    List UInt8 := ulebBytes s.zrun ++ (ulebBytes s.data.length ++ s.data)

def Segment.span (s : Segment) : ℕ := s.zrun + s.data.length

/-- The bytes of some segments. -/
def encoding (segs : List Segment) : List UInt8 := segs.flatMap Segment.bytes

def span (segs : List Segment) : ℕ := (segs.map Segment.span).sum

/-- What segments do to a buffer. -/
def patch : List UInt8 → List Segment → List UInt8
  | buf, [] => buf
  | buf, s :: segs => buf.take s.zrun ++ (s.data ++ patch (buf.drop s.span) segs)

/-- Segments that the decoder accepts.  Only the zero run at the start may be empty. -/
def WellFormed : Bool → List Segment → Prop
  | _, [] => True
  | start, s :: segs => (start = true ∨ 0 < s.zrun) ∧ s.zrun ≤ 0x3fff ∧ 0 < s.data.length ∧
      s.data.length ≤ 0x3fff ∧ WellFormed false segs

/-! ## Lengths -/

lemma length_ulebBytes (n : ℕ) : 1 ≤ (ulebBytes n).length ∧ (ulebBytes n).length ≤ 2 := by
  rw [ulebBytes]
  split_ifs <;> simp

lemma store_append {pre : List UInt8} {x b : UInt8} {post : List UInt8} :
    store (pre ++ x :: post) pre.length b = some (pre ++ b :: post) := by
  rw [store, if_pos (by simp), set_append_right _ _ (le_rfl), Nat.sub_self, set_cons_zero]

/-- A length is written at the end of what is there. -/
lemma uleb128EncodeSmall_spec {out : List UInt8} {d n : ℕ} (hn : n ≤ 0x3fff)
    (hd : d + 2 ≤ out.length) :
    ∃ out', uleb128EncodeSmall out d n = some (out', (ulebBytes n).length) ∧
      out'.length = out.length ∧
      out'.take (d + (ulebBytes n).length) = out.take d ++ ulebBytes n := by
  obtain ⟨pre, x, y, post, rfl, rfl⟩ : ∃ pre x y post, out = pre ++ x :: y :: post ∧
    d = pre.length := by
    refine ⟨out.take d, out[d], out[d + 1], out.drop (d + 2), ?_, by simp; omega⟩
    rw [← drop_eq_getElem_cons, ← drop_eq_getElem_cons, take_append_drop]
  rw [uleb128EncodeSmall, if_pos hn, ulebBytes]
  by_cases h : n < 0x80
  · rw [if_pos h, if_pos h, store_append]
    refine ⟨_, rfl, by simp, ?_⟩
    simp [take_append]
  rw [if_neg h, if_neg h, store_append]
  simp only [bind_eq_bind, bind_some]
  rw [append_cons, show pre.length + 1 = (pre ++ [UInt8.ofNat (n &&& 0x7f ||| 0x80)]).length by
    simp, store_append]
  refine ⟨_, rfl, by simp, ?_⟩
  simp [take_append]

lemma uleb128DecodeSmall_ulebBytes {n : ℕ} (hn : n ≤ 0x3fff) (pre post : List UInt8) :
    uleb128DecodeSmall (pre ++ (ulebBytes n ++ post)) pre.length =
      some (some ((ulebBytes n).length, n)) := by
  have hsmall : ∀ m < 0x80, UInt8.ofNat m &&& 0x80 = 0 ∧ (UInt8.ofNat m).toNat = m := by
    decide +kernel
  rw [uleb128DecodeSmall, ulebBytes]
  by_cases h : n < 0x80
  · obtain ⟨hb, hb7⟩ := hsmall n h
    have hfirst : (pre ++ ([UInt8.ofNat n] ++ post))[pre.length]? = some (UInt8.ofNat n) := by simp
    rw [if_pos h, hfirst]
    simp only [bind_eq_bind, bind_some]
    rw [if_pos hb, hb7]
    rfl
  have hlow : ∀ m < 0x80, ¬ (UInt8.ofNat (m ||| 0x80) &&& 0x80 = 0) ∧
      (UInt8.ofNat (m ||| 0x80) &&& 0x7f).toNat = m := by decide +kernel
  have hand : n &&& 0x7f = n % 2 ^ 7 := Nat.and_two_pow_sub_one_eq_mod n 7
  have hshift : n >>> 7 = n / 2 ^ 7 := Nat.shiftRight_eq_div_pow n 7
  obtain ⟨hb, hb7⟩ := hlow (n &&& 0x7f) (by rw [hand]; exact Nat.mod_lt _ (by decide))
  obtain ⟨hb', hb7'⟩ := hsmall (n >>> 7) (by rw [hshift]; omega)
  have hvalue : n &&& 0x7f ||| (n >>> 7) <<< 7 = n := by
    rw [hand, hshift, Nat.shiftLeft_eq, Nat.or_comm, mul_comm,
      ← Nat.two_pow_add_eq_or_of_lt (Nat.mod_lt _ (by decide)), Nat.div_add_mod]
  have hfirst : (pre ++ ([UInt8.ofNat (n &&& 0x7f ||| 0x80), UInt8.ofNat (n >>> 7)] ++
      post))[pre.length]? = some (UInt8.ofNat (n &&& 0x7f ||| 0x80)) := by simp
  have hsecond : (pre ++ ([UInt8.ofNat (n &&& 0x7f ||| 0x80), UInt8.ofNat (n >>> 7)] ++
      post))[pre.length + 1]? = some (UInt8.ofNat (n >>> 7)) := by simp
  rw [if_neg h, hfirst, hsecond]
  simp only [bind_eq_bind, bind_some]
  rw [if_neg hb, if_neg (not_not.mpr hb'), hb7, hb7', hvalue]
  rfl

lemma eq_nil_of_encoding_length {segs : List Segment} (h : (encoding segs).length = 0) :
    segs = [] := by
  rcases segs with _ | ⟨s, segs⟩
  · rfl
  · have hpos := (length_ulebBytes s.zrun).1
    simp only [encoding, flatMap_cons, Segment.bytes, length_append] at h
    omega

/-! ## The decoder on segments -/

lemma int32_natCast_add {a b : ℕ} (h : a + b < 2 ^ 31) :
    int32 ((a : ℤ) + b) = ((a + b : ℕ) : ℤ) := by
  rw [int32, Int.bmod]
  omega

lemma uint32_natCast_add {a b : ℕ} (h : a + b < 2 ^ 31) :
    uint32 ((a : ℤ) + b) = ((a + b : ℕ) : ℤ) := by
  rw [uint32]
  omega

/-- One round of the decoder, on a segment that it accepts. -/
lemma decodeLoop_step {src dst : List UInt8} {fuel i d zl z nl n : ℕ}
    (hread₁ : uleb128DecodeSmall src i = some (some (zl, z)))
    (hread₂ : uleb128DecodeSmall src (i + zl) = some (some (nl, n)))
    (hstart : i = 0 ∨ 0 < z) (hn : 0 < n) (hzl : 1 ≤ zl) (hnl : 1 ≤ nl)
    (hsrc : i + zl + nl + n ≤ src.length) (hdst : d + z + n ≤ dst.length)
    (hsrclen : src.length < 2 ^ 31) (hdstlen : dst.length < 2 ^ 31) :
    decodeLoop src (fuel + 1) i d dst = decodeLoop src fuel (i + zl + nl + n) ((d + z + n : ℕ) : ℤ)
      (dst.take (d + z) ++ (src.drop (i + zl + nl)).take n ++ dst.drop (d + z + n)) := by
  rw [decodeLoop, if_pos (by omega), if_neg (by omega), hread₁]
  simp only [bind_eq_bind, bind_some]
  rw [if_neg (by omega), int32_natCast_add (by omega), if_neg (by omega), if_neg (by omega), hread₂]
  simp only [bind_some]
  rw [uint32_natCast_add (by omega), uint32_natCast_add (by omega), int32_natCast_add (by omega),
    if_neg (by omega), if_neg (by omega), if_neg (by omega), Int.toNat_natCast,
    (memcpy_spec _ _ hdst hsrc).1, bind_some]

/-- The decoder applies well-formed segments: an induction on the segments that are left. -/
lemma decodeLoop_segments (src : List UInt8) (hsrc : src.length < 2 ^ 31) (segs : List Segment) :
    ∀ (fuel : ℕ) (pre done rest : List UInt8), src = pre ++ encoding segs →
      src.length - pre.length < fuel → (done ++ rest).length < 2 ^ 31 →
      WellFormed (decide (pre.length = 0)) segs → span segs ≤ rest.length →
      decodeLoop src fuel pre.length done.length (done ++ rest) =
        some (((done.length + span segs : ℕ) : ℤ), done ++ patch rest segs) := by
  induction segs with
  | nil =>
    rintro (_ | fuel) pre done rest rfl hfuel _ _ _
    · omega
    · simp [decodeLoop, encoding, span, patch]
  | cons s segs ih =>
    rintro (_ | fuel) pre done rest hsplit hfuel hlen hwf hspan
    · omega
    obtain ⟨hstart, hz, hdata, hdata', hwf⟩ := hwf
    obtain ⟨hzl, -⟩ := length_ulebBytes s.zrun
    obtain ⟨hnl, -⟩ := length_ulebBytes s.data.length
    have hspan' : s.zrun + s.data.length + span segs ≤ rest.length := by
      simpa [span, Segment.span] using hspan
    have hcons : encoding (s :: segs) =
        ulebBytes s.zrun ++ (ulebBytes s.data.length ++ (s.data ++ encoding segs)) := by
      simp [encoding, Segment.bytes]
    rw [hcons] at hsplit
    have hread₁ : uleb128DecodeSmall src pre.length =
        some (some ((ulebBytes s.zrun).length, s.zrun)) := by
      rw [hsplit]
      exact uleb128DecodeSmall_ulebBytes hz _ _
    have hread₂ : uleb128DecodeSmall src (pre.length + (ulebBytes s.zrun).length) =
        some (some ((ulebBytes s.data.length).length, s.data.length)) := by
      rw [hsplit, ← append_assoc, ← length_append]
      exact uleb128DecodeSmall_ulebBytes hdata' _ _
    -- from here on only the bytes of the two numbers count
    generalize ulebBytes s.zrun = zbytes at *
    generalize ulebBytes s.data.length = nzbytes at *
    have hsrclen : pre.length + zbytes.length + nzbytes.length + s.data.length ≤ src.length := by
      rw [hsplit]
      simp only [length_append]
      omega
    have hdstlen : done.length + s.zrun + s.data.length ≤ (done ++ rest).length := by
      rw [length_append]
      omega
    rw [decodeLoop_step hread₁ hread₂ (by simpa using hstart) hdata hzl hnl hsrclen
      hdstlen hsrc hlen]
    have hpre : pre.length + zbytes.length + nzbytes.length + s.data.length =
        (pre ++ (zbytes ++ (nzbytes ++ s.data))).length := by
      simp only [length_append]
      omega
    have hdone : (done ++ rest).take (done.length + s.zrun) ++
        (src.drop (pre.length + zbytes.length + nzbytes.length)).take s.data.length ++
        (done ++ rest).drop (done.length + s.zrun + s.data.length) =
        (done ++ (rest.take s.zrun ++ s.data)) ++ rest.drop s.span := by
      have hdrop : src.drop (pre.length + zbytes.length + nzbytes.length) =
          s.data ++ encoding segs := by
        rw [hsplit, ← append_assoc, ← append_assoc, ← length_append, ← length_append, drop_left]
      rw [hdrop, take_left, take_length_add_append, add_assoc, drop_length_add_append,
        append_assoc done, Segment.span]
    have hdonelen : done.length + s.zrun + s.data.length =
        (done ++ (rest.take s.zrun ++ s.data)).length := by
      simp only [length_append, length_take]
      omega
    have hlen' : ((done ++ (rest.take s.zrun ++ s.data)) ++ rest.drop s.span).length < 2 ^ 31 := by
      rw [← hdone, (memcpy_spec _ _ hdstlen hsrclen).2]
      exact hlen
    rw [hdone, hpre, hdonelen, ih fuel _ _ _ (by rw [hsplit]; simp) (by omega) hlen'
      (by rwa [← hpre, decide_eq_false (by omega)])
      (by rw [length_drop, Segment.span]; omega)]
    refine congrArg some (Prod.ext ?_ ?_)
    · simp only [span, map_cons, sum_cons, ← hdonelen, Segment.span]
      push_cast
      ring
    · simp [patch]

/-! ## The encoder -/

section Encoder

variable {host : Host} {oldBuf newBuf : List UInt8} {slen : ℕ}

lemma drop_take_eq_of_same {i n : ℕ} (h : ∀ k, i ≤ k → k < i + n → Same oldBuf newBuf k) :
    (oldBuf.drop i).take n = (newBuf.drop i).take n := by
  refine ext_getElem? fun k => ?_
  rw [getElem?_take, getElem?_take, getElem?_drop, getElem?_drop]
  split_ifs with hk
  · exact h (i + k) (by omega) (by omega)
  · rfl

/-- The segment of a zero run and a nonzero run, in front of segments for the rest. -/
lemma patch_cons {i j k : ℕ} (hij : i ≤ j) (hjk : j ≤ k) (hk : k ≤ newBuf.length)
    (hsame : ∀ l, i ≤ l → l < j → Same oldBuf newBuf l) {segs : List Segment}
    (hsegs : patch (oldBuf.drop k) segs = newBuf.drop k) :
    patch (oldBuf.drop i) ({ zrun := j - i, data := (newBuf.drop j).take (k - j) } :: segs) =
      newBuf.drop i := by
  have hspan : Segment.span { zrun := j - i, data := (newBuf.drop j).take (k - j) } = k - i := by
    simp only [Segment.span, length_take, length_drop]
    omega
  have hrest : newBuf.drop k = (newBuf.drop j).drop (k - j) := by
    rw [drop_drop]
    congr 1
    omega
  have htake : (oldBuf.drop i).take (j - i) = (newBuf.drop i).take (j - i) :=
    drop_take_eq_of_same fun l hl hl' => hsame l hl (by omega)
  rw [patch, hspan, drop_drop, show i + (k - i) = k by omega, hsegs, hrest, take_append_drop, htake]
  conv_rhs => rw [← take_append_drop (j - i) (newBuf.drop i), drop_drop,
    show i + (j - i) = j by omega]

/-- What the encoder leaves from the positions `d` and `i` on. -/
def Encodes (oldBuf newBuf dst : List UInt8) (d i : ℕ) (ret : ℤ) (dst' : List UInt8) : Prop :=
  ret = -1 ∨ (ret = 0 ∧ oldBuf = newBuf) ∨ ∃ segs, ret = ((d + (encoding segs).length : ℕ) : ℤ) ∧
    d + (encoding segs).length ≤ dst.length ∧
    dst'.take (d + (encoding segs).length) = dst.take d ++ encoding segs ∧
    patch (oldBuf.drop i) segs = newBuf.drop i ∧ WellFormed (decide (i = 0)) segs ∧
    span segs ≤ oldBuf.length - i

/-- A segment in front of what the encoder leaves later. -/
lemma Encodes.cons {dst out dst' : List UInt8} {d i j k : ℕ} {ret : ℤ} {s : Segment}
    (h : Encodes oldBuf newBuf out (d + s.bytes.length) k ret dst')
    (hs : s = { zrun := j - i, data := (newBuf.drop j).take (k - j) })
    (hij : i ≤ j) (hjk : j < k) (hk : k ≤ newBuf.length) (hlen : newBuf.length ≤ 0x3fff)
    (hold : oldBuf.length = newBuf.length)
    (hsame : ∀ l, i ≤ l → l < j → Same oldBuf newBuf l) (hhead : i ≠ 0 → i < j)
    (hout : out.length = dst.length)
    (htake : out.take (d + s.bytes.length) = dst.take d ++ s.bytes) :
    Encodes oldBuf newBuf dst d i ret dst' := by
  have hzrun : s.zrun = j - i := by rw [hs]
  have hdata : s.data.length = k - j := by
    rw [hs, length_take, length_drop]
    omega
  rcases h with hret | hret | ⟨segs, hret, hfit, hbytes, hpatch, hwf, hspan⟩
  · exact .inl hret
  · exact .inr (.inl hret)
  · have henc : (encoding (s :: segs)).length = s.bytes.length + (encoding segs).length := by
      rw [encoding, flatMap_cons, length_append, encoding]
    have hwf' : WellFormed false segs := by
      rwa [decide_eq_false (by omega)] at hwf
    refine .inr (.inr ⟨s :: segs, ?_, ?_, ?_, ?_, ⟨?_, ?_, ?_, ?_, hwf'⟩, ?_⟩)
    · rw [hret, henc, add_assoc]
    · rw [henc, ← hout, ← add_assoc]
      exact hfit
    · rw [henc, ← add_assoc, hbytes, htake, append_assoc]
      rfl
    · rw [hs]
      exact patch_cons hij hjk.le hk hsame hpatch
    · rw [hzrun, decide_eq_true_iff]
      omega
    · omega
    · omega
    · omega
    · simp only [span, map_cons, sum_cons, Segment.span] at hspan ⊢
      omega

/-- No segments are needed if the rest did not change. -/
lemma encodes_of_same {dst : List UInt8} {d i : ℕ} (hlen : oldBuf.length = newBuf.length)
    (hd : d ≤ dst.length) (hsame : ∀ k, i ≤ k → k < newBuf.length → Same oldBuf newBuf k) :
    Encodes oldBuf newBuf dst d i d dst := by
  have hrest : oldBuf.drop i = newBuf.drop i := by
    have htake := drop_take_eq_of_same (n := newBuf.length - i) fun k hk hk' =>
      hsame k hk (by omega)
    rwa [take_of_length_le (by rw [length_drop]; omega),
      take_of_length_le (by rw [length_drop])] at htake
  exact .inr (.inr ⟨[], by simp [encoding], by simpa [encoding], by simp [encoding], hrest, trivial,
    Nat.zero_le _⟩)

/-- The two lengths and the data, written one after the other, are a segment. -/
lemma take_segment {dst out₁ out₂ : List UInt8} {d j k zrun : ℕ} (hk : k ≤ newBuf.length)
    (htake₁ : out₁.take (d + (ulebBytes zrun).length) = dst.take d ++ ulebBytes zrun)
    (htake₂ : out₂.take (d + (ulebBytes zrun).length + (ulebBytes (k - j)).length) =
      out₁.take (d + (ulebBytes zrun).length) ++ ulebBytes (k - j))
    (hfit : d + (ulebBytes zrun).length + (ulebBytes (k - j)).length + (k - j) ≤ out₂.length) :
    let d₂ := d + (ulebBytes zrun).length + (ulebBytes (k - j)).length
    let s : Segment := { zrun := zrun, data := (newBuf.drop j).take (k - j) }
    d + s.bytes.length = d₂ + (k - j) ∧
      (out₂.take d₂ ++ (newBuf.drop j).take (k - j) ++ out₂.drop (d₂ + (k - j))).take
        (d + s.bytes.length) = dst.take d ++ s.bytes := by
  intro d₂ s
  have hdata : ((newBuf.drop j).take (k - j)).length = k - j := by
    rw [length_take, length_drop]
    omega
  have hbytes : s.bytes = ulebBytes zrun ++
      (ulebBytes (k - j) ++ (newBuf.drop j).take (k - j)) := by
    rw [Segment.bytes, hdata]
  have hlen : d + s.bytes.length = d₂ + (k - j) := by
    rw [hbytes, length_append, length_append, hdata]
    omega
  refine ⟨hlen, ?_⟩
  rw [hlen, hbytes, ← append_assoc, ← htake₁, ← append_assoc, ← htake₂]
  refine take_left' ?_
  rw [length_append, length_take, hdata]
  omega

/-- A round in which there is something to write: the room runs out, or a segment is written. -/
lemma encodeLoop_round (fuel : ℕ) {d i j : ℕ} {dst : List UInt8} (hold : oldBuf.length = slen)
    (hnew : newBuf.length = slen) (hslen : slen ≤ 0x3fff) (hlt : i < slen)
    (hroom : d + 2 ≤ dst.length) (hzero : zeroRun host oldBuf newBuf slen i 0 = some (j, j - i))
    (hall : j - i ≠ slen) (hj : j < slen) (hdiffer : ¬ Same oldBuf newBuf j) :
    (∃ out, encodeLoop host oldBuf newBuf slen (fuel + 1) d i dst = some (-1, out) ∧
      out.length = dst.length) ∨
    ∃ k out, ∃ s : Segment, s = { zrun := j - i, data := (newBuf.drop j).take (k - j) } ∧
      encodeLoop host oldBuf newBuf slen (fuel + 1) d i dst =
        encodeLoop host oldBuf newBuf slen fuel (d + s.bytes.length) k out ∧
      IsRun (fun l => ¬ Same oldBuf newBuf l) slen j k ∧ j < k ∧ out.length = dst.length ∧
      d + s.bytes.length ≤ out.length ∧ out.take (d + s.bytes.length) = dst.take d ++ s.bytes := by
  obtain ⟨out₁, henc₁, hlen₁, htake₁⟩ := uleb128EncodeSmall_spec (n := j - i) (by omega) hroom
  rw [encodeLoop, if_pos hlt, if_neg (by omega), hzero]
  simp only [bind_eq_bind, bind_some]
  rw [if_neg hall, if_neg hj.ne, henc₁]
  simp only [bind_some]
  by_cases hroom₁ : d + (ulebBytes (j - i)).length + 2 > out₁.length
  · rw [if_pos hroom₁]
    exact .inl ⟨out₁, rfl, hlen₁⟩
  obtain ⟨k, hnz, hnzrun⟩ := nzRun_spec host hold hnew hj.le
  have hjk : j ≠ k := by
    rintro rfl
    exact hnzrun.stops hj hdiffer
  have hle := hnzrun.le
  have hks := hnzrun.le_slen
  obtain ⟨out₂, henc₂, hlen₂, htake₂⟩ := uleb128EncodeSmall_spec (n := k - j) (by omega)
    (show d + (ulebBytes (j - i)).length + 2 ≤ out₁.length by omega)
  rw [if_neg hroom₁, hnz]
  simp only [bind_some]
  rw [henc₂]
  simp only [bind_some]
  by_cases hfit :
      d + (ulebBytes (j - i)).length + (ulebBytes (k - j)).length + (k - j) > out₂.length
  · rw [if_pos hfit]
    exact .inl ⟨out₂, rfl, hlen₂.trans hlen₁⟩
  obtain ⟨hcopy, hlen₃⟩ := memcpy_spec out₂ newBuf (i := j) (n := k - j) (not_lt.mp hfit) (by omega)
  obtain ⟨hd, htake⟩ := take_segment (show k ≤ newBuf.length by omega) htake₁ htake₂
    (not_lt.mp hfit)
  rw [if_neg hfit, hcopy]
  simp only [bind_some]
  refine .inr ⟨k, _, _, rfl, by rw [hd], hnzrun, by omega,
    hlen₃.trans (hlen₂.trans hlen₁), ?_, htake⟩
  omega

/-- The loop of the encoder: each round passes at least one byte that changed. -/
lemma encodeLoop_spec (hold : oldBuf.length = slen) (hnew : newBuf.length = slen)
    (hslen : slen ≤ 0x3fff) (fuel : ℕ) :
    ∀ (d i : ℕ) (dst : List UInt8), slen - i < fuel → i ≤ slen → d ≤ dst.length →
      (i ≠ 0 → i < slen → Same oldBuf newBuf i) →
      ∃ ret dst', encodeLoop host oldBuf newBuf slen fuel d i dst = some (ret, dst') ∧
        dst'.length = dst.length ∧ Encodes oldBuf newBuf dst d i ret dst' := by
  induction fuel with
  | zero => exact fun d i _ hfuel => absurd hfuel (by omega)
  | succ fuel ih =>
    intro d i dst hfuel hi hd hhead
    by_cases hlt : i < slen
    swap
    · rw [encodeLoop, if_neg hlt]
      exact ⟨d, dst, rfl, rfl, encodes_of_same (by omega) hd fun k hk hk' => by omega⟩
    by_cases hroom : d + 2 > dst.length
    · rw [encodeLoop, if_pos hlt, if_pos hroom]
      exact ⟨-1, dst, rfl, rfl, .inl rfl⟩
    obtain ⟨j, hzero, hzrun⟩ := zeroRun_spec host hold hnew hi
    have hij := hzrun.le
    have hjs := hzrun.le_slen
    by_cases hall : j - i = slen
    · rw [encodeLoop, if_pos hlt, if_neg hroom, hzero]
      simp only [bind_eq_bind, bind_some, if_pos hall]
      have hsame := drop_take_eq_of_same (i := 0) (n := slen) fun k hk hk' =>
        hzrun.inside k (by omega) (by omega)
      refine ⟨0, dst, rfl, rfl, .inr (.inl ⟨rfl, ?_⟩)⟩
      rwa [drop_zero, drop_zero, take_of_length_le (by omega),
        take_of_length_le (by omega)] at hsame
    by_cases hend : j = slen
    · rw [encodeLoop, if_pos hlt, if_neg hroom, hzero]
      simp only [bind_eq_bind, bind_some, if_neg hall, if_pos hend]
      exact ⟨d, dst, rfl, rfl, encodes_of_same (by omega) hd fun k hk hk' =>
        hzrun.inside k hk (by omega)⟩
    have hdiffer : ¬ Same oldBuf newBuf j := hzrun.stops (by omega)
    rcases encodeLoop_round fuel hold hnew hslen hlt (show d + 2 ≤ dst.length by omega) hzero hall
      (show j < slen by omega) hdiffer with
      ⟨out, hloop, hlen⟩ | ⟨k, out, s, hs, hloop, hnzrun, hjk, hlen, hfit, htake⟩
    · exact ⟨-1, out, hloop, hlen, .inl rfl⟩
    have hks := hnzrun.le_slen
    obtain ⟨ret, dst', hrest, hlen', hout⟩ := ih (d + s.bytes.length) k out (by omega) hks hfit
      fun _ hk => not_not.mp (hnzrun.stops hk)
    refine ⟨ret, dst', hloop.trans hrest, hlen'.trans hlen, ?_⟩
    refine hout.cons hs hij hjk (by omega) (by omega) (by omega) hzrun.inside
      (fun hne => ?_) hlen htake
    rcases Nat.eq_or_lt_of_le hij with rfl | hlt'
    · exact absurd (hhead hne hlt) hdiffer
    · exact hlt'

lemma xbzrleEncodeBuffer_spec (host : Host) (dst : List UInt8)
    (hlen : oldBuf.length = newBuf.length) (hmod : oldBuf.length % host.sizeofLong = 0)
    (hmax : oldBuf.length ≤ 0x3fff) :
    ∃ ret dst', xbzrleEncodeBuffer host oldBuf newBuf dst = some (ret, dst') ∧
      dst'.length = dst.length ∧ Encodes oldBuf newBuf dst 0 0 ret dst' := by
  rw [xbzrleEncodeBuffer, if_pos hmod]
  exact encodeLoop_spec rfl hlen.symm hmax _ 0 0 dst (by omega) (by omega) (by omega)
    fun h => absurd rfl h

lemma xbzrleEncodeBuffer_first (host : Host) (dst : List UInt8)
    (hlen : oldBuf.length = newBuf.length) (hmod : oldBuf.length % host.sizeofLong = 0)
    (hne : oldBuf ≠ []) :
    (dst.length < 2 → xbzrleEncodeBuffer host oldBuf newBuf dst = some (-1, dst)) ∧
      (2 ≤ dst.length → oldBuf = newBuf →
        xbzrleEncodeBuffer host oldBuf newBuf dst = some (0, dst)) := by
  have hpos : 0 < oldBuf.length := length_pos_of_ne_nil hne
  rw [xbzrleEncodeBuffer, if_pos hmod, encodeLoop, if_pos hpos]
  refine ⟨fun hsmall => if_pos (by omega), fun hroom heq => ?_⟩
  obtain ⟨j, hzero, hzrun⟩ := zeroRun_spec host rfl hlen.symm (Nat.zero_le oldBuf.length)
  have hj : j = oldBuf.length := by
    by_contra hj
    have := hzrun.le_slen
    exact hzrun.stops (by omega) (by rw [Same, heq])
  rw [if_neg (by omega), hzero]
  simp only [bind_eq_bind, bind_some]
  rw [if_pos (by omega)]

end Encoder

/-! ## The codec -/

/-- The encoder stays in its buffers, what it returns decodes to the new buffer, and it returns 0 if
nothing changed and it had room to begin; the decoder stays in its buffers on every input. -/
theorem xbzrle_codec (host : Host) :
    (∀ oldBuf newBuf dst : List UInt8, oldBuf.length = newBuf.length →
      oldBuf.length % host.sizeofLong = 0 → oldBuf.length ≤ 0x3fff → dst.length < 2 ^ 31 →
      ∃ ret dst', xbzrleEncodeBuffer host oldBuf newBuf dst = some (ret, dst') ∧
        dst'.length = dst.length ∧ ret ≤ dst.length ∧
        (0 < ret → ∃ ret', xbzrleDecodeBuffer (dst'.take ret.toNat) oldBuf = some (ret', newBuf)) ∧
        (ret = 0 ↔ oldBuf = newBuf ∧ (oldBuf = [] ∨ 2 ≤ dst.length))) ∧
    ∀ src dst : List UInt8, src.length < 2 ^ 31 → dst.length < 2 ^ 31 →
      ∃ ret dst', xbzrleDecodeBuffer src dst = some (ret, dst') ∧ dst'.length = dst.length ∧
        (ret = -1 ∨ 0 ≤ ret ∧ ret ≤ dst.length) := by
  refine ⟨fun oldBuf newBuf dst hlen hmod hmax hdst => ?_, fun src dst => xbzrleDecodeBuffer_safe⟩
  obtain ⟨ret, dst', henc, hlen', hout⟩ := xbzrleEncodeBuffer_spec host dst hlen hmod hmax
  have hret : ret ≤ dst.length := by
    rcases hout with rfl | ⟨rfl, -⟩ | ⟨segs, rfl, hfit, -⟩ <;> omega
  refine ⟨ret, dst', henc, hlen', hret, fun hpos => ?_, fun hzero => ?_, ?_⟩
  · rcases hout with rfl | ⟨rfl, -⟩ | ⟨segs, rfl, hfit, hbytes, hpatch, hwf, hspan⟩
    · omega
    · omega
    · have hsrc : dst'.take ((0 + (encoding segs).length : ℕ) : ℤ).toNat = encoding segs := by
        rw [Int.toNat_natCast, hbytes, take_zero, nil_append]
      rw [hsrc, xbzrleDecodeBuffer]
      have hdec := decodeLoop_segments (encoding segs) (by omega) segs
        ((encoding segs).length + 1) [] [] oldBuf rfl (by simp) (by simp; omega) hwf (by omega)
      exact ⟨_, hpatch ▸ hdec⟩
  · have hsame : oldBuf = newBuf := by
      rcases hout with rfl | ⟨-, heq⟩ | ⟨segs, rfl, -, -, hpatch, hwf, -⟩
      · omega
      · exact heq
      · have hnil := eq_nil_of_encoding_length (show (encoding segs).length = 0 by omega)
        rw [hnil] at hpatch
        simpa [patch] using hpatch
    refine ⟨hsame, ?_⟩
    by_contra hnot
    rw [not_or] at hnot
    have := (xbzrleEncodeBuffer_first host dst hlen hmod hnot.1).1 (by omega)
    rw [henc] at this
    simp [hzero] at this
  · rintro ⟨rfl, hroom⟩
    by_cases hne : oldBuf = []
    · subst hne
      have hempty : xbzrleEncodeBuffer host [] [] dst = some (0, dst) := by
        simp [xbzrleEncodeBuffer, encodeLoop]
      rw [henc] at hempty
      simpa using (congrArg (Option.map Prod.fst) hempty)
    · have hfirst := (xbzrleEncodeBuffer_first host dst hlen hmod hne).2
        (hroom.resolve_left hne) rfl
      rw [henc] at hfirst
      simpa using (congrArg (Option.map Prod.fst) hfirst)

/-- A host with 64-bit words. -/
def littleEndian64 : Host := { sizeofLong := 8, bigEndian := false, sizeofLong_eq := .inr rfl }

/-- Eight bytes of which the fourth changed, with the encoding 3, 1, 7. -/
theorem oneByte_decodes :
    ∃ ret dst', xbzrleEncodeBuffer littleEndian64 [0, 1, 2, 3, 4, 5, 6, 7] [0, 1, 2, 7, 4, 5, 6, 7]
      [0, 0, 0, 0] = some (ret, dst') ∧
      (0 < ret → ∃ ret', xbzrleDecodeBuffer (dst'.take ret.toNat) [0, 1, 2, 3, 4, 5, 6, 7] =
        some (ret', [0, 1, 2, 7, 4, 5, 6, 7])) := by
  obtain ⟨ret, dst', henc, -, -, hdec, -⟩ :=
    (xbzrle_codec littleEndian64).1 [0, 1, 2, 3, 4, 5, 6, 7]
    [0, 1, 2, 7, 4, 5, 6, 7] [0, 0, 0, 0] rfl rfl (by decide) (by decide)
  exact ⟨ret, dst', henc, hdec⟩

/-- With an output buffer of less than two bytes the encoder fails even if nothing changed. -/
theorem unchanged_without_room :
    ¬ ∀ (host : Host) (oldBuf newBuf dst : List UInt8), oldBuf.length = newBuf.length →
      oldBuf.length % host.sizeofLong = 0 → oldBuf.length ≤ 0x3fff → dst.length < 2 ^ 31 →
      ∃ ret dst', xbzrleEncodeBuffer host oldBuf newBuf dst = some (ret, dst') ∧
        (ret = 0 ↔ oldBuf = newBuf) := by
  intro h
  obtain ⟨ret, dst', henc, hzero⟩ :=
    h littleEndian64 [0, 0, 0, 0, 0, 0, 0, 0] [0, 0, 0, 0, 0, 0, 0, 0] [0]
    rfl rfl (by decide) (by decide)
  have hfail : xbzrleEncodeBuffer littleEndian64 [0, 0, 0, 0, 0, 0, 0, 0] [0, 0, 0, 0,
      0, 0, 0, 0] [0] =
      some (-1, [0]) := by decide +kernel
  rw [hfail, hzero.mpr rfl] at henc
  cases henc

end Qemu.Xbzrle
