import CBuild.Text.Utf8
import Mathlib.Data.List.Basic

/-! Bytes that are no text, read as one. A line feed ends a character in progress as the end of the bytes does, so what
stands on one side of it is read as if the other side were not there. No character of several bytes is part of a line
end. Bytes that are a text are read as it. -/

namespace CBuild.Utf8

variable {p : Option Progress} {q : Progress} {x : UInt8}

theorem ofNat_ne_return {n : Nat} (h : n ≠ 13) : Char.ofNat n ≠ '\r' := by
  intro hn
  have hcode : (Char.ofNat n).toNat = 13 := congrArg Char.toNat hn
  by_cases hvalid : n.isValidChar
  · have hsame : Char.ofNat n = Char.ofNatAux n hvalid := dif_pos hvalid
    rw [hsame] at hcode
    exact h hcode
  · have hzero : Char.ofNat n = Char.ofNat 0 := dif_neg hvalid
    rw [hzero] at hcode
    cases hcode

/-- A character in progress takes no byte below 0x80, and the one it becomes is not one that such a byte spells. -/
structure Progress.Sound (q : Progress) : Prop where
  high : 0x80 ≤ q.least
  wide : 0 < q.bits ∨ 1 < q.owed ∧ 0x80 < q.least ∧ q.greatest ≤ 0xBF

def Sound (p : Option Progress) : Prop :=
  ∀ q ∈ p, q.Sound

theorem sound_none : Sound none := nofun

theorem sound_some : Sound (some q) ↔ q.Sound := by
  simp [Sound]

theorem sound_wide {owed bits : Nat} {greatest : UInt8} (h : 0 < bits) :
    Sound (some ⟨owed, 0x80, greatest, bits⟩) :=
  sound_some.2 ⟨UInt8.le_refl 0x80, .inl h⟩

theorem sound_start (x : UInt8) : Sound (start x).2 := by
  -- the first bytes without a bit of their own, 0xE0 and 0xF0, restrict the next one
  fun_cases start x
  case case1 => exact sound_none
  case case2 h =>
    simp only [Bool.and_eq_true, decide_eq_true_eq, UInt8.le_iff_toNat_le, UInt8.reduceToNat] at h
    exact sound_wide (by omega)
  case case3 => exact sound_some.2 ⟨by decide, .inr (by decide)⟩
  case case4 => exact sound_wide (by decide)
  case case5 h =>
    simp only [Bool.and_eq_true, decide_eq_true_eq, UInt8.le_iff_toNat_le, UInt8.reduceToNat] at h
    exact sound_wide (by omega)
  case case6 => exact sound_some.2 ⟨by decide, .inr (by decide)⟩
  case case7 h =>
    simp only [Bool.and_eq_true, decide_eq_true_eq, UInt8.le_iff_toNat_le, UInt8.reduceToNat] at h
    exact sound_wide (by omega)
  case case8 => exact sound_wide (by decide)
  case case9 => exact sound_none

theorem bits_pos (hq : q.Sound) (hx : q.least ≤ x) (hx' : x ≤ q.greatest) : 0 < q.bits * 64 + x.toNat % 64 := by
  rcases hq.wide with h | ⟨-, hleast, hgreatest⟩
  · omega
  · rw [UInt8.le_iff_toNat_le] at hx hx' hgreatest
    rw [UInt8.lt_iff_toNat_lt] at hleast
    simp only [UInt8.reduceToNat] at hleast hgreatest
    omega

theorem sound_feed (hp : Sound p) (x : UInt8) : Sound (feed x p).2 := by
  fun_cases feed x p
  case case1 => exact sound_start x
  case case2 => exact sound_none
  case case3 q h bits _ =>
    rw [Bool.and_eq_true, decide_eq_true_eq, decide_eq_true_eq] at h
    exact sound_wide (bits_pos (sound_some.1 hp) h.1 h.2)
  case case4 out next h =>
    have hx := sound_start x
    rwa [h] at hx

/-- The bytes read so far leave a sound character in progress or none, and what they spell stands whatever follows. -/
theorem exists_decodeFrom_append (hp : Sound p) (a : Bytes) :
    ∃ out q, Sound q ∧ ∀ b, decodeFrom p (a ++ b) = out ++ decodeFrom q b := by
  induction a generalizing p with
  | nil => exact ⟨[], p, hp, fun b => rfl⟩
  | cons x a ih =>
    obtain ⟨out, q, hq, hout⟩ := ih (sound_feed hp x)
    refine ⟨(feed x p).1 ++ out, q, hq, fun b => ?_⟩
    rw [List.cons_append, decodeFrom, hout, List.append_assoc]

theorem feed_lineFeed (hp : Sound p) : feed 0x0A p = (decodeFrom p [] ++ ['\n'], none) := by
  cases p with
  | none => rfl
  | some q =>
    have hlow : ¬(q.least ≤ 0x0A) := by
      have hhigh := (sound_some.1 hp).high
      simp only [UInt8.le_iff_toNat_le, UInt8.reduceToNat] at hhigh ⊢
      omega
    rw [feed, if_neg (by simp [hlow])]
    rfl

theorem decodeFrom_lineFeed (hp : Sound p) (a b : Bytes) :
    decodeFrom p (a ++ 0x0A :: b) = decodeFrom p a ++ '\n' :: decodeLossy b := by
  obtain ⟨out, q, hq, hout⟩ := exists_decodeFrom_append hp a
  have ha := hout []
  rw [List.append_nil] at ha
  rw [hout, ha, decodeFrom, feed_lineFeed hq, decodeLossy, List.append_assoc, List.append_assoc, List.singleton_append]

theorem decodeLossy_lineFeed (a b : Bytes) :
    decodeLossy (a ++ 0x0A :: b) = decodeLossy a ++ '\n' :: decodeLossy b :=
  decodeFrom_lineFeed sound_none a b

def Ends (s : List Char) : Prop :=
  ∃ out c, s = out ++ [c] ∧ c ≠ '\r'

theorem ends_concat {c : Char} (out : List Char) (hc : c ≠ '\r') : Ends (out ++ [c]) :=
  ⟨out, c, rfl, hc⟩

theorem Ends.behind {s : List Char} (h : Ends s) (out : List Char) : Ends (out ++ s) := by
  obtain ⟨front, c, rfl, hc⟩ := h
  rw [← List.append_assoc]
  exact ends_concat _ hc

theorem ends_start (hx : x ≠ 0x0D) (h : (start x).2 = none) : Ends (start x).1 := by
  fun_cases start x
  case case1 =>
    refine ends_concat [] (ofNat_ne_return fun hn => hx ?_)
    exact UInt8.toNat_inj.1 hn
  case case9 => exact ends_concat [] (by decide)
  all_goals simp_all [start]

theorem ends_feed (hp : Sound p) (hx : x ≠ 0x0D) (h : (feed x p).2 = none) : Ends (feed x p).1 := by
  fun_cases feed x p
  case case1 => exact ends_start hx h
  case case2 q _ bits howed =>
    have hbits : 0 < q.bits := (sound_some.1 hp).wide.resolve_right fun hwide => absurd hwide.1 (by omega)
    exact ends_concat [] (ofNat_ne_return (by omega))
  case case3 q hrange bits howed =>
    simp [feed, hrange, howed] at h
  case case4 q hrange out next hstart =>
    have hnext : (start x).2 = none := by simpa [feed, hrange] using h
    have hout := (ends_start hx hnext).behind [replacement]
    rwa [hstart] at hout

theorem ends_decodeFrom (hp : Sound p) (hx : x ≠ 0x0D) : Ends (decodeFrom p [x]) := by
  rw [decodeFrom]
  cases hnext : (feed x p).2 with
  | none =>
    rw [decodeFrom, List.append_nil]
    exact ends_feed hp hx hnext
  | some q => exact ends_concat _ (by decide)

theorem getLast?_decodeLossy {a : Bytes} (ha : a.getLast? ≠ some 0x0D) : (decodeLossy a).getLast? ≠ some '\r' := by
  rcases List.eq_nil_or_concat a with rfl | ⟨a, x, rfl⟩
  · simp [decodeLossy, decodeFrom]
  · rw [List.concat_eq_append] at ha ⊢
    have hx : x ≠ 0x0D := by simpa using ha
    obtain ⟨out, q, hq, hout⟩ := exists_decodeFrom_append sound_none a
    obtain ⟨front, c, hc, hne⟩ := (ends_decodeFrom hq hx).behind out
    rw [decodeLossy, hout, hc, List.getLast?_concat]
    simpa using hne

theorem encode_ofList (s : List Char) : encode (String.ofList s) = s.flatMap String.utf8EncodeChar := by
  rw [encode, String.toUTF8, String.toByteArray_ofList, List.utf8Encode]
  simp

theorem toNat_ofNat {n : Nat} (hn : n < 256) : (UInt8.ofNat n).toNat = n :=
  Nat.mod_eq_of_lt hn

section Decoding

variable {bits n v : Nat} {least greatest : UInt8} {rest : Bytes}

theorem takes_ofNat (hn : n < 256) (hleast : least.toNat ≤ n) (hgreatest : n ≤ greatest.toNat) :
    (decide (least ≤ UInt8.ofNat n) && decide (UInt8.ofNat n ≤ greatest)) = true := by
  simp only [UInt8.le_iff_toNat_le, toNat_ofNat hn, Bool.and_eq_true, decide_eq_true_eq]
  exact ⟨hleast, hgreatest⟩

theorem decodeFrom_more {owed : Nat} (hn : n < 256) (hleast : least.toNat ≤ n) (hgreatest : n ≤ greatest.toNat) :
    decodeFrom (some ⟨owed + 2, least, greatest, bits⟩) (UInt8.ofNat n :: rest) =
      decodeFrom (some ⟨owed + 1, 0x80, 0xBF, bits * 64 + n % 64⟩) rest := by
  rw [decodeFrom, feed, if_pos (takes_ofNat hn hleast hgreatest), toNat_ofNat hn, if_neg (by simp)]
  rfl

theorem decodeFrom_last (hn : n < 256) (hleast : least.toNat ≤ n) (hgreatest : n ≤ greatest.toNat) :
    decodeFrom (some ⟨1, least, greatest, bits⟩) (UInt8.ofNat n :: rest) =
      Char.ofNat (bits * 64 + n % 64) :: decodeFrom none rest := by
  rw [decodeFrom, feed, if_pos (takes_ofNat hn hleast hgreatest), toNat_ofNat hn, if_pos (by simp)]
  rfl

theorem start_ofNat (hn : n < 256) : start (UInt8.ofNat n) =
    if n < 0x80 then ([Char.ofNat n], none)
    else if 0xC2 ≤ n ∧ n ≤ 0xDF then ([], some ⟨1, 0x80, 0xBF, n % 32⟩)
    else if n = 0xE0 then ([], some ⟨2, 0xA0, 0xBF, 0⟩)
    else if n = 0xED then ([], some ⟨2, 0x80, 0x9F, 13⟩)
    else if 0xE1 ≤ n ∧ n ≤ 0xEF then ([], some ⟨2, 0x80, 0xBF, n % 16⟩)
    else if n = 0xF0 then ([], some ⟨3, 0x90, 0xBF, 0⟩)
    else if 0xF1 ≤ n ∧ n ≤ 0xF3 then ([], some ⟨3, 0x80, 0xBF, n % 8⟩)
    else if n = 0xF4 then ([], some ⟨3, 0x80, 0x8F, 4⟩)
    else ([replacement], none) := by
  simp only [start, UInt8.le_iff_toNat_le, UInt8.lt_iff_toNat_lt, beq_iff_eq, ← UInt8.toNat_inj, toNat_ofNat hn,
    UInt8.reduceToNat, Bool.and_eq_true, decide_eq_true_eq]

theorem start_three (hleast : 0x800 ≤ v) (hgreatest : v ≤ 0xFFFF) (hvalid : v < 0xD800 ∨ 0xDFFF < v) :
    ∃ least greatest : UInt8, start (UInt8.ofNat (v / 4096 % 16 + 224)) = ([], some ⟨2, least, greatest, v / 4096⟩) ∧
      least.toNat ≤ v / 64 % 64 + 128 ∧ v / 64 % 64 + 128 ≤ greatest.toNat := by
  rw [start_ofNat (by omega), if_neg (by omega), if_neg (by omega)]
  split
  next h => exact ⟨0xA0, 0xBF, by rw [show v / 4096 = 0 by omega], by simp; omega, by simp; omega⟩
  next h =>
    split
    next h' => exact ⟨0x80, 0x9F, by rw [show v / 4096 = 13 by omega], by simp, by simp; omega⟩
    next h' =>
      rw [if_pos (by omega), show (v / 4096 % 16 + 224) % 16 = v / 4096 by omega]
      exact ⟨0x80, 0xBF, rfl, by simp, by simp; omega⟩

theorem start_four (hleast : 0x10000 ≤ v) (hgreatest : v < 0x110000) :
    ∃ least greatest : UInt8, start (UInt8.ofNat (v / 262144 % 8 + 240)) = ([], some ⟨3, least, greatest, v / 262144⟩) ∧
      least.toNat ≤ v / 4096 % 64 + 128 ∧ v / 4096 % 64 + 128 ≤ greatest.toNat := by
  rw [start_ofNat (by omega), if_neg (by omega), if_neg (by omega), if_neg (by omega), if_neg (by omega), if_neg (by omega)]
  split
  next h => exact ⟨0x90, 0xBF, by rw [show v / 262144 = 0 by omega], by simp; omega, by simp; omega⟩
  next h =>
    split
    next h' =>
      rw [show (v / 262144 % 8 + 240) % 8 = v / 262144 by omega]
      exact ⟨0x80, 0xBF, rfl, by simp, by simp; omega⟩
    next h' =>
      rw [if_pos (by omega)]
      exact ⟨0x80, 0x8F, by rw [show v / 262144 = 4 by omega], by simp, by simp; omega⟩

end Decoding

theorem decodeFrom_encodeChar (c : Char) (rest : Bytes) :
    decodeFrom none (String.utf8EncodeChar c ++ rest) = c :: decodeFrom none rest := by
  have hc : Char.ofNat c.val.toNat = c := Char.ofNat_toNat c
  have hvalid : c.val.toNat < 0xD800 ∨ 0xDFFF < c.val.toNat ∧ c.val.toNat < 0x110000 := c.valid
  simp only [String.utf8EncodeChar]
  generalize c.val.toNat = v at hc hvalid
  split
  next h1 =>
    rw [List.singleton_append, decodeFrom, feed, start_ofNat (by omega), if_pos (by omega), hc]
    rfl
  next h1 =>
    split
    next h2 =>
      have hbits : (v / 64 % 32 + 192) % 32 * 64 + (v % 64 + 128) % 64 = v := by omega
      rw [List.cons_append, List.singleton_append, decodeFrom, feed, start_ofNat (by omega), if_neg (by omega),
        if_pos (by omega), List.nil_append, decodeFrom_last (by omega) (by simp) (by simp; omega), hbits, hc]
    next h2 =>
      split
      next h3 =>
        obtain ⟨least, greatest, hstart, hleast, hgreatest⟩ := start_three (v := v) (by omega) h3 (by omega)
        have hbits : (v / 4096 * 64 + (v / 64 % 64 + 128) % 64) * 64 + (v % 64 + 128) % 64 = v := by omega
        rw [List.cons_append, List.cons_append, List.singleton_append, decodeFrom, feed, hstart, List.nil_append,
          decodeFrom_more (by omega) hleast hgreatest, decodeFrom_last (by omega) (by simp) (by simp; omega), hbits, hc]
      next h3 =>
        obtain ⟨least, greatest, hstart, hleast, hgreatest⟩ := start_four (v := v) (by omega) (by omega)
        have hbits : ((v / 262144 * 64 + (v / 4096 % 64 + 128) % 64) * 64 + (v / 64 % 64 + 128) % 64) * 64 +
            (v % 64 + 128) % 64 = v := by omega
        rw [List.cons_append, List.cons_append, List.cons_append, List.singleton_append, decodeFrom, feed, hstart,
          List.nil_append, decodeFrom_more (by omega) hleast hgreatest,
          decodeFrom_more (by omega) (by simp) (by simp; omega), decodeFrom_last (by omega) (by simp) (by simp; omega),
          hbits, hc]

theorem decodeLossy_encode (s : List Char) : decodeLossy (encode (String.ofList s)) = s := by
  rw [encode_ofList, decodeLossy]
  induction s with
  | nil => rfl
  | cons c s ih => rw [List.flatMap_cons, decodeFrom_encodeChar, ih]

end CBuild.Utf8
