import CBuild.Toml.Lexeme
import CBuild.Toml.Quoted
import Mathlib.Data.List.TakeWhile

/-! A quoted text reads back as the text, in each of the four forms, whatever stands behind it that is no
quotation mark. -/

namespace CBuild.Toml

theorem isPrintable_of_not_isControl {c : Char} (h : isControl c = false) (hn : c ≠ '\n') :
    isPrintable c = true := by
  by_cases ht : c = '\t'
  · simp [isPrintable, ht]
  · simp only [isControl, ht, hn, ne_eq, not_false_eq_true, decide_true, Bool.and_true,
      Bool.or_eq_false_iff, decide_eq_false_iff_not, UInt32.not_lt, beq_eq_false_iff_ne] at h
    simp [isPrintable, h]

theorem ne_return_of_not_isControl {c : Char} (h : isControl c = false) : c ≠ '\r' := by
  rintro rfl
  exact absurd h (by decide)

section Runs

variable (c : Char)

def runStep (p : Nat × Nat) (x : Char) : Nat × Nat :=
  if x = c then (p.1 + 1, max p.2 (p.1 + 1)) else (0, p.2)

theorem longestRun_eq (s : List Char) : longestRun c s = (s.foldl (runStep c) (0, 0)).2 := rfl

theorem foldl_runStep_mono (s : List Char) {p q : Nat × Nat} (h1 : p.1 ≤ q.1) (h2 : p.2 ≤ q.2) :
    (s.foldl (runStep c) p).2 ≤ (s.foldl (runStep c) q).2 := by
  induction s generalizing p q with
  | nil => exact h2
  | cons x s ih =>
    refine ih ?_ ?_ <;> simp only [runStep] <;> split <;> simp only <;> omega

theorem le_foldl_runStep (s : List Char) (p : Nat × Nat) (h : p.1 ≤ p.2) :
    p.1 + (s.takeWhile (· = c)).length ≤ (s.foldl (runStep c) p).2 ∧
      p.2 ≤ (s.foldl (runStep c) p).2 := by
  induction s generalizing p with
  | nil => simpa using h
  | cons x s ih =>
    by_cases hx : x = c
    · have := ih (runStep c p x) (by simp only [runStep, if_pos hx]; omega)
      simp only [runStep, if_pos hx] at this
      simp only [List.foldl_cons, runStep, List.takeWhile_cons, hx, decide_true,
        List.length_cons, if_true]
      omega
    · have := ih (runStep c p x) (by simp only [runStep, if_neg hx]; omega)
      simp only [runStep, if_neg hx] at this
      simp only [List.foldl_cons, runStep, List.takeWhile_cons, hx, decide_false,
        Bool.false_eq_true, if_false, List.length_nil]
      omega

theorem length_takeWhile_le_longestRun (s : List Char) :
    (s.takeWhile (· = c)).length ≤ longestRun c s := by
  simpa [longestRun_eq] using (le_foldl_runStep c s (0, 0) (Nat.le_refl 0)).1

theorem longestRun_tail_le (x : Char) (s : List Char) : longestRun c s ≤ longestRun c (x :: s) :=
  foldl_runStep_mono c s (Nat.zero_le _) (Nat.zero_le _)

theorem not_mem_of_longestRun_eq_zero {s : List Char} (h : longestRun c s = 0) : c ∉ s := by
  induction s with
  | nil => simp
  | cons x s ih =>
    have hx := length_takeWhile_le_longestRun c (x :: s)
    have hs := longestRun_tail_le c x s
    rw [h] at hx hs
    have hne : x ≠ c := by
      rintro rfl
      simp at hx
    simpa [hne.symm] using ih (Nat.le_zero.1 hs)

end Runs

section Escapes

theorem hexValue?_hexDigit : ∀ n < 16, hexValue? (hexDigit n) = some n := by decide

theorem codePoint?_digits (n : Nat) (h : n < 65536) (hv : n.isValidChar) :
    codePoint? [hexDigit (n / 4096 % 16), hexDigit (n / 256 % 16), hexDigit (n / 16 % 16),
      hexDigit (n % 16)] = some (Char.ofNatAux n hv) := by
  have hd (k : Nat) : hexValue? (hexDigit (k % 16)) = some (k % 16) :=
    hexValue?_hexDigit _ (Nat.mod_lt _ (by decide))
  have hn : 16 * (16 * (16 * (n / 4096 % 16) + n / 256 % 16) + n / 16 % 16) + n % 16 = n := by omega
  have hsum : [hexDigit (n / 4096 % 16), hexDigit (n / 256 % 16), hexDigit (n / 16 % 16),
      hexDigit (n % 16)].foldlM (fun n c => (hexValue? c).map (16 * n + ·)) 0 = some n := by
    simp [hd, hn]
  rw [codePoint?, hsum]
  exact dif_pos hv

theorem toNat_lt_of_isControl {c : Char} (h : isControl c = true) : c.toNat < 65536 := by
  simp only [isControl, Bool.or_eq_true, Bool.and_eq_true, decide_eq_true_eq, beq_iff_eq] at h
  rcases h with ⟨⟨h, _⟩, _⟩ | h
  · exact Nat.lt_trans (UInt32.lt_iff_toNat_lt.1 h) (by decide)
  · simp [Char.toNat, h]

theorem escape?_escapeCode {c : Char} (h : isControl c = true) :
    ∃ e, escapeCode c = '\\' :: 'u' :: e ∧ ∀ r, escape? ('u' :: (e ++ r)) = some (c, r) := by
  refine ⟨_, rfl, fun r => ?_⟩
  have hc : codePoint? _ = some c := codePoint?_digits c.toNat (toNat_lt_of_isControl h) c.valid
  simp [escape?, hc]

theorem escapeChar_cases (lines : Bool) (c : Char) :
    (escapeChar lines c = [c] ∧ c ≠ '\\' ∧ (c = '\n' ∧ lines = true ∨ isPrintable c = true)) ∨
      ∃ x e, escapeChar lines c = '\\' :: x :: e ∧ isSpace x = false ∧ x ≠ '\n' ∧ x ≠ '\r' ∧
        ∀ r, escape? (x :: (e ++ r)) = some (c, r) := by
  by_cases hb : c = '\x08'
  · exact .inr ⟨'b', [], by simp [escapeChar, hb], by decide, by decide, by decide, by simp [escape?, hb]⟩
  by_cases ht : c = '\t'
  · exact .inr ⟨'t', [], by simp [escapeChar, ht], by decide, by decide, by decide, by simp [escape?, ht]⟩
  by_cases hn : c = '\n'
  · cases lines with
    | true => exact .inl ⟨by simp [escapeChar, hn], by simp [hn], .inl ⟨hn, rfl⟩⟩
    | false =>
      exact .inr ⟨'n', [], by simp [escapeChar, hn], by decide, by decide, by decide,
        by simp [escape?, hn]⟩
  by_cases hf : c = '\x0C'
  · exact .inr ⟨'f', [], by simp [escapeChar, hf], by decide, by decide, by decide, by simp [escape?, hf]⟩
  by_cases hr : c = '\r'
  · exact .inr ⟨'r', [], by simp [escapeChar, hr], by decide, by decide, by decide, by simp [escape?, hr]⟩
  by_cases hs : c = '\\'
  · exact .inr ⟨'\\', [], by simp [escapeChar, hs], by decide, by decide, by decide,
      by simp [escape?, hs]⟩
  by_cases hc : isControl c = true
  · obtain ⟨e, he, hr'⟩ := escape?_escapeCode hc
    exact .inr ⟨'u', e, by simp [escapeChar, *], by decide, by decide, by decide, hr'⟩
  · have hp := isPrintable_of_not_isControl (Bool.not_eq_true _ ▸ hc) hn
    exact .inl ⟨by simp [escapeChar, *], hs, .inr hp⟩

theorem continuation?_eq_none {x : Char} (hs : isSpace x = false) (hn : x ≠ '\n') (hr : x ≠ '\r')
    (r : List Char) : continuation? (x :: r) = none := by
  simp [continuation?, hs, newline?, hn, hr]

end Escapes

section Steps

variable {r r' : List Char} {c x mark : Char}

theorem basicBody?_escape (h : escape? r = some (x, r')) :
    basicBody? ('\\' :: r) = (basicBody? r').map fun (t, rest) => (x :: t, rest) := by
  rw [basicBody?, if_neg (by decide), if_pos rfl]
  split
  · next h' => simp [h'] at h
  · next h' =>
    cases h'.symm.trans h
    rfl

theorem closing?_eq_none_of_ne (h : c ≠ mark) : closing? mark (c :: r) = none := by
  simp [closing?, h]

/-- A run of marks that is closed by three more belongs to the text as far as it has at most two. -/
theorem closing?_replicate (n : Nat) (hn : n ≤ 2) (h : r.head? ≠ some mark) :
    closing? mark (List.replicate (n + 3) mark ++ r) = some (List.replicate n mark, r) := by
  have hr : r.takeWhile (· = mark) = [] := by
    cases r with
    | nil => rfl
    | cons d r => simp_all
  have ht : ((List.replicate (n + 3) mark ++ r).takeWhile (· = mark)).length = n + 3 := by
    rw [List.takeWhile_append_of_pos (by simp), hr]
    simp
  rw [closing?]
  simp only [ht]
  rw [if_neg (by omega), show min (n + 3 - 3) 2 = n by omega,
    List.drop_append_of_le_length (by simp), List.drop_of_length_le (by simp), List.nil_append]

theorem basicLinesBody?_closing {s : List Char} {done : List Char × List Char}
    (h : closing? '"' s = some done) : basicLinesBody? s = some done := by
  rw [basicLinesBody?.eq_def, h]

theorem literalLinesBody?_closing {s : List Char} {done : List Char × List Char}
    (h : closing? '\'' s = some done) : literalLinesBody? s = some done := by
  rw [literalLinesBody?.eq_def, h]

theorem basicLinesBody?_continuation (h : continuation? r = some r') :
    basicLinesBody? ('\\' :: r) = basicLinesBody? r' := by
  rw [basicLinesBody?, closing?_eq_none_of_ne (by decide)]
  simp only [if_true]
  split
  · next h' => rw [Option.some.inj (h'.symm.trans h)]
  · next h' => simp [h'] at h

theorem basicLinesBody?_escape (hc : continuation? r = none) (h : escape? r = some (x, r')) :
    basicLinesBody? ('\\' :: r) = (basicLinesBody? r').map fun (t, rest) => (x :: t, rest) := by
  rw [basicLinesBody?, closing?_eq_none_of_ne (by decide)]
  simp only [if_true]
  split
  · next h' => simp [h'] at hc
  · split
    · next h' => simp [h'] at h
    · next h' =>
      cases h'.symm.trans h
      rfl

theorem basicLinesBody?_newline (h : newline? (c :: r) = some r') :
    basicLinesBody? (c :: r) = (basicLinesBody? r').map fun (t, rest) => ('\n' :: t, rest) := by
  have hc : c = '\n' ∨ c = '\r' := by
    unfold newline? at h
    split at h <;> simp_all
  have hm : c ≠ '"' ∧ c ≠ '\\' := by rcases hc with rfl | rfl <;> decide
  rw [basicLinesBody?, closing?_eq_none_of_ne hm.1]
  simp only [hm.2, if_false]
  split
  · next h' => rw [Option.some.inj (h'.symm.trans h)]
  · next h' => simp [h'] at h

theorem basicLinesBody?_char (hm : closing? '"' (c :: r) = none) (hb : c ≠ '\\')
    (hn : newline? (c :: r) = none) (hp : isPrintable c = true) :
    basicLinesBody? (c :: r) = (basicLinesBody? r).map fun (t, rest) => (c :: t, rest) := by
  rw [basicLinesBody?, hm]
  simp only [hb, if_false]
  split
  · next h' => simp [h'] at hn
  · rw [if_pos hp]

theorem literalLinesBody?_newline (h : newline? (c :: r) = some r') :
    literalLinesBody? (c :: r) = (literalLinesBody? r').map fun (t, rest) => ('\n' :: t, rest) := by
  have hc : c = '\n' ∨ c = '\r' := by
    unfold newline? at h
    split at h <;> simp_all
  have hm : c ≠ '\'' := by rcases hc with rfl | rfl <;> decide
  rw [literalLinesBody?, closing?_eq_none_of_ne hm]
  simp only
  split
  · next h' => rw [Option.some.inj (h'.symm.trans h)]
  · next h' => simp [h'] at h

theorem literalLinesBody?_char (hm : closing? '\'' (c :: r) = none)
    (hn : newline? (c :: r) = none) (hp : isPrintable c = true) :
    literalLinesBody? (c :: r) = (literalLinesBody? r).map fun (t, rest) => (c :: t, rest) := by
  rw [literalLinesBody?, hm]
  simp only
  split
  · next h' => simp [h'] at hn
  · rw [if_pos hp]

theorem newline?_eq_none (hn : c ≠ '\n') (hr : c ≠ '\r') : newline? (c :: r) = none := by
  simp [newline?, hn, hr]

theorem newline?_eq_none_of_isPrintable (h : isPrintable c = true) : newline? (c :: r) = none := by
  refine newline?_eq_none ?_ ?_ <;>
    (rintro rfl; exact absurd h (by decide))

end Steps

section Bodies

variable {rest : List Char}

theorem basicBody?_escaped (s : List Char) (run : Nat) :
    basicBody? (escaped false run s ++ '"' :: rest) = some (s, rest) := by
  induction s generalizing run with
  | nil => simp [escaped, basicBody?]
  | cons c s ih =>
    by_cases hq : c = '"'
    · subst hq
      rw [escaped, if_pos rfl, Bool.false_and, if_neg Bool.false_ne_true, List.cons_append,
        List.cons_append, basicBody?_escape rfl, ih]
      rfl
    · rw [escaped, if_neg hq, List.append_assoc]
      rcases escapeChar_cases false c with ⟨he, hb, hp⟩ | ⟨x, e, he, _, _, _, hx⟩
      · have hp : isPrintable c = true := by simpa using hp
        rw [he, List.singleton_append, basicBody?, if_neg hq, if_neg hb, if_pos hp, ih]
        rfl
      · rw [he, List.cons_append, List.cons_append, basicBody?_escape (hx _), ih]
        rfl

theorem literalBody?_append {s : List Char} (hq : '\'' ∉ s) (hp : ∀ c ∈ s, isPrintable c = true) :
    literalBody? (s ++ '\'' :: rest) = some (s, rest) := by
  induction s with
  | nil => simp [literalBody?]
  | cons c s ih =>
    rw [List.mem_cons, not_or] at hq
    rw [List.cons_append, literalBody?, if_neg (Ne.symm hq.1), if_pos (hp c List.mem_cons_self),
      ih hq.2 fun x hx => hp x (List.mem_cons_of_mem _ hx)]
    rfl

theorem basicLinesBody?_escapeChar {c : Char} (hq : c ≠ '"') {s t : List Char}
    (h : basicLinesBody? s = some (t, rest)) :
    basicLinesBody? (escapeChar true c ++ s) = some (c :: t, rest) := by
  rcases escapeChar_cases true c with ⟨he, hb, hp⟩ | ⟨x, e, he, hs, hn, hr, hx⟩
  · rw [he, List.singleton_append]
    by_cases hn : c = '\n'
    · subst hn
      rw [basicLinesBody?_newline (show newline? ('\n' :: s) = some s from rfl), h]
      rfl
    · have hp : isPrintable c = true := by simpa [hn] using hp
      rw [basicLinesBody?_char (closing?_eq_none_of_ne hq) hb (newline?_eq_none_of_isPrintable hp) hp,
        h]
      rfl
  · rw [he, List.cons_append, List.cons_append, basicLinesBody?_escape
      (continuation?_eq_none hs hn hr _) (hx s), h]
    rfl

theorem basicLinesBody?_marks {n : Nat} (hn : n ≤ 2) {s t : List Char} (hs : s.head? ≠ some '"')
    (h : basicLinesBody? s = some (t, rest)) :
    basicLinesBody? (List.replicate n '"' ++ s) = some (List.replicate n '"' ++ t, rest) := by
  induction n with
  | zero => exact h
  | succ n ih =>
    have hc : closing? '"' (List.replicate (n + 1) '"' ++ s) = none := by
      have ht : s.takeWhile (· = '"') = [] := by
        cases s with
        | nil => rfl
        | cons d s => simp_all
      rw [closing?, List.takeWhile_append_of_pos (by simp), ht]
      simp only [List.append_nil, List.length_replicate]
      rw [if_pos (by omega)]
    rw [List.replicate_succ, List.cons_append] at hc ⊢
    rw [basicLinesBody?_char hc (by decide) (newline?_eq_none (by decide) (by decide)) (by decide),
      ih (by omega)]
    rfl

theorem head?_escapeChar {c : Char} (hq : c ≠ '"') (s : List Char) :
    (escapeChar true c ++ s).head? ≠ some '"' := by
  rcases escapeChar_cases true c with ⟨he, _⟩ | ⟨x, e, he, _⟩
  · simpa [he] using hq
  · simp [he]

theorem basicLinesBody?_escaped (hr : rest.head? ≠ some '"') (s : List Char) :
    basicLinesBody? (escaped true 0 s ++ '"' :: '"' :: '"' :: rest) = some (s, rest) := by
  have close (n : Nat) (hn : n ≤ 2) :
      basicLinesBody? (List.replicate (n + 3) '"' ++ rest) = some (List.replicate n '"', rest) :=
    basicLinesBody?_closing (closing?_replicate n hn hr)
  have other {c : Char} {s : List Char} (hq : c ≠ '"') (n : Nat) (hn : n ≤ 2)
      (ih : basicLinesBody? (escaped true 0 s ++ '"' :: '"' :: '"' :: rest) = some (s, rest)) :
      basicLinesBody? (List.replicate n '"' ++ (escapeChar true c ++
        (escaped true 0 s ++ '"' :: '"' :: '"' :: rest))) =
          some (List.replicate n '"' ++ c :: s, rest) :=
    basicLinesBody?_marks hn (head?_escapeChar hq _) (basicLinesBody?_escapeChar hq ih)
  -- by the run of quotation marks that the text begins with, of which only two stand as they are
  match s with
  | [] => exact close 0 (by omega)
  | c :: s =>
    by_cases hc : c = '"'
    · subst hc
      match s with
      | [] => exact close 1 (by omega)
      | d :: s =>
        by_cases hd : d = '"'
        · subst hd
          match s with
          | [] => exact close 2 (by omega)
          | x :: s =>
            have ih := basicLinesBody?_escaped hr s
            by_cases hx : x = '"'
            · subst hx
              have he : basicLinesBody? ('\\' :: '"' ::
                  (escaped true 0 s ++ '"' :: '"' :: '"' :: rest)) = some ('"' :: s, rest) := by
                rw [basicLinesBody?_escape
                  (continuation?_eq_none (by decide) (by decide) (by decide) _) rfl, ih]
                rfl
              exact basicLinesBody?_marks (n := 2) (by omega) (by simp) he
            · simpa [escaped, hx] using other hx 2 (by omega) ih
        · simpa [escaped, hd] using other hd 1 (by omega) (basicLinesBody?_escaped hr s)
    · simpa [escaped, hc] using other hc 0 (by omega) (basicLinesBody?_escaped hr s)
termination_by s.length

theorem eq_replicate_of_all {mark : Char} {s : List Char} (h : ∀ c ∈ s, c = mark) :
    s = List.replicate s.length mark :=
  List.eq_replicate_iff.2 ⟨rfl, h⟩

theorem literalLinesBody?_append (hr : rest.head? ≠ some '\'') {s : List Char}
    (hq : longestRun '\'' s ≤ 2) (hc : ∀ c ∈ s, isControl c = false) :
    literalLinesBody? (s ++ '\'' :: '\'' :: '\'' :: rest) = some (s, rest) := by
  induction s with
  | nil => exact literalLinesBody?_closing (closing?_replicate 0 (by omega) hr)
  | cons c s ih =>
    have ih := ih (Nat.le_trans (longestRun_tail_le _ c s) hq) fun x hx => hc x (List.mem_cons_of_mem _ hx)
    have ht := Nat.le_trans (length_takeWhile_le_longestRun '\'' (c :: s)) hq
    by_cases hall : ((c :: s).takeWhile (· = '\'')).length = (c :: s).length
    · have he : (c :: s).takeWhile (· = '\'') = c :: s :=
        (List.takeWhile_prefix _).eq_of_length hall
      have hm : c :: s = List.replicate (s.length + 1) '\'' :=
        eq_replicate_of_all fun x hx => by
          rw [← he] at hx
          simpa only [decide_eq_true_eq] using List.mem_takeWhile_imp hx
      rw [he] at ht
      have hcl := closing?_replicate (s.length + 1) ht hr
      rw [← List.replicate_append_replicate, ← hm, List.append_assoc] at hcl
      exact literalLinesBody?_closing hcl
    · have hn : closing? '\'' (c :: s ++ '\'' :: '\'' :: '\'' :: rest) = none := by
        rw [closing?, List.takeWhile_append, if_neg hall]
        simp only
        rw [if_pos (by omega)]
      have hcc := hc c List.mem_cons_self
      by_cases hl : c = '\n'
      · subst hl
        rw [List.cons_append, literalLinesBody?_newline rfl, ih]
        rfl
      · have hp := isPrintable_of_not_isControl hcc hl
        rw [List.cons_append] at hn ⊢
        rw [literalLinesBody?_char hn (newline?_eq_none_of_isPrintable hp) hp, ih]
        rfl

end Bodies

section Forms

variable {rest : List Char}

def NoMark (rest : List Char) : Prop :=
  rest.head? ≠ some '"' ∧ rest.head? ≠ some '\''

theorem string?_basicBody {r : List Char} (h : ∀ t, r ≠ '"' :: '"' :: t) :
    string? ('"' :: r) = basicBody? r := by
  unfold string?
  split
  · next t ht =>
    cases ht
    exact absurd rfl (h t)
  · next t _ ht =>
    cases ht
    rfl
  all_goals simp_all

theorem string?_literalBody {r : List Char} (h : ∀ t, r ≠ '\'' :: '\'' :: t) :
    string? ('\'' :: r) = literalBody? r := by
  unfold string?
  split
  · simp_all
  · simp_all
  · next t ht =>
    cases ht
    exact absurd rfl (h t)
  · next t _ ht =>
    cases ht
    rfl
  · simp_all

theorem withoutFirstBreak_lead {s t : List Char} (h : s.contains '\n' = false → newline? t = none) :
    withoutFirstBreak ((if s.contains '\n' then ['\n'] else []) ++ t) = t := by
  split
  · rfl
  · next hn => simp [withoutFirstBreak, h (by simpa using hn)]

theorem string?_basic (hr : NoMark rest) (s : List Char) :
    string? (quoteAs .basic s ++ rest) = some (s, rest) := by
  have hn : ∀ t, escaped false 0 s ++ '"' :: rest ≠ '"' :: '"' :: t := by
    intro t h
    cases s with
    | nil =>
      rw [escaped, List.nil_append, List.cons.injEq] at h
      exact hr.1 (by simp [h.2])
    | cons c s =>
      by_cases hq : c = '"'
      · simp [escaped, hq] at h
      · rcases escapeChar_cases false c with ⟨he, _⟩ | ⟨x, e, he, _⟩ <;>
          simp [escaped, hq, he] at h
  have h := string?_basicBody hn
  rw [basicBody?_escaped] at h
  simpa [quoteAs, Quoting.delimiter] using h

theorem string?_literal {s : List Char} (hs : s ≠ []) (hq : '\'' ∉ s)
    (hp : ∀ c ∈ s, isPrintable c = true) :
    string? (quoteAs .literal s ++ rest) = some (s, rest) := by
  have hn : ∀ t, s ++ '\'' :: rest ≠ '\'' :: '\'' :: t := by
    intro t h
    cases s with
    | nil => exact hs rfl
    | cons c s =>
      rw [List.cons_append, List.cons.injEq] at h
      exact hq (by simp [h.1])
  have h := string?_literalBody hn
  rw [literalBody?_append hq hp] at h
  simpa [quoteAs, Quoting.delimiter] using h

theorem string?_basicLines (hr : NoMark rest) (s : List Char) :
    string? (quoteAs .basicLines s ++ rest) = some (s, rest) := by
  have hl : s.contains '\n' = false →
      newline? (escaped true 0 s ++ '"' :: '"' :: '"' :: rest) = none := by
    intro hn
    cases s with
    | nil => rfl
    | cons c s =>
      by_cases hq : c = '"'
      · simp [escaped, hq, newline?]
      · rcases escapeChar_cases true c with ⟨he, _, hc | hp⟩ | ⟨x, e, he, _⟩
        · simp [hc] at hn
        · rw [escaped, if_neg hq, he]
          exact newline?_eq_none_of_isPrintable hp
        · simp [escaped, hq, he, newline?]
  have h := basicLinesBody?_escaped hr.1 s
  rw [← withoutFirstBreak_lead hl] at h
  simpa [quoteAs, Quoting.delimiter, string?] using h

theorem string?_literalLines (hr : NoMark rest) {s : List Char} (hq : longestRun '\'' s ≤ 2)
    (hc : ∀ c ∈ s, isControl c = false) :
    string? (quoteAs .literalLines s ++ rest) = some (s, rest) := by
  have hl : s.contains '\n' = false → newline? (s ++ '\'' :: '\'' :: '\'' :: rest) = none := by
    intro hn
    cases s with
    | nil => rfl
    | cons c s =>
      refine newline?_eq_none ?_ (ne_return_of_not_isControl (hc c List.mem_cons_self))
      rintro rfl
      simp at hn
  have h := literalLinesBody?_append hr.2 hq hc
  rw [← withoutFirstBreak_lead hl] at h
  simpa [quoteAs, Quoting.delimiter, string?] using h

/-- A quoted text reads back, whichever form it is written in. -/
theorem string?_quote (hr : NoMark rest) (s : List Char) :
    string? (quote s ++ rest) = some (s, rest) := by
  have controls (h : s.any isControl = false) : ∀ c ∈ s, isControl c = false := by
    simpa [List.any_eq_false] using h
  simp only [quote, Quoting.ofValue, Bool.and_eq_true, Bool.not_eq_true', decide_eq_true_eq]
  split
  · exact string?_basic hr s
  · next hb =>
    split
    · next h =>
      obtain ⟨⟨hc, hq⟩, hn⟩ := h
      have hp : ∀ c ∈ s, isPrintable c = true := fun c hcs =>
        isPrintable_of_not_isControl (controls hc c hcs) (by rintro rfl; simp [hcs] at hn)
      refine string?_literal ?_ (not_mem_of_longestRun_eq_zero _ hq) hp
      rintro rfl
      exact hb (by decide)
    · split
      · exact string?_basicLines hr s
      · split
        · next h => exact string?_literalLines hr h.2 (controls h.1)
        · split
          · exact string?_basicLines hr s
          · exact string?_basic hr s

end Forms
end CBuild.Toml
