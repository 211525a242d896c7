import CBuild.Proofs.Text.Lines
import CBuild.Proofs.Manifest.Examples
import CBuild.Proofs.Toml.Quoting

/-! Texts that the pass over the examples goes by, and the example that it stops for. -/

namespace CBuild

open Toml

section Quotes

variable {s : List Char}

theorem newline_not_mem_escaped (h : '\n' ∉ s) (lines : Bool) (run : Nat) : '\n' ∉ escaped lines run s := by
  have code (c : Char) : '\n' ∉ escapeCode c := by
    have digit (n : Nat) (hn : n < 16) : '\n' ≠ hexDigit n := by
      revert n
      decide
    simp only [escapeCode, List.mem_cons, List.not_mem_nil, or_false, not_or]
    refine ⟨by decide, by decide, ?_, ?_, ?_, ?_⟩ <;> exact digit _ (Nat.mod_lt _ (by decide))
  have char {c : Char} (hc : c ≠ '\n') : '\n' ∉ escapeChar lines c := by
    rw [escapeChar]
    simp only [if_neg hc]
    split
    · decide
    split
    · decide
    split
    · decide
    split
    · decide
    split
    · decide
    split
    · exact code c
    · simpa using Ne.symm hc
  induction s generalizing run with
  | nil => simp [escaped]
  | cons c r ih =>
    rw [List.mem_cons, not_or] at h
    rw [escaped]
    split
    · split
      · simpa using ih h.2 _
      · simpa using ih h.2 _
    · rw [List.mem_append, not_or]
      exact ⟨char (Ne.symm h.1), ih h.2 _⟩

theorem newline_not_mem_quote (h : '\n' ∉ s) : '\n' ∉ quote s := by
  have hlead : (if s.contains '\n' then ['\n'] else []) = ([] : List Char) := by simp [h]
  have hescaped (lines : Bool) := newline_not_mem_escaped h lines 0
  rw [quote]
  cases Quoting.ofValue s with
  | basic => simp [quoteAs, Quoting.delimiter, hescaped]
  | literal => simp [quoteAs, Quoting.delimiter, h]
  | basicLines =>
    rw [quoteAs, hlead]
    simp [Quoting.delimiter, hescaped]
  | literalLines =>
    rw [quoteAs, hlead]
    simp [Quoting.delimiter, h]

end Quotes

section Passing

variable {keys : List (List Char)} {key s r line : List Char}

def Passes (keys : List (List Char)) (s : List Char) : Prop :=
  ∀ r, fillExamples (s ++ r) keys = s ++ fillExamples r keys

theorem passes_nil : Passes keys [] := fun _ => rfl

theorem Passes.append (hs : Passes keys s) (hr : Passes keys r) : Passes keys (s ++ r) := by
  intro t
  rw [List.append_assoc, hs, hr, List.append_assoc]

def isPassed (keys : List (List Char)) (line : List Char) : Bool :=
  (Text.trimStart line).head? ≠ some '[' && keys.all fun key => !isExampleOf (Text.trimStart line) key

theorem passes_line (h : '\n' ∉ line) (hp : isPassed keys (line ++ ['\n']) = true) :
    Passes keys (line ++ ['\n']) := by
  rw [isPassed, Bool.and_eq_true, decide_eq_true_eq, List.all_eq_true] at hp
  have hfind : keys.find? (isExampleOf (Text.trimStart (line ++ ['\n']))) = none := by
    rw [List.find?_eq_none]
    intro key hk
    simpa using hp.2 key hk
  intro r
  rw [List.append_assoc, List.singleton_append, fillExamples, Text.pieces_line h, fillExamplesIn]
  rw [if_neg hp.1, hfind]
  simp [fillExamples]

theorem isPassed_mono {more : List (List Char)} (hk : ∀ key ∈ keys, key ∈ more) (h : isPassed more line = true) :
    isPassed keys line = true := by
  rw [isPassed, Bool.and_eq_true, List.all_eq_true] at h ⊢
  exact ⟨h.1, fun key hkey => h.2 key (hk key hkey)⟩

theorem passes_of_pieces (hs : Whole s) (hp : (Text.pieces s).all (isPassed keys) = true) : Passes keys s := by
  induction hlen : s.length using Nat.strongRecOn generalizing s with
  | ind n ih =>
    by_cases hnil : s = []
    · exact hnil ▸ passes_nil
    obtain ⟨line, rest, rfl, hpieces, m, hm, hl⟩ := Text.pieces_first hnil
    have hlined := hs.resolve_left hnil
    rw [hpieces, List.all_cons, Bool.and_eq_true] at hp
    rcases hl with rfl | ⟨rfl, rfl⟩
    · have hrest : Whole rest := by
        by_cases hr : rest = []
        · exact .inl hr
        · exact .inr (hlined.of_suffix (List.suffix_append _ _) hr)
      refine (passes_line hm hp.1).append (ih _ ?_ hrest hp.2 rfl)
      simp only [← hlen, List.length_append, List.length_singleton]
      omega
    · rw [List.append_nil] at hlined
      exact absurd hlined.mem hm

theorem isPassed_of_head {c : Char} {t : List Char} (h : Text.trimStart line = c :: t)
    (hb : c ≠ '[') (hn : c ≠ '#') :
    isPassed keys line = true := by
  rw [isPassed, h, Bool.and_eq_true, List.all_eq_true]
  refine ⟨by simpa using hb, fun key _ => ?_⟩
  unfold isExampleOf
  split
  next hr => exact absurd (List.cons.inj hr).1 hn
  next => rfl

theorem fillExamples_example (h : '\n' ∉ line) (hc : (Text.trimStart (line ++ ['\n'])).head? ≠ some '[')
    (hf : keys.find? (isExampleOf (Text.trimStart (line ++ ['\n']))) = some key) (r : List Char) :
    fillExamples (line ++ '\n' :: r) keys = key ++ " = []\n".toList ++ fillExamples r (keys.erase key) := by
  rw [fillExamples, Text.pieces_line h, fillExamplesIn]
  rw [if_neg hc, hf]
  simp [fillExamples]

theorem fillExamples_table (h : '\n' ∉ line)
    (hc : (Text.trimStart (line ++ ['\n'])).head? = some '[') (r : List Char) :
    fillExamples (line ++ '\n' :: r) keys = line ++ '\n' :: r := by
  rw [fillExamples, Text.pieces_line h, fillExamplesIn]
  rw [if_pos hc, List.flatten_cons, Text.flatten_pieces]
  simp

end Passing

end CBuild
