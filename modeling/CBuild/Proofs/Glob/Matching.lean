import CBuild.Proofs.Glob.Parsing

/-! What the tokens of a component stand for, token by token, and the components that lead no higher. -/

namespace CBuild.Glob

open CBuild.Path (IsFileName)

variable {t : Token} {ts c : List Token} {x : Char} {s : List Char}

section Suffixes

def Token.isFree (t : Token) : Prop :=
  t = .star ∨ t = .directories

theorem Token.not_isFree_char (x : Char) : ¬(Token.char x).isFree := by
  rintro (hstar | hdirectories)
  · cases hstar
  · cases hdirectories

theorem tail_orLater (bs : List Bool) : (orLater bs).tail = orLater bs.tail := by
  cases bs <;> rfl

theorem suffixMatches_free (ht : t.isFree) (s : List Char) :
    suffixMatches s (t :: ts) = orLater (suffixMatches s ts) := by
  rcases ht with rfl | rfl <;> rfl

theorem suffixMatches_single (ht : ¬t.isFree) (s : List Char) : suffixMatches s (t :: ts) =
    List.zipWith (fun c b => t.fits c && b) s ((suffixMatches s ts).drop 1) ++ [false] := by
  cases t with
  | star => exact absurd (.inl rfl) ht
  | directories => exact absurd (.inr rfl) ht
  | _ => rfl

theorem exists_suffixMatches (s : List Char) (ts : List Token) :
    ∃ b, suffixMatches s ts = b :: (suffixMatches s ts).tail := by
  induction ts with
  | nil => cases s <;> exact ⟨_, rfl⟩
  | cons t ts ih =>
    by_cases ht : t.isFree
    · obtain ⟨b, hb⟩ := ih
      rw [suffixMatches_free ht, hb]
      exact ⟨_, rfl⟩
    · rw [suffixMatches_single ht]
      generalize List.zipWith _ s _ = bs
      cases bs <;> exact ⟨_, rfl⟩

theorem tail_suffixMatches (x : Char) (s : List Char) (ts : List Token) :
    (suffixMatches (x :: s) ts).tail = suffixMatches s ts := by
  induction ts with
  | nil => rfl
  | cons t ts ih =>
    by_cases ht : t.isFree
    · rw [suffixMatches_free ht, suffixMatches_free ht, tail_orLater, ih]
    · obtain ⟨b, hb⟩ := exists_suffixMatches s ts
      rw [suffixMatches_single ht, suffixMatches_single ht, List.drop_one, ih, hb]
      rfl

end Suffixes

section Names

theorem matchesName_free_cons (ht : t.isFree) :
    matchesName (t :: ts) (x :: s) = (matchesName ts (x :: s) || matchesName (t :: ts) s) := by
  obtain ⟨b, hb⟩ := exists_suffixMatches (x :: s) ts
  unfold matchesName
  rw [suffixMatches_free ht, suffixMatches_free ht, hb, tail_suffixMatches]
  rfl

theorem matchesName_single_cons (ht : ¬t.isFree) : matchesName (t :: ts) (x :: s) = (t.fits x && matchesName ts s) := by
  obtain ⟨b, hb⟩ := exists_suffixMatches s ts
  unfold matchesName
  rw [suffixMatches_single ht, List.drop_one, tail_suffixMatches, hb]
  rfl

theorem matchesName_single_nil (ht : ¬t.isFree) : matchesName (t :: ts) [] = false := by
  unfold matchesName
  rw [suffixMatches_single ht]
  rfl

theorem matchesName_dot (h : matchesName ts [] = true) (hne : ts ≠ []) (x : Char) : matchesName ts [x] = true := by
  cases ts with
  | nil => exact absurd rfl hne
  | cons t ts =>
    by_cases ht : t.isFree
    · rw [matchesName_free_cons ht, h, Bool.or_true]
    · rw [matchesName_single_nil ht] at h
      cases h

theorem matchesName_literal {x n : List Char} (hc : literal? c = some x) : matchesName c n = true ↔ n = x := by
  rw [eq_map_of_literal? hc]
  clear hc
  induction x generalizing n with
  | nil =>
    cases n with
    | nil => exact iff_of_true rfl rfl
    | cons y n => exact iff_of_false (by simp [matchesName, suffixMatches]) (List.cons_ne_nil _ _)
  | cons y x ih =>
    rw [List.map_cons]
    cases n with
    | nil => simp [matchesName_single_nil (Token.not_isFree_char y)]
    | cons z n => simp [matchesName_single_cons (Token.not_isFree_char y), ih, Token.fits]

end Names

section Dots

/-- A component without a slash, which does not lead up when it begins with a dot. -/
structure Proper (c : List Token) : Prop where
  no_slash : ∀ x, literal? c = some x → '/' ∉ x
  not_up : c.head? = some (.char '.') → matchesName c ['.', '.'] = false

theorem Proper.not_here (h : Proper c) (hc : literal? c = none) (hhead : c.head? = some (.char '.')) :
    matchesName c ['.'] = false := by
  obtain ⟨ts, rfl⟩ := List.head?_eq_some_iff.1 hhead
  have hne : ts ≠ [] := by
    rintro rfl
    cases hc
  have hup := h.not_up hhead
  rw [matchesName_single_cons (Token.not_isFree_char '.')] at hup ⊢
  rw [Bool.eq_false_iff]
  intro hdot
  rw [Bool.and_eq_true] at hdot
  rw [matchesName_dot hdot.2 hne, hdot.1] at hup
  cases hup

theorem Proper.literal {x : List Char} (h : Proper c) (hx : literal? c = some x) :
    (x = [] ∨ x = ['.']) ∨ IsFileName x := by
  by_cases hidle : x = [] ∨ x = ['.']
  · exact .inl hidle
  · right
    refine ⟨hidle, ?_, h.no_slash x hx⟩
    rintro rfl
    rw [eq_map_of_literal? hx] at h
    have hup := h.not_up rfl
    exact absurd hup (by decide)

theorem Proper.not_listed (h : Proper c) (hc : literal? c = none) (hhead : c.head? = some (.char '.')) {n : List Char}
    (hn : n = ['.'] ∨ n = ['.', '.']) : matchesName c n = false := by
  rcases hn with rfl | rfl
  · exact h.not_here hc hhead
  · exact h.not_up hhead

end Dots

end CBuild.Glob
