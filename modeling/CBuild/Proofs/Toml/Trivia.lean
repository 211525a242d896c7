import CBuild.Toml.Lexeme
import Mathlib.Data.List.TakeWhile

/-! What stands between the tokens of a document, and what may end a line. Once read, either reads again as
it is. -/

namespace CBuild.Toml

/-- Space, line feeds and comments, read on from inside a comment or not, that do not end in a comment. -/
def IsTrivia : (inComment : Bool) → List Char → Prop
  | inComment, [] => inComment = false
  | inComment, c :: t =>
    if c = '\n' then IsTrivia false t
    else (inComment && isPrintable c || isSpace c || c = '#') = true ∧ IsTrivia (inComment || c = '#') t

theorem isTrivia_nil : IsTrivia false [] := rfl

instance decidableIsTrivia : (inComment : Bool) → (t : List Char) → Decidable (IsTrivia inComment t)
  | inComment, [] => inferInstanceAs (Decidable (inComment = false))
  | inComment, c :: t =>
    have := decidableIsTrivia false t
    have := decidableIsTrivia (inComment || c = '#') t
    inferInstanceAs (Decidable (if c = '\n' then IsTrivia false t
      else (inComment && isPrintable c || isSpace c || c = '#') = true ∧ IsTrivia (inComment || c = '#') t))

def Solid (s : List Char) : Prop :=
  trivia false s = ([], s)

theorem solid_nil : Solid [] := rfl

theorem solid_cons {c : Char} {r : List Char} (hs : isSpace c = false) (hn : c ≠ '\n')
    (hr : c ≠ '\r') (hc : c ≠ '#') : Solid (c :: r) := by
  rw [Solid, trivia.eq_def]
  split
  · contradiction
  · simp_all
  · simp_all
  · next h =>
    cases h
    simp [hs, hc]

section

variable {inComment : Bool} {t u r s : List Char}

theorem trivia_newline : trivia inComment ('\n' :: r) = ('\n' :: (trivia false r).1, (trivia false r).2) := by
  rw [trivia]

theorem trivia_cons {c : Char} (hn : c ≠ '\n') (hr : c ≠ '\r')
    (h : (inComment && isPrintable c || isSpace c || c = '#') = true) :
    trivia inComment (c :: r) =
      (c :: (trivia (inComment || c = '#') r).1, (trivia (inComment || c = '#') r).2) := by
  rw [trivia.eq_def]
  split
  · contradiction
  · simp_all
  · simp_all
  · next c' r' _ _ heq =>
    cases heq
    rw [if_pos h]

theorem ne_return_of_isTriviaChar {c : Char}
    (h : (inComment && isPrintable c || isSpace c || c = '#') = true) : c ≠ '\r' := by
  rintro rfl
  cases inComment <;> exact absurd h (by decide)

theorem trivia_append (ht : IsTrivia inComment t) (hr : Solid r) :
    trivia inComment (t ++ r) = (t, r) := by
  induction t generalizing inComment with
  | nil => rw [List.nil_append, show inComment = false from ht, hr]
  | cons c t ih =>
    rw [List.cons_append]
    by_cases hc : c = '\n'
    · subst hc
      rw [trivia_newline, ih (by simpa [IsTrivia] using ht)]
    · simp only [IsTrivia, hc, if_false] at ht
      rw [trivia_cons hc (ne_return_of_isTriviaChar ht.1) ht.1, ih ht.2]

theorem IsTrivia.append (ht : IsTrivia inComment t) (hu : IsTrivia false u) :
    IsTrivia inComment (t ++ u) := by
  induction t generalizing inComment with
  | nil => exact (show inComment = false from ht) ▸ hu
  | cons c t ih =>
    by_cases hc : c = '\n'
    · simpa [IsTrivia, hc] using ih (by simpa [IsTrivia, hc] using ht)
    · simp only [IsTrivia, hc, if_false, List.cons_append] at ht ⊢
      exact ⟨ht.1, ih ht.2⟩

theorem isTrivia_of_isSpace (h : ∀ c ∈ t, isSpace c = true) : IsTrivia false t := by
  induction t with
  | nil => rfl
  | cons c t ih =>
    have hc := h c List.mem_cons_self
    have hn : c ≠ '\n' ∧ c ≠ '#' := by
      constructor <;> (rintro rfl; exact absurd hc (by decide))
    simpa [IsTrivia, hn, hc] using ih fun x hx => h x (List.mem_cons_of_mem _ hx)

theorem isTrivia_of_trivia {c : Char} (h : trivia inComment s = (t, c :: r))
    (hc : isPrintable c = true) : IsTrivia inComment t := by
  fun_induction trivia inComment s generalizing t with
  | case1 => simp at h
  | case2 ic s x rest hx ih =>
    rw [Prod.mk.injEq] at h
    rw [← h.1]
    simpa [IsTrivia] using ih (by rw [hx, h.2])
  | case3 ic s x rest hx ih =>
    rw [Prod.mk.injEq] at h
    rw [← h.1]
    simpa [IsTrivia] using ih (by rw [hx, h.2])
  | case4 ic d s hn hr hd x rest hx ih =>
    rw [Prod.mk.injEq] at h
    rw [← h.1]
    have hdn : d ≠ '\n' := fun h => hn h
    simp only [IsTrivia, hdn, if_false]
    exact ⟨hd, ih (by rw [hx, h.2])⟩
  | case5 ic d s hn hr hd =>
    rw [Prod.mk.injEq, List.cons.injEq] at h
    rw [← h.1, IsTrivia]
    cases ic
    · rfl
    · simp [h.2.1, hc] at hd

theorem solid_of_trivia (h : trivia inComment s = (t, r)) : Solid r := by
  fun_induction trivia inComment s generalizing t with
  | case1 =>
    cases h
    exact solid_nil
  | case2 ic s x rest hx ih =>
    rw [Prod.mk.injEq] at h
    exact ih (by rw [hx, h.2])
  | case3 ic s x rest hx ih =>
    rw [Prod.mk.injEq] at h
    exact ih (by rw [hx, h.2])
  | case4 ic d s hn hr hd x rest hx ih =>
    rw [Prod.mk.injEq] at h
    exact ih (by rw [hx, h.2])
  | case5 ic d s hn hr hd =>
    rw [Prod.mk.injEq] at h
    rw [← h.2, Solid, trivia.eq_def]
    split
    · contradiction
    · next heq =>
      cases heq
      exact absurd rfl hn
    · next heq =>
      cases heq
      exact absurd rfl (hr _ rfl)
    · next heq =>
      cases heq
      simp_all

theorem trivia_of_eof (h : trivia inComment s = (t, [])) : trivia inComment t = (t, []) := by
  fun_induction trivia inComment s generalizing t with
  | case1 =>
    cases h
    rfl
  | case2 ic s x rest hx ih =>
    rw [Prod.mk.injEq] at h
    rw [← h.1, trivia_newline, ih (by rw [hx, h.2])]
  | case3 ic s x rest hx ih =>
    rw [Prod.mk.injEq] at h
    rw [← h.1, trivia_newline, ih (by rw [hx, h.2])]
  | case4 ic d s hn hr hd x rest hx ih =>
    rw [Prod.mk.injEq] at h
    have hdn : d ≠ '\n' := fun h => hn h
    rw [← h.1, trivia_cons hdn (ne_return_of_isTriviaChar hd) hd, ih (by rw [hx, h.2])]
  | case5 ic d s hn hr hd => simp at h

end

section Lines

def EndsLine (a : List Char) : Prop :=
  ∀ rest, lineEnd? (a ++ '\n' :: rest) = some (a, rest)

theorem takeWhile_append_stop {p : Char → Bool} {a b : List Char} (ha : ∀ c ∈ a, p c = true)
    (hb : ∀ c, b.head? = some c → p c = false) : (a ++ b).takeWhile p = a := by
  rw [List.takeWhile_append_of_pos ha]
  cases b with
  | nil => simp
  | cons c b => simp [hb c rfl]

theorem dropWhile_append_stop {p : Char → Bool} {a b : List Char} (ha : ∀ c ∈ a, p c = true)
    (hb : ∀ c, b.head? = some c → p c = false) : (a ++ b).dropWhile p = b := by
  rw [List.dropWhile_append_of_pos ha]
  cases b with
  | nil => rfl
  | cons c b => simp [hb c rfl]

theorem endsLine_of_comment {space comment : List Char} (hs : ∀ c ∈ space, isSpace c = true)
    (hh : comment.head? = none ∨ comment.head? = some '#')
    (hp : ∀ c ∈ comment, isPrintable c = true) : EndsLine (space ++ comment) := by
  intro rest
  have hb : ∀ c, (comment ++ '\n' :: rest).head? = some c → isSpace c = false := by
    intro c hc
    cases comment with
    | nil =>
      cases hc
      rfl
    | cons d comment =>
      rcases hh with hh | hh
      · simp at hh
      · cases hh
        cases hc
        rfl
  rw [lineEnd?, List.append_assoc]
  simp only [takeWhile_append_stop hs hb, dropWhile_append_stop hs hb]
  cases comment with
  | nil => simp
  | cons d comment =>
    rcases hh with hh | hh
    · simp at hh
    · cases hh
      have hc : (if ('#' :: comment ++ '\n' :: rest).head? = some '#' then
          ('#' :: comment ++ '\n' :: rest).takeWhile isPrintable else []) = '#' :: comment :=
        (if_pos (by rfl)).trans (takeWhile_append_stop hp (by rintro c ⟨⟩; rfl))
      rw [hc, List.drop_left]
      rfl

theorem endsLine_nil : EndsLine [] :=
  show EndsLine ([] ++ []) from endsLine_of_comment (by simp) (.inl rfl) (by simp)

theorem endsLine_of_lineEnd? {s a rest : List Char} (h : lineEnd? s = some (a, rest)) :
    EndsLine a := by
  rw [lineEnd?] at h
  have hs : ∀ c ∈ s.takeWhile isSpace, isSpace c = true := fun c hc => List.mem_takeWhile_imp hc
  have main : ∀ comment, comment = (if (s.dropWhile isSpace).head? = some '#' then
      (s.dropWhile isSpace).takeWhile isPrintable else []) →
      EndsLine (s.takeWhile isSpace ++ comment) := by
    rintro _ rfl
    split
    · next hh =>
      refine endsLine_of_comment hs ?_ fun c hc => List.mem_takeWhile_imp hc
      cases hd : s.dropWhile isSpace with
      | nil => exact .inl rfl
      | cons d r =>
        rw [hd] at hh
        cases hh
        exact .inr rfl
    · exact endsLine_of_comment hs (.inl rfl) (by simp)
  split at h
  all_goals
    first
    | cases h
      exact main _ rfl
    | cases h

end Lines
end CBuild.Toml
