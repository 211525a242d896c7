import CBuild.Proofs.Toml.Continuing
import CBuild.Proofs.Toml.Keeping

/-! The comments of a text. A `#` begins one unless it stands in a string; every other character says nothing
about comments, so each reader leaves those behind that it has not put into what it read. -/

namespace CBuild.Toml

section Lexing

/-- The comments and the strings of a text in their order: a comment up to the end of its line, a string with
its marks. -/
def lexemes (s : List Char) : List (List Char) :=
  match s with
  | [] => []
  | c :: r =>
    if c = '#' then (c :: r.takeWhile isPrintable) :: lexemes (r.dropWhile isPrintable)
    else if c = '"' || c = '\'' then
      match string? (c :: r) with
      | some (_, rest) =>
        if rest.length < r.length + 1 then consumed (c :: r) rest :: lexemes rest else []
      | none => lexemes r
    else lexemes r
termination_by s.length
decreasing_by
  all_goals simp only [List.length_cons]
  · exact Nat.lt_succ_of_le (List.dropWhile_suffix _).length_le
  · assumption
  · exact Nat.lt_succ_self _
  · exact Nat.lt_succ_self _

def isComment (l : List Char) : Bool :=
  l.head? = some '#'

def comments (s : List Char) : List (List Char) :=
  (lexemes s).filter isComment

def isQuiet (c : Char) : Bool :=
  !(c = '#' || c = '"' || c = '\'')

variable {s t r : List Char} {c : Char}

@[simp] theorem lexemes_nil : lexemes [] = [] := by rw [lexemes]

theorem lexemes_hash (r : List Char) :
    lexemes ('#' :: r) = ('#' :: r.takeWhile isPrintable) :: lexemes (r.dropWhile isPrintable) := by
  rw [lexemes]
  exact if_pos rfl

theorem lexemes_cons (h : isQuiet c = true) (r : List Char) : lexemes (c :: r) = lexemes r := by
  simp only [isQuiet, Bool.not_eq_true', Bool.or_eq_false_iff, decide_eq_false_iff_not] at h
  rw [lexemes, if_neg h.1.1, if_neg (by simp [h.1.2, h.2])]

theorem lexemes_append_of_quiet (h : ∀ c ∈ t, isQuiet c = true) (r : List Char) :
    lexemes (t ++ r) = lexemes r := by
  induction t with
  | nil => rfl
  | cons c t ih =>
    rw [List.forall_mem_cons] at h
    rw [List.cons_append, lexemes_cons h.1, ih h.2]

theorem lexemes_dropWhile {p : Char → Bool} (h : ∀ c, p c = true → isQuiet c = true) (s : List Char) :
    lexemes (s.dropWhile p) = lexemes s := by
  conv_rhs => rw [← List.takeWhile_append_dropWhile (p := p) (l := s)]
  exact (lexemes_append_of_quiet (fun c hc => h c (List.mem_takeWhile_imp hc)) _).symm

theorem string?_shorter (h : string? s = some (t, r)) : r.length < s.length := by
  obtain ⟨a, rfl, ha⟩ := string?_reads h
  have hne : a ≠ [] := by
    rintro rfl
    have := ha [] (by simp [NoMark])
    simp [string?] at this
  rw [List.length_append]
  have := List.length_pos_iff.2 hne
  omega

theorem lexemes_of_string? (h : string? s = some (t, r)) : lexemes s = consumed s r :: lexemes r := by
  have hlt := string?_shorter h
  cases s with
  | nil => simp [string?] at h
  | cons c s =>
    have hmark : c = '"' ∨ c = '\'' := by
      unfold string? at h
      split at h <;> simp_all
    rw [lexemes, if_neg (by rcases hmark with rfl | rfl <;> decide), if_pos (by simpa using hmark), h]
    exact if_pos hlt

theorem not_isComment_consumed (h : string? s = some (t, r)) : isComment (consumed s r) = false := by
  obtain ⟨a, rfl, ha⟩ := string?_reads h
  have ha := ha [] (by simp [NoMark])
  rw [consumed_append]
  unfold string? at ha
  split at ha <;> simp_all [isComment]

theorem isQuiet_of_ne (h : ∀ d ∈ ['#', '"', '\''], c ≠ d) : isQuiet c = true := by
  simp only [List.forall_mem_cons] at h
  simp [isQuiet, h.1, h.2.1, h.2.2.1]

theorem isQuiet_of_isSpace (h : isSpace c = true) : isQuiet c = true := by
  rcases isSpace_iff.1 h with rfl | rfl <;> decide

theorem isQuiet_of_isTokenChar (h : isTokenChar c = true) : isQuiet c = true := by
  refine isQuiet_of_ne fun d hd => ?_
  rintro rfl
  simp only [List.mem_cons, List.not_mem_nil, or_false] at hd
  rcases hd with rfl | rfl | rfl <;> exact absurd h (by decide)

theorem isQuiet_of_isBareKeyChar (h : isBareKeyChar c = true) : isQuiet c = true :=
  isQuiet_of_isTokenChar (isTokenChar_of_isBareKeyChar h)

end Lexing

section Ahead

/-- In front of `r` the text has these comments, in some order, and maybe strings. -/
def Ahead (cs : List (List Char)) (s r : List Char) : Prop :=
  ∃ ls, lexemes s = ls ++ lexemes r ∧ (ls.filter isComment).Perm cs

variable {s t r u : List Char} {cs ds : List (List Char)} {c : Char}

theorem Ahead.of_eq (h : lexemes s = lexemes r) : Ahead [] s r :=
  ⟨[], h, .refl _⟩

theorem Ahead.quiet (h : isQuiet c = true) (r : List Char) : Ahead [] (c :: r) r :=
  .of_eq (lexemes_cons h r)

theorem Ahead.space (s : List Char) : Ahead [] s (s.dropWhile isSpace) :=
  .of_eq (lexemes_dropWhile (fun _ => isQuiet_of_isSpace) s).symm

theorem Ahead.of_append (h : lexemes s = lexemes t ++ lexemes r) : Ahead (comments t) s r :=
  ⟨lexemes t, h, .refl _⟩

theorem Ahead.trans (h : Ahead cs s t) (h' : Ahead ds t r) : Ahead (cs ++ ds) s r := by
  obtain ⟨ls, hs, hl⟩ := h
  obtain ⟨ms, ht, hm⟩ := h'
  refine ⟨ls ++ ms, by rw [hs, ht, List.append_assoc], ?_⟩
  rw [List.filter_append]
  exact hl.append hm

theorem Ahead.perm (h : Ahead cs s r) (hp : cs.Perm ds) : Ahead ds s r := by
  obtain ⟨ls, hs, hl⟩ := h
  exact ⟨ls, hs, hl.trans hp⟩

theorem Ahead.comments_perm (h : Ahead cs s r) : (comments s).Perm (cs ++ comments r) := by
  obtain ⟨ls, hs, hl⟩ := h
  rw [comments, hs, List.filter_append]
  exact hl.append_right _

end Ahead

section Trivia

variable {inComment : Bool} {s t r u : List Char}

@[simp] theorem comments_nil : comments [] = [] := by rw [comments, lexemes_nil, List.filter_nil]

theorem comments_cons {c : Char} (h : isQuiet c = true) (r : List Char) : comments (c :: r) = comments r := by
  rw [comments, lexemes_cons h]
  rfl

theorem comments_of_quiet (h : ∀ c ∈ t, isQuiet c = true) : comments t = [] := by
  have := lexemes_append_of_quiet h []
  rw [List.append_nil, lexemes_nil] at this
  rw [comments, this, List.filter_nil]

/-- What there is in a text is what there is in `t` and then in `r`. From inside a comment on, what is inside it goes
with it. -/
def Cuts (inComment : Bool) (s t r : List Char) : Prop :=
  if inComment = true then s.takeWhile isPrintable = t.takeWhile isPrintable ∧
    lexemes (s.dropWhile isPrintable) = lexemes (t.dropWhile isPrintable) ++ lexemes r
  else lexemes s = lexemes t ++ lexemes r

theorem isPrintable_of_inComment {c : Char} (h : (isPrintable c || isSpace c || c = '#') = true) :
    isPrintable c = true := by
  simp only [Bool.or_eq_true, decide_eq_true_eq] at h
  rcases h with (h | h) | rfl
  · exact h
  · exact isPrintable_of_isSpace h
  · decide

theorem Cuts.over {c d : Char} (hc : isPrintable c = false) (hd : isPrintable d = false)
    (h : lexemes (c :: s) = lexemes (d :: t) ++ lexemes r) : Cuts inComment (c :: s) (d :: t) r := by
  rw [Cuts, List.takeWhile_cons_of_neg (by simp [hc]), List.takeWhile_cons_of_neg (by simp [hd]),
    List.dropWhile_cons_of_neg (by simp [hc]), List.dropWhile_cons_of_neg (by simp [hd])]
  split
  · exact ⟨rfl, h⟩
  · exact h

theorem Cuts.cons {c : Char} (hc : (inComment && isPrintable c || isSpace c || c = '#') = true)
    (h : Cuts (inComment || c = '#') s t r) : Cuts inComment (c :: s) (c :: t) r := by
  cases inComment with
  | true =>
    obtain ⟨hline, hrest⟩ : s.takeWhile isPrintable = t.takeWhile isPrintable ∧
        lexemes (s.dropWhile isPrintable) = lexemes (t.dropWhile isPrintable) ++ lexemes r := h
    have hp : isPrintable c = true := isPrintable_of_inComment hc
    rw [Cuts, if_pos rfl, List.takeWhile_cons_of_pos hp, List.takeWhile_cons_of_pos hp,
      List.dropWhile_cons_of_pos hp, List.dropWhile_cons_of_pos hp, hline]
    exact ⟨rfl, hrest⟩
  | false =>
    rw [Cuts, if_neg Bool.false_ne_true]
    by_cases hh : c = '#'
    · subst hh
      obtain ⟨hline, hrest⟩ : s.takeWhile isPrintable = t.takeWhile isPrintable ∧
        lexemes (s.dropWhile isPrintable) = lexemes (t.dropWhile isPrintable) ++ lexemes r := h
      rw [lexemes_hash, lexemes_hash, hline, hrest, List.cons_append]
    · simp only [hh, decide_false, Bool.or_false, Bool.false_and, Bool.false_or] at hc h
      have hrest : lexemes s = lexemes t ++ lexemes r := h
      rw [lexemes_cons (isQuiet_of_isSpace hc), lexemes_cons (isQuiet_of_isSpace hc), hrest]

theorem cuts_of_isTrivia (h : IsTrivia inComment t) (u : List Char) : Cuts inComment (t ++ u) t u := by
  induction t generalizing inComment with
  | nil =>
    cases show inComment = false from h
    rw [Cuts, if_neg Bool.false_ne_true, lexemes_nil]
    rfl
  | cons c t ih =>
    rw [IsTrivia] at h
    by_cases hn : c = '\n'
    · subst hn
      rw [if_pos rfl] at h
      have ih : lexemes (t ++ u) = lexemes t ++ lexemes u := ih h
      rw [List.cons_append]
      refine .over (by decide) (by decide) ?_
      rw [lexemes_cons (by decide), lexemes_cons (by decide), ih]
    · rw [if_neg hn] at h
      exact .cons h.1 (ih h.2)

theorem lexemes_append_of_isTrivia (h : IsTrivia false t) (u : List Char) :
    lexemes (t ++ u) = lexemes t ++ lexemes u :=
  cuts_of_isTrivia h u

theorem comments_append_of_isTrivia (h : IsTrivia false t) (u : List Char) :
    comments (t ++ u) = comments t ++ comments u := by
  rw [comments, lexemes_append_of_isTrivia h, List.filter_append]
  rfl

theorem cuts_of_trivia (h : trivia inComment s = (t, r)) : Cuts inComment s t r := by
  fun_induction trivia inComment s generalizing t with
  | case1 =>
    cases h
    simp [Cuts]
  | case2 ic s x rest hx ih =>
    cases h
    have ih : lexemes s = lexemes x ++ lexemes r := ih hx
    refine .over (by decide) (by decide) ?_
    rw [lexemes_cons (by decide), lexemes_cons (by decide), ih]
  | case3 ic s x rest hx ih =>
    cases h
    have ih : lexemes s = lexemes x ++ lexemes r := ih hx
    refine .over (by decide) (by decide) ?_
    rw [lexemes_cons (by decide), lexemes_cons (by decide), lexemes_cons (by decide), ih]
  | case4 ic c s hn hr hc x rest hx ih =>
    cases h
    exact .cons hc (ih hx)
  | case5 ic c s hn hr hc =>
    cases h
    cases ic with
    | true =>
      have hp : isPrintable c = false := by
        by_contra hp
        exact hc (by simp [hp])
      simp [Cuts, hp]
    | false => simp [Cuts]

theorem lexemes_of_trivia (h : trivia false s = (t, r)) : lexemes s = lexemes t ++ lexemes r :=
  cuts_of_trivia h

theorem trivia_ahead (h : trivia false s = (t, r)) : Ahead (comments t) s r :=
  .of_append (lexemes_of_trivia h)

theorem lineEnd?_ahead (h : lineEnd? s = some (t, r)) : Ahead (comments t) s r := by
  refine .of_append ?_
  rw [lineEnd?] at h
  generalize hc : (if (s.dropWhile isSpace).head? = some '#' then (s.dropWhile isSpace).takeWhile isPrintable
    else []) = comment at h
  have hspace : ∀ c ∈ s.takeWhile isSpace, isQuiet c = true := fun c hc =>
    isQuiet_of_isSpace (List.mem_takeWhile_imp hc)
  have hcomment : lexemes s = lexemes comment ++ lexemes ((s.dropWhile isSpace).drop comment.length) := by
    rw [← lexemes_dropWhile (fun c => isQuiet_of_isSpace) s, ← hc]
    split
    · next hh =>
      cases hu : s.dropWhile isSpace with
      | nil =>
        rw [hu] at hh
        cases hh
      | cons c u =>
        rw [hu] at hh
        cases hh
        have hall : ∀ c ∈ u.takeWhile isPrintable, isPrintable c = true := fun c hc => List.mem_takeWhile_imp hc
        rw [drop_length_takeWhile, List.takeWhile_cons_of_pos (by decide), List.dropWhile_cons_of_pos (by decide),
          lexemes_hash, lexemes_hash, List.takeWhile_eq_self_iff.2 hall, List.dropWhile_eq_nil_iff.2 hall,
          lexemes_nil]
        rfl
    · simp
  rw [hcomment]
  split at h
  · next he =>
    cases h
    rw [he, lexemes_append_of_quiet hspace]
  · next he =>
    cases h
    rw [he, lexemes_append_of_quiet hspace, lexemes_cons (by decide)]
  · next he =>
    cases h
    rw [he, lexemes_append_of_quiet hspace, lexemes_cons (by decide), lexemes_cons (by decide)]
  · cases h

theorem isTrivia_of_lined (hs : Lined s) (h : trivia inComment s = (t, [])) : IsTrivia inComment t ∧ Lined t := by
  fun_induction trivia inComment s generalizing t with
  | case1 => cases hs
  | case2 ic s x rest hx ih =>
    cases h
    by_cases hn : s = []
    · subst hn
      cases hx
      exact ⟨isTrivia_nil, rfl⟩
    · obtain ⟨ht, hl⟩ := ih (hs.of_suffix (List.suffix_cons _ s) hn) hx
      exact ⟨ht, lined_append ['\n'] hl⟩
  | case3 ic s x rest hx ih =>
    cases h
    by_cases hn : s = []
    · subst hn
      cases hx
      exact ⟨isTrivia_nil, rfl⟩
    · obtain ⟨ht, hl⟩ := ih ((hs.tail (by decide)).of_suffix (List.suffix_cons _ s) hn) hx
      exact ⟨ht, lined_append ['\n'] hl⟩
  | case4 ic c s hn hr hc x rest hx ih =>
    cases h
    have hn : c ≠ '\n' := fun he => hn he
    obtain ⟨ht, hl⟩ := ih (hs.tail hn) hx
    rw [IsTrivia, if_neg hn]
    exact ⟨⟨hc, ht⟩, lined_append [c] hl⟩
  | case5 => cases h

theorem trivia_hash_line {m y : List Char} (hm : '\n' ∉ m) (hy : y = [] ∨ y = ['\n'])
    (h : Statement.endsComment m y = true) :
    trivia false ('#' :: (m ++ y)) = ('#' :: (m.takeWhile isPrintable ++ y), []) := by
  have ht := Statement.trivia_comment hm (hy.imp_right fun h => ⟨[], h⟩)
  rw [if_pos h] at ht
  rw [trivia_cons (by decide) (by decide) (by decide), Bool.false_or, decide_eq_true rfl, ht]
  rcases hy with rfl | rfl <;> rfl

theorem comments_hash_line {m y : List Char} (hm : '\n' ∉ m) (hy : y = [] ∨ y = ['\n'])
    (h : Statement.endsComment m y = true) : comments ('#' :: (m ++ y)) = ['#' :: m.takeWhile isPrintable] := by
  have hall : ∀ c ∈ m.takeWhile isPrintable, isPrintable c = true := fun c hc => List.mem_takeWhile_imp hc
  have hcomment := lexemes_of_trivia (trivia_hash_line hm hy h)
  rw [lexemes_nil, List.append_nil] at hcomment
  rw [comments, hcomment, lexemes_hash]
  rcases hy with rfl | rfl
  · rw [List.append_nil, List.takeWhile_eq_self_iff.2 hall, List.dropWhile_eq_nil_iff.2 hall, lexemes_nil]
    rfl
  · rw [takeWhile_append_stop hall (by rintro c ⟨⟩; rfl), dropWhile_append_stop hall (by rintro c ⟨⟩; rfl),
      lexemes_cons (by decide), lexemes_nil]
    rfl

end Trivia

section Keys

variable {s r : List Char} {c : Char}

theorem simpleKey?_ahead {k : List Char × List Char} (h : simpleKey? s = some (k, r)) (hr : NoMark r) :
    Ahead [] s r := by
  have quoted {t : List Char} (ht : string? s = some (t, r)) : Ahead [] s r :=
    ⟨[consumed s r], lexemes_of_string? ht, by
      rw [List.filter_singleton, not_isComment_consumed ht]
      exact .refl _⟩
  unfold simpleKey? at h
  split at h
  · next u =>
    obtain ⟨⟨t, r'⟩, ht, he⟩ := Option.map_eq_some_iff.1 h
    cases he
    obtain ⟨a, rfl, ha⟩ := basicBody?_reads ht
    exact quoted (by rw [string?_basicBody (basicBody?_append_ne ha hr.1), ht])
  · next u =>
    obtain ⟨⟨t, r'⟩, ht, he⟩ := Option.map_eq_some_iff.1 h
    cases he
    obtain ⟨a, rfl, ha⟩ := literalBody?_reads ht
    exact quoted (by rw [string?_literalBody (literalBody?_append_ne ha hr.2), ht])
  · dsimp only at h
    split at h
    · cases h
    · cases h
      rw [drop_length_takeWhile]
      exact .of_eq (lexemes_dropWhile (fun _ => isQuiet_of_isBareKeyChar) s).symm

theorem noMark_of_dropWhile (h : (s.dropWhile isSpace).head? = some c) (hc : c ≠ '"' ∧ c ≠ '\'') :
    NoMark s := by
  cases s with
  | nil => cases h
  | cons d s =>
    by_cases hd : isSpace d = true
    · rcases isSpace_iff.1 hd with rfl | rfl <;> exact noMark_cons (by decide) (by decide) s
    · rw [List.dropWhile_cons_of_neg hd] at h
      cases h
      exact noMark_cons hc.1 hc.2 s

theorem spacedKeys?_ahead {ks : List Key} (h : spacedKeys? s = some (ks, c :: r))
    (hc : c ≠ '"' ∧ c ≠ '\'') : Ahead [] s (c :: r) := by
  fun_induction spacedKeys? s generalizing ks with
  | case1 s hk => cases h
  | case2 s before name spelling r0 hk key r' hr hlt =>
    rename_i ih
    obtain ⟨⟨ks', t⟩, hks, he⟩ := Option.map_eq_some_iff.1 h
    cases he
    have hno : NoMark r0 := noMark_of_dropWhile (c := '.') (by rw [hr]; rfl) (by decide)
    have hdot := (Ahead.space s).trans ((simpleKey?_ahead hk hno).trans (.space r0))
    rw [hr] at hdot
    exact hdot.trans ((Ahead.quiet (by decide) r').trans (ih hks))
  | case3 => cases h
  | case4 s before name spelling r0 hk key =>
    obtain ⟨rfl, hr⟩ := Prod.mk.inj (Option.some.inj h)
    have hno : NoMark r0 := noMark_of_dropWhile (c := c) (by rw [hr]; rfl) hc
    have hend := (Ahead.space s).trans ((simpleKey?_ahead hk hno).trans (.space r0))
    rwa [hr] at hend

theorem keyPath?_ahead {path : List Key} (h : keyPath? s = some (path, c :: r)) (hc : c ≠ '"' ∧ c ≠ '\'') :
    Ahead [] s (c :: r) := by
  obtain ⟨⟨ks, t⟩, hk, h⟩ := Option.bind_eq_some_iff.1 h
  dsimp only at h
  split at h
  · cases h
    exact spacedKeys?_ahead hk hc
  · cases h

end Keys

theorem flatMap_eq_of_forall₂ {α β γ : Type} {R : α → β → Prop} {as : List α} {bs : List β} {f : α → List γ}
    {g : β → List γ} (h : List.Forall₂ R as bs) (hf : ∀ a b, R a b → f a = g b) :
    as.flatMap f = bs.flatMap g := by
  induction h with
  | nil => rfl
  | cons hr _ ih => rw [List.flatMap_cons, List.flatMap_cons, hf _ _ hr, ih]

section Values

variable {read : List Char → Option (Value × List Char)} {s r : List Char} {v : Value}

/-- The comments that are read with a value stand in its spelling. -/
def Spares (read : List Char → Option (Value × List Char)) : Prop :=
  ∀ s v r, read s = some (v, r) → v.Legible read ∧ Ahead (comments v.spelling) s r

theorem Spares.legible (hp : Spares read) (s : List Char) (v : Value) (r : List Char)
    (h : read s = some (v, r)) : v.Legible read :=
  (hp s v r h).1

theorem Spares.ahead (hp : Spares read) (h : read s = some (v, r)) : Ahead (comments v.spelling) s r :=
  (hp s v r h).2

theorem Spares.comments_spelling (hp : Spares read) (hv : v.Legible read) (hr : EndsValue r) :
    (comments (v.spelling ++ r)).Perm (comments v.spelling ++ comments r) :=
  (hp.ahead (hv.reads r hr)).comments_perm

theorem isQuiet_of_mem_token {c : Char} (h : c ∈ token s) : isQuiet c = true := by
  have run {u : List Char} (hc : c ∈ u.takeWhile isTokenChar) : isQuiet c = true :=
    isQuiet_of_isTokenChar (List.mem_takeWhile_imp hc)
  rw [token] at h
  split at h
  · split at h
    · rw [List.mem_append, List.mem_cons] at h
      rcases h with h | rfl | h
      · exact run h
      · decide
      · exact run h
    · exact run h
  · exact run h

theorem plain?_ahead (h : plain? s = some (v, r)) : Ahead (comments v.spelling) s r := by
  obtain ⟨c, s, rfl, hc⟩ := plain?_head h
  by_cases hm : c = '"' ∨ c = '\''
  · rw [plain?_mark hm] at h
    obtain ⟨⟨t, r'⟩, ht, he⟩ := Option.map_eq_some_iff.1 h
    cases he
    refine ⟨[consumed (c :: s) r], lexemes_of_string? ht, ?_⟩
    obtain ⟨a, ha, hread⟩ := string?_reads ht
    have hself := lexemes_of_string? (hread [] (by simp [NoMark]))
    rw [ha, consumed_append, comments]
    rw [List.append_nil] at hself
    rw [hself, lexemes_nil, consumed, List.length_nil, Nat.sub_zero, List.take_length]
  · rw [not_or] at hm
    rw [plain?_scalar hm.1 hm.2] at h
    obtain ⟨⟨⟨t, d⟩, r'⟩, ht, he⟩ := Option.map_eq_some_iff.1 h
    cases he
    rw [scalar?] at ht
    obtain ⟨d', hd, he⟩ := Option.map_eq_some_iff.1 ht
    cases he
    obtain ⟨u, hu, -⟩ := token_extent (c :: s)
    have hquiet : ∀ x ∈ token (c :: s), isQuiet x = true := fun x hx => isQuiet_of_mem_token hx
    have hdrop : (c :: s).drop (token (c :: s)).length = u := by
      conv_lhs => rw [hu]
      rw [List.drop_left' (by rw [← hu])]
    rw [hdrop, comments_of_quiet hquiet]
    refine .of_eq ?_
    conv_lhs => rw [hu]
    exact lexemes_append_of_quiet hquiet u

theorem items?_ahead (hp : Spares read) (hh : ∀ s v r, read s = some (v, r) → ∃ c t, s = c :: t ∧ startsValue c = true)
    {text : List Char} {ds : List Data} (h : items? read s = some ((ds, text), r)) :
    Ahead (comments text) s r := by
  have before {s t r : List Char} {v : Value} {u : List Char} (ht : trivia false s = (t, r))
      (hv : read r = some (v, u)) : IsTrivia false t := by
    obtain ⟨c, x, rfl, hc⟩ := hh _ _ _ hv
    exact isTrivia_of_trivia ht (isPrintable_of_startsValue hc)
  replace h := items_of_items? h
  induction h with
  | close hb =>
    rw [comments_append_of_isTrivia (isTrivia_of_trivia hb (by decide)), comments_cons (by decide), comments_nil]
    exact (trivia_ahead hb).trans (.quiet (by decide) _)
  | last hb hv ha =>
    have ht : IsTrivia false _ := isTrivia_of_trivia ha (by decide)
    refine ((trivia_ahead hb).trans ((hp.ahead hv).trans ((trivia_ahead ha).trans (.quiet (by decide) _)))).perm ?_
    rw [List.append_assoc, List.append_assoc, comments_append_of_isTrivia (before hb hv)]
    refine (List.Perm.trans ?_ (hp.comments_spelling (hp.legible _ _ _ hv)
      ((endsValue_of_mem (by decide) []).trivia ht)).symm).append_left _
    rw [comments_append_of_isTrivia ht, comments_cons (by decide), comments_nil]
  | @comma _ _ _ _ _ _ text _ _ _ hb hv ha _ _ ih =>
    have ht : IsTrivia false _ := isTrivia_of_trivia ha (by decide)
    refine ((trivia_ahead hb).trans ((hp.ahead hv).trans ((trivia_ahead ha).trans
      ((Ahead.quiet (by decide) _).trans ih)))).perm ?_
    rw [List.append_assoc, List.append_assoc, comments_append_of_isTrivia (before hb hv)]
    refine (List.Perm.trans ?_ (hp.comments_spelling (hp.legible _ _ _ hv)
      ((endsValue_of_mem (by decide) text).trivia ht)).symm).append_left _
    rw [comments_append_of_isTrivia ht, comments_cons (by decide)]
    exact .refl _

theorem pair?_ahead (hp : Spares read) {e : Entry} (h : pair? read s = some (e, r)) :
    Ahead (comments e.value.spelling) s r := by
  unfold pair? at h
  split at h
  · next path r' hk =>
    obtain ⟨⟨v, rest⟩, hv, he⟩ := Option.map_eq_some_iff.1 h
    cases he
    have hvalue := (hp.ahead hv).trans (.space rest)
    rw [List.append_nil] at hvalue
    exact (keyPath?_ahead hk (by decide)).trans ((Ahead.quiet (by decide) r').trans ((Ahead.space r').trans hvalue))
  · cases h

theorem pairs?_ahead (hp : Spares read) {es : List Entry} (h : pairs? read s = some (es, r)) :
    Ahead (es.flatMap fun e => comments e.value.spelling) s r := by
  replace h := pairs_of_pairs? h
  induction h with
  | last hpair =>
    rw [List.flatMap_singleton]
    have hone := (pair?_ahead hp hpair).trans (.quiet (by decide) _)
    rwa [List.append_nil] at hone
  | comma hpair _ _ ih =>
    rw [List.flatMap_cons]
    exact (pair?_ahead hp hpair).trans ((Ahead.quiet (by decide) _).trans ih)

theorem inline?_ahead (hp : Spares read) (h : inline? read s = some (v, r)) :
    Ahead (comments v.spelling) ('{' :: s) r := by
  refine (Ahead.quiet (by decide) s).trans ?_
  unfold inline? at h
  split at h
  · next rest hs =>
    cases h
    have hd := Ahead.space s
    rw [hs] at hd
    refine (hd.trans (.quiet (by decide) _)).perm (.of_eq (comments_of_quiet fun c hc => ?_).symm)
    simp only [List.cons_append, List.mem_cons, List.mem_append, List.not_mem_nil, or_false] at hc
    rcases hc with rfl | hc | rfl
    · decide
    · exact isQuiet_of_isSpace (List.mem_takeWhile_imp hc)
    · decide
  · next hne =>
    obtain ⟨⟨es, rest⟩, hpairs, h⟩ := Option.bind_eq_some_iff.1 h
    obtain ⟨cs, hd, h⟩ := Option.bind_eq_some_iff.1 h
    cases h
    obtain ⟨hes, hknown⟩ := pairs?_known hp.legible hpairs
    have hnil : GrownAll (inlineLeaf read) true (keyLimit - 1) [] := trivial
    have hgrown := hnil.of_defineAll? hknown hd
    have hne := OwnAll.entriesUnder_ne_nil [] cs (hgrown.2 (.inr hes)) (GrownAll.ownAll cs hgrown.1)
    have htext := (Ahead.quiet (c := '{') (by decide) _).trans
      (pairs?_ahead hp (pairs?_texts hne (GrownAll.known cs hgrown.1) ([' '], [' ']) []))
    have htext := htext.comments_perm
    rw [comments_nil, List.append_nil, List.nil_append] at htext
    obtain ⟨fs, hfs, hperm⟩ := kept_of_defineAll? hknown hd
    refine (pairs?_ahead hp hpairs).perm (List.Perm.trans ?_ htext.symm)
    refine List.Perm.trans (.of_eq ?_) (hperm.flatMap_right _).symm
    exact flatMap_eq_of_forall₂ hfs fun e f hk => by rw [hk.value]

theorem spares_value? (n : Nat) : Spares (value? n) := by
  induction n with
  | zero =>
    intro s v r h
    exact ⟨value?_legible 0 h, plain?_ahead (by rwa [value?] at h)⟩
  | succ n ih =>
    intro s v r h
    refine ⟨value?_legible _ h, ?_⟩
    unfold value? at h
    split at h
    · next s =>
      obtain ⟨⟨⟨ds, text⟩, rest⟩, hi, he⟩ := Option.map_eq_some_iff.1 h
      cases he
      have hitems := (Ahead.quiet (c := '[') (by decide) s).trans (items?_ahead ih (fun _ _ _ => value?_head) hi)
      rw [comments_cons (by decide)]
      exact hitems
    · exact inline?_ahead ih h
    · exact plain?_ahead h

theorem comments_quote_append (v : List Char) (hr : NoMark r) : comments (quote v ++ r) = comments r := by
  have hs := string?_quote hr v
  rw [comments, lexemes_of_string? hs, List.filter_cons_of_neg (by rw [not_isComment_consumed hs]; simp)]
  rfl

theorem comments_itemLines (vs : List (List Char)) (r : List Char) :
    comments (itemLines vs ++ r) = comments r := by
  induction vs with
  | nil => rfl
  | cons v vs ih =>
    have hspace : ∀ c ∈ "\n    ".toList, isQuiet c = true := List.all_eq_true.1 rfl
    rw [itemLines, List.flatMap_cons, ← itemLines]
    simp only [List.append_assoc]
    rw [comments, lexemes_append_of_quiet hspace, ← comments, List.singleton_append,
      comments_quote_append v (noMark_cons (by decide) (by decide) _), comments_cons (by decide), ih]

theorem comments_arrayText (vs : List (List Char)) : comments (arrayText vs) = [] := by
  match vs with
  | [] => exact comments_of_quiet (t := ['[', ']']) (List.all_eq_true.1 rfl)
  | [v] =>
    rw [arrayText, List.cons_append, comments_cons (by decide),
      comments_quote_append v (noMark_cons (by decide) (by decide) []), comments_cons (by decide), comments_nil]
  | u :: v :: vs =>
    have hlines : arrayText (u :: v :: vs) = '[' :: (itemLines (u :: v :: vs) ++ ['\n', ']']) := rfl
    rw [hlines, comments_cons (by decide), comments_itemLines, comments_of_quiet (List.all_eq_true.1 rfl)]

end Values

section Statements

def Entry.before (e : Entry) : List Char :=
  ((pathSpace e.path).getD ([], [])).1

def Entry.comments (e : Entry) : List (List Char) :=
  Toml.comments e.before ++ Toml.comments e.value.spelling ++ Toml.comments e.after

def Header.comments (h : Header) : List (List Char) :=
  Toml.comments h.before ++ Toml.comments h.after

def Statement.comments : Statement → List (List Char)
  | .header h => h.comments
  | .entry e => e.comments

def Statement.commentsOf (p : List Statement × List Char) : List (List Char) :=
  p.1.flatMap Statement.comments ++ Toml.comments p.2

variable {before s r rest t : List Char} {sts : List Statement}

theorem Entry.read?_ahead {e : Entry} (hb : trivia false s = (before, r))
    (h : Entry.read? before r = some (e, rest)) : Ahead e.comments s rest := by
  simp only [Entry.read?, Option.bind_eq_bind, Option.bind_eq_some_iff] at h
  obtain ⟨⟨path, r1⟩, hp, r2, hr2, ⟨v, r3⟩, hv, ⟨behind, rest'⟩, hl, he⟩ := h
  cases he
  obtain rfl : r1 = '=' :: r2 := eq_of_after? hr2
  obtain ⟨-, b, a, hb', -, hset⟩ := keyPath?_reads hp
  obtain ⟨k, hk, ⟨-, hout⟩, -⟩ := (settled_lead hset before).last
  have hbefore : Toml.comments (before ++ b) = Toml.comments before := by
    rw [comments_append_of_isTrivia (isTrivia_before hb hp), comments_of_quiet fun c hc => isQuiet_of_isSpace (hb' c hc),
      List.append_nil]
  rw [Entry.comments, Entry.before, pathSpace, hk, Option.bind_some, hout, Option.getD_some, hbefore, List.append_assoc]
  exact (trivia_ahead hb).trans ((keyPath?_ahead hp (by decide)).trans ((Ahead.quiet (by decide) r2).trans
    ((Ahead.space r2).trans (((spares_value? depthLimit).ahead hv).trans (lineEnd?_ahead hl)))))

theorem Header.read?_ahead {h : Header} {element : Bool} (hr : Header.read? before element r = some (h, rest)) :
    h.before = before ∧ Ahead (Toml.comments h.after) r rest := by
  simp only [Header.read?, Option.bind_eq_bind, Option.bind_eq_some_iff] at hr
  obtain ⟨⟨path, r1⟩, hp, r2, hr2, ⟨after, rest'⟩, hl, he⟩ := hr
  cases he
  refine ⟨rfl, ?_⟩
  obtain rfl : r1 = (if element then [']', ']'] else [']']) ++ r2 := eq_of_after? hr2
  cases element with
  | true => exact (keyPath?_ahead hp (by decide)).trans ((Ahead.quiet (by decide) _).trans
      ((Ahead.quiet (by decide) _).trans (lineEnd?_ahead hl)))
  | false => exact (keyPath?_ahead hp (by decide)).trans ((Ahead.quiet (by decide) _).trans (lineEnd?_ahead hl))

theorem Statement.read?_ahead {st : Statement} (hb : trivia false s = (before, r))
    (h : Statement.read? before r = some (st, rest)) : Ahead st.comments s rest := by
  unfold Statement.read? at h
  split at h
  · next u =>
    obtain ⟨⟨hd, rest'⟩, hr, he⟩ := Option.map_eq_some_iff.1 h
    cases he
    obtain ⟨rfl, hahead⟩ := Header.read?_ahead hr
    exact (trivia_ahead hb).trans ((Ahead.quiet (by decide) _).trans ((Ahead.quiet (by decide) u).trans hahead))
  · next u _ =>
    obtain ⟨⟨hd, rest'⟩, hr, he⟩ := Option.map_eq_some_iff.1 h
    cases he
    obtain ⟨rfl, hahead⟩ := Header.read?_ahead hr
    exact (trivia_ahead hb).trans ((Ahead.quiet (by decide) u).trans hahead)
  · obtain ⟨⟨e, rest'⟩, hr, he⟩ := Option.map_eq_some_iff.1 h
    cases he
    exact Entry.read?_ahead hb hr

/-- The comments of a text are those of its lines, and those that trail behind them. -/
theorem Statement.readAll?_ahead (h : Statement.readAll? s = some (sts, t)) :
    Ahead (Statement.commentsOf (sts, t)) s [] := by
  fun_induction Statement.readAll? s generalizing sts t with
  | case1 s before ht =>
    cases h
    exact trivia_ahead ht
  | case2 => cases h
  | case3 s before r ht hr st rest hst hlt ih =>
    obtain ⟨⟨sts', t'⟩, hall, he⟩ := Option.map_eq_some_iff.1 h
    cases he
    rw [Statement.commentsOf, List.flatMap_cons, List.append_assoc]
    exact (Statement.read?_ahead ht hst).trans (ih hall)
  | case4 => cases h

theorem pathSpace_lead (t : List Char) (path : List Key) :
    pathSpace (lead t path) = (pathSpace path).map fun p => (t ++ p.1, p.2) := by
  induction path with
  | nil => rfl
  | cons k path ih =>
    cases path with
    | nil => rfl
    | cons l path =>
      have hne : lead t (l :: path) ≠ [] := fun he => by
        have hlen := length_lead t (l :: path)
        rw [he] at hlen
        cases hlen
      rw [Statement.lead_cons_cons, pathSpace, List.getLast?_cons_of_ne_nil hne, ← pathSpace, ih, pathSpace,
        pathSpace, List.getLast?_cons_cons]

theorem Statement.comments_behind {st : Statement} (hk : st.Known) (ht : IsTrivia false t) :
    (st.behind t).comments = Toml.comments t ++ st.comments := by
  cases st with
  | header h =>
    rw [behind, comments, comments, Header.comments, Header.comments, comments_append_of_isTrivia ht, List.append_assoc]
  | entry e =>
    obtain ⟨k, hlast, ⟨⟨b, a, -, -, -, hout⟩, -⟩, -⟩ := hk.1.last
    have hspace : pathSpace e.path = some (b, a) := by rw [pathSpace, hlast, Option.bind_some, hout]
    rw [behind, comments, comments, Entry.comments, Entry.comments, Entry.before, Entry.before, pathSpace_lead, hspace,
      Option.map_some, Option.getD_some, Option.getD_some, comments_append_of_isTrivia ht]
    simp only [List.append_assoc]

theorem Statement.commentsOf_allBehind {p : List Statement × List Char} (hk : ∀ st ∈ p.1, st.Known)
    (ht : IsTrivia false t ∨ p = ([], [])) :
    commentsOf (allBehind t p) = Toml.comments t ++ commentsOf p := by
  obtain ⟨_ | ⟨st, sts⟩, u⟩ := p
  · rcases ht with ht | ht
    · simp only [allBehind, commentsOf, List.flatMap_nil, List.nil_append, comments_append_of_isTrivia ht]
    · cases ht
      simp [allBehind, commentsOf]
  · have ht := ht.resolve_right (by simp)
    rw [allBehind, commentsOf, commentsOf, List.flatMap_cons, List.flatMap_cons,
      comments_behind (hk st List.mem_cons_self) ht]
    simp only [List.append_assoc]

theorem Statement.isTrivia_of_readAll? (hs : Whole s) (h : Statement.readAll? s = some (sts, t)) :
    IsTrivia false t ∧ Whole t := by
  fun_induction Statement.readAll? s generalizing sts t with
  | case1 s before ht =>
    cases h
    rcases hs with rfl | hs
    · cases ht
      exact ⟨isTrivia_nil, .inl rfl⟩
    · exact (isTrivia_of_lined hs ht).imp_right .inr
  | case2 => cases h
  | case3 s before r ht hr st rest hst hlt ih =>
    obtain ⟨⟨sts', t'⟩, hall, he⟩ := Option.map_eq_some_iff.1 h
    cases he
    have hs : Lined s := by
      refine hs.resolve_left ?_
      rintro rfl
      exact absurd hlt (Nat.not_lt_zero _)
    exact ih ((Statement.read?_extent hst).lined (hs.of_suffix (trivia_suffix ht) hr)) hall
  | case4 => cases h

theorem Statement.comments_perm (h : Statement.readAll? s = some (sts, t)) :
    (Toml.comments s).Perm (commentsOf (sts, t)) := by
  have hall := (Statement.readAll?_ahead h).comments_perm
  rwa [comments_nil, List.append_nil] at hall

end Statements

end CBuild.Toml
