import CBuild.Glob.Pattern
import CBuild.Proofs.Path.Joining
import Mathlib.Data.List.Forall2

/-! Patterns behind a path. Where the path has no characters that mean something in a pattern, its parts are literal
components, and those of the pattern are what they are by themselves. -/

namespace CBuild.Glob

variable {c : Char} {s front pattern : List Char} {base : Path} {pat : Pattern} {parts : List (List Char)}

section Literals

theorem isPattern_cons : isPattern (c :: s) = false ↔ (c ≠ '*' ∧ c ≠ '?' ∧ c ≠ '[') ∧ isPattern s = false := by
  unfold isPattern
  rw [List.any_cons, Bool.or_eq_false_iff]
  simp [and_assoc]

theorem isPattern_eq_false_iff : isPattern s = false ↔ ∀ c ∈ s, c ≠ '*' ∧ c ≠ '?' ∧ c ≠ '[' := by
  induction s with
  | nil => simp [isPattern]
  | cons c s ih => rw [isPattern_cons, ih, List.forall_mem_cons]

theorem tokens_char (hc : c ≠ '*' ∧ c ≠ '?' ∧ c ≠ '[') (start : Bool) (s : List Char) :
    tokens start (c :: s) = (tokens (c = '/') s).map (.char c :: ·) := by
  obtain ⟨hstar, hany, hopen⟩ := hc
  rw [tokens]
  case x => exact hany
  case x_6 => exact hopen
  case x_3 => exact fun h _ => hstar h
  case x_5 => exact hstar
  all_goals exact fun _ h _ => hstar h

theorem tokens_literal (h : isPattern s = false) (start : Bool) : tokens start s = .ok (s.map .char) := by
  induction s generalizing start with
  | nil =>
    rw [tokens]
    rfl
  | cons c s ih =>
    rw [isPattern_cons] at h
    rw [tokens_char h.1, ih h.2]
    rfl

theorem tokensOf_literal (h : isPattern s = false) : tokensOf s = .ok (s.map .char) := by
  unfold tokensOf
  rw [tokens_literal h]
  rfl

theorem tokens_behind (h : isPattern front = false) (start : Bool) (s : List Char) :
    tokens start (front ++ '/' :: s) = (tokens true s).map ((front ++ ['/']).map Token.char ++ ·) := by
  induction front generalizing start with
  | nil => exact tokens_char (by decide) start s
  | cons c front ih =>
    rw [isPattern_cons] at h
    rw [List.cons_append, tokens_char h.1, ih h.2]
    cases tokens true s <;> rfl

theorem isPattern_of_sublist {r : List Char} (h : isPattern s = false) (hr : r.Sublist s) : isPattern r = false := by
  rw [isPattern_eq_false_iff] at h ⊢
  exact fun c hc => h c (hr.subset hc)

theorem isPattern_part (h : isPattern s = false) : ∀ part ∈ s.splitOn '/', isPattern part = false :=
  fun _ hpart => isPattern_of_sublist h (Path.sublist_of_mem_parts (p := ⟨s⟩) hpart)

theorem mapM_literal (h : ∀ part ∈ parts, isPattern part = false) :
    parts.mapM tokensOf = .ok (parts.map (List.map .char)) := by
  induction parts with
  | nil => rfl
  | cons part parts ih =>
    rw [List.forall_mem_cons] at h
    rw [List.mapM_cons, tokensOf_literal h.1, ih h.2]
    rfl

end Literals

section Components

theorem splitComponents_behind (front pattern : List Char) :
    splitComponents (front ++ '/' :: pattern) = front.splitOn '/' ++ splitComponents pattern := by
  have hne : pattern.splitOn '/' ≠ [] := List.splitOn_ne_nil _ _
  unfold splitComponents
  dsimp only
  rw [List.splitOn_append_cons_self, List.getLast?_append_of_ne_nil _ hne]
  split
  · rw [List.dropLast_append_of_ne_nil hne]
  · rfl

theorem splitComponents_sublist (s : List Char) : (splitComponents s).Sublist (s.splitOn '/') := by
  unfold splitComponents
  dsimp only
  split
  · exact List.dropLast_sublist _
  · exact List.Sublist.refl _

def body (s : List Char) : List Char :=
  if s.head? = some '/' then s.drop 1 else s

def texts (s : List Char) : List (List Char) :=
  if body s = [] then [[]] else splitComponents (body s)

theorem parse_eq_ok_iff : Pattern.parse s = .ok pat ↔ (∃ ts, tokensOf s = .ok ts) ∧
    ∃ components, (texts s).mapM tokensOf = .ok components ∧
      pat = ⟨s.head? = some '/', components, s.getLast? = some '/'⟩ := by
  have hparse : Pattern.parse s = (tokensOf s).bind fun _ => ((texts s).mapM tokensOf).bind fun components =>
      .ok ⟨s.head? = some '/', components, s.getLast? = some '/'⟩ := by
    unfold Pattern.parse texts body
    simp only
    rfl
  rw [hparse]
  cases tokensOf s with
  | error e => simp [Except.bind]
  | ok ts =>
    cases (texts s).mapM tokensOf with
    | error e => simp [Except.bind]
    | ok components =>
      constructor
      · intro h
        cases h
        exact ⟨⟨ts, rfl⟩, components, rfl, rfl⟩
      · rintro ⟨-, _, hcomponents, rfl⟩
        cases hcomponents
        rfl

theorem tokensOf_eq_ok_iff {ts : List Token} : tokensOf s = .ok ts ↔ tokens true s = .ok ts := by
  unfold tokensOf
  cases tokens true s with
  | error e => simp [Except.mapError]
  | ok us =>
    constructor
    · intro h
      cases h
      rfl
    · intro h
      cases h
      rfl

theorem body_sublist (s : List Char) : (body s).Sublist s := by
  unfold body
  split
  · exact List.drop_sublist _ _
  · exact List.Sublist.refl _

theorem parse_literal (h : isPattern s = false) : ∃ components,
    Pattern.parse s = .ok ⟨s.head? = some '/', components, s.getLast? = some '/'⟩ := by
  have hbody : isPattern (body s) = false := isPattern_of_sublist h (body_sublist s)
  have htexts : ∀ part ∈ texts s, isPattern part = false := by
    unfold texts
    split
    · simp [isPattern]
    · exact fun part hpart => isPattern_part hbody part ((splitComponents_sublist _).subset hpart)
  exact ⟨_, parse_eq_ok_iff.2 ⟨⟨_, tokensOf_literal h⟩, _, mapM_literal htexts, rfl⟩⟩

def inner : List Char → List (List Char)
  | [] => []
  | c :: s => if c = '/' then s.splitOn '/' else (c :: s).splitOn '/'

theorem texts_behind (front : List Char) (hrelative : pattern.head? ≠ some '/') (hne : pattern ≠ []) :
    texts (front ++ '/' :: pattern) = inner front ++ texts pattern := by
  have halone : texts pattern = splitComponents pattern := by
    unfold texts body
    rw [if_neg hrelative, if_neg hne]
  rw [halone]
  cases front with
  | nil =>
    have hbody : body ([] ++ '/' :: pattern) = pattern := rfl
    rw [texts, hbody, if_neg hne]
    rfl
  | cons c front =>
    by_cases hc : c = '/'
    · have hbody : body (c :: front ++ '/' :: pattern) = front ++ '/' :: pattern := by
        rw [hc]
        rfl
      rw [texts, hbody, if_neg (by simp), splitComponents_behind, inner, if_pos hc]
    · have hbody : body (c :: front ++ '/' :: pattern) = c :: front ++ '/' :: pattern := by
        unfold body
        rw [if_neg (by simpa using hc)]
      rw [texts, hbody, if_neg (by simp), splitComponents_behind, inner, if_neg hc]

theorem isPattern_inner (h : isPattern front = false) : ∀ part ∈ inner front, isPattern part = false := by
  unfold inner
  split
  · exact List.forall_mem_nil _
  next c s =>
    split
    · exact isPattern_part (isPattern_cons.1 h).2
    · exact isPattern_part h

theorem mapM_append_ok {xs ys : List (List Char)} {as bs : List (List Token)} (hxs : xs.mapM tokensOf = .ok as)
    (hys : ys.mapM tokensOf = .ok bs) : (xs ++ ys).mapM tokensOf = .ok (as ++ bs) := by
  rw [List.mapM_append, hxs, hys]
  rfl

/-- A pattern with the parts of a text, and a slash, in front. -/
def Pattern.behind (front : List Char) (pat : Pattern) : Pattern :=
  ⟨(front ++ ['/']).head? = some '/', (inner front).map (List.map .char) ++ pat.components, pat.wantsDirectory⟩

theorem parse_behind (hfront : isPattern front = false) (hpat : Pattern.parse pattern = .ok pat)
    (hrelative : pattern.head? ≠ some '/') (hne : pattern ≠ []) :
    Pattern.parse (front ++ '/' :: pattern) = .ok (pat.behind front) := by
  obtain ⟨⟨ts, hts⟩, components, hcomponents, rfl⟩ := parse_eq_ok_iff.1 hpat
  have htokens : tokensOf (front ++ '/' :: pattern) = .ok ((front ++ ['/']).map .char ++ ts) := by
    rw [tokensOf_eq_ok_iff, tokens_behind hfront, tokensOf_eq_ok_iff.1 hts]
    rfl
  have hhead : (front ++ '/' :: pattern).head? = (front ++ ['/']).head? := by
    cases front with
    | nil => rfl
    | cons c front => rfl
  have hlast : (front ++ '/' :: pattern).getLast? = pattern.getLast? := by
    rw [← List.singleton_append, ← List.append_assoc, List.getLast?_append_of_ne_nil _ hne]
  refine parse_eq_ok_iff.2 ⟨⟨_, htokens⟩, (inner front).map (List.map .char) ++ components, ?_, ?_⟩
  · rw [texts_behind front hrelative hne]
    exact mapM_append_ok (mapM_literal (isPattern_inner hfront)) hcomponents
  · rw [Pattern.behind, hhead, hlast]

/-- A pattern that is well formed behind a text of literal characters is so by itself. -/
theorem exists_parse_of_behind (hfront : isPattern front = false)
    (h : Pattern.parse (front ++ '/' :: pattern) = .ok pat) (hrelative : pattern.head? ≠ some '/') (hne : pattern ≠ []) :
    ∃ pat, Pattern.parse pattern = .ok pat := by
  obtain ⟨⟨ts, hts⟩, components, hcomponents, -⟩ := parse_eq_ok_iff.1 h
  have htokens : ∃ ts, tokensOf pattern = .ok ts := by
    rw [tokensOf_eq_ok_iff, tokens_behind hfront] at hts
    cases hpattern : tokens true pattern with
    | error e =>
      rw [hpattern] at hts
      cases hts
    | ok us => exact ⟨us, tokensOf_eq_ok_iff.2 hpattern⟩
  rw [texts_behind front hrelative hne, List.mapM_append, mapM_literal (isPattern_inner hfront)] at hcomponents
  cases htexts : (texts pattern).mapM tokensOf with
  | error e =>
    rw [htexts] at hcomponents
    cases hcomponents
  | ok cs => exact ⟨_, parse_eq_ok_iff.2 ⟨htokens, cs, htexts, rfl⟩⟩

theorem texts_ne_nil (s : List Char) : texts s ≠ [] := by
  unfold texts
  split
  · simp
  next hbody =>
    unfold splitComponents
    dsimp only
    split
    next hlast =>
      intro hnil
      obtain ⟨parts, hparts⟩ := List.getLast?_eq_some_iff.1 hlast
      rw [hparts, List.dropLast_concat] at hnil
      have hchars : ['/'].intercalate ((body s).splitOn '/') = body s := List.intercalate_splitOn _
      rw [hparts, hnil] at hchars
      exact hbody hchars.symm
    next => exact List.splitOn_ne_nil _ _

theorem slash_not_mem_texts (s : List Char) : ∀ part ∈ texts s, '/' ∉ part := by
  unfold texts
  split
  · simp
  · exact fun part hpart => Path.slash_not_mem _ part ((splitComponents_sublist _).subset hpart)

theorem map_eq_ok {f : List Token → List Token} {r : Except Fault (List Token)} {ts : List Token}
    (h : r.map f = .ok ts) : ∃ us, r = .ok us ∧ f us = ts := by
  cases r with
  | error e => cases h
  | ok us =>
    cases h
    exact ⟨us, rfl, rfl⟩

theorem of_bracket? {r rest : List Char} {t : Token} (h : bracket? r = some (t, rest)) :
    rest.Sublist r ∧ ∀ c, t ≠ .char c := by
  unfold bracket? at h
  split at h
  all_goals
    simp only [Option.ite_none_right_eq_some, Option.ite_none_left_eq_some, Option.some.injEq,
      Prod.mk.injEq, reduceCtorEq] at h
  · obtain ⟨-, rfl, rfl⟩ := h
    exact ⟨((List.drop_sublist _ _).cons _).cons _, by simp⟩
  · obtain ⟨-, -, rfl, rfl⟩ := h
    exact ⟨(List.drop_sublist _ _).cons _, by simp⟩

theorem mem_of_mem_tokens {start : Bool} {ts : List Token} (h : tokens start s = .ok ts) (hc : .char c ∈ ts) :
    c ∈ s := by
  have behind {start : Bool} {s r : List Char} {t : Token} {ts : List Token}
      (ih : ∀ {ts}, tokens start r = .ok ts → .char c ∈ ts → c ∈ r) (hr : r.Sublist s) (ht : ∀ c, t ≠ .char c)
      (h : (tokens start r).map (t :: ·) = .ok ts) (hc : .char c ∈ ts) : c ∈ s := by
    obtain ⟨us, hus, rfl⟩ := map_eq_ok h
    rcases List.mem_cons.1 hc with rfl | hmem
    · exact absurd rfl (ht c)
    · exact hr.subset (ih hus hmem)
  fun_induction tokens start s generalizing ts
  case case1 =>
    cases h
    cases hc
  case case2 ih => exact behind (t := .any) ih (List.sublist_cons_self _ _) (by simp) h hc
  case case4 ih =>
    exact behind (t := .directories) ih (((List.sublist_cons_self _ _).cons _).cons _) (by simp) h hc
  case case6 =>
    cases h
    cases List.mem_singleton.1 hc
  case case9 ih => exact behind (t := .star) ih (List.sublist_cons_self _ _) (by simp) h hc
  case case11 hbracket _ ih =>
    obtain ⟨hrest, ht⟩ := of_bracket? hbracket
    exact behind ih (hrest.cons _) ht h hc
  case case12 ih =>
    obtain ⟨us, hus, rfl⟩ := map_eq_ok h
    rcases List.mem_cons.1 hc with hsame | hmem
    · cases hsame
      exact List.mem_cons_self
    · exact List.mem_cons_of_mem _ (ih hus hmem)
  all_goals cases h

theorem literal?_char (c : Char) (ts : List Token) : literal? (.char c :: ts) = (literal? ts).map (c :: ·) := by
  have hcons : literal? (.char c :: ts) = (literal? ts).bind fun x => some (c :: x) := by
    unfold literal?
    rw [List.mapM_cons]
    rfl
  rw [hcons]
  cases literal? ts <;> rfl

theorem eq_map_of_literal? {ts : List Token} {x : List Char} (h : literal? ts = some x) : ts = x.map .char := by
  induction ts generalizing x with
  | nil =>
    cases h
    rfl
  | cons t ts ih =>
    cases t with
    | char c =>
      rw [literal?_char, Option.map_eq_some_iff] at h
      obtain ⟨y, hy, rfl⟩ := h
      rw [ih hy]
      rfl
    | _ =>
      unfold literal? at h
      rw [List.mapM_cons] at h
      cases h

theorem forall₂_of_mapM {components : List (List Token)} (h : parts.mapM tokensOf = .ok components) :
    List.Forall₂ (fun part ts => tokensOf part = .ok ts) parts components := by
  induction parts generalizing components with
  | nil =>
    cases h
    exact .nil
  | cons part parts ih =>
    rw [List.mapM_cons] at h
    cases hpart : tokensOf part with
    | error e =>
      rw [hpart] at h
      cases h
    | ok ts =>
      cases hparts : parts.mapM tokensOf with
      | error e =>
        rw [hpart, hparts] at h
        cases h
      | ok rest =>
        rw [hpart, hparts] at h
        cases h
        exact .cons hpart (ih hparts)

theorem forall₂_components (h : Pattern.parse pattern = .ok pat) :
    List.Forall₂ (fun part ts => tokensOf part = .ok ts) (texts pattern) pat.components := by
  obtain ⟨-, components, hcomponents, rfl⟩ := parse_eq_ok_iff.1 h
  exact forall₂_of_mapM hcomponents

theorem slash_not_mem_literal {x : List Char} {ts : List Token} (h : Pattern.parse pattern = .ok pat)
    (hts : ts ∈ pat.components) (hx : literal? ts = some x) : '/' ∉ x := by
  intro hslash
  have htexts {parts : List (List Char)} {components : List (List Token)}
      (h : List.Forall₂ (fun part ts => tokensOf part = .ok ts) parts components) (hts : ts ∈ components) :
      ∃ part ∈ parts, tokensOf part = .ok ts := by
    induction h with
    | nil => cases hts
    | cons hpart _ ih =>
      rcases List.mem_cons.1 hts with rfl | hts
      · exact ⟨_, List.mem_cons_self, hpart⟩
      · obtain ⟨part, hmem, hpart⟩ := ih hts
        exact ⟨part, List.mem_cons_of_mem _ hmem, hpart⟩
  obtain ⟨part, hpart, htokens⟩ := htexts (forall₂_components h) hts
  rw [eq_map_of_literal? hx] at htokens
  have hmem : '/' ∈ part := mem_of_mem_tokens (tokensOf_eq_ok_iff.1 htokens) (List.mem_map_of_mem hslash)
  exact slash_not_mem_texts pattern part hpart hmem

theorem components_ne_nil (h : Pattern.parse pattern = .ok pat) : pat.components ≠ [] := by
  intro hnil
  have hlength := (forall₂_components h).length_eq
  rw [hnil] at hlength
  exact texts_ne_nil pattern (List.length_eq_zero_iff.1 hlength)

end Components

end CBuild.Glob
