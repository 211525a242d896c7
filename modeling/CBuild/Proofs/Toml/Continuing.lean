import CBuild.Proofs.Toml.Extent
import CBuild.Proofs.Toml.Statements

/-! A text read behind another. A text that ends with a line and reads by itself gives its lines first; what
trails behind them stands in front of the first line that follows. -/

namespace CBuild.Toml

section Lines

variable {before before' s r t : List Char}

/-- The reader takes a line from the front of the text, and the same line when the text ends with it and
goes on. -/
structure LineExtent (read : List Char → Option (α × List Char)) (s : List Char) (a : α) (r : List Char) :
    Prop where
  shorter : r.length < s.length
  lined : Lined s → r = [] ∨ Lined r
  append : Lined s → ∀ b, read (s ++ b) = some (a, r ++ b)

theorem eq_of_after? {p : List Char} (h : Text.after? p s = some r) : s = p ++ r := by
  rw [Text.after?] at h
  split at h
  · next hp =>
    obtain ⟨t, rfl⟩ := List.isPrefixOf_iff_prefix.1 hp
    cases h
    rw [List.drop_left]
  · cases h

theorem Entry.read?_extent {e : Entry} (h : Entry.read? before s = some (e, r)) :
    LineExtent (Entry.read? before) s e r := by
  simp only [Entry.read?, Option.bind_eq_bind, Option.bind_eq_some_iff] at h
  obtain ⟨⟨path, r1⟩, hp, r2, ha, ⟨v, r3⟩, hv, ⟨behind, rest⟩, hl, he⟩ := h
  cases he
  obtain rfl : r1 = _ := eq_of_after? ha
  have hpath := keyPath?_extent hp
  have hvalue := value?_extent depthLimit hv
  obtain ⟨hsuffix, hend⟩ := lineEnd?_extent hl
  have lined (hs : Lined s) : Lined r2 := (hpath.lined hs).tail (by decide)
  have left (hs : Lined s) := hvalue.lined ((lined hs).dropWhile isSpace_lineFeed)
  refine ⟨?_, fun hs => (hend (left hs)).1, fun hs b => ?_⟩
  · have h1 := (hsuffix.trans (hvalue.suffix.trans (List.dropWhile_suffix _))).length_le
    have h2 := hpath.suffix.length_le
    rw [List.length_append, List.length_singleton] at h2
    show rest.length < s.length
    omega
  · have hline := lined hs
    simp only [Entry.read?, hpath.append hs b, Option.bind_eq_bind, Option.bind_some, List.append_assoc,
      after?_append, hline.dropWhile_append isSpace_lineFeed, hline.takeWhile_append isSpace_lineFeed,
      hvalue.append (hline.dropWhile isSpace_lineFeed) b, (hend (left hs)).2 b]
    rfl

theorem Header.read?_extent {element : Bool} {h : Header}
    (hr : Header.read? before element s = some (h, r)) :
    LineExtent (Header.read? before element) s h r := by
  simp only [Header.read?, Option.bind_eq_bind, Option.bind_eq_some_iff] at hr
  obtain ⟨⟨path, r1⟩, hp, r2, ha, ⟨after, rest⟩, hl, he⟩ := hr
  cases he
  obtain rfl : r1 = _ := eq_of_after? ha
  have hpath := keyPath?_extent hp
  obtain ⟨hsuffix, hend⟩ := lineEnd?_extent hl
  have lined (hs : Lined s) : Lined r2 := by
    have h1 := hpath.lined hs
    cases element with
    | false => exact h1.tail (by decide)
    | true => exact (h1.tail (by decide)).tail (by decide)
  refine ⟨?_, fun hs => (hend (lined hs)).1, fun hs b => ?_⟩
  · have h1 := hsuffix.length_le
    have h2 := hpath.suffix.length_le
    have h3 : 0 < (if element then [']', ']'] else [']']).length := by cases element <;> decide
    rw [List.length_append] at h2
    show rest.length < s.length
    omega
  · simp only [Header.read?, hpath.append hs b, Option.bind_eq_bind, Option.bind_some, List.append_assoc,
      after?_append, (hend (lined hs)).2 b]
    rfl

end Lines

namespace Statement

variable {before before' s r t : List Char} {st : Statement}

theorem read?_extent (h : read? before s = some (st, r)) : LineExtent (read? before) s st r := by
  unfold read? at h
  split at h
  · next s =>
    obtain ⟨⟨hd, rest⟩, hr, he⟩ := Option.map_eq_some_iff.1 h
    cases he
    obtain ⟨hlt, hlined, happ⟩ := Header.read?_extent hr
    have tail (hs : Lined ('[' :: '[' :: s)) : Lined s := (hs.tail (by decide)).tail (by decide)
    refine ⟨by simp only [List.length_cons]; omega, fun hs => hlined (tail hs), fun hs b => ?_⟩
    rw [List.cons_append, List.cons_append, read?, happ (tail hs) b]
    rfl
  · next s hne =>
    obtain ⟨⟨hd, rest⟩, hr, he⟩ := Option.map_eq_some_iff.1 h
    cases he
    obtain ⟨hlt, hlined, happ⟩ := Header.read?_extent hr
    refine ⟨by simp only [List.length_cons]; omega, fun hs => hlined (hs.tail (by decide)), fun hs b => ?_⟩
    have hs := hs.tail (by decide)
    rw [List.cons_append, read?, happ hs b]
    · rfl
    · obtain ⟨c, u, rfl⟩ := List.exists_cons_of_ne_nil hs.ne_nil
      intro w hw
      exact hne u (by rw [(List.cons.inj hw).1])
  · next h2 h1 =>
    obtain ⟨⟨e, rest⟩, hr, he⟩ := Option.map_eq_some_iff.1 h
    cases he
    obtain ⟨hlt, hlined, happ⟩ := Entry.read?_extent hr
    refine ⟨hlt, hlined, fun hs b => ?_⟩
    obtain ⟨c, u, rfl⟩ := List.exists_cons_of_ne_nil hs.ne_nil
    have hc : c ≠ '[' := by
      rintro rfl
      exact h1 u rfl
    have happ := happ hs b
    rw [List.cons_append] at happ ⊢
    rw [read?, happ]
    · rfl
    · exact fun w hw => hc (List.cons.inj hw).1
    · exact fun w hw => hc (List.cons.inj hw).1

def behind (t : List Char) : Statement → Statement
  | .header h => .header { h with before := t ++ h.before }
  | .entry e => .entry { e with path := lead t e.path }

theorem lead_cons_cons (t : List Char) (k l : Key) (path : List Key) :
    lead t (k :: l :: path) = k :: lead t (l :: path) := rfl

theorem lead_lead (t u : List Char) (path : List Key) : lead t (lead u path) = lead (t ++ u) path := by
  induction path with
  | nil => rfl
  | cons k path ih =>
    cases path with
    | nil => cases h : k.outer <;> simp [lead, h]
    | cons l path =>
      obtain ⟨x, r, hx⟩ : ∃ x r, lead u (l :: path) = x :: r := by
        cases path with
        | nil => exact ⟨_, _, rfl⟩
        | cons m path => exact ⟨_, _, rfl⟩
      rw [lead_cons_cons, lead_cons_cons, ← ih, hx, lead_cons_cons]

theorem lead_nil (path : List Key) : lead [] path = path := by
  induction path with
  | nil => rfl
  | cons k path ih =>
    cases path with
    | nil =>
      obtain ⟨name, spelling, inner, outer⟩ := k
      cases outer <;> rfl
    | cons l path => rw [lead_cons_cons, ih]

theorem read?_behind (t before s : List Char) :
    read? (t ++ before) s = (read? before s).map fun p => (p.1.behind t, p.2) := by
  have hheader (element : Bool) (s : List Char) : Header.read? (t ++ before) element s =
      (Header.read? before element s).map fun p => ({ p.1 with before := t ++ p.1.before }, p.2) := by
    simp only [Header.read?, Option.bind_eq_bind, Option.map_bind, Function.comp_def, Option.pure_def,
      Option.map_some]
  have hentry : Entry.read? (t ++ before) s =
      (Entry.read? before s).map fun p => ({ p.1 with path := lead t p.1.path }, p.2) := by
    simp only [Entry.read?, Option.bind_eq_bind, Option.map_bind, Function.comp_def, Option.pure_def,
      Option.map_some, lead_lead]
  unfold read?
  split
  · rw [hheader, Option.map_map, Option.map_map]
    rfl
  · rw [hheader, Option.map_map, Option.map_map]
    rfl
  · rw [hentry, Option.map_map, Option.map_map]
    rfl

def allBehind (t : List Char) : List Statement × List Char → List Statement × List Char
  | ([], u) => ([], t ++ u)
  | (st :: sts, u) => (st.behind t :: sts, u)

theorem allBehind_nil (p : List Statement × List Char) : allBehind [] p = p := by
  obtain ⟨_ | ⟨st, sts⟩, v⟩ := p
  · rfl
  · cases st <;> simp [allBehind, behind, lead_nil]

theorem allBehind_allBehind (t u : List Char) (p : List Statement × List Char) :
    allBehind t (allBehind u p) = allBehind (t ++ u) p := by
  obtain ⟨_ | ⟨st, sts⟩, v⟩ := p
  · rw [allBehind, allBehind, allBehind, List.append_assoc]
  · cases st <;> simp [allBehind, behind, lead_lead]

theorem readAll?_behind (h : trivia false s = (t, r)) : readAll? s = (readAll? r).map (allBehind t) := by
  have hsolid : CBuild.Toml.trivia false r = ([], r) := solid_of_trivia h
  rw [readAll?, h, readAll?.eq_def r, hsolid]
  dsimp only
  by_cases hr : r = []
  · rw [if_pos hr, if_pos hr, Option.map_some, allBehind, List.append_nil]
  · have hread := read?_behind t [] r
    rw [List.append_nil] at hread
    rw [if_neg hr, if_neg hr, hread]
    cases hst : read? [] r with
    | none => rfl
    | some p =>
      obtain ⟨st, rest⟩ := p
      have hlt := (read?_extent hst).shorter
      have hle := (trivia_suffix h).length_le
      dsimp only [Option.map_some]
      rw [if_pos (by omega), if_pos hlt, Option.map_map]
      rfl

/-- A text that reads by itself reads in front of any other. -/
theorem readAll?_append {a : List Char} {sts : List Statement} (h : readAll? a = some (sts, t))
    (ha : a = [] ∨ Lined a) (b : List Char) :
    readAll? (a ++ b) = (readAll? b).map fun p => (sts ++ (allBehind t p).1, (allBehind t p).2) := by
  fun_induction readAll? a generalizing sts t with
  | case1 s before ht =>
    cases h
    rcases ha with rfl | hs
    · cases ht
      simp [allBehind_nil]
    · have hb := trivia_lined hs ht b
      rw [if_pos rfl] at hb
      rw [readAll?_behind hb, readAll?_behind (s := b) rfl, Option.map_map]
      refine congrArg (Option.map · _) (funext fun p => ?_)
      rw [Function.comp_apply, allBehind_allBehind, List.nil_append]
  | case2 => cases h
  | case3 s before r ht hr st rest hst hlt ih =>
    obtain ⟨⟨sts', t'⟩, hall, he⟩ := Option.map_eq_some_iff.1 h
    cases he
    have hs : Lined s := by
      refine ha.resolve_left ?_
      rintro rfl
      exact absurd hlt (Nat.not_lt_zero _)
    have hread := read?_extent hst
    have hr' := hs.of_suffix (trivia_suffix ht) hr
    have hb := trivia_lined hs ht b
    rw [if_neg hr] at hb
    rw [readAll?, hb]
    dsimp only
    rw [if_neg (by simp [hr]), hread.append hr' b]
    dsimp only
    rw [if_pos (by simp only [List.length_append]; omega), ih hall (hread.lined hr'), Option.map_map]
    rfl
  | case4 => cases h

theorem readAll?_of_trivia_append {c : List Char} {y : List Char}
    (h : trivia false s = (c ++ (trivia false y).1, (trivia false y).2)) :
    readAll? s = (readAll? y).map (allBehind c) := by
  rw [readAll?_behind h, readAll?_behind (s := y) rfl, Option.map_map]
  exact congrArg (Option.map · _) (funext fun p => (allBehind_allBehind _ _ p).symm)

theorem readAll?_eq_none {c : Char} (h : trivia false s = (t, c :: r)) (hs : isSpace c = false)
    (hb : isBareKeyChar c = false) (hm : c ≠ '"' ∧ c ≠ '\'' ∧ c ≠ '[') : readAll? s = none := by
  rw [readAll?, h]
  dsimp only
  rw [if_neg (List.cons_ne_nil c r), read?_eq_none hs hb hm]

section Comments

variable {m w y : List Char}

/-- What stands behind a number sign, in front of the rest `y` of a text, is a comment: it holds no control
character but a carriage return of its line end. -/
def endsComment : (m y : List Char) → Bool
  | [], _ => true
  | c :: m, y => if isPrintable c then endsComment m y else c = '\r' && m.isEmpty && !y.isEmpty

theorem endsComment_line (m x y : List Char) : endsComment m ('\n' :: x) = endsComment m ('\n' :: y) := by
  induction m with
  | nil => rfl
  | cons c m ih => rw [endsComment, endsComment, ih, List.isEmpty_cons, List.isEmpty_cons]

theorem endsComment_of_isPrintable (hm : ∀ c ∈ m, isPrintable c = true) (y : List Char) : endsComment m y = true := by
  induction m with
  | nil => rfl
  | cons c m ih =>
    rw [List.forall_mem_cons] at hm
    rw [endsComment, if_pos hm.1, ih hm.2]

/-- A comment runs up to the end of its line, or it holds a character that no comment may hold. -/
theorem trivia_comment (hm : '\n' ∉ m) (hy : y = [] ∨ ∃ x, y = '\n' :: x) :
    if endsComment m y = true then
      trivia true (m ++ y) = (m.takeWhile isPrintable ++ (trivia false y).1, (trivia false y).2)
    else ∃ c u, (trivia true (m ++ y)).2 = c :: u ∧ isPrintable c = false := by
  induction m with
  | nil =>
    rw [if_pos (by rw [endsComment])]
    rcases hy with rfl | ⟨x, rfl⟩
    · rfl
    · rw [List.nil_append, trivia_newline, trivia_newline]
      rfl
  | cons c m ih =>
    rw [List.mem_cons, not_or] at hm
    have hc : c ≠ '\n' := Ne.symm hm.1
    rw [List.cons_append]
    by_cases hp : isPrintable c = true
    · have hr : c ≠ '\r' := by
        rintro rfl
        exact absurd hp (by decide)
      have ih := ih hm.2
      rw [trivia_cons hc hr (by simp [hp]), endsComment, if_pos hp, Bool.true_or]
      split at ih
      · next he => rw [if_pos he, ih, List.takeWhile_cons_of_pos hp, List.cons_append]
      · next he =>
        rw [if_neg he]
        exact ih
    · rw [endsComment, if_neg hp, List.takeWhile_cons_of_neg hp]
      by_cases hr : c = '\r' ∧ m = [] ∧ y ≠ []
      -- a `\r` is passed over only when the line feed that ends the comment follows
      · obtain ⟨rfl, rfl, hne⟩ := hr
        obtain ⟨x, rfl⟩ := hy.resolve_left hne
        rw [if_pos (by simp), List.nil_append, trivia_return, trivia_newline]
        rfl
      · rw [if_neg (by simpa [and_assoc] using hr)]
        have hs : isSpace c = false := by
          by_contra h
          exact hp (isPrintable_of_isSpace (by simpa using h))
        have hh : c ≠ '#' := by
          rintro rfl
          exact hp (by decide)
        refine ⟨c, m ++ y, ?_, by simpa using hp⟩
        rw [trivia.eq_def]
        split
        · contradiction
        · next he =>
          exact absurd (List.cons.inj he).1 hc
        · next u he =>
          obtain ⟨rfl, hu⟩ := List.cons.inj he
          refine absurd ⟨rfl, ?_, ?_⟩ hr
          · cases m with
            | nil => rfl
            | cons d m =>
              obtain ⟨rfl, _⟩ := List.cons.inj hu
              exact absurd List.mem_cons_self hm.2
          · rintro rfl
            rw [List.append_nil] at hu
            exact hm.2 (hu ▸ List.mem_cons_self)
        · next c' u _ _ he =>
          obtain ⟨rfl, rfl⟩ := List.cons.inj he
          rw [if_neg (by simp [hs, hh, hp])]

theorem not_isBareKeyChar_of_isBlank {c : Char} (h : Text.isBlank c = true) : isBareKeyChar c = false := by
  have low : ∀ n < 128, Text.isBlank (Char.ofNat n) = true → isBareKeyChar (Char.ofNat n) = false := by
    decide
  by_cases hc : c.toNat < 128
  · rw [← Char.ofNat_toNat c] at h ⊢
    exact low c.toNat hc h
  · by_contra hb
    refine hc ?_
    simp only [Bool.not_eq_false, isBareKeyChar, Char.isAlphanum, Bool.or_eq_true, decide_eq_true_eq] at hb
    have upto {b : Char} (h : c.val ≤ b.val) (hlt : b.toNat < 128) : c.toNat < 128 :=
      Nat.lt_of_le_of_lt (UInt32.le_iff_toNat_le.1 h) hlt
    rcases hb with ((ha | hd) | rfl) | rfl
    · rcases (Bool.or_eq_true _ _).mp ha with hu | hl
      · exact upto (of_decide_eq_true hu).2 (by decide)
      · exact upto (of_decide_eq_true (Bool.and_eq_true_iff.1 hl).2) (by decide)
    · exact upto (of_decide_eq_true (Bool.and_eq_true_iff.1 hd).2) (by decide)
    · decide
    · decide

theorem readAll?_hash (hm : '\n' ∉ m) (hy : y = [] ∨ ∃ x, y = '\n' :: x) : readAll? ('#' :: (m ++ y)) =
    if endsComment m y = true then (readAll? y).map (allBehind ('#' :: m.takeWhile isPrintable)) else none := by
  have ht : trivia false ('#' :: (m ++ y)) = ('#' :: (trivia true (m ++ y)).1, (trivia true (m ++ y)).2) :=
    trivia_cons (by decide) (by decide) (by decide)
  have hcomment := trivia_comment hm hy
  split at hcomment
  · next he =>
    rw [if_pos he]
    refine readAll?_of_trivia_append ?_
    rw [ht, hcomment, List.cons_append]
  · next he =>
    obtain ⟨c, u, hcu, hc⟩ := hcomment
    have hne (d : Char) (hd : isPrintable d = true) : c ≠ d := by
      rintro rfl
      exact absurd (hc.symm.trans hd) Bool.false_ne_true
    rw [if_neg he]
    refine readAll?_eq_none (ht.trans (by rw [hcu])) ?_ ?_ ⟨hne _ (by decide), hne _ (by decide), hne _ (by decide)⟩
    · by_contra hs
      exact absurd (hc.symm.trans (isPrintable_of_isSpace (by simpa using hs))) Bool.false_ne_true
    · by_contra hb
      exact absurd (hc.symm.trans (isPrintable_of_isBareKeyChar (by simpa using hb))) Bool.false_ne_true

theorem solid_of_isBlank {c : Char} {s : List Char} (hc : c ≠ '\n') (hb : Text.isBlank c = true)
    (hs : isSpace c = false) (hn : s.head? ≠ some '\n') : Solid (c :: s) := by
  rw [Solid, trivia.eq_def]
  split
  · contradiction
  · next he => exact absurd (List.cons.inj he).1 hc
  · next u he => exact absurd (by rw [(List.cons.inj he).2, List.head?_cons]) hn
  · next c' u _ _ he =>
    obtain ⟨rfl, rfl⟩ := List.cons.inj he
    have hh : c ≠ '#' := by
      rintro rfl
      exact absurd hb (by decide)
    rw [if_neg (by simp [hs, hh])]

theorem readAll?_comment (hw : ∀ c ∈ w, Text.isBlank c = true) (hwn : '\n' ∉ w) (hm : '\n' ∉ m)
    (hy : y = [] ∨ ∃ x, y = '\n' :: x) : readAll? (w ++ '#' :: (m ++ y)) =
      if w.all isSpace && endsComment m y then
        (readAll? y).map (allBehind (w ++ '#' :: m.takeWhile isPrintable)) else none := by
  induction w with
  | nil => exact readAll?_hash hm hy
  | cons c w ih =>
    rw [List.forall_mem_cons] at hw
    rw [List.mem_cons, not_or] at hwn
    have hc : c ≠ '\n' := Ne.symm hwn.1
    rw [List.all_cons]
    by_cases hs : isSpace c = true
    · have hr : c ≠ '\r' := by
        rintro rfl
        exact absurd hs (by decide)
      have hh : c ≠ '#' := by
        rintro rfl
        exact absurd hs (by decide)
      have hspace : readAll? (c :: w ++ '#' :: (m ++ y)) =
          (readAll? (w ++ '#' :: (m ++ y))).map (allBehind [c]) := by
        refine readAll?_of_trivia_append ?_
        rw [List.cons_append, trivia_cons hc hr (by simp [hs])]
        simp only [hh, decide_false, Bool.or_false]
        rfl
      rw [hspace, ih hw.2 hwn.2, hs, Bool.true_and]
      split
      · rw [Option.map_map]
        exact congrArg (Option.map · _) (funext fun p => allBehind_allBehind _ _ p)
      · rfl
    · -- any other blank is taken for the start of a statement, and the text does not read at all
      have hs : isSpace c = false := by simpa using hs
      have hnext : (w ++ '#' :: (m ++ y)).head? ≠ some '\n' := by
        cases w with
        | nil => simp
        | cons d w =>
          rw [List.mem_cons, not_or] at hwn
          simpa using Ne.symm hwn.2.1
      have hne (d : Char) (hd : Text.isBlank d = false) : c ≠ d := by
        rintro rfl
        exact absurd (hd.symm.trans hw.1) Bool.false_ne_true
      rw [List.cons_append, hs, Bool.false_and, Bool.false_and, if_neg (by simp)]
      exact readAll?_eq_none (solid_of_isBlank hc hw.1 hs hnext) hs (not_isBareKeyChar_of_isBlank hw.1)
        ⟨hne _ (by decide), hne _ (by decide), hne _ (by decide)⟩

end Comments

end Statement

end CBuild.Toml
