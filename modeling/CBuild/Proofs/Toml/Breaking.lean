import Mathlib.Data.List.DropRight
import CBuild.Proofs.Toml.Comments

/-! A text broken off behind a line feed. A reader that comes through more than the text comes through the text,
unless the line feed stands between the items of an array; there no assignment can follow. -/

namespace CBuild.Toml

section Strings

variable {s y t r : List Char} {c : Char}

def isMultiline (l : List Char) : Bool :=
  ['"', '"', '"'].isPrefixOf l || ['\'', '\'', '\''].isPrefixOf l

/-- No string of the text has one of the forms that may take several lines. -/
def oneLine (s : List Char) : Bool :=
  (lexemes s).all fun l => !isMultiline l

theorem Ahead.oneLine {cs : List (List Char)} (h : Ahead cs s r) (hs : oneLine s = true) : oneLine r = true := by
  obtain ⟨ls, hl, -⟩ := h
  rw [Toml.oneLine, hl, List.all_append, Bool.and_eq_true] at hs
  exact hs.2

theorem codePoint?_lineFeed {ds : List Char} (h : codePoint? ds = some c) : '\n' ∉ ds := by
  obtain ⟨n, hn, -⟩ := Option.bind_eq_some_iff.1 h
  clear h
  generalize 0 = m at hn
  induction ds generalizing m with
  | nil => exact List.not_mem_nil
  | cons d ds ih =>
    rw [List.foldlM_cons] at hn
    obtain ⟨k, hk, hn⟩ := Option.bind_eq_some_iff.1 hn
    rw [List.mem_cons, not_or]
    refine ⟨?_, ih k hn⟩
    rintro rfl
    cases hk

theorem escape?_lineFeed (h : escape? s = some (c, r)) : ∃ a, s = a ++ r ∧ '\n' ∉ a := by
  cases s with
  | nil => cases h
  | cons x s =>
    have single (hx : x ≠ '\n') : ∃ a, x :: s = a ++ s ∧ '\n' ∉ a := ⟨[x], rfl, by simpa using Ne.symm hx⟩
    have coded (n : Nat) (hx : x ≠ '\n')
        (h : (codePoint? (s.take n)).map (fun d => (d, s.drop n)) = some (c, r)) :
        ∃ a, x :: s = a ++ r ∧ '\n' ∉ a := by
      obtain ⟨d, hd, he⟩ := Option.map_eq_some_iff.1 h
      cases he
      refine ⟨x :: s.take n, by rw [List.cons_append, List.take_append_drop], ?_⟩
      rw [List.mem_cons, not_or]
      exact ⟨Ne.symm hx, codePoint?_lineFeed hd⟩
    rw [escape?] at h
    iterate 7
      split at h
      · next hx =>
        cases h
        exact single (by rw [hx]; decide)
    split at h
    · next hx => exact coded 4 (by simp only [Bool.and_eq_true, decide_eq_true_eq] at hx; rw [hx.1]; decide) h
    split at h
    · next hx => exact coded 8 (by simp only [Bool.and_eq_true, decide_eq_true_eq] at hx; rw [hx.1]; decide) h
    · cases h

theorem basicBody?_lineFeed (h : basicBody? s = some (t, r)) : ∃ a, s = a ++ r ∧ '\n' ∉ a := by
  have longer {x : Char} {u v : List Char} (hx : x ≠ '\n') {b : List Char} (hb : '\n' ∉ b) (hu : u = b ++ v)
      (h : ∃ a, v = a ++ r ∧ '\n' ∉ a) : ∃ a, x :: u = a ++ r ∧ '\n' ∉ a := by
    obtain ⟨a, rfl, ha⟩ := h
    refine ⟨x :: (b ++ a), by rw [hu, List.cons_append, List.append_assoc], ?_⟩
    simp only [List.mem_cons, List.mem_append, not_or]
    exact ⟨Ne.symm hx, hb, ha⟩
  fun_induction basicBody? s generalizing t with
  | case1 => cases h
  | case2 s =>
    cases h
    exact ⟨['"'], rfl, by decide⟩
  | case3 => cases h
  | case4 s x s' he hl hq ih =>
    obtain ⟨⟨t', r'⟩, ht, hr⟩ := Option.map_eq_some_iff.1 h
    cases hr
    obtain ⟨b, rfl, hb⟩ := escape?_lineFeed he
    exact longer (by decide) hb rfl (ih ht)
  | case5 c s hq hb hp ih =>
    obtain ⟨⟨t', r'⟩, ht, hr⟩ := Option.map_eq_some_iff.1 h
    cases hr
    exact longer (isPrintable_ne hp) (b := []) List.not_mem_nil rfl (ih ht)
  | case6 => cases h

theorem literalBody?_lineFeed (h : literalBody? s = some (t, r)) : ∃ a, s = a ++ r ∧ '\n' ∉ a := by
  fun_induction literalBody? s generalizing t with
  | case1 => cases h
  | case2 s =>
    cases h
    exact ⟨['\''], rfl, by decide⟩
  | case3 c s hq hp ih =>
    obtain ⟨⟨t', r'⟩, ht, hr⟩ := Option.map_eq_some_iff.1 h
    cases hr
    obtain ⟨a, rfl, ha⟩ := ih ht
    exact ⟨c :: a, rfl, by
      rw [List.mem_cons, not_or]
      exact ⟨Ne.symm (isPrintable_ne hp), ha⟩⟩
  | case4 => cases h

theorem Lined.cut {a : List Char} (h : Lined s) (he : s ++ y = a ++ r) (ha : '\n' ∉ a) : ∃ u, s = a ++ u := by
  rcases List.append_eq_append_iff.1 he with ⟨b, rfl, -⟩ | ⟨u, rfl, -⟩
  · exact absurd (List.mem_append_left _ h.mem) ha
  · exact ⟨u, rfl⟩

theorem basicBody?_within (hs : Lined s) (h : basicBody? (s ++ y) = some (t, r)) : (basicBody? s).isSome = true := by
  obtain ⟨a, he, ha⟩ := basicBody?_lineFeed h
  obtain ⟨b, hb, hread⟩ := basicBody?_reads h
  obtain rfl : a = b := List.append_cancel_right (he.symm.trans hb)
  obtain ⟨u, rfl⟩ := hs.cut he ha
  rw [hread u trivial, Option.isSome_some]

theorem literalBody?_within (hs : Lined s) (h : literalBody? (s ++ y) = some (t, r)) :
    (literalBody? s).isSome = true := by
  obtain ⟨a, he, ha⟩ := literalBody?_lineFeed h
  obtain ⟨b, hb, hread⟩ := literalBody?_reads h
  obtain rfl : a = b := List.append_cancel_right (he.symm.trans hb)
  obtain ⟨u, rfl⟩ := hs.cut he ha
  rw [hread u trivial, Option.isSome_some]

theorem not_isMultiline (h : string? s = some (t, r)) (hm : isMultiline (consumed s r) = false) (u : List Char) :
    s ≠ '"' :: '"' :: '"' :: u ∧ s ≠ '\'' :: '\'' :: '\'' :: u := by
  have opening {m : Char} {b : List Char} (hb : withoutFirstBreak u = b ++ r) (hl : 3 ≤ b.length) :
      ∃ v, consumed (m :: m :: m :: u) r = m :: m :: m :: v := by
    obtain ⟨e, rfl, -⟩ := withoutFirstBreak_reads hb hl
    refine ⟨e ++ b, ?_⟩
    have happ : m :: m :: m :: (e ++ (b ++ r)) = (m :: m :: m :: (e ++ b)) ++ r := by simp
    rw [happ, consumed_append]
  constructor
  · rintro rfl
    obtain ⟨b, hb, hl, -⟩ := basicLinesBody?_reads h
    obtain ⟨v, hv⟩ := opening (m := '"') hb hl
    rw [hv] at hm
    simp [isMultiline] at hm
  · rintro rfl
    obtain ⟨b, hb, hl, -⟩ := literalLinesBody?_reads h
    obtain ⟨v, hv⟩ := opening (m := '\'') hb hl
    rw [hv] at hm
    simp [isMultiline] at hm

theorem string?_within (hs : Lined s) (ho : oneLine (s ++ y) = true) (h : string? (s ++ y) = some (t, r)) :
    (string? s).isSome = true := by
  rw [oneLine, lexemes_of_string? h, List.all_cons, Bool.and_eq_true, Bool.not_eq_true'] at ho
  have hne := not_isMultiline h ho.1
  obtain ⟨c, s, rfl⟩ := List.exists_cons_of_ne_nil hs.ne_nil
  rw [List.cons_append] at h hne
  by_cases hq : c = '"'
  · subst hq
    have hb : ∀ u, s ++ y ≠ '"' :: '"' :: u := fun u he => (hne u).1 (by rw [he])
    rw [string?_basicBody hb] at h
    have hb : ∀ u, s ≠ '"' :: '"' :: u := fun u he => hb (u ++ y) (by rw [he]; rfl)
    rw [string?_basicBody hb]
    exact basicBody?_within (hs.tail (by decide)) h
  · by_cases ha : c = '\''
    · subst ha
      have hb : ∀ u, s ++ y ≠ '\'' :: '\'' :: u := fun u he => (hne u).2 (by rw [he])
      rw [string?_literalBody hb] at h
      have hb : ∀ u, s ≠ '\'' :: '\'' :: u := fun u he => hb (u ++ y) (by rw [he]; rfl)
      rw [string?_literalBody hb]
      exact literalBody?_within (hs.tail (by decide)) h
    · unfold string? at h
      split at h <;> simp_all

/-- Where no string takes several lines, the lines can be looked at one by one. -/
theorem lexemes_append (hs : Lined s) (ho : oneLine (s ++ y) = true) : lexemes (s ++ y) = lexemes s ++ lexemes y := by
  induction hlen : s.length using Nat.strongRecOn generalizing s with
  | ind n ih =>
    subst hlen
    obtain ⟨c, s, rfl⟩ := List.exists_cons_of_ne_nil hs.ne_nil
    rw [List.cons_append] at ho ⊢
    have next (hc : c ≠ '\n') (ho : oneLine (s ++ y) = true) : lexemes (s ++ y) = lexemes s ++ lexemes y :=
      ih _ (by simp) (hs.tail hc) ho rfl
    by_cases hh : c = '#'
    · subst hh
      have hline := hs.tail (by decide)
      have hd := hline.dropWhile isPrintable_lineFeed
      have hlt : (s.dropWhile isPrintable).length < ('#' :: s).length :=
        Nat.lt_succ_of_le (List.dropWhile_suffix _).length_le
      rw [oneLine, lexemes_hash, List.all_cons, Bool.and_eq_true, hline.dropWhile_append isPrintable_lineFeed] at ho
      rw [lexemes_hash, lexemes_hash, hline.takeWhile_append isPrintable_lineFeed,
        hline.dropWhile_append isPrintable_lineFeed, ih _ hlt hd ho.2 rfl, List.cons_append]
    by_cases hq : isQuiet c = true
    · rw [oneLine, lexemes_cons hq] at ho
      rw [lexemes_cons hq, lexemes_cons hq]
      by_cases hn : s = []
      · subst hn
        rw [List.nil_append, lexemes_nil, List.nil_append]
      · exact ih _ (by simp) (hs.of_suffix (List.suffix_cons c s) hn) ho rfl
    · have hc : c ≠ '\n' := by
        rintro rfl
        exact hq (by decide)
      have hm : c = '"' ∨ c = '\'' := by
        rw [or_iff_not_imp_left]
        simpa [isQuiet, hh] using hq
      cases hx : string? (c :: s) with
      | some p =>
        obtain ⟨t, r⟩ := p
        have hread := string?_extent hx
        have hlong := hread.append hs y
        rw [List.cons_append] at hlong
        rw [oneLine, lexemes_of_string? hlong, List.all_cons, Bool.and_eq_true] at ho
        have hsame : consumed (c :: (s ++ y)) (r ++ y) = consumed (c :: s) r := consumed_append_append hread.suffix y
        rw [lexemes_of_string? hx, lexemes_of_string? hlong, ih _ (string?_shorter hx) (hread.lined hs) ho.2 rfl,
          hsame, List.cons_append]
      | none =>
        have hnone : string? (c :: (s ++ y)) = none := by
          by_contra hne
          obtain ⟨⟨t, r⟩, hr⟩ := Option.ne_none_iff_exists'.1 hne
          have hin := string?_within hs ho hr
          rw [hx] at hin
          cases hin
        have skip {u : List Char} (hu : string? (c :: u) = none) : lexemes (c :: u) = lexemes u := by
          rw [lexemes, if_neg hh, if_pos (by simpa using hm), hu]
        rw [oneLine, skip hnone] at ho
        rw [skip hnone, skip hx, next hc ho]

theorem oneLine_of_append (hs : s = [] ∨ Lined s) (h : oneLine (s ++ y) = true) : oneLine y = true := by
  rcases hs with rfl | hs
  · exact h
  · rw [oneLine, lexemes_append hs h, List.all_append, Bool.and_eq_true] at h
    exact h.2

end Strings

section Keys

variable {s y r : List Char} {path : List Key} {v : Value}

theorem simpleKey?_within {k : List Char × List Char} (hs : Lined s) (h : simpleKey? (s ++ y) = some (k, r)) :
    (simpleKey? s).isSome = true := by
  obtain ⟨c, s, rfl⟩ := List.exists_cons_of_ne_nil hs.ne_nil
  rw [List.cons_append] at h
  by_cases hm : c = '"' ∨ c = '\''
  · rcases hm with rfl | rfl
    · obtain ⟨⟨t, r'⟩, ht, -⟩ := Option.map_eq_some_iff.1 h
      rw [simpleKey?, Option.isSome_map]
      exact basicBody?_within (hs.tail (by decide)) ht
    · obtain ⟨⟨t, r'⟩, ht, -⟩ := Option.map_eq_some_iff.1 h
      rw [simpleKey?, Option.isSome_map]
      exact literalBody?_within (hs.tail (by decide)) ht
  · rw [not_or] at hm
    rw [simpleKey?_bare hm, ← List.cons_append, hs.takeWhile_append isBareKeyChar_lineFeed] at h
    rw [simpleKey?_bare hm]
    split at h
    · cases h
    · next hn =>
      rw [if_neg hn]
      rfl

theorem Lined.dropWhile_isSpace {c : Char} (hs : Lined s) (h : (s ++ y).dropWhile isSpace = c :: r) :
    ∃ u, s.dropWhile isSpace = c :: u ∧ r = u ++ y := by
  rw [hs.dropWhile_append isSpace_lineFeed] at h
  obtain ⟨d, u, hu⟩ := List.exists_cons_of_ne_nil (hs.dropWhile isSpace_lineFeed).ne_nil
  rw [hu, List.cons_append, List.cons.injEq] at h
  exact ⟨u, by rw [hu, h.1], h.2.symm⟩

theorem spacedKeys?_within (hs : Lined s) (h : spacedKeys? (s ++ y) = some (path, r)) :
    (spacedKeys? s).isSome = true := by
  have first {s t name spelling : List Char} (hs : Lined s)
      (hk : simpleKey? ((s ++ y).dropWhile isSpace) = some ((name, spelling), t)) :
      ∃ u, simpleKey? (s.dropWhile isSpace) = some ((name, spelling), u) ∧ t = u ++ y ∧ Lined u := by
    have hd := hs.dropWhile isSpace_lineFeed
    rw [hs.dropWhile_append isSpace_lineFeed] at hk
    obtain ⟨⟨⟨n, sp⟩, u⟩, hu⟩ := Option.isSome_iff_exists.1 (simpleKey?_within hd hk)
    have hx := simpleKey?_extent hu
    have hsame := hx.append hd y
    rw [hk, Option.some.injEq, Prod.mk.injEq] at hsame
    exact ⟨u, by rw [hu, hsame.1], hsame.2, hx.lined hd⟩
  generalize hu : s ++ y = u at h
  fun_induction spacedKeys? u generalizing s path with
  | case1 => cases h
  | case2 =>
    rename_i u before name spelling t hk key r' hr hlt ih
    subst hu
    obtain ⟨⟨ks, rest⟩, hks, he⟩ := Option.map_eq_some_iff.1 h
    cases he
    obtain ⟨t, hkey, rfl, ht⟩ := first hs hk
    obtain ⟨u, hu, rfl⟩ := ht.dropWhile_isSpace hr
    have hline : Lined u := by
      have := ht.dropWhile isSpace_lineFeed
      rw [hu] at this
      exact this.tail (by decide)
    have hshort : u.length < s.length := by
      have h1 := (simpleKey?_extent hkey).suffix.length_le
      have h2 := length_dropWhile_le isSpace s
      have h3 := length_dropWhile_le isSpace t
      rw [hu, List.length_cons] at h3
      omega
    rw [spacedKeys?]
    simp only [hkey, hu, if_pos hshort, Option.isSome_map]
    exact ih hline rfl hks
  | case3 => cases h
  | case4 =>
    rename_i u before name spelling t hk key hne
    subst hu
    obtain ⟨t, hkey, rfl, ht⟩ := first hs hk
    rw [spacedKeys?]
    simp only [hkey]
    split
    · next r' hr =>
      exact absurd (by rw [ht.dropWhile_append isSpace_lineFeed, hr, List.cons_append]) (hne (r' ++ y))
    · rfl

theorem keyPath?_within (hs : Lined s) (h : keyPath? (s ++ y) = some (path, r)) :
    (keyPath? s).isSome = true := by
  obtain ⟨⟨ks, t⟩, hk, h⟩ := Option.bind_eq_some_iff.1 h
  obtain ⟨⟨ks', t'⟩, hk'⟩ := Option.isSome_iff_exists.1 (spacedKeys?_within hs hk)
  have hsame := (spacedKeys?_extent hk').append hs y
  rw [hk, Option.some.injEq, Prod.mk.injEq] at hsame
  dsimp only at h
  split at h
  · next hl =>
    rw [hsame.1] at hl
    rw [keyPath?, hk', Option.bind_some]
    dsimp only
    rw [if_pos hl]
    rfl
  · cases h

theorem plain?_within (hs : Lined s) (ho : oneLine (s ++ y) = true) (h : plain? (s ++ y) = some (v, r)) :
    (plain? s).isSome = true := by
  obtain ⟨c, s, rfl⟩ := List.exists_cons_of_ne_nil hs.ne_nil
  rw [List.cons_append] at h ho
  by_cases hm : c = '"' ∨ c = '\''
  · rw [plain?_mark hm] at h
    obtain ⟨⟨t, r'⟩, ht, -⟩ := Option.map_eq_some_iff.1 h
    rw [plain?_mark hm, Option.isSome_map]
    exact string?_within hs ho ht
  · rw [not_or] at hm
    rw [plain?_scalar hm.1 hm.2, scalar?, Option.map_map] at h
    obtain ⟨d, hd, -⟩ := Option.map_eq_some_iff.1 h
    obtain ⟨u, -, hu⟩ := token_extent (c :: s)
    rw [← List.cons_append, (hu hs).2 y] at hd
    rw [plain?_scalar hm.1 hm.2, scalar?, hd]
    rfl

end Keys

section Values

variable {α : Type} {read : List Char → Option (Value × List Char)} {s x y z r : List Char}

/-- The text begins as an assignment to a bare key does. -/
def Assigns (z : List Char) : Prop :=
  ∃ key rest, key ≠ [] ∧ (∀ c ∈ key, isBareKeyChar c = true) ∧ z = key ++ ' ' :: '=' :: rest

/-- A reader that comes through the text with either of two texts behind it comes through the text. -/
def Breaks (y z : List Char) (read : List Char → Option (α × List Char)) : Prop :=
  ∀ s, Lined s → oneLine (s ++ y) = true → (read (s ++ y)).isSome = true → (read (s ++ z)).isSome = true →
    (read s).isSome = true

theorem Assigns.head (h : Assigns z) : ∃ c u, z = c :: u ∧ isBareKeyChar c = true := by
  obtain ⟨key, rest, hne, hkey, rfl⟩ := h
  obtain ⟨c, key, rfl⟩ := List.exists_cons_of_ne_nil hne
  exact ⟨c, _, rfl, hkey c List.mem_cons_self⟩

theorem ne_of_isBareKeyChar {c d : Char} (h : isBareKeyChar c = true) (hd : isBareKeyChar d = false) : c ≠ d := by
  rintro rfl
  rw [h] at hd
  cases hd

theorem Assigns.solid (h : Assigns z) : trivia false z = ([], z) := by
  obtain ⟨c, u, rfl, hc⟩ := h.head
  exact solid_cons (Bool.eq_false_iff.2 fun hs => by
    rcases isSpace_iff.1 hs with rfl | rfl <;> exact absurd hc (by decide)) (ne_of_isBareKeyChar hc (by decide))
    (ne_of_isBareKeyChar hc (by decide)) (ne_of_isBareKeyChar hc (by decide))

theorem Assigns.eq_of_value? (h : Assigns z) {n : Nat} {v : Value} (hv : value? n z = some (v, r)) :
    ∃ u, r = ' ' :: '=' :: u := by
  obtain ⟨key, rest, hne, hkey, rfl⟩ := h
  have htoken : token (key ++ ' ' :: '=' :: rest) = key := by
    have hall : ∀ c ∈ key, isTokenChar c = true := fun c hc => isTokenChar_of_isBareKeyChar (hkey c hc)
    rw [token, takeWhile_append_stop hall (by rintro c ⟨⟩; rfl), dropWhile_append_stop hall (by rintro c ⟨⟩; rfl)]
    simp
  obtain ⟨c, key, rfl⟩ := List.exists_cons_of_ne_nil hne
  have hc := hkey c List.mem_cons_self
  rw [List.cons_append] at hv htoken
  rw [value?_plain (ne_of_isBareKeyChar hc (by decide)) (ne_of_isBareKeyChar hc (by decide)),
    plain?_scalar (ne_of_isBareKeyChar hc (by decide)) (ne_of_isBareKeyChar hc (by decide)), scalar?, htoken,
    ← List.cons_append, List.drop_left, Option.map_map] at hv
  obtain ⟨d, -, he⟩ := Option.map_eq_some_iff.1 hv
  exact ⟨rest, (Prod.mk.inj he).2.symm⟩

def BehindItem (more : List Char → Prop) (u : List Char) : Prop :=
  (trivia false u).2.head? = some ']' ∨ ∃ w, (trivia false u).2 = ',' :: w ∧ more w

theorem isSome_items?_iff {n : Nat} : (items? (value? n) s).isSome = true ↔
    (trivia false s).2.head? = some ']' ∨ ((trivia false s).2.head? ≠ some ']' ∧
      ∃ v u, value? n (trivia false s).2 = some (v, u) ∧
        BehindItem (fun w => (items? (value? n) w).isSome = true) u) := by
  have hne {u : List Char} (h : ∀ w, u ≠ ']' :: w) : u.head? ≠ some ']' := fun he => by
    obtain ⟨w, hw⟩ := List.head?_eq_some_iff.1 he
    exact h w hw
  fun_cases items? (value? n) s with
  | case1 => simp_all
  | case2 => simp_all
  | case3 t u ht v w hv t' rest hu ht' => simp_all [BehindItem, hne hu]
  | case4 t u ht v w hv t' w' hlt hu ht' => simp_all [BehindItem, hne hu]
  | case5 t u ht v w hv t' w' hlt hu ht' =>
    have h1 := (trivia_suffix ht).length_le
    have h2 := (value?_extent n hv).suffix.length_le
    have h3 := (trivia_suffix ht').length_le
    rw [List.length_cons] at h3
    omega
  | case6 t u ht v w hv t' w' ht' hu hw hc => simp_all [BehindItem, hne hu, hne hw]

theorem Lined.trivia_rest (hs : Lined s) (h : (trivia false s).2 ≠ []) :
    Lined (trivia false s).2 ∧ ∀ b, (trivia false (s ++ b)).2 = (trivia false s).2 ++ b := by
  refine ⟨hs.of_suffix (trivia_suffix rfl) h, fun b => ?_⟩
  rw [trivia_lined hs rfl b, if_neg h]

theorem length_trivia_le (s : List Char) : (trivia false s).2.length ≤ s.length :=
  (trivia_suffix rfl).length_le

theorem Lined.trivia_over (hs : Lined s) (h : (trivia false s).2 = []) (b : List Char) :
    (trivia false (s ++ b)).2 = (trivia false b).2 := by
  rw [trivia_lined hs rfl b, if_pos h]

theorem behindItem_within {more : List Char → Prop} {u : List Char} (hz : Assigns z) (hu : Lined u)
    (ho : oneLine (u ++ y) = true) (hy : BehindItem more (u ++ y)) (hz' : BehindItem more (u ++ z))
    (hmore : ∀ w, w.length < u.length → Lined w → oneLine (w ++ y) = true → more (w ++ y) → more (w ++ z) → more w) :
    BehindItem more u := by
  by_cases hn : (trivia false u).2 = []
  · obtain ⟨c, w, rfl, hc⟩ := hz.head
    rw [BehindItem, hu.trivia_over hn, hz.solid] at hz'
    obtain h | ⟨x, h, -⟩ := hz'
    · exact absurd (Option.some.inj h) (ne_of_isBareKeyChar hc (by decide))
    · exact absurd (List.cons.inj h).1 (ne_of_isBareKeyChar hc (by decide))
  · obtain ⟨hw, happ⟩ := hu.trivia_rest hn
    have ho' : oneLine ((trivia false u).2 ++ y) = true := by
      rw [← happ]
      exact (trivia_ahead rfl).oneLine ho
    have hshort := length_trivia_le u
    rw [BehindItem, happ] at hy hz'
    rw [BehindItem]
    generalize (trivia false u).2 = w at hw ho' hshort hy hz' ⊢
    obtain ⟨d, w, rfl⟩ := List.exists_cons_of_ne_nil hw.ne_nil
    obtain h | ⟨x, h, hx⟩ := hy
    · exact .inl h
    obtain ⟨rfl, rfl⟩ := List.cons.inj h
    obtain ⟨x, h, hx'⟩ := hz'.resolve_left (by simp)
    obtain rfl := (List.cons.inj h).2
    exact .inr ⟨w, rfl, hmore w hshort (hw.tail (by decide)) ((Ahead.quiet (by decide) _).oneLine ho') hx hx'⟩

/-- No array goes on with an assignment: where an item could stand, the equals sign would follow it. -/
theorem Assigns.items? {n : Nat} (hz : Assigns z) (h : (trivia false s).2 = z) :
    ¬ (Toml.items? (value? n) s).isSome = true := by
  rw [isSome_items?_iff, h, not_or]
  obtain ⟨c, u, hcu, hc⟩ := hz.head
  refine ⟨fun he => ?_, fun ⟨_, v, w, hv, hw⟩ => ?_⟩
  · rw [hcu] at he
    exact ne_of_isBareKeyChar hc (by decide) (Option.some.inj he)
  · obtain ⟨w, rfl⟩ := hz.eq_of_value? hv
    have ht : (trivia false (' ' :: '=' :: w)).2 = '=' :: w := by
      rw [trivia_cons (by decide) (by decide) (by decide)]
      exact congrArg Prod.snd (solid_cons (c := '=') (r := w) (by decide) (by decide) (by decide) (by decide))
    rw [BehindItem, ht] at hw
    obtain h | ⟨x, h, -⟩ := hw <;> cases h

theorem Breaks.items? {n : Nat} (hb : Breaks y z (value? n)) (hz : Assigns z) :
    Breaks y z (Toml.items? (value? n)) := by
  intro s hs ho hy hz'
  induction hlen : s.length using Nat.strongRecOn generalizing s with
  | ind m ih =>
    subst hlen
    have hn : (trivia false s).2 ≠ [] := fun hn => hz.items? (by rw [hs.trivia_over hn, hz.solid]) hz'
    obtain ⟨hu, happ⟩ := hs.trivia_rest hn
    have ho' : oneLine ((trivia false s).2 ++ y) = true := by
      rw [← happ]
      exact (trivia_ahead rfl).oneLine ho
    have hshort := length_trivia_le s
    rw [isSome_items?_iff] at hy hz' ⊢
    rw [happ] at hy hz'
    generalize (trivia false s).2 = u at hu ho' hy hz' hshort ⊢
    obtain ⟨c, u, rfl⟩ := List.exists_cons_of_ne_nil hu.ne_nil
    rw [List.cons_append, List.head?_cons, ← List.head?_cons (l := u), ← List.cons_append] at hy hz'
    obtain h | ⟨hc, v, r, hv, hr⟩ := hy
    · exact .inl h
    obtain ⟨-, v', r', hv', hr'⟩ := hz'.resolve_left hc
    obtain ⟨⟨v₀, r₀⟩, hv₀⟩ := Option.isSome_iff_exists.1
      (hb (c :: u) hu ho' (by rw [hv]; rfl) (by rw [hv']; rfl))
    have hx := value?_extent n hv₀
    have hsame := hx.append hu
    have hlt := hx.suffix.length_le
    have ho₀ : oneLine (r₀ ++ y) = true := ((spares_value? n).ahead (hsame y)).oneLine ho'
    rw [hsame, Option.some.injEq, Prod.mk.injEq] at hv hv'
    obtain ⟨-, rfl⟩ := hv
    obtain ⟨-, rfl⟩ := hv'
    exact .inr ⟨hc, v₀, r₀, hv₀, behindItem_within hz (hx.lined hu) ho₀ hr hr' fun w hw hl how hy hz' =>
      ih _ (by omega) w hl how hy hz' rfl⟩

theorem isSome_pair?_iff : (pair? read s).isSome = true ↔
    ∃ path r, keyPath? s = some (path, '=' :: r) ∧ (read (r.dropWhile isSpace)).isSome = true := by
  fun_cases pair? read s with
  | case1 path r hk => simp [hk]
  | case2 hn => simpa using fun path r hk => absurd hk (hn path r)

theorem Breaks.pair? {n : Nat} (hb : Breaks y z (value? n)) : Breaks y z (Toml.pair? (value? n)) := by
  intro s hs ho hy hz
  rw [isSome_pair?_iff] at hy hz ⊢
  obtain ⟨path, r, hk, hv⟩ := hy
  obtain ⟨path', r', hk', hv'⟩ := hz
  obtain ⟨⟨path₀, r₀⟩, hk₀⟩ := Option.isSome_iff_exists.1 (keyPath?_within hs hk)
  have hx := keyPath?_extent hk₀
  have hr := hx.lined hs
  have hsame := hx.append hs
  have ho' : oneLine ('=' :: r) = true := (keyPath?_ahead hk (by decide)).oneLine ho
  rw [hsame, Option.some.injEq, Prod.mk.injEq] at hk hk'
  obtain ⟨-, hk⟩ := hk
  obtain ⟨-, hk'⟩ := hk'
  obtain ⟨c, r₀, rfl⟩ := List.exists_cons_of_ne_nil hr.ne_nil
  rw [List.cons_append, List.cons.injEq] at hk hk'
  obtain ⟨rfl, rfl⟩ := hk
  obtain ⟨-, rfl⟩ := hk'
  have hline := hr.tail (by decide)
  rw [hline.dropWhile_append isSpace_lineFeed] at hv hv'
  refine ⟨path₀, r₀, hk₀, hb _ (hline.dropWhile isSpace_lineFeed) ?_ hv hv'⟩
  rw [← hline.dropWhile_append isSpace_lineFeed]
  exact ((Ahead.quiet (by decide) _).trans (.space _)).oneLine ho'

theorem isSome_pairs?_iff : (pairs? read s).isSome = true ↔ ∃ e r, pair? read s = some (e, r) ∧
    (r.head? = some '}' ∨ ∃ w, r = ',' :: w ∧ w.length < s.length ∧ (pairs? read w).isSome = true) := by
  fun_cases pairs? read s with
  | case1 e r hp => simp [hp]
  | case2 e r hp hlt => simp [hp, hlt]
  | case3 e r hp hlt => simp [hp, hlt]
  | case4 h1 h2 =>
    simp only [Option.isSome_none, Bool.false_eq_true, false_iff, not_exists, not_and, not_or]
    refine fun e r hp => ⟨fun hr => ?_, fun w hw => ?_⟩
    · obtain ⟨w, rfl⟩ := List.head?_eq_some_iff.1 hr
      exact absurd hp (h1 e w)
    · subst hw
      exact absurd hp (h2 e w)

theorem Breaks.pairs? {n : Nat} (hb : Breaks y z (value? n)) : Breaks y z (Toml.pairs? (value? n)) := by
  intro s hs ho hy hz
  induction hlen : s.length using Nat.strongRecOn generalizing s with
  | ind m ih =>
    subst hlen
    rw [isSome_pairs?_iff] at hy hz ⊢
    obtain ⟨e, r, hp, hr⟩ := hy
    obtain ⟨e', r', hp', hr'⟩ := hz
    obtain ⟨⟨e₀, r₀⟩, hp₀⟩ := Option.isSome_iff_exists.1 (hb.pair? s hs ho (by rw [hp]; rfl) (by rw [hp']; rfl))
    have hx := pair?_extent (fun _ _ _ => value?_extent n) hp₀
    have hlined := hx.lined hs
    have hsame := hx.append hs
    have hshort := hx.suffix.length_le
    have ho' : oneLine r = true := (pair?_ahead (spares_value? n) hp).oneLine ho
    rw [hsame, Option.some.injEq, Prod.mk.injEq] at hp hp'
    obtain ⟨-, rfl⟩ := hp
    obtain ⟨-, rfl⟩ := hp'
    obtain ⟨c, r₀, rfl⟩ := List.exists_cons_of_ne_nil hlined.ne_nil
    refine ⟨e₀, _, hp₀, ?_⟩
    obtain hr | ⟨w, hw, -, hmore⟩ := hr
    · exact .inl hr
    obtain ⟨rfl, rfl⟩ := List.cons.inj hw
    obtain ⟨w, hw, -, hmore'⟩ := hr'.resolve_left (by simp)
    obtain rfl := (List.cons.inj hw).2
    have hlt : r₀.length < s.length := by
      rw [List.length_cons] at hshort
      omega
    refine .inr ⟨r₀, rfl, hlt, ?_⟩
    exact ih _ hlt r₀ (hlined.tail (by decide)) ((Ahead.quiet (by decide) _).oneLine ho') hmore hmore' rfl

theorem isSome_inline?_iff : (inline? read s).isSome = true ↔ (s.dropWhile isSpace).head? = some '}' ∨
    ((s.dropWhile isSpace).head? ≠ some '}' ∧
      ∃ es r, pairs? read s = some (es, r) ∧ (Entry.defineAll? [] es).isSome = true) := by
  fun_cases inline? read s with
  | case1 rest hs => simp [hs]
  | case2 hne =>
    have hopen : (s.dropWhile isSpace).head? ≠ some '}' := fun h => by
      obtain ⟨w, hw⟩ := List.head?_eq_some_iff.1 h
      exact hne w hw
    cases hp : pairs? read s with
    | none => simp [hopen]
    | some p =>
      obtain ⟨es, r⟩ := p
      cases hd : Entry.defineAll? [] es <;> simp [hopen, hd]

theorem Breaks.inline? {n : Nat} (hb : Breaks y z (value? n)) : Breaks y z (Toml.inline? (value? n)) := by
  intro s hs ho hy hz
  rw [isSome_inline?_iff, hs.dropWhile_append isSpace_lineFeed] at hy hz
  rw [isSome_inline?_iff]
  have hline := hs.dropWhile isSpace_lineFeed
  generalize s.dropWhile isSpace = u at hline hy hz ⊢
  obtain ⟨c, u, rfl⟩ := List.exists_cons_of_ne_nil hline.ne_nil
  obtain h | ⟨hc, es, r, hp, hd⟩ := hy
  · exact .inl h
  obtain ⟨-, es', r', hp', -⟩ := hz.resolve_left hc
  obtain ⟨⟨es₀, r₀⟩, hp₀⟩ := Option.isSome_iff_exists.1 (hb.pairs? s hs ho (by rw [hp]; rfl) (by rw [hp']; rfl))
  have hsame := (pairs?_extent (fun _ _ _ => value?_extent n) hp₀).append hs y
  rw [hp, Option.some.injEq, Prod.mk.injEq] at hsame
  rw [hsame.1] at hd
  exact .inr ⟨hc, es₀, r₀, hp₀, hd⟩

theorem breaks_value? (hz : Assigns z) (n : Nat) : Breaks y z (value? n) := by
  have plain (s : List Char) (hs : Lined s) (ho : oneLine (s ++ y) = true)
      (hy : (plain? (s ++ y)).isSome = true) : (plain? s).isSome = true := by
    obtain ⟨p, hp⟩ := Option.isSome_iff_exists.1 hy
    exact plain?_within hs ho hp
  induction n with
  | zero => exact fun s hs ho hy _ => plain s hs ho hy
  | succ n ih =>
    intro s hs ho hy hz'
    obtain ⟨c, s, rfl⟩ := List.exists_cons_of_ne_nil hs.ne_nil
    rw [List.cons_append] at hy hz' ho
    by_cases hc : c = '['
    · subst hc
      rw [value?, Option.isSome_map] at hy hz' ⊢
      exact ih.items? hz s (hs.tail (by decide)) ((Ahead.quiet (by decide) _).oneLine ho) hy hz'
    by_cases hd : c = '{'
    · subst hd
      rw [value?] at hy hz' ⊢
      exact ih.inline? s (hs.tail (by decide)) ((Ahead.quiet (by decide) _).oneLine ho) hy hz'
    · rw [value?_plain hc hd] at hy ⊢
      exact plain (c :: s) hs ho hy

end Values

section Lines

variable {s y z before : List Char}

theorem lineEnd?_within (hs : Lined s) (h : (lineEnd? (s ++ y)).isSome = true) : (lineEnd? s).isSome = true := by
  have hd := hs.dropWhile isSpace_lineFeed
  rw [lineEnd?, hs.dropWhile_append isSpace_lineFeed, hs.takeWhile_append isSpace_lineFeed,
    hd.takeWhile_append isPrintable_lineFeed] at h
  rw [lineEnd?]
  generalize s.takeWhile isSpace = space at h ⊢
  generalize s.dropWhile isSpace = u at hd h ⊢
  have hhead : (u ++ y).head? = u.head? := List.head?_append_of_ne_nil u hd.ne_nil
  rw [hhead] at h
  have hline : Lined (u.drop (if u.head? = some '#' then u.takeWhile isPrintable else []).length) := by
    split
    · rw [drop_length_takeWhile]
      exact hd.dropWhile isPrintable_lineFeed
    · exact hd
  generalize hc : (if u.head? = some '#' then u.takeWhile isPrintable else []) = comment at h hline ⊢
  have hle : comment.length ≤ u.length := by
    rw [← hc]
    split
    · exact (List.takeWhile_prefix _).length_le
    · exact Nat.zero_le _
  rw [List.drop_append_of_le_length hle] at h
  generalize u.drop comment.length = w at hline h ⊢
  obtain ⟨c, w, rfl⟩ := List.exists_cons_of_ne_nil hline.ne_nil
  by_cases hn : c = '\n'
  · subst hn
    rfl
  · obtain ⟨d, w, rfl⟩ := List.exists_cons_of_ne_nil (hline.tail hn).ne_nil
    rw [List.cons_append, List.cons_append] at h
    split at h <;> simp_all

theorem after?_within {p : List Char} (hs : Lined s) (hp : '\n' ∉ p) (h : (Text.after? p (s ++ y)).isSome = true) :
    ∃ u, s = p ++ u ∧ Lined u := by
  obtain ⟨r, hr⟩ := Option.isSome_iff_exists.1 h
  obtain ⟨u, rfl⟩ := hs.cut (eq_of_after? hr) hp
  refine ⟨u, rfl, hs.of_suffix (List.suffix_append p u) ?_⟩
  rintro rfl
  rw [List.append_nil] at hs
  exact hp hs.mem

theorem isSome_header?_iff {element : Bool} : (Header.read? before element s).isSome = true ↔
    ∃ path r, keyPath? s = some (path, r) ∧
      ∃ u, Text.after? (if element then [']', ']'] else [']']) r = some u ∧ (lineEnd? u).isSome = true := by
  rw [Header.read?]
  cases keyPath? s with
  | none => simp
  | some p =>
    obtain ⟨path, r⟩ := p
    cases ha : Text.after? (if element then [']', ']'] else [']']) r with
    | none => simp [ha]
    | some u => cases hl : lineEnd? u <;> simp [ha, hl]

theorem header?_within {element : Bool} (hs : Lined s) (h : (Header.read? before element (s ++ y)).isSome = true) :
    (Header.read? before element s).isSome = true := by
  rw [isSome_header?_iff] at h ⊢
  obtain ⟨path, r, hk, u, ha, hl⟩ := h
  obtain ⟨⟨path₀, r₀⟩, hk₀⟩ := Option.isSome_iff_exists.1 (keyPath?_within hs hk)
  have hx := keyPath?_extent hk₀
  rw [hx.append hs, Option.some.injEq, Prod.mk.injEq] at hk
  obtain ⟨-, rfl⟩ := hk
  have hbrackets : '\n' ∉ (if element then [']', ']'] else [']']) := by cases element <;> decide
  obtain ⟨u₀, rfl, hu⟩ := after?_within (hx.lined hs) hbrackets (by rw [ha]; rfl)
  rw [List.append_assoc, after?_append, Option.some.injEq] at ha
  subst ha
  exact ⟨path₀, _, hk₀, u₀, after?_append _ _, lineEnd?_within hu hl⟩

theorem isSome_lineEnd?_space (s : List Char) :
    (lineEnd? (s.dropWhile isSpace)).isSome = (lineEnd? s).isSome := by
  rw [lineEnd?, lineEnd?, List.dropWhile_idempotent]
  split <;> rfl

theorem isSome_entry?_iff : (Entry.read? before s).isSome = true ↔
    ∃ e r, pair? (value? depthLimit) s = some (e, r) ∧ (lineEnd? r).isSome = true := by
  rw [Entry.read?, pair?]
  cases keyPath? s with
  | none => simp
  | some p =>
    obtain ⟨path, r⟩ := p
    by_cases hr : ∃ u, r = '=' :: u
    · obtain ⟨u, rfl⟩ := hr
      have ha : Text.after? ['='] ('=' :: u) = some u := after?_append ['='] u
      cases hv : value? depthLimit (u.dropWhile isSpace) with
      | none => simp [ha, hv]
      | some q =>
        obtain ⟨v, w⟩ := q
        have hspace := isSome_lineEnd?_space w
        cases hl : lineEnd? w <;> simp_all
    · have ha : Text.after? ['='] r = none := by
        by_contra ha
        obtain ⟨u, hu⟩ := Option.ne_none_iff_exists'.1 ha
        exact hr ⟨u, eq_of_after? hu⟩
      simp_all

theorem entry?_within (hz : Assigns z) : Breaks y z (Entry.read? before) := by
  intro s hs ho hy hz'
  rw [isSome_entry?_iff] at hy hz' ⊢
  obtain ⟨e, r, hp, hl⟩ := hy
  obtain ⟨e', r', hp', -⟩ := hz'
  obtain ⟨⟨e₀, r₀⟩, hp₀⟩ := Option.isSome_iff_exists.1
    ((breaks_value? hz depthLimit).pair? s hs ho (by rw [hp]; rfl) (by rw [hp']; rfl))
  have hx := pair?_extent (fun _ _ _ => value?_extent depthLimit) hp₀
  rw [hx.append hs, Option.some.injEq, Prod.mk.injEq] at hp
  obtain ⟨-, rfl⟩ := hp
  exact ⟨e₀, r₀, hp₀, lineEnd?_within (hx.lined hs) hl⟩

theorem statement?_within (hz : Assigns z) : Breaks y z (Statement.read? before) := by
  intro s hs ho hy hz'
  obtain ⟨c, s, rfl⟩ := List.exists_cons_of_ne_nil hs.ne_nil
  by_cases hc : c = '['
  · subst hc
    have hline := hs.tail (by decide)
    obtain ⟨d, s, rfl⟩ := List.exists_cons_of_ne_nil hline.ne_nil
    by_cases hd : d = '['
    · subst hd
      rw [List.cons_append, List.cons_append, Statement.read?, Option.isSome_map] at hy
      rw [Statement.read?, Option.isSome_map]
      exact header?_within (hline.tail (by decide)) hy
    · have header (w : List Char) : (Statement.read? before ('[' :: d :: w)).isSome =
          (Header.read? before false (d :: w)).isSome := by
        rw [Statement.read?, Option.isSome_map]
        exact fun u hu => hd (List.cons.inj hu).1
      rw [List.cons_append, List.cons_append, header] at hy
      rw [header]
      exact header?_within hline hy
  · have entry (w : List Char) : (Statement.read? before (c :: w)).isSome = (Entry.read? before (c :: w)).isSome := by
      rw [Statement.read?, Option.isSome_map]
      · exact fun u hu => hc (List.cons.inj hu).1
      · exact fun u hu => hc (List.cons.inj hu).1
    rw [List.cons_append, entry] at hy hz'
    rw [entry]
    exact entry?_within hz (c :: s) hs ho hy hz'

theorem isSome_readAll?_iff : (Statement.readAll? s).isSome = true ↔ (trivia false s).2 = [] ∨
    ((trivia false s).2 ≠ [] ∧ ∃ st rest, Statement.read? (trivia false s).1 (trivia false s).2 = some (st, rest) ∧
      (Statement.readAll? rest).isSome = true) := by
  fun_cases Statement.readAll? s with
  | case1 before ht => simp [ht]
  | case2 before r ht hr hst => simp [ht, hr, hst]
  | case3 before r ht hr st rest hst hlt => simp [ht, hr, hst]
  | case4 before r ht hr st rest hst hlt =>
    have hle := (trivia_suffix ht).length_le
    have hlt' := (Statement.read?_extent hst).shorter
    omega

/-- Lines that read with something behind them, and with an assignment behind them as well, read by themselves. -/
theorem readAll?_within (hz : Assigns z) (hs : s = [] ∨ Lined s) (ho : oneLine (s ++ y) = true)
    (hy : (Statement.readAll? (s ++ y)).isSome = true) (hz' : (Statement.readAll? (s ++ z)).isSome = true) :
    (Statement.readAll? s).isSome = true := by
  induction hlen : s.length using Nat.strongRecOn generalizing s with
  | ind m ih =>
    subst hlen
    rw [isSome_readAll?_iff] at hy hz' ⊢
    by_cases hn : (trivia false s).2 = []
    · exact .inl hn
    have hs : Lined s := hs.resolve_left (by rintro rfl; exact hn rfl)
    have happ (b : List Char) : trivia false (s ++ b) = ((trivia false s).1, (trivia false s).2 ++ b) := by
      rw [trivia_lined hs rfl b, if_neg hn]
    obtain ⟨hu, -⟩ := hs.trivia_rest hn
    have ho' : oneLine ((trivia false s).2 ++ y) = true := (trivia_ahead (happ y)).oneLine ho
    have hshort := length_trivia_le s
    have hfirst := happ y
    rw [happ] at hy hz'
    generalize (trivia false s).1 = before at hy hz' hfirst ⊢
    generalize (trivia false s).2 = u at hn hu ho' hshort hy hz' hfirst ⊢
    obtain ⟨-, st, rest, hst, hmore⟩ := hy.resolve_left (by simp [hn])
    obtain ⟨-, st', rest', hst', hmore'⟩ := hz'.resolve_left (by simp [hn])
    obtain ⟨⟨st₀, rest₀⟩, hst₀⟩ := Option.isSome_iff_exists.1
      (statement?_within hz u hu ho' (by rw [hst]; rfl) (by rw [hst']; rfl))
    have hx := Statement.read?_extent hst₀
    have hsame := hx.append hu
    have hlt := hx.shorter
    have ho₀ : oneLine rest = true := (Statement.read?_ahead hfirst hst).oneLine ho
    rw [hsame, Option.some.injEq, Prod.mk.injEq] at hst hst'
    obtain ⟨-, rfl⟩ := hst
    obtain ⟨-, rfl⟩ := hst'
    exact .inr ⟨hn, st₀, rest₀, hst₀, ih _ (by omega) (hx.lined hu) ho₀ hmore hmore' rfl⟩

end Lines

end CBuild.Toml
