import CBuild.Proofs.Toml.Recorded

/-! How far a reader looks. Of a text that ends in a line feed no token takes the line feed, so what is
written behind it does not matter to a reader that is through before. -/

namespace CBuild.Toml

section Lined

def Lined (s : List Char) : Prop :=
  s.getLast? = some '\n'

def Whole (s : List Char) : Prop :=
  s = [] ∨ Lined s

variable {s r : List Char} {p : Char → Bool}

theorem Lined.ne_nil (h : Lined s) : s ≠ [] := by
  rintro rfl
  cases h

theorem Lined.of_suffix (h : Lined s) (hr : r <:+ s) (hn : r ≠ []) : Lined r := by
  obtain ⟨a, rfl⟩ := hr
  obtain ⟨x, hx⟩ := Option.ne_none_iff_exists'.1 fun he => hn (List.getLast?_eq_none_iff.1 he)
  rw [Lined, List.getLast?_append, hx, Option.some_or] at h
  exact hx.trans h

theorem Lined.tail {c : Char} (h : Lined (c :: s)) (hc : c ≠ '\n') : Lined s := by
  refine h.of_suffix (List.suffix_cons c s) ?_
  rintro rfl
  exact hc (Option.some.inj h)

theorem lined_append (a : List Char) (h : Lined s) : Lined (a ++ s) := by
  rw [Lined, List.getLast?_append, h, Option.some_or]

theorem Lined.mem (h : Lined s) : '\n' ∈ s :=
  List.mem_of_getLast? h

theorem Lined.dropWhile (h : Lined s) (hp : p '\n' = false) : Lined (s.dropWhile p) := by
  refine h.of_suffix (List.dropWhile_suffix p) fun hn => ?_
  rw [List.dropWhile_eq_nil_iff.1 hn _ h.mem] at hp
  cases hp

theorem Lined.dropWhile_append (h : Lined s) (hp : p '\n' = false) (b : List Char) :
    (s ++ b).dropWhile p = s.dropWhile p ++ b := by
  rw [List.dropWhile_append, if_neg (by simpa using (h.dropWhile hp).ne_nil)]

theorem Lined.takeWhile_append (h : Lined s) (hp : p '\n' = false) (b : List Char) :
    (s ++ b).takeWhile p = s.takeWhile p := by
  rw [List.takeWhile_append, if_neg]
  intro hl
  have hs := List.takeWhile_append_dropWhile (p := p) (l := s)
  have hd := (h.dropWhile hp).ne_nil
  have hlen := congrArg List.length hs
  rw [List.length_append] at hlen
  exact hd (List.length_eq_zero_iff.1 (by omega))

end Lined

/-- The reader takes the front of the text. When the text ends in a line feed it leaves that, and takes the
same whatever stands behind. -/
structure Extent (read : List Char → Option (α × List Char)) (s : List Char) (a : α) (r : List Char) :
    Prop where
  suffix : r <:+ s
  lined : Lined s → Lined r
  append : Lined s → ∀ b, read (s ++ b) = some (a, r ++ b)

section Strings

variable {s r t : List Char} {c : Char}

theorem codePoint?_lined (h : Lined s) : codePoint? s = none := by
  obtain ⟨u, rfl⟩ := List.getLast?_eq_some_iff.1 h
  have hx : hexValue? '\n' = none := by decide
  have stop (n : Nat) : ['\n'].foldlM (fun n c => (hexValue? c).map (16 * n + ·)) n = none := by
    rw [List.foldlM_cons, hx]
    rfl
  rw [codePoint?, List.foldlM_append]
  cases u.foldlM (fun n c => (hexValue? c).map (16 * n + ·)) 0 with
  | none => rfl
  | some n => exact congrArg (Option.bind · _) (stop n)

theorem escape?_extent (h : escape? s = some (c, r)) : Extent escape? s c r := by
  obtain ⟨x, e, rfl, _, hx, _, hread⟩ := escape?_reads h
  have hsuffix : r <:+ x :: (e ++ r) := ⟨x :: e, rfl⟩
  refine ⟨hsuffix, fun hs => hs.of_suffix hsuffix ?_, fun _ b => ?_⟩
  · rintro rfl
    rw [List.append_nil] at h hs
    have he := hs.tail hx
    have coded (n : Nat) (hd : e.drop n = []) : codePoint? (e.take n) = none := by
      rw [List.take_of_length_le (List.drop_eq_nil_iff.1 hd)]
      exact codePoint?_lined he
    rw [escape?] at h
    iterate 7
      split at h
      · cases h
        exact he.ne_nil rfl
    split at h
    · obtain ⟨y, hy, hr⟩ := Option.map_eq_some_iff.1 h
      rw [coded 4 (Prod.mk.inj hr).2] at hy
      cases hy
    split at h
    · obtain ⟨y, hy, hr⟩ := Option.map_eq_some_iff.1 h
      rw [coded 8 (Prod.mk.inj hr).2] at hy
      cases hy
    · cases h
  · rw [List.cons_append, List.append_assoc]
    exact hread (r ++ b)

theorem isPrintable_ne {c : Char} (h : isPrintable c = true) : c ≠ '\n' := by
  rintro rfl
  exact absurd h (by decide)

theorem basicBody?_extent (h : basicBody? s = some (t, r)) : Extent basicBody? s t r := by
  obtain ⟨a, rfl, hread⟩ := basicBody?_reads h
  refine ⟨List.suffix_append a r, ?_, fun _ b => by rw [List.append_assoc]; exact hread _ trivial⟩
  clear hread
  generalize a ++ r = s at h
  fun_induction basicBody? s generalizing t with
  | case1 => cases h
  | case2 s =>
    cases h
    exact fun hs => hs.tail (by decide)
  | case3 => cases h
  | case4 s x s' he hl hq ih =>
    obtain ⟨⟨t', r'⟩, ht, hr⟩ := Option.map_eq_some_iff.1 h
    cases hr
    exact fun hs => ih ht ((escape?_extent he).lined (hs.tail (by decide)))
  | case5 c s hq hb hp ih =>
    obtain ⟨⟨t', r'⟩, ht, hr⟩ := Option.map_eq_some_iff.1 h
    cases hr
    exact fun hs => ih ht (hs.tail (isPrintable_ne hp))
  | case6 => cases h

theorem literalBody?_extent (h : literalBody? s = some (t, r)) : Extent literalBody? s t r := by
  obtain ⟨a, rfl, hread⟩ := literalBody?_reads h
  refine ⟨List.suffix_append a r, ?_, fun _ b => by rw [List.append_assoc]; exact hread _ trivial⟩
  clear hread
  generalize a ++ r = s at h
  fun_induction literalBody? s generalizing t with
  | case1 => cases h
  | case2 s =>
    cases h
    exact fun hs => hs.tail (by decide)
  | case3 c s hq hp ih =>
    obtain ⟨⟨t', r'⟩, ht, hr⟩ := Option.map_eq_some_iff.1 h
    cases hr
    exact fun hs => ih ht (hs.tail (isPrintable_ne hp))
  | case4 => cases h

end Strings

section SeveralLines

variable {s r t : List Char} {mark : Char}

theorem closing?_extent (hm : mark ≠ '\n') (h : closing? mark s = some (t, r)) :
    Extent (closing? mark) s t r := by
  have hp : decide ('\n' = mark) = false := decide_eq_false hm.symm
  have taken (hs : Lined s) (b : List Char) :
      (s ++ b).takeWhile (· = mark) = s.takeWhile (· = mark) := hs.takeWhile_append hp b
  have left (hs : Lined s) : (s.takeWhile (· = mark)).length < s.length := by
    have hne := List.length_pos_iff.2 (hs.dropWhile (p := (· = mark)) hp).ne_nil
    have hlen := congrArg List.length (List.takeWhile_append_dropWhile (p := (· = mark)) (l := s))
    rw [List.length_append] at hlen
    omega
  rw [closing?] at h
  dsimp only at h
  split at h
  · cases h
  · next hrun =>
    cases h
    refine ⟨List.drop_suffix _ _, fun hs => hs.of_suffix (List.drop_suffix _ _) fun hd => ?_, fun hs b => ?_⟩
    · have := left hs
      have := List.drop_eq_nil_iff.1 hd
      omega
    · have := left hs
      rw [closing?, taken hs b]
      dsimp only
      rw [if_neg hrun, List.drop_append_of_le_length (by omega)]

theorem Lined.after_break {a x : List Char} (h : Lined (x ++ (a ++ r))) (hl : 3 ≤ a.length) :
    Lined (a ++ r) := by
  refine h.of_suffix (List.suffix_append x _) fun hn => ?_
  rw [(List.append_eq_nil_iff.1 hn).1] at hl
  exact absurd hl (by decide)

theorem basicLinesBody?_extent (h : basicLinesBody? s = some (t, r)) :
    Extent basicLinesBody? s t r := by
  have main (hs : Lined s) : Lined r ∧ ∀ b, basicLinesBody? (s ++ b) = some (t, r ++ b) := by
    -- each step ends before the last line feed; the lemmas on its characters give it in front of more text too
    fun_induction basicLinesBody? s generalizing t with
    | case1 s done hd =>
      cases h
      have hc := closing?_extent (by decide) hd
      exact ⟨hc.lined hs, fun b => basicLinesBody?_closing (hc.append hs b)⟩
    | case2 => cases h
    | case3 s s' hc hlt hm ih =>
      obtain ⟨a, rfl, hl, _⟩ := basicLinesBody?_reads h
      obtain ⟨e, rfl, he⟩ := continuation?_reads hc (by omega)
      obtain ⟨hr, happ⟩ := ih h ((hs.tail (by decide)).after_break hl)
      refine ⟨hr, fun b => ?_⟩
      have he := he (r ++ b)
      simp only [List.cons_append, List.append_assoc] at happ ⊢
      rw [basicLinesBody?_continuation he, happ]
    | case4 => cases h
    | case5 s hc x s' he hlt hm ih =>
      obtain ⟨⟨t', r'⟩, ht, hr⟩ := Option.map_eq_some_iff.1 h
      cases hr
      obtain ⟨hr, happ⟩ := ih ht ((escape?_extent he).lined (hs.tail (by decide)))
      obtain ⟨y, e, rfl, hsp, hn, hcr, he'⟩ := escape?_reads he
      refine ⟨hr, fun b => ?_⟩
      rw [List.cons_append, List.cons_append, List.append_assoc,
        basicLinesBody?_escape (continuation?_eq_none hsp hn hcr _) (he' _), happ]
      rfl
    | case6 c s hb s' hn hlt hm ih =>
      obtain ⟨⟨t', r'⟩, ht, hr⟩ := Option.map_eq_some_iff.1 h
      cases hr
      obtain ⟨a, rfl, hl, _⟩ := basicLinesBody?_reads ht
      obtain ⟨x, e, he, _, hn'⟩ := newline?_reads hn
      rw [he] at hs ⊢
      obtain ⟨hr, happ⟩ := ih ht (Lined.after_break (x := x :: e) hs hl)
      refine ⟨hr, fun b => ?_⟩
      rw [List.cons_append, List.append_assoc, basicLinesBody?_newline (hn' _), happ]
      rfl
    | case7 c s hb hn hp hm ih =>
      obtain ⟨⟨t', r'⟩, ht, hr⟩ := Option.map_eq_some_iff.1 h
      cases hr
      obtain ⟨a, rfl, hl, _⟩ := basicLinesBody?_reads ht
      obtain ⟨hr, happ⟩ := ih ht (hs.tail (isPrintable_ne hp))
      refine ⟨hr, fun b => ?_⟩
      have hm' := closing?_append_eq_none (a := c :: (a ++ r)) (r := []) (by rwa [List.append_nil])
        (by simp only [List.length_cons, List.length_append]; omega) b
      rw [List.cons_append] at hm' ⊢
      rw [basicLinesBody?_char hm' hb (newline?_eq_none_of_isPrintable hp) hp, happ]
      rfl
    | case8 => cases h
  obtain ⟨a, he, _⟩ := basicLinesBody?_reads h
  exact ⟨⟨a, he.symm⟩, fun hs => (main hs).1, fun hs => (main hs).2⟩

theorem literalLinesBody?_extent (h : literalLinesBody? s = some (t, r)) :
    Extent literalLinesBody? s t r := by
  have main (hs : Lined s) : Lined r ∧ ∀ b, literalLinesBody? (s ++ b) = some (t, r ++ b) := by
    fun_induction literalLinesBody? s generalizing t with
    | case1 s done hd =>
      cases h
      have hc := closing?_extent (by decide) hd
      exact ⟨hc.lined hs, fun b => literalLinesBody?_closing (hc.append hs b)⟩
    | case2 => cases h
    | case3 c s s' hn hlt hm ih =>
      obtain ⟨⟨t', r'⟩, ht, hr⟩ := Option.map_eq_some_iff.1 h
      cases hr
      obtain ⟨a, rfl, hl, _⟩ := literalLinesBody?_reads ht
      obtain ⟨x, e, he, _, hn'⟩ := newline?_reads hn
      rw [he] at hs ⊢
      obtain ⟨hr, happ⟩ := ih ht (Lined.after_break (x := x :: e) hs hl)
      refine ⟨hr, fun b => ?_⟩
      rw [List.cons_append, List.append_assoc, literalLinesBody?_newline (hn' _), happ]
      rfl
    | case4 c s hn hp hm ih =>
      obtain ⟨⟨t', r'⟩, ht, hr⟩ := Option.map_eq_some_iff.1 h
      cases hr
      obtain ⟨a, rfl, hl, _⟩ := literalLinesBody?_reads ht
      obtain ⟨hr, happ⟩ := ih ht (hs.tail (isPrintable_ne hp))
      refine ⟨hr, fun b => ?_⟩
      have hm' := closing?_append_eq_none (a := c :: (a ++ r)) (r := []) (by rwa [List.append_nil])
        (by simp only [List.length_cons, List.length_append]; omega) b
      rw [List.cons_append] at hm' ⊢
      rw [literalLinesBody?_char hm' (newline?_eq_none_of_isPrintable hp) hp, happ]
      rfl
    | case5 => cases h
  obtain ⟨a, he, _⟩ := literalLinesBody?_reads h
  exact ⟨⟨a, he.symm⟩, fun hs => (main hs).1, fun hs => (main hs).2⟩

theorem Lined.not_opening (h : Lined s) (hm : mark ≠ '\n') (hn : ∀ u, s ≠ mark :: mark :: u)
    (b u : List Char) : s ++ b ≠ mark :: mark :: u := by
  match s with
  | [] => exact absurd rfl h.ne_nil
  | [x] =>
    intro he
    exact hm ((List.cons.inj he).1 ▸ Option.some.inj h)
  | x :: y :: s =>
    intro he
    simp only [List.cons_append, List.cons.injEq] at he
    exact hn s (by rw [he.1, he.2.1])

theorem Extent.after_opening {read : List Char → Option (List Char × List Char)} {a : List Char}
    (hx : Extent read (withoutFirstBreak s) t r) (marks : List Char) (ha : withoutFirstBreak s = a ++ r) (hl : 3 ≤ a.length)
    (hs : Lined (marks ++ s)) : Lined r ∧ ∀ b, read (withoutFirstBreak (s ++ b)) = some (t, r ++ b) := by
  obtain ⟨e, rfl, he⟩ := withoutFirstBreak_reads ha hl
  have hbehind : Lined (withoutFirstBreak (e ++ (a ++ r))) := by
    rw [← List.append_assoc] at hs
    rw [ha]
    exact hs.after_break hl
  refine ⟨hx.lined hbehind, fun b => ?_⟩
  have happ := hx.append hbehind b
  rwa [ha, List.append_assoc, ← he, ← List.append_assoc a, ← List.append_assoc e] at happ

theorem string?_extent (h : string? s = some (t, r)) : Extent string? s t r := by
  have main (hs : Lined s) : Lined r ∧ ∀ b, string? (s ++ b) = some (t, r ++ b) := by
    unfold string? at h
    split at h
    · next s =>
      obtain ⟨a, ha, hl, _⟩ := basicLinesBody?_reads h
      exact (basicLinesBody?_extent h).after_opening ['"', '"', '"'] ha hl hs
    · next s hne =>
      have hx := basicBody?_extent h
      have hs := hs.tail (by decide)
      refine ⟨hx.lined hs, fun b => ?_⟩
      rw [List.cons_append, string?_basicBody (hs.not_opening (by decide) hne b), hx.append hs b]
    · next s =>
      obtain ⟨a, ha, hl, _⟩ := literalLinesBody?_reads h
      exact (literalLinesBody?_extent h).after_opening ['\'', '\'', '\''] ha hl hs
    · next s hne =>
      have hx := literalBody?_extent h
      have hs := hs.tail (by decide)
      refine ⟨hx.lined hs, fun b => ?_⟩
      rw [List.cons_append, string?_literalBody (hs.not_opening (by decide) hne b), hx.append hs b]
    · cases h
  obtain ⟨a, he, _⟩ := string?_reads h
  exact ⟨⟨a, he.symm⟩, fun hs => (main hs).1, fun hs => (main hs).2⟩

end SeveralLines

section Keys

variable {s r name spelling : List Char} {path : List Key}

theorem consumed_append_append (h : r <:+ s) (b : List Char) :
    consumed (s ++ b) (r ++ b) = consumed s r := by
  obtain ⟨a, rfl⟩ := h
  rw [List.append_assoc, consumed_append, consumed_append]

theorem isBareKeyChar_lineFeed : isBareKeyChar '\n' = false := by decide

theorem simpleKey?_quoted_extent {read : List Char → Option (List Char × List Char)} {c : Char} (hc : c ≠ '\n')
    (hkey : ∀ u, simpleKey? (c :: u) = (read u).map fun (t, rest) => ((t, consumed (c :: u) rest), rest))
    (hread : ∀ {t r}, read s = some (t, r) → Extent read s t r)
    (h : simpleKey? (c :: s) = some ((name, spelling), r)) (hs : Lined (c :: s)) :
    Lined r ∧ ∀ b, simpleKey? (c :: s ++ b) = some ((name, spelling), r ++ b) := by
  rw [hkey] at h
  obtain ⟨⟨t, r'⟩, ht, hr⟩ := Option.map_eq_some_iff.1 h
  cases hr
  have hx := hread ht
  have hs := hs.tail hc
  refine ⟨hx.lined hs, fun b => ?_⟩
  rw [List.cons_append, hkey, hx.append hs b, Option.map_some]
  exact congrArg (fun x => some ((name, x), r ++ b))
    (consumed_append_append (hx.suffix.trans (List.suffix_cons _ s)) b)

theorem simpleKey?_extent (h : simpleKey? s = some ((name, spelling), r)) :
    Extent simpleKey? s (name, spelling) r := by
  have he := (simpleKey?_reads h).1
  have main (hs : Lined s) : Lined r ∧ ∀ b, simpleKey? (s ++ b) = some ((name, spelling), r ++ b) := by
    rw [simpleKey?.eq_def] at h
    split at h
    · exact simpleKey?_quoted_extent (by decide) (fun _ => rfl) basicBody?_extent h hs
    · exact simpleKey?_quoted_extent (by decide) (fun _ => rfl) literalBody?_extent h hs
    · next hq ha =>
      obtain ⟨c, u, rfl⟩ := List.exists_cons_of_ne_nil hs.ne_nil
      have hc : c ≠ '"' ∧ c ≠ '\'' := ⟨by rintro rfl; exact hq _ rfl, by rintro rfl; exact ha _ rfl⟩
      dsimp only at h
      split at h
      · cases h
      · next hn =>
        cases h
        have hx := hs.takeWhile_append isBareKeyChar_lineFeed
        have hl := hs.dropWhile isBareKeyChar_lineFeed
        rw [← drop_length_takeWhile] at hl
        refine ⟨hl, fun b => ?_⟩
        rw [List.cons_append, simpleKey?_bare hc, ← List.cons_append, hx b, if_neg hn,
          List.drop_append_of_le_length (List.takeWhile_prefix _).length_le]
  exact ⟨⟨spelling, he.symm⟩, fun hs => (main hs).1, fun hs => (main hs).2⟩

theorem isSpace_lineFeed : isSpace '\n' = false := rfl

theorem spacedKeys?_extent (h : spacedKeys? s = some (path, r)) : Extent spacedKeys? s path r := by
  fun_induction spacedKeys? s generalizing path with
  | case1 => cases h
  | case2 s before name spelling t hk key r' ht hl =>
    rename_i ih
    obtain ⟨⟨ls, r''⟩, hls, he⟩ := Option.map_eq_some_iff.1 h
    cases he
    have hx := simpleKey?_extent hk
    have ih := ih hls
    have hd : r' <:+ s := by
      have := List.dropWhile_suffix isSpace (l := t)
      rw [ht] at this
      exact (List.suffix_cons _ _).trans (this.trans (hx.suffix.trans (List.dropWhile_suffix _)))
    have lined (hs : Lined s) : Lined t ∧ Lined r' := by
      have htl := hx.lined (hs.dropWhile isSpace_lineFeed)
      have := htl.dropWhile isSpace_lineFeed
      rw [ht] at this
      exact ⟨htl, this.tail (by decide)⟩
    refine ⟨ih.suffix.trans hd, fun hs => ih.lined (lined hs).2, fun hs b => ?_⟩
    obtain ⟨htl, hrl⟩ := lined hs
    rw [spacedKeys?]
    simp only [hs.takeWhile_append isSpace_lineFeed, hs.dropWhile_append isSpace_lineFeed,
      hx.append (hs.dropWhile isSpace_lineFeed), htl.takeWhile_append isSpace_lineFeed,
      htl.dropWhile_append isSpace_lineFeed, ht, List.cons_append]
    rw [if_pos (by simp only [List.length_append]; omega), ih.append hrl b]
    rfl
  | case3 => cases h
  | case4 s before name spelling t hk key =>
    rename_i hne
    cases h
    have hx := simpleKey?_extent hk
    refine ⟨(List.dropWhile_suffix _).trans (hx.suffix.trans (List.dropWhile_suffix _)),
      fun hs => (hx.lined (hs.dropWhile isSpace_lineFeed)).dropWhile isSpace_lineFeed, fun hs b => ?_⟩
    have htl := hx.lined (hs.dropWhile isSpace_lineFeed)
    rw [spacedKeys?]
    simp only [hs.takeWhile_append isSpace_lineFeed, hs.dropWhile_append isSpace_lineFeed,
      hx.append (hs.dropWhile isSpace_lineFeed), htl.takeWhile_append isSpace_lineFeed,
      htl.dropWhile_append isSpace_lineFeed]
    -- no dot follows in the longer text either, since the last line feed still stands in front of it
    split
    · next r' hr =>
      obtain ⟨c, u, hu⟩ := List.exists_cons_of_ne_nil (htl.dropWhile isSpace_lineFeed).ne_nil
      rw [hu, List.cons_append] at hr
      exact absurd (by rw [hu, (List.cons.inj hr).1]) (hne u)
    · rfl

theorem keyPath?_extent (h : keyPath? s = some (path, r)) : Extent keyPath? s path r := by
  obtain ⟨⟨ks, t⟩, hk, h⟩ := Option.bind_eq_some_iff.1 h
  have hx := spacedKeys?_extent hk
  dsimp only at h
  split at h
  · next hl =>
    cases h
    refine ⟨hx.suffix, hx.lined, fun hs b => ?_⟩
    rw [keyPath?, hx.append hs b, Option.bind_some]
    exact if_pos hl
  · cases h

end Keys

section Scalars

variable {s r t : List Char} {d : Data} {v : Value}

theorem isTokenChar_lineFeed : isTokenChar '\n' = false := by decide

theorem token_extent (s : List Char) : ∃ u, s = token s ++ u ∧
    (Lined s → Lined u ∧ ∀ b, token (s ++ b) = token s) := by
  have hs : s.takeWhile isTokenChar ++ s.dropWhile isTokenChar = s := List.takeWhile_append_dropWhile
  have hfar (h : Lined s) (b : List Char) := h.takeWhile_append isTokenChar_lineFeed b
  have hrest (h : Lined s) (b : List Char) := h.dropWhile_append isTokenChar_lineFeed b
  have hleft (h : Lined s) := h.dropWhile isTokenChar_lineFeed
  generalize ht : s.takeWhile isTokenChar = t at hs hfar
  generalize hd : s.dropWhile isTokenChar = w at hs hrest hleft
  -- the one space that may stand in a token is between a date and a time
  by_cases hw : ∃ c u, w = ' ' :: c :: u
  · obtain ⟨c, u, rfl⟩ := hw
    have hx : token s = if afterDate? t = some [] && c.isDigit then
        t ++ ' ' :: (c :: u).takeWhile isTokenChar else t := by
      rw [token, ht, hd]
      rfl
    have hline (h : Lined s) : Lined (c :: u) := (hleft h).tail (by decide)
    have hb (h : Lined s) (b : List Char) : token (s ++ b) = token s := by
      rw [hx, ← (hline h).takeWhile_append isTokenChar_lineFeed b, token, hfar h, hrest h]
      rfl
    by_cases hc : (decide (afterDate? t = some []) && c.isDigit) = true
    · refine ⟨(c :: u).dropWhile isTokenChar, ?_,
        fun h => ⟨(hline h).dropWhile isTokenChar_lineFeed, hb h⟩⟩
      rw [hx, if_pos hc, List.append_assoc, List.cons_append, List.takeWhile_append_dropWhile]
      exact hs.symm
    · refine ⟨' ' :: c :: u, ?_, fun h => ⟨hleft h, hb h⟩⟩
      rw [hx, if_neg hc, hs]
  · have hx : token s = t := by
      rw [token, ht, hd]
      split
      · exact absurd ⟨_, _, rfl⟩ hw
      · rfl
    refine ⟨w, by rw [hx, hs], fun h => ⟨hleft h, fun b => ?_⟩⟩
    rw [hx, token, hfar h, hrest h]
    split
    · next c u hc =>
      have hl := hleft h
      rcases w with _ | ⟨x, _ | ⟨y, w⟩⟩
      · exact absurd rfl hl.ne_nil
      · rw [List.cons_append, List.cons.injEq] at hc
        exact absurd (hc.1 ▸ Option.some.inj hl) (by decide)
      · rw [List.cons_append, List.cons.injEq] at hc
        exact absurd ⟨y, w, by rw [hc.1]⟩ hw
    · rfl

theorem scalar?_extent (h : scalar? s = some ((t, d), r)) : Extent scalar? s (t, d) r := by
  rw [scalar?] at h
  obtain ⟨d', hd, he⟩ := Option.map_eq_some_iff.1 h
  obtain ⟨u, hu, hs⟩ := token_extent s
  have hdrop (b : List Char) : (s ++ b).drop (token s).length = u ++ b := by
    have he : s ++ b = token s ++ (u ++ b) := by rw [← List.append_assoc, ← hu]
    rw [he, List.drop_left]
  have hnil := hdrop []
  rw [List.append_nil, List.append_nil] at hnil
  rw [hnil] at he
  cases he
  refine ⟨⟨token s, hu.symm⟩, fun h => (hs h).1, fun h b => ?_⟩
  rw [scalar?, (hs h).2 b, hd, Option.map_some, hdrop]

theorem plain?_extent (h : plain? s = some (v, r)) : Extent plain? s v r := by
  obtain ⟨c, s, rfl, hc⟩ := plain?_head h
  by_cases hm : c = '"' ∨ c = '\''
  · rw [plain?_mark hm] at h
    obtain ⟨⟨t, r'⟩, ht, he⟩ := Option.map_eq_some_iff.1 h
    cases he
    have hx := string?_extent ht
    refine ⟨hx.suffix, hx.lined, fun hs b => ?_⟩
    have happ := hx.append hs b
    rw [List.cons_append] at happ ⊢
    rw [plain?_mark hm, happ, Option.map_some]
    exact congrArg (fun x => some ((⟨.text (String.ofList t), x⟩ : Value), r ++ b))
      (consumed_append_append hx.suffix b)
  · rw [not_or] at hm
    rw [plain?_scalar hm.1 hm.2] at h
    obtain ⟨⟨⟨t, d⟩, r'⟩, ht, he⟩ := Option.map_eq_some_iff.1 h
    cases he
    have hx := scalar?_extent ht
    refine ⟨hx.suffix, hx.lined, fun hs b => ?_⟩
    have happ := hx.append hs b
    rw [List.cons_append] at happ ⊢
    rw [plain?_scalar hm.1 hm.2, happ]
    rfl

end Scalars

section Trivia

variable {inComment : Bool} {s r t : List Char}

theorem trivia_return : trivia inComment ('\r' :: '\n' :: r) =
    ('\n' :: (trivia false r).1, (trivia false r).2) := by
  rw [trivia]

theorem trivia_suffix (h : trivia inComment s = (t, r)) : r <:+ s := by
  fun_induction trivia inComment s generalizing t with
  | case1 =>
    cases h
    exact List.suffix_rfl
  | case2 ic s x rest hx ih =>
    cases h
    exact (ih hx).trans (List.suffix_cons _ s)
  | case3 ic s x rest hx ih =>
    cases h
    exact (ih hx).trans ((List.suffix_cons _ s).trans (List.suffix_cons _ _))
  | case4 ic c s hn hr hc x rest hx ih =>
    cases h
    exact (ih hx).trans (List.suffix_cons _ s)
  | case5 =>
    cases h
    exact List.suffix_rfl

theorem trivia_lined (hs : Lined s) (h : trivia inComment s = (t, r)) (b : List Char) :
    trivia inComment (s ++ b) =
      if r = [] then (t ++ (trivia false b).1, (trivia false b).2) else (t, r ++ b) := by
  fun_induction trivia inComment s generalizing t with
  | case1 => cases hs
  | case2 ic s x rest hx ih =>
    cases h
    rw [List.cons_append, trivia_newline]
    by_cases hn : s = []
    · subst hn
      cases hx
      rfl
    · rw [ih (hs.of_suffix (List.suffix_cons _ s) hn) hx]
      split <;> rfl
  | case3 ic s x rest hx ih =>
    cases h
    rw [List.cons_append, List.cons_append, trivia_return]
    by_cases hn : s = []
    · subst hn
      cases hx
      rfl
    · rw [ih ((hs.tail (by decide)).of_suffix (List.suffix_cons _ s) hn) hx]
      split <;> rfl
  | case4 ic c s hn hr hc x rest hx ih =>
    cases h
    have hn : c ≠ '\n' := fun he => hn he
    rw [List.cons_append, trivia_cons hn (ne_return_of_isTriviaChar hc) hc, ih (hs.tail hn) hx]
    split <;> rfl
  | case5 ic c s hn hr hc =>
    cases h
    rw [if_neg (List.cons_ne_nil c s), List.cons_append, trivia.eq_def]
    split
    · contradiction
    · next he =>
      cases he
      exact absurd rfl hn
    · next he =>
      rw [List.cons.injEq] at he
      have hs := hs.tail hn
      obtain ⟨x, u, rfl⟩ := List.exists_cons_of_ne_nil hs.ne_nil
      exact absurd (by rw [(List.cons.inj he.2).1]) (hr u he.1)
    · next he =>
      cases he
      rw [if_neg hc]

theorem trivia_extent {c : Char} (h : trivia inComment s = (t, c :: r)) (hs : Lined s) :
    Lined (c :: r) ∧ ∀ b, trivia inComment (s ++ b) = (t, c :: (r ++ b)) := by
  refine ⟨hs.of_suffix (trivia_suffix h) (List.cons_ne_nil c r), fun b => ?_⟩
  rw [trivia_lined hs h b, if_neg (List.cons_ne_nil c r), List.cons_append]

theorem isPrintable_lineFeed : isPrintable '\n' = false := by decide

theorem lineEnd?_extent (h : lineEnd? s = some (t, r)) :
    r <:+ s ∧ (Lined s → (r = [] ∨ Lined r) ∧ ∀ b, lineEnd? (s ++ b) = some (t, r ++ b)) := by
  rw [lineEnd?] at h
  generalize hc : (if (s.dropWhile isSpace).head? = some '#' then (s.dropWhile isSpace).takeWhile isPrintable
    else []) = comment at h
  have hprefix : comment <+: s.dropWhile isSpace := by
    rw [← hc]
    split
    · exact List.takeWhile_prefix _
    · exact List.nil_prefix
  have hsuffix : (s.dropWhile isSpace).drop comment.length <:+ s :=
    (List.drop_suffix _ _).trans (List.dropWhile_suffix _)
  -- neither the space nor the comment takes the line feed, so both are the same in the longer text
  have main (hs : Lined s) : Lined ((s.dropWhile isSpace).drop comment.length) ∧
      ∀ e, e = ['\n'] ∨ e = ['\r', '\n'] → (s.dropWhile isSpace).drop comment.length = e ++ r →
        ∀ b, lineEnd? (s ++ b) = some (s.takeWhile isSpace ++ comment, r ++ b) := by
    have hd := hs.dropWhile isSpace_lineFeed
    obtain ⟨c, u, hu⟩ := List.exists_cons_of_ne_nil hd.ne_nil
    have hcb (b : List Char) : (if (s.dropWhile isSpace ++ b).head? = some '#' then
        (s.dropWhile isSpace ++ b).takeWhile isPrintable else []) = comment := by
      rw [hd.takeWhile_append isPrintable_lineFeed, ← hc, hu]
      rfl
    refine ⟨?_, fun e he hw b => ?_⟩
    · rw [← hc]
      split
      · rw [drop_length_takeWhile]
        exact hd.dropWhile isPrintable_lineFeed
      · exact hd
    · have hdrop : (s.dropWhile isSpace ++ b).drop comment.length = e ++ (r ++ b) := by
        rw [List.drop_append_of_le_length hprefix.length_le, hw, List.append_assoc]
      rw [lineEnd?, hs.takeWhile_append isSpace_lineFeed, hs.dropWhile_append isSpace_lineFeed, hcb b,
        hdrop]
      rcases he with rfl | rfl <;> rfl
  generalize (s.dropWhile isSpace).drop comment.length = w at h hsuffix main
  have left {a : List Char} (hw : w = a ++ r) (hs : Lined s) : r = [] ∨ Lined r := by
    by_cases hr : r = []
    · exact .inl hr
    · exact .inr ((main hs).1.of_suffix ⟨a, hw.symm⟩ hr)
  split at h
  · cases h
    exact ⟨List.nil_suffix, fun hs => absurd rfl (main hs).1.ne_nil⟩
  · cases h
    exact ⟨(List.suffix_cons _ r).trans hsuffix,
      fun hs => ⟨left (a := ['\n']) rfl hs, (main hs).2 ['\n'] (.inl rfl) rfl⟩⟩
  · cases h
    exact ⟨((List.suffix_cons _ r).trans (List.suffix_cons _ _)).trans hsuffix,
      fun hs => ⟨left (a := ['\r', '\n']) rfl hs, (main hs).2 ['\r', '\n'] (.inr rfl) rfl⟩⟩
  · cases h

end Trivia

section Values

variable {read : List Char → Option (Value × List Char)} {s r : List Char}

theorem items?_extent (hh : ∀ s v r, read s = some (v, r) → ∃ c t, s = c :: t ∧ startsValue c = true)
    (hx : ∀ s v r, read s = some (v, r) → Extent read s v r) {text : List Char} {ds : List Data}
    (h : items? read s = some ((ds, text), r)) : Extent (items? read) s (ds, text) r := by
  have hne {s u : List Char} {v : Value} (hv : read s = some (v, u)) : s ≠ [] := by
    obtain ⟨c, t, rfl, _⟩ := hh _ _ _ hv
    exact List.cons_ne_nil c t
  -- an item starts as it is, and no bracket closes the array there, whatever is written behind it
  have start {s t r u : List Char} {v : Value} (ht : trivia false s = (t, r)) (hv : read r = some (v, u))
      (hs : Lined s) (b : List Char) :
      trivia false (s ++ b) = (t, r ++ b) ∧ (r ++ b).head? ≠ some ']' ∧
        read (r ++ b) = some (v, u ++ b) ∧ Lined u := by
    have hr : Lined r := hs.of_suffix (trivia_suffix ht) (hne hv)
    refine ⟨by rw [trivia_lined hs ht b, if_neg (hne hv)], ?_, (hx _ _ _ hv).append hr b,
      (hx _ _ _ hv).lined hr⟩
    obtain ⟨c, t, rfl, hc⟩ := hh _ _ _ hv
    simpa using ne_of_startsValue hc (by decide)
  replace h := items_of_items? h
  induction h with
  | close hb =>
    refine ⟨(List.suffix_cons _ _).trans (trivia_suffix hb), fun hs => ?_, fun hs b => ?_⟩
    · exact (trivia_extent hb hs).1.tail (by decide)
    · rw [items?, (trivia_extent hb hs).2 b]
      rfl
  | last hb hv ha =>
    refine ⟨(List.suffix_cons _ _).trans
      ((trivia_suffix ha).trans ((hx _ _ _ hv).suffix.trans (trivia_suffix hb))), fun hs => ?_, fun hs b => ?_⟩
    · obtain ⟨_, _, _, hu⟩ := start hb hv hs []
      exact (trivia_extent ha hu).1.tail (by decide)
    · obtain ⟨ht, hhead, hread, hu⟩ := start hb hv hs b
      exact items?_of_last ht hhead hread ((trivia_extent ha hu).2 b)
  | comma hb hv ha hl _ ih =>
    refine ⟨ih.suffix.trans ((List.suffix_cons _ _).trans ((trivia_suffix ha).trans
      ((hx _ _ _ hv).suffix.trans (trivia_suffix hb)))), fun hs => ?_, fun hs b => ?_⟩
    · obtain ⟨_, _, _, hu⟩ := start hb hv hs []
      exact ih.lined ((trivia_extent ha hu).1.tail (by decide))
    · obtain ⟨ht, hhead, hread, hu⟩ := start hb hv hs b
      obtain ⟨hline, hcomma⟩ := trivia_extent ha hu
      rw [items?_of_comma ht hhead hread (hcomma b) (by simp only [List.length_append]; omega),
        ih.append (hline.tail (by decide)) b]
      rfl

theorem pair?_extent (hx : ∀ s v r, read s = some (v, r) → Extent read s v r) {e : Entry}
    (h : pair? read s = some (e, r)) : Extent (pair? read) s e r := by
  unfold pair? at h
  split at h
  · next path r' hp =>
    obtain ⟨⟨v, rest⟩, hv, he⟩ := Option.map_eq_some_iff.1 h
    cases he
    have hpath := keyPath?_extent hp
    have hread := hx _ _ _ hv
    have lined (hs : Lined s) : Lined r' := (hpath.lined hs).tail (by decide)
    have left (hs : Lined s) := hread.lined ((lined hs).dropWhile isSpace_lineFeed)
    refine ⟨(List.dropWhile_suffix _).trans (hread.suffix.trans ((List.dropWhile_suffix _).trans
      ((List.suffix_cons _ _).trans hpath.suffix))),
      fun hs => (left hs).dropWhile isSpace_lineFeed, fun hs b => ?_⟩
    simp only [pair?, hpath.append hs b, List.cons_append, (lined hs).dropWhile_append isSpace_lineFeed,
      (lined hs).takeWhile_append isSpace_lineFeed,
      hread.append ((lined hs).dropWhile isSpace_lineFeed) b, Option.map_some,
      (left hs).dropWhile_append isSpace_lineFeed, (left hs).takeWhile_append isSpace_lineFeed]
  · cases h

theorem pairs?_extent (hx : ∀ s v r, read s = some (v, r) → Extent read s v r) {es : List Entry}
    (h : pairs? read s = some (es, r)) : Extent (pairs? read) s es r := by
  replace h := pairs_of_pairs? h
  induction h with
  | last hp =>
    have hpair := pair?_extent hx hp
    refine ⟨(List.suffix_cons _ _).trans hpair.suffix, fun hs => (hpair.lined hs).tail (by decide),
      fun hs b => ?_⟩
    rw [pairs?, hpair.append hs b]
    rfl
  | @comma s r' _ _ _ hp hlt _ ih =>
    have hpair := pair?_extent hx hp
    have lined (hs : Lined s) : Lined r' := (hpair.lined hs).tail (by decide)
    refine ⟨ih.suffix.trans ((List.suffix_cons _ _).trans hpair.suffix), fun hs => ih.lined (lined hs),
      fun hs b => ?_⟩
    rw [pairs?, hpair.append hs b]
    simp only [List.cons_append]
    rw [if_pos (by simp only [List.length_append]; omega), ih.append (lined hs) b]
    rfl

theorem inline?_extent (hx : ∀ s v r, read s = some (v, r) → Extent read s v r) {v : Value}
    (h : inline? read s = some (v, r)) : Extent (inline? read) s v r := by
  unfold inline? at h
  split at h
  · next rest hs =>
    cases h
    have hd := List.dropWhile_suffix isSpace (l := s)
    rw [hs] at hd
    have lined (h : Lined s) := h.dropWhile isSpace_lineFeed
    rw [hs] at lined
    refine ⟨(List.suffix_cons _ _).trans hd, fun h => (lined h).tail (by decide), fun h b => ?_⟩
    rw [inline?, h.dropWhile_append isSpace_lineFeed, h.takeWhile_append isSpace_lineFeed, hs]
    rfl
  · next hne =>
    obtain ⟨⟨es, rest⟩, hp, h⟩ := Option.bind_eq_some_iff.1 h
    obtain ⟨cs, hd, h⟩ := Option.bind_eq_some_iff.1 h
    cases h
    have hpairs := pairs?_extent hx hp
    refine ⟨hpairs.suffix, hpairs.lined, fun hs b => ?_⟩
    rw [inline?, hs.dropWhile_append isSpace_lineFeed]
    split
    · next u hu =>
      obtain ⟨c, w, hw⟩ := List.exists_cons_of_ne_nil (hs.dropWhile isSpace_lineFeed).ne_nil
      rw [hw, List.cons_append] at hu
      exact absurd (by rw [hw, (List.cons.inj hu).1]) (hne w)
    · rw [hpairs.append hs b]
      simp only [Option.bind_eq_bind, Option.bind_some, hd]

/-- No value takes the line feed that ends the text. -/
theorem value?_extent (n : Nat) {v : Value} (h : value? n s = some (v, r)) : Extent (value? n) s v r := by
  induction n generalizing s r v with
  | zero =>
    rw [value?] at h
    obtain ⟨hsuffix, hlined, happ⟩ := plain?_extent h
    exact ⟨hsuffix, hlined, fun hs b => by rw [value?, happ hs b]⟩
  | succ n ih =>
    unfold value? at h
    split at h
    · next s =>
      obtain ⟨⟨⟨ds, text⟩, rest⟩, hi, he⟩ := Option.map_eq_some_iff.1 h
      cases he
      have hitems := items?_extent (fun _ _ _ => value?_head) (fun _ _ _ => ih) hi
      refine ⟨hitems.suffix.trans (List.suffix_cons _ s), fun hs => hitems.lined (hs.tail (by decide)),
        fun hs b => ?_⟩
      rw [List.cons_append, value?, hitems.append (hs.tail (by decide)) b]
      rfl
    · next s =>
      have hinline := inline?_extent (fun _ _ _ => ih) h
      refine ⟨hinline.suffix.trans (List.suffix_cons _ s),
        fun hs => hinline.lined (hs.tail (by decide)), fun hs b => ?_⟩
      rw [List.cons_append, value?, hinline.append (hs.tail (by decide)) b]
    · next hl hb =>
      obtain ⟨hsuffix, hlined, happ⟩ := plain?_extent h
      refine ⟨hsuffix, hlined, fun hs b => ?_⟩
      obtain ⟨c, u, rfl⟩ := List.exists_cons_of_ne_nil hs.ne_nil
      have happ := happ hs b
      rw [List.cons_append] at happ ⊢
      rw [value?_plain (by rintro rfl; exact hl _ rfl) (by rintro rfl; exact hb _ rfl), happ]

end Values

end CBuild.Toml
