import CBuild.Proofs.Toml.Quoting

/-! Reading a string takes a piece of the text that reads alike wherever it stands, in front of anything
that is no quotation mark. -/

namespace CBuild.Toml

/-- The reader takes `text` to mean `a`, in front of all that `p` allows. -/
def Reads (read : List Char → Option (α × List Char)) (p : List Char → Prop) (text : List Char)
    (a : α) : Prop :=
  ∀ rest, p rest → read (text ++ rest) = some (a, rest)

section Escapes

theorem escape?_reads {s r : List Char} {c : Char} (h : escape? s = some (c, r)) :
    ∃ x e, s = x :: (e ++ r) ∧ isSpace x = false ∧ x ≠ '\n' ∧ x ≠ '\r' ∧
      ∀ r', escape? (x :: (e ++ r')) = some (c, r') := by
  cases s with
  | nil => simp [escape?] at h
  | cons x t =>
    have coded (n : Nat) (hn : n ≤ t.length) (r' : List Char) :
        n ≤ (t.take n ++ r').length ∧ (t.take n ++ r').take n = t.take n ∧
          (t.take n ++ r').drop n = r' := by
      have hl : (t.take n).length = n := by simp [hn]
      refine ⟨by simp [hn], ?_, ?_⟩
      · rw [List.take_append_of_le_length (by omega), List.take_of_length_le (by omega)]
      · rw [List.drop_append_of_le_length (by omega), List.drop_of_length_le (by omega),
          List.nil_append]
    rw [escape?] at h
    iterate 7
      split at h
      · next hx =>
        cases h
        subst hx
        exact ⟨_, [], rfl, by decide, by decide, by decide, fun r' => by simp [escape?]⟩
    split at h
    · next hx =>
      simp only [Bool.and_eq_true, decide_eq_true_eq] at hx
      obtain ⟨rfl, hl⟩ := hx
      obtain ⟨y, hy, hr⟩ := Option.map_eq_some_iff.1 h
      cases hr
      refine ⟨_, t.take 4, by rw [List.take_append_drop], by decide, by decide, by decide, fun r' => ?_⟩
      obtain ⟨_, h2, h3⟩ := coded 4 hl r'
      simp [escape?, h2, h3, hy, hl]
    split at h
    · next hx =>
      simp only [Bool.and_eq_true, decide_eq_true_eq] at hx
      obtain ⟨rfl, hl⟩ := hx
      obtain ⟨y, hy, hr⟩ := Option.map_eq_some_iff.1 h
      cases hr
      refine ⟨_, t.take 8, by rw [List.take_append_drop], by decide, by decide, by decide, fun r' => ?_⟩
      obtain ⟨_, h2, h3⟩ := coded 8 hl r'
      simp [escape?, h2, h3, hy, hl]
    · cases h

end Escapes

section OneLine

theorem basicBody?_reads {s r t : List Char} (h : basicBody? s = some (t, r)) :
    ∃ a, s = a ++ r ∧ Reads basicBody? (fun _ => True) a t := by
  fun_induction basicBody? s generalizing t with
  | case1 => simp at h
  | case2 s =>
    cases h
    exact ⟨['"'], rfl, fun rest _ => by simp [basicBody?]⟩
  | case3 s he hq => simp at h
  | case4 s x s' he hl hq ih =>
    obtain ⟨⟨t', r'⟩, ht, hr⟩ := Option.map_eq_some_iff.1 h
    cases hr
    obtain ⟨a, rfl, ha⟩ := ih ht
    obtain ⟨y, e, rfl, _, _, _, he'⟩ := escape?_reads he
    refine ⟨'\\' :: y :: (e ++ a), by simp, fun rest hrest => ?_⟩
    rw [List.cons_append, List.cons_append, List.append_assoc, basicBody?_escape (he' _),
      ha rest hrest]
    rfl
  | case5 c s hq hb hp ih =>
    obtain ⟨⟨t', r'⟩, ht, hr⟩ := Option.map_eq_some_iff.1 h
    cases hr
    obtain ⟨a, rfl, ha⟩ := ih ht
    refine ⟨c :: a, rfl, fun rest hrest => ?_⟩
    rw [List.cons_append, basicBody?, if_neg hq, if_neg hb, if_pos hp, ha rest hrest]
    rfl
  | case6 c s hq hb hp => simp at h

theorem literalBody?_reads {s r t : List Char} (h : literalBody? s = some (t, r)) :
    ∃ a, s = a ++ r ∧ Reads literalBody? (fun _ => True) a t := by
  induction s generalizing t with
  | nil => simp [literalBody?] at h
  | cons c s ih =>
    rw [literalBody?] at h
    split at h
    · next hc =>
      cases h
      exact ⟨[c], rfl, fun rest _ => by simp [literalBody?, hc]⟩
    · next hc =>
      split at h
      · next hp =>
        obtain ⟨⟨t', r'⟩, ht, hr⟩ := Option.map_eq_some_iff.1 h
        cases hr
        obtain ⟨a, rfl, ha⟩ := ih ht
        refine ⟨c :: a, rfl, fun rest hrest => ?_⟩
        rw [List.cons_append, literalBody?, if_neg hc, if_pos hp, ha rest hrest]
        rfl
      · cases h

theorem basicBody?_append_ne {a t rest : List Char} (ha : Reads basicBody? (fun _ => True) a t)
    (hr : rest.head? ≠ some '"') (u : List Char) : a ++ rest ≠ '"' :: '"' :: u := by
  intro h
  have ha := ha [] trivial
  match a with
  | [] => simp [basicBody?] at ha
  | c :: a =>
    rw [List.cons_append, List.cons.injEq] at h
    rw [h.1, List.append_nil, basicBody?, if_pos rfl] at ha
    cases ha
    exact hr (by rw [show rest = '"' :: u from h.2, List.head?_cons])

theorem literalBody?_append_ne {a t rest : List Char} (ha : Reads literalBody? (fun _ => True) a t)
    (hr : rest.head? ≠ some '\'') (u : List Char) : a ++ rest ≠ '\'' :: '\'' :: u := by
  intro h
  have ha := ha [] trivial
  match a with
  | [] => simp [literalBody?] at ha
  | c :: a =>
    rw [List.cons_append, List.cons.injEq] at h
    rw [h.1, List.append_nil, literalBody?, if_pos rfl] at ha
    cases ha
    exact hr (by rw [show rest = '\'' :: u from h.2, List.head?_cons])

end OneLine

section Breaks

variable {a r s : List Char}

theorem newline?_reads (h : newline? s = some r) :
    ∃ x e, s = x :: (e ++ r) ∧ isSpace x = false ∧ ∀ r', newline? (x :: (e ++ r')) = some r' := by
  unfold newline? at h
  split at h
  · cases h
    exact ⟨'\n', [], rfl, rfl, fun _ => rfl⟩
  · cases h
    exact ⟨'\r', ['\n'], rfl, rfl, fun _ => rfl⟩
  · cases h

theorem newline?_append_eq_none (h : newline? (a ++ r) = none) (hl : 2 ≤ a.length) (r' : List Char) :
    newline? (a ++ r') = none := by
  match a with
  | [] => simp at hl
  | [_] => simp at hl
  | x :: y :: a =>
    have hx : x ≠ '\n' := by
      rintro rfl
      cases h
    by_cases hr : x = '\r'
    · subst hr
      have hy : y ≠ '\n' := by
        rintro rfl
        cases h
      unfold newline?
      split
      · next hc => cases hc
      · next hc =>
        cases hc
        exact absurd rfl hy
      · rfl
    · exact newline?_eq_none hx hr

theorem skipSpaceAndLines_stop (h : skipSpaceAndLines (a ++ r) = a ++ r) (hl : 2 ≤ a.length)
    (r' : List Char) : skipSpaceAndLines (a ++ r') = a ++ r' := by
  have shorter {u v : List Char} (hu : skipSpaceAndLines u = v) : v.length ≤ u.length :=
    hu ▸ length_skipSpaceAndLines_le u
  match a with
  | [] => simp at hl
  | [_] => simp at hl
  | x :: y :: a =>
    rw [List.cons_append, List.cons_append] at h ⊢
    rw [skipSpaceAndLines.eq_def]
    split
    · next hc =>
      cases hc
      rw [skipSpaceAndLines] at h
      have := shorter h
      simp only [List.length_cons] at this
      omega
    · next hc =>
      cases hc
      rw [skipSpaceAndLines] at h
      have := shorter h
      simp only [List.length_cons] at this
      omega
    · next hc =>
      cases hc
      rw [skipSpaceAndLines] at h
      have := shorter h
      simp only [List.length_cons] at this
      omega
    · next hc =>
      cases hc
      rw [skipSpaceAndLines] at h
      have := shorter h
      simp only [List.length_cons] at this
      omega
    · rfl

theorem skipSpaceAndLines_reads (h : skipSpaceAndLines s = a ++ r) (hl : 2 ≤ a.length) :
    ∃ e, s = e ++ (a ++ r) ∧ ∀ r', skipSpaceAndLines (e ++ (a ++ r')) = a ++ r' := by
  fun_induction skipSpaceAndLines s with
  | case1 s ih =>
    obtain ⟨e, rfl, he⟩ := ih h
    exact ⟨' ' :: e, rfl, fun r' => by rw [List.cons_append, skipSpaceAndLines, he]⟩
  | case2 s ih =>
    obtain ⟨e, rfl, he⟩ := ih h
    exact ⟨'\t' :: e, rfl, fun r' => by rw [List.cons_append, skipSpaceAndLines, he]⟩
  | case3 s ih =>
    obtain ⟨e, rfl, he⟩ := ih h
    exact ⟨'\n' :: e, rfl, fun r' => by rw [List.cons_append, skipSpaceAndLines, he]⟩
  | case4 s ih =>
    obtain ⟨e, rfl, he⟩ := ih h
    exact ⟨'\r' :: '\n' :: e, rfl, fun r' => by
      rw [List.cons_append, List.cons_append, skipSpaceAndLines, he]⟩
  | case5 s h1 h2 h3 h4 =>
    have hs : skipSpaceAndLines s = s := by
      rw [skipSpaceAndLines.eq_def]
      split
      · exact absurd rfl (h1 _)
      · exact absurd rfl (h2 _)
      · exact absurd rfl (h3 _)
      · exact absurd rfl (h4 _)
      · rfl
    subst h
    exact ⟨[], rfl, fun r' => skipSpaceAndLines_stop hs hl r'⟩

theorem continuation?_reads (h : continuation? s = some (a ++ r)) (hl : 2 ≤ a.length) :
    ∃ e, s = e ++ (a ++ r) ∧ ∀ r', continuation? (e ++ (a ++ r')) = some (a ++ r') := by
  obtain ⟨t, ht, hk⟩ := Option.map_eq_some_iff.1 h
  obtain ⟨x, e, he, hx, hn⟩ := newline?_reads ht
  obtain ⟨f, rfl, hf⟩ := skipSpaceAndLines_reads hk hl
  have hsp : ∀ c ∈ s.takeWhile isSpace, isSpace c = true := fun c hc => List.mem_takeWhile_imp hc
  refine ⟨s.takeWhile isSpace ++ x :: (e ++ f), ?_, fun r' => ?_⟩
  · calc s = s.takeWhile isSpace ++ s.dropWhile isSpace := List.takeWhile_append_dropWhile.symm
      _ = _ := by rw [he]; simp
  · have hd : (s.takeWhile isSpace ++ x :: (e ++ (f ++ (a ++ r')))).dropWhile isSpace =
        x :: (e ++ (f ++ (a ++ r'))) := by
      rw [List.dropWhile_append_of_pos hsp, List.dropWhile_cons, if_neg (by simp [hx])]
    rw [continuation?, List.append_assoc, List.cons_append, List.append_assoc, hd, hn,
      Option.map_some, hf]

end Breaks

section SeveralLines

variable {a r s t : List Char} {mark : Char}

theorem closing?_reads (h : closing? mark s = some (t, r)) :
    ∃ a, s = a ++ r ∧ 3 ≤ a.length ∧ Reads (closing? mark) (·.head? ≠ some mark) a t := by
  rw [closing?] at h
  simp only at h
  split at h
  · cases h
  · next hn =>
    simp only [Option.some.injEq, Prod.mk.injEq] at h
    obtain ⟨rfl, rfl⟩ := h
    generalize hk : min ((s.takeWhile (· = mark)).length - 3) 2 = k
    have hle : k + 3 ≤ (s.takeWhile (· = mark)).length := by omega
    refine ⟨List.replicate (k + 3) mark, ?_, by simp, fun rest hr => ?_⟩
    · obtain ⟨u, hu⟩ := List.takeWhile_prefix (· = mark) (l := s)
      have ht : s.take (k + 3) = List.replicate (k + 3) mark := by
        rw [← hu, List.take_append_of_le_length hle]
        refine List.eq_replicate_iff.2 ⟨by simp [hle], fun x hx => ?_⟩
        simpa only [decide_eq_true_eq] using List.mem_takeWhile_imp (List.mem_of_mem_take hx)
      rw [← ht, List.take_append_drop]
    · exact closing?_replicate k (by omega) hr

theorem closing?_append_eq_none (h : closing? mark (a ++ r) = none) (hl : 3 ≤ a.length)
    (r' : List Char) : closing? mark (a ++ r') = none := by
  have short : ((a ++ r).takeWhile (· = mark)).length < 3 := by
    rw [closing?] at h
    simp only at h
    split at h
    · assumption
    · cases h
  have hall : (a.takeWhile (· = mark)).length ≠ a.length := by
    intro hall
    rw [List.takeWhile_append, if_pos hall, List.length_append] at short
    omega
  rw [List.takeWhile_append, if_neg hall] at short
  rw [closing?, List.takeWhile_append, if_neg hall]
  simp only
  rw [if_pos short]

theorem basicLinesBody?_reads (h : basicLinesBody? s = some (t, r)) :
    ∃ a, s = a ++ r ∧ 3 ≤ a.length ∧ Reads basicLinesBody? (·.head? ≠ some '"') a t := by
  fun_induction basicLinesBody? s generalizing t with
  | case1 s done hd =>
    cases h
    obtain ⟨a, rfl, hl, ha⟩ := closing?_reads hd
    exact ⟨a, rfl, hl, fun rest hr => basicLinesBody?_closing (ha rest hr)⟩
  | case2 => cases h
  | case3 s s' hc hlt hm ih =>
    obtain ⟨a, rfl, hl, ha⟩ := ih h
    obtain ⟨e, rfl, he⟩ := continuation?_reads hc (by omega)
    refine ⟨'\\' :: (e ++ a), by simp, by simp; omega, fun rest hr => ?_⟩
    rw [List.cons_append, List.append_assoc, basicLinesBody?_continuation (he rest), ha rest hr]
  | case4 => cases h
  | case5 s hc x s' he hlt hm ih =>
    obtain ⟨⟨t', r'⟩, ht, hr⟩ := Option.map_eq_some_iff.1 h
    cases hr
    obtain ⟨a, rfl, hl, ha⟩ := ih ht
    obtain ⟨y, e, rfl, hs, hn, hcr, he'⟩ := escape?_reads he
    refine ⟨'\\' :: y :: (e ++ a), by simp, by simp; omega, fun rest hr => ?_⟩
    rw [List.cons_append, List.cons_append, List.append_assoc, basicLinesBody?_escape
      (continuation?_eq_none hs hn hcr _) (he' _), ha rest hr]
    rfl
  | case6 c s hb s' hn hlt hm ih =>
    obtain ⟨⟨t', r'⟩, ht, hr⟩ := Option.map_eq_some_iff.1 h
    cases hr
    obtain ⟨a, rfl, hl, ha⟩ := ih ht
    obtain ⟨x, e, he, _, hn'⟩ := newline?_reads hn
    refine ⟨x :: (e ++ a), by simp [he], by simp; omega, fun rest hr => ?_⟩
    rw [List.cons_append, List.append_assoc, basicLinesBody?_newline (hn' _), ha rest hr]
    rfl
  | case7 c s hb hn hp hm ih =>
    obtain ⟨⟨t', r'⟩, ht, hr⟩ := Option.map_eq_some_iff.1 h
    cases hr
    obtain ⟨a, rfl, hl, ha⟩ := ih ht
    refine ⟨c :: a, rfl, by simp; omega, fun rest hr => ?_⟩
    have hm' := closing?_append_eq_none (a := c :: a) hm (by simp; omega) rest
    rw [List.cons_append] at hm' ⊢
    rw [basicLinesBody?_char hm' hb (newline?_eq_none_of_isPrintable hp) hp,
      ha rest hr]
    rfl
  | case8 => cases h

theorem literalLinesBody?_reads (h : literalLinesBody? s = some (t, r)) :
    ∃ a, s = a ++ r ∧ 3 ≤ a.length ∧ Reads literalLinesBody? (·.head? ≠ some '\'') a t := by
  fun_induction literalLinesBody? s generalizing t with
  | case1 s done hd =>
    cases h
    obtain ⟨a, rfl, hl, ha⟩ := closing?_reads hd
    exact ⟨a, rfl, hl, fun rest hr => literalLinesBody?_closing (ha rest hr)⟩
  | case2 => cases h
  | case3 c s s' hn hlt hm ih =>
    obtain ⟨⟨t', r'⟩, ht, hr⟩ := Option.map_eq_some_iff.1 h
    cases hr
    obtain ⟨a, rfl, hl, ha⟩ := ih ht
    obtain ⟨x, e, he, _, hn'⟩ := newline?_reads hn
    refine ⟨x :: (e ++ a), by simp [he], by simp; omega, fun rest hr => ?_⟩
    rw [List.cons_append, List.append_assoc, literalLinesBody?_newline (hn' _), ha rest hr]
    rfl
  | case4 c s hn hp hm ih =>
    obtain ⟨⟨t', r'⟩, ht, hr⟩ := Option.map_eq_some_iff.1 h
    cases hr
    obtain ⟨a, rfl, hl, ha⟩ := ih ht
    refine ⟨c :: a, rfl, by simp; omega, fun rest hr => ?_⟩
    have hm' := closing?_append_eq_none (a := c :: a) hm (by simp; omega) rest
    rw [List.cons_append] at hm' ⊢
    rw [literalLinesBody?_char hm' (newline?_eq_none_of_isPrintable hp) hp,
      ha rest hr]
    rfl
  | case5 => cases h

end SeveralLines

section Forms

theorem withoutFirstBreak_reads {b a r : List Char} (hb : withoutFirstBreak b = a ++ r)
    (hl : 3 ≤ a.length) :
    ∃ e, b = e ++ (a ++ r) ∧ ∀ r', withoutFirstBreak (e ++ (a ++ r')) = a ++ r' := by
  rw [withoutFirstBreak] at hb
  cases hn : newline? b with
  | none =>
    rw [hn, Option.getD_none] at hb
    subst hb
    exact ⟨[], rfl, fun r' => by
      rw [List.nil_append, withoutFirstBreak, newline?_append_eq_none hn (by omega), Option.getD_none]⟩
  | some b' =>
    rw [hn, Option.getD_some] at hb
    subst hb
    obtain ⟨x, e, he, _, hn'⟩ := newline?_reads hn
    exact ⟨x :: e, he, fun r' => by
      rw [List.cons_append, withoutFirstBreak, hn', Option.getD_some]⟩

/-- A string reads alike in front of anything that is no quotation mark. -/
theorem string?_reads {s t r : List Char} (h : string? s = some (t, r)) :
    ∃ a, s = a ++ r ∧ Reads string? NoMark a t := by
  unfold string? at h
  split at h
  · next b =>
    obtain ⟨a, hb, hl, ha⟩ := basicLinesBody?_reads h
    obtain ⟨e, rfl, he⟩ := withoutFirstBreak_reads hb hl
    refine ⟨'"' :: '"' :: '"' :: (e ++ a), by simp, fun rest hr => ?_⟩
    simp only [List.cons_append, List.append_assoc, string?, he]
    exact ha rest hr.1
  · next b hb =>
    obtain ⟨a, rfl, ha⟩ := basicBody?_reads h
    refine ⟨'"' :: a, rfl, fun rest hr => ?_⟩
    rw [List.cons_append, string?_basicBody (basicBody?_append_ne ha hr.1), ha rest trivial]
  · next b =>
    obtain ⟨a, hb, hl, ha⟩ := literalLinesBody?_reads h
    obtain ⟨e, rfl, he⟩ := withoutFirstBreak_reads hb hl
    refine ⟨'\'' :: '\'' :: '\'' :: (e ++ a), by simp, fun rest hr => ?_⟩
    simp only [List.cons_append, List.append_assoc, string?, he]
    exact ha rest hr.2
  · next b hb =>
    obtain ⟨a, rfl, ha⟩ := literalBody?_reads h
    refine ⟨'\'' :: a, rfl, fun rest hr => ?_⟩
    rw [List.cons_append, string?_literalBody (literalBody?_append_ne ha hr.2), ha rest trivial]
  · cases h

end Forms

end CBuild.Toml
