import CBuild.Proofs.Toml.Growing
import CBuild.Proofs.Toml.Values

/-! A value that has been read is read again from the spelling it was given. -/

namespace CBuild.Toml

section Ends

/-- What may follow a value: space, and behind it nothing, a line end, a comment or a mark of the text
around. -/
def EndsValue (rest : List Char) : Prop :=
  ∀ c, (rest.dropWhile isSpace).head? = some c → c ∈ ['\n', '\r', '#', ',', ']', '}']

variable {rest t : List Char} {c : Char}

theorem not_token_of_mem : ∀ c ∈ ['\n', '\r', '#', ',', ']', '}'],
    isSpace c = false ∧ isTokenChar c = false ∧ c.isDigit = false := by
  simp only [List.forall_mem_cons, List.not_mem_nil, false_imp_iff, implies_true, and_true]
  decide

theorem endsValue_of_mem (hc : c ∈ ['\n', '\r', '#', ',', ']', '}']) (rest : List Char) :
    EndsValue (c :: rest) := by
  intro d hd
  rw [List.dropWhile_cons_of_neg (by simp [(not_token_of_mem c hc).1])] at hd
  cases hd
  exact hc

theorem EndsValue.space (h : EndsValue rest) (ht : ∀ c ∈ t, isSpace c = true) :
    EndsValue (t ++ rest) := by
  intro d hd
  rw [List.dropWhile_append_of_pos ht] at hd
  exact h d hd

theorem EndsValue.trivia (h : EndsValue rest) (ht : IsTrivia false t) : EndsValue (t ++ rest) := by
  induction t with
  | nil => exact h
  | cons c t ih =>
    by_cases hn : c = '\n'
    · subst hn
      exact endsValue_of_mem (by decide) _
    by_cases hc : c = '#'
    · subst hc
      exact endsValue_of_mem (by decide) _
    simp only [IsTrivia, hn, hc, if_false, Bool.false_and, Bool.false_or, decide_false, Bool.or_false] at ht
    intro d hd
    rw [List.cons_append, List.dropWhile_cons_of_pos ht.1] at hd
    exact ih ht.2 d hd

theorem EndsValue.head (h : EndsValue rest) (hc : rest.head? = some c) :
    isSpace c = true ∨ c ∈ ['\n', '\r', '#', ',', ']', '}'] := by
  by_cases hs : isSpace c = true
  · exact .inl hs
  · right
    cases rest with
    | nil => cases hc
    | cons d rest =>
      cases hc
      exact h _ (by rw [List.dropWhile_cons_of_neg hs, List.head?_cons])

theorem isSpace_iff : isSpace c = true ↔ c = ' ' ∨ c = '\t' := by
  rw [isSpace, Bool.or_eq_true, decide_eq_true_eq, decide_eq_true_eq]

theorem EndsValue.noMark (h : EndsValue rest) : NoMark rest := by
  constructor <;>
  · intro hc
    rcases h.head hc with hs | hm
    · exact absurd hs (by decide)
    · exact absurd hm (by decide)

theorem EndsValue.isTokenChar (h : EndsValue rest) :
    ∀ c, rest.head? = some c → Toml.isTokenChar c = false := by
  intro c hc
  rcases h.head hc with hs | hm
  · rcases isSpace_iff.1 hs with rfl | rfl <;> decide
  · exact (not_token_of_mem c hm).2.1

theorem EndsValue.not_digit {r : List Char} (h : EndsValue (' ' :: c :: r)) : c.isDigit = false := by
  by_cases hs : isSpace c = true
  · rcases isSpace_iff.1 hs with rfl | rfl <;> decide
  · have hm := h c (by
      rw [List.dropWhile_cons_of_pos (by decide), List.dropWhile_cons_of_neg hs, List.head?_cons])
    exact (not_token_of_mem c hm).2.2

end Ends

section Plain

variable {s r : List Char} {v : Value}

def startsValue (c : Char) : Bool :=
  c = '"' || c = '\'' || c = '[' || c = '{' || isTokenChar c

/-- A value that is read from its spelling wherever a value may stand. -/
structure Value.Legible (read : List Char → Option (Value × List Char)) (v : Value) : Prop where
  starts : ∃ c t, v.spelling = c :: t ∧ startsValue c = true
  reads : Reads read EndsValue v.spelling v

theorem scalarOfToken?_nil : scalarOfToken? [] = none := by decide

theorem token_append {rest : List Char} (hr : EndsValue rest) (s : List Char) :
    token (token s ++ rest) = token s := by
  have stop {t u : List Char} (ht : ∀ c ∈ t, isTokenChar c = true)
      (hu : ∀ c, u.head? = some c → isTokenChar c = false) :
      (t ++ u).takeWhile isTokenChar = t ∧ (t ++ u).dropWhile isTokenChar = u :=
    ⟨takeWhile_append_stop ht hu, dropWhile_append_stop ht hu⟩
  have all {s : List Char} : ∀ c ∈ s.takeWhile isTokenChar, isTokenChar c = true :=
    fun c hc => List.mem_takeWhile_imp hc
  have plain : token (s.takeWhile isTokenChar ++ rest) = s.takeWhile isTokenChar := by
    obtain ⟨ht, hd⟩ := stop (all (s := s)) hr.isTokenChar
    rw [token, ht, hd]
    split
    · rw [if_neg]
      rw [Bool.and_eq_true, not_and_or]
      exact .inr (by simp [hr.not_digit])
    · rfl
  rw [token.eq_def s]
  dsimp only
  split
  · next c r hd =>
    split
    · next hc =>
      rw [List.append_assoc, List.cons_append]
      have hspace : ∀ d, (' ' :: ((c :: r).takeWhile isTokenChar ++ rest)).head? = some d →
          isTokenChar d = false := by
        rintro d ⟨⟩
        decide
      obtain ⟨ht, hd'⟩ := stop (all (s := s)) hspace
      have hcc : isTokenChar c = true := by
        rw [Bool.and_eq_true] at hc
        simp [isTokenChar, Char.isAlphanum, hc.2]
      have hx : (c :: r).takeWhile isTokenChar = c :: r.takeWhile isTokenChar :=
        List.takeWhile_cons_of_pos hcc
      have ht' := (stop (all (s := c :: r)) hr.isTokenChar).1
      rw [hx] at ht ht' hd' ⊢
      rw [token, ht, hd']
      exact (if_pos hc).trans (congrArg (fun u => s.takeWhile isTokenChar ++ ' ' :: u) ht')
    · exact plain
  · exact plain

theorem token_eq_nil {s : List Char} (h : s.takeWhile isTokenChar = []) : token s = [] := by
  rw [token, h]
  split
  · rw [if_neg (by simp [afterDate?, digits?])]
  · rfl

theorem token_head {s : List Char} (h : token s ≠ []) :
    ∃ c u, token s = c :: u ∧ isTokenChar c = true := by
  cases hu : s.takeWhile isTokenChar with
  | nil => exact absurd (token_eq_nil hu) h
  | cons c u =>
    have hc : isTokenChar c = true :=
      List.mem_takeWhile_imp (by rw [hu]; exact List.mem_cons_self : c ∈ s.takeWhile isTokenChar)
    rw [token, hu]
    split
    · split
      · exact ⟨c, _, rfl, hc⟩
      · exact ⟨c, u, rfl, hc⟩
    · exact ⟨c, u, rfl, hc⟩

theorem scalar?_legible {t : List Char} {d : Data} (h : scalar? s = some ((t, d), r)) :
    (∃ c u, t = c :: u ∧ isTokenChar c = true) ∧ Reads scalar? EndsValue t (t, d) := by
  rw [scalar?] at h
  obtain ⟨d', hd, he⟩ := Option.map_eq_some_iff.1 h
  cases he
  refine ⟨?_, fun rest hr => ?_⟩
  · have hne : token s ≠ [] := by
      intro he
      rw [he, scalarOfToken?_nil] at hd
      cases hd
    exact token_head hne
  · rw [scalar?, token_append hr, hd, List.drop_left]
    rfl

theorem token_char_ne {c : Char} (h : isTokenChar c = true) :
    c ≠ '"' ∧ c ≠ '\'' ∧ c ≠ '[' ∧ c ≠ '{' := by
  refine ⟨?_, ?_, ?_, ?_⟩ <;> (rintro rfl; exact absurd h (by decide))

theorem plain?_scalar {c : Char} (hq : c ≠ '"') (ha : c ≠ '\'') (r : List Char) :
    plain? (c :: r) = (scalar? (c :: r)).map fun ((t, d), rest) => (⟨d, t⟩, rest) := by
  unfold plain?
  split
  · next h =>
    cases h
    exact absurd rfl hq
  · next h =>
    cases h
    exact absurd rfl ha
  · rfl

theorem plain?_legible (h : plain? s = some (v, r)) (n : Nat) : v.Legible (value? n) := by
  have text {m : Char} (hm : m = '"' ∨ m = '\'') {u t r : List Char}
      (hu : string? (m :: u) = some (t, r)) :
      Value.Legible (value? n) ⟨.text (String.ofList t), consumed (m :: u) r⟩ := by
    obtain ⟨a, he, ha⟩ := string?_reads hu
    cases a with
    | nil =>
      have := ha [] (by simp [NoMark])
      simp [string?] at this
    | cons x a =>
      rw [List.cons_append, List.cons.injEq] at he
      obtain ⟨rfl, rfl⟩ := he
      have hcons (rest : List Char) : consumed (m :: (a ++ rest)) rest = m :: a :=
        consumed_append (m :: a) rest
      rw [hcons]
      refine ⟨⟨m, a, rfl, by rcases hm with rfl | rfl <;> rfl⟩, fun rest hr => ?_⟩
      have hread := ha rest hr.noMark
      rw [List.cons_append] at hread ⊢
      rw [value?_plain (by rcases hm with rfl | rfl <;> decide) (by rcases hm with rfl | rfl <;> decide),
        plain?_mark hm, hread]
      exact congrArg (fun x => some ((⟨.text (String.ofList t), x⟩ : Value), rest)) (hcons rest)
  cases s with
  | nil =>
    simp [plain?, scalar?, token, scalarOfToken?_nil] at h
  | cons c s =>
    by_cases hm : c = '"' ∨ c = '\''
    · rw [plain?_mark hm] at h
      obtain ⟨⟨t, r'⟩, hs, he⟩ := Option.map_eq_some_iff.1 h
      cases he
      exact text hm hs
    · rw [not_or] at hm
      rw [plain?_scalar hm.1 hm.2] at h
      obtain ⟨⟨⟨t, d⟩, r'⟩, hs, he⟩ := Option.map_eq_some_iff.1 h
      cases he
      obtain ⟨⟨x, u, rfl, hx⟩, hread⟩ := scalar?_legible hs
      refine ⟨⟨x, u, rfl, by simp [startsValue, hx]⟩, fun rest hr => ?_⟩
      have hread := hread rest hr
      obtain ⟨h1, h2, h3, h4⟩ := token_char_ne hx
      rw [List.cons_append] at hread ⊢
      rw [value?_plain h3 h4, plain?_scalar h1 h2, hread]
      rfl

end Plain

section Starts

variable {c : Char} {s r : List Char} {v : Value}

theorem isPrintable_of_isTokenChar (h : isTokenChar c = true) : isPrintable c = true := by
  have low : ∀ n < 128, isTokenChar (Char.ofNat n) = true → isPrintable (Char.ofNat n) = true := by
    decide
  by_cases hc : c.toNat < 128
  · rw [← Char.ofNat_toNat c] at h ⊢
    exact low c.toNat hc h
  · refine Bool.or_eq_true_iff.2 (.inr ?_)
    have hv : c.val.toNat = c.toNat := rfl
    rw [Bool.and_eq_true, decide_eq_true_eq, decide_eq_true_eq, UInt32.le_iff_toNat_le, hv]
    refine ⟨by simp; omega, fun he => hc ?_⟩
    rw [← hv, he]
    decide

theorem startsValue_iff : startsValue c = true ↔
    c = '"' ∨ c = '\'' ∨ c = '[' ∨ c = '{' ∨ isTokenChar c = true := by
  simp [startsValue, or_assoc]

theorem isPrintable_of_startsValue (h : startsValue c = true) : isPrintable c = true := by
  rcases startsValue_iff.1 h with rfl | rfl | rfl | rfl | h
  · decide
  · decide
  · decide
  · decide
  · exact isPrintable_of_isTokenChar h

theorem ne_of_startsValue (h : startsValue c = true) {d : Char} (hd : startsValue d = false) : c ≠ d := by
  rintro rfl
  exact absurd (hd.symm.trans h) Bool.false_ne_true

theorem not_isSpace_of_startsValue (h : startsValue c = true) : isSpace c = false := by
  by_contra hs
  rcases isSpace_iff.1 (by simpa using hs) with rfl | rfl <;> exact absurd h (by decide)

theorem solid_of_startsValue (h : startsValue c = true) (r : List Char) : Solid (c :: r) :=
  solid_cons (not_isSpace_of_startsValue h) (ne_of_startsValue h (by decide))
    (ne_of_startsValue h (by decide)) (ne_of_startsValue h (by decide))

theorem plain?_head (h : plain? s = some (v, r)) : ∃ c t, s = c :: t ∧ startsValue c = true := by
  cases s with
  | nil => simp [plain?, scalar?, token, scalarOfToken?_nil] at h
  | cons c s =>
    refine ⟨c, s, rfl, ?_⟩
    by_cases hm : c = '"' ∨ c = '\''
    · rcases hm with rfl | rfl <;> rfl
    · rw [not_or] at hm
      rw [plain?_scalar hm.1 hm.2] at h
      by_contra hc
      have ht : token (c :: s) = [] := by
        refine token_eq_nil (List.takeWhile_cons_of_neg fun ht => hc ?_)
        exact startsValue_iff.2 (.inr (.inr (.inr (.inr ht))))
      rw [scalar?, ht, scalarOfToken?_nil] at h
      cases h

theorem value?_head {n : Nat} (h : value? n s = some (v, r)) :
    ∃ c t, s = c :: t ∧ startsValue c = true := by
  cases n with
  | zero => exact plain?_head h
  | succ n =>
    unfold value? at h
    split at h
    · exact ⟨_, _, rfl, rfl⟩
    · exact ⟨_, _, rfl, rfl⟩
    · exact plain?_head h

end Starts

section Items

variable {read : List Char → Option (Value × List Char)}

theorem items?_reads (hh : ∀ s v r, read s = some (v, r) → ∃ c t, s = c :: t ∧ startsValue c = true)
    (hl : ∀ s v r, read s = some (v, r) → v.Legible read) {s r text : List Char} {ds : List Data}
    (h : items? read s = some ((ds, text), r)) :
    Reads (items? read) (fun _ => True) text (ds, text) := by
  have before {s t r : List Char} {v : Value} {u : List Char} (ht : trivia false s = (t, r))
      (hr : read r = some (v, u)) : IsTrivia false t := by
    obtain ⟨c, r', rfl, hc⟩ := hh _ _ _ hr
    exact isTrivia_of_trivia ht (isPrintable_of_startsValue hc)
  have item {v : Value} {s u : List Char} (hr : read s = some (v, u)) (w : List Char) :
      Solid (v.spelling ++ w) ∧ (v.spelling ++ w).head? ≠ some ']' := by
    obtain ⟨c, t, he, hc⟩ := (hl _ _ _ hr).starts
    rw [he, List.cons_append, List.head?_cons]
    exact ⟨solid_of_startsValue hc _, by simpa using ne_of_startsValue hc (by decide)⟩
  replace h := items_of_items? h
  induction h with
  | close hb =>
    intro rest' _
    rw [List.append_assoc]
    exact items?_close (isTrivia_of_trivia hb (by decide))
  | @last _ _ _ _ a _ _ hb hv ha =>
    intro rest' _
    have hread := (hl _ _ _ hv).reads (a ++ ']' :: rest')
      ((endsValue_of_mem (by decide) _).trivia (isTrivia_of_trivia ha (by decide)))
    have hitem := item hv (a ++ ']' :: rest')
    simp only [List.append_assoc, List.cons_append, List.nil_append]
    rw [items?_last (before hb hv) hitem.1 hitem.2 hread (isTrivia_of_trivia ha (by decide))]
    simp
  | @comma _ _ _ _ a _ text _ _ _ hb hv ha _ _ ih =>
    intro rest' _
    have hread := (hl _ _ _ hv).reads (a ++ ',' :: (text ++ rest'))
      ((endsValue_of_mem (by decide) _).trivia (isTrivia_of_trivia ha (by decide)))
    have hitem := item hv (a ++ ',' :: (text ++ rest'))
    simp only [List.append_assoc, List.cons_append]
    rw [items?_comma (before hb hv) hitem.1 hitem.2 hread (isTrivia_of_trivia ha (by decide))
      (by simp only [List.length_append, List.length_cons]; omega), ih rest' trivial]
    simp

end Items

section Inline

variable {read : List Char → Option (Value × List Char)}

def inlineLeaf (read : List Char → Option (Value × List Char)) : Leaf := fun k gap v after =>
  (∃ b a, (∀ c ∈ b, isSpace c = true) ∧ (∀ c ∈ a, isSpace c = true) ∧ k.Ends (b, a)) ∧
    (∀ c ∈ gap, isSpace c = true) ∧ (∀ c ∈ after, isSpace c = true) ∧ v.Legible read

theorem pair?_known (hl : ∀ s v r, read s = some (v, r) → v.Legible read) {s r : List Char} {e : Entry}
    (h : pair? read s = some (e, r)) : e.Known (inlineLeaf read) true (keyLimit - 1) := by
  unfold pair? at h
  split at h
  · next path r' hp =>
    obtain ⟨⟨v, rest⟩, hv, he⟩ := Option.map_eq_some_iff.1 h
    cases he
    obtain ⟨hlt, b, a, hb, ha, hs⟩ := keyPath?_reads hp
    exact ⟨hs.mono fun k hk => ⟨⟨b, a, hb, ha, hk⟩, fun c hc => List.mem_takeWhile_imp hc,
      fun c hc => List.mem_takeWhile_imp hc, hl _ _ _ hv⟩, by dsimp only; omega⟩
  · cases h

theorem pairs?_known (hl : ∀ s v r, read s = some (v, r) → v.Legible read) {s r : List Char}
    {es : List Entry} (h : pairs? read s = some (es, r)) :
    es ≠ [] ∧ ∀ e ∈ es, e.Known (inlineLeaf read) true (keyLimit - 1) := by
  replace h := pairs_of_pairs? h
  induction h with
  | last hp => exact ⟨List.cons_ne_nil _ _, by simpa using pair?_known hl hp⟩
  | comma hp _ _ ih => exact ⟨List.cons_ne_nil _ _, List.forall_mem_cons.2 ⟨pair?_known hl hp, ih.2⟩⟩

theorem pair?_text {e : Entry} (he : e.Known (inlineLeaf read) true (keyLimit - 1))
    {x : Char} (hx : x = ',' ∨ x = '}') (space : List Char × List Char) (rest : List Char) :
    pair? read (e.text space ++ x :: rest) = some (e, x :: rest) := by
  obtain ⟨path, gap, v, after⟩ := e
  obtain ⟨hs, hlen⟩ := he
  dsimp only at hs hlen
  obtain ⟨k, _, ⟨⟨b, a, hb, ha, hk⟩, hg, haf, hv⟩, hmono⟩ := hs.last
  have hend : Settled (Key.Ends (b, a)) true path := hmono _ hk
  obtain ⟨c, t, hc, hstart⟩ := hv.starts
  have hxe : EndsValue (x :: rest) := endsValue_of_mem (by rcases hx with rfl | rfl <;> decide) rest
  have hxs : ∀ d, (x :: rest).head? = some d → isSpace d = false := by
    rintro d ⟨⟩
    rcases hx with rfl | rfl <;> rfl
  have hvs : ∀ d, (v.spelling ++ (after ++ x :: rest)).head? = some d → isSpace d = false := by
    rw [hc]
    rintro d ⟨⟩
    exact not_isSpace_of_startsValue hstart
  have hpath := keyPath?_innerText (b, a) hend.ne_nil hend.wellSpelled
    (Nat.lt_of_le_of_lt hlen (by decide)) hb ha
    (endsPath_cons (.inl rfl) (gap ++ (v.spelling ++ (after ++ x :: rest))))
  rw [reread_eq hend] at hpath
  simp only [Entry.text, pathText_of_ends hend, List.append_assoc, List.cons_append]
  simp only [pair?, hpath, dropWhile_append_stop hg hvs, takeWhile_append_stop hg hvs,
    hv.reads _ (hxe.space haf), Option.map_some, takeWhile_append_stop haf hxs,
    dropWhile_append_stop haf hxs]

theorem pairs?_texts {es : List Entry} (hn : es ≠ [])
    (he : ∀ e ∈ es, e.Known (inlineLeaf read) true (keyLimit - 1)) (space : List Char × List Char)
    (rest : List Char) :
    pairs? read ([','].intercalate (es.map (Entry.text space)) ++ '}' :: rest) = some (es, rest) := by
  induction es with
  | nil => exact absurd rfl hn
  | cons e es ih =>
    have hke := he e List.mem_cons_self
    cases es with
    | nil =>
      rw [pairs?]
      simp only [List.map_cons, List.map_nil, List.intercalate, List.intersperse, List.flatten_cons,
        List.flatten_nil, List.append_nil, pair?_text hke (.inr rfl)]
    | cons f es =>
      have ih := ih (List.cons_ne_nil _ _) fun e h => he e (List.mem_cons_of_mem _ h)
      have hcut : [','].intercalate ((e :: f :: es).map (Entry.text space)) ++ '}' :: rest =
          e.text space ++ ',' :: ([','].intercalate ((f :: es).map (Entry.text space)) ++ '}' :: rest) := by
        simp [List.intercalate]
      rw [hcut, pairs?]
      simp only [pair?_text hke (.inl rfl)]
      rw [if_pos (by simp only [List.length_append, List.length_cons]; omega), ih]
      rfl

theorem intercalate_cons (x : List Char) (l : List (List Char)) :
    ∃ u, [','].intercalate (x :: l) = x ++ u := by
  cases l with
  | nil => exact ⟨[], by simp [List.intercalate]⟩
  | cons y l => exact ⟨',' :: [','].intercalate (y :: l), by simp [List.intercalate]⟩

theorem text_head {e : Entry} (he : e.Known (inlineLeaf read) true (keyLimit - 1))
    (space : List Char × List Char) :
    ∃ b c t, e.text space = b ++ c :: t ∧ (∀ c ∈ b, isSpace c = true) ∧
      (isBareKeyChar c = true ∨ c = '"' ∨ c = '\'') := by
  obtain ⟨k, _, ⟨⟨b, a, hb, _, hk⟩, _⟩, hmono⟩ := he.1.last
  have hend := hmono _ hk
  obtain ⟨c, t, hc, hstart⟩ := innerText_head hend.ne_nil hend.wellSpelled
  refine ⟨b, c, t ++ (a ++ '=' :: (e.gap ++ e.value.spelling ++ e.after)), ?_, hb, hstart⟩
  rw [Entry.text, pathText_of_ends hend, hc]
  simp

theorem inline?_reads (hl : ∀ s v r, read s = some (v, r) → v.Legible read) {s r : List Char} {v : Value}
    (h : inline? read s = some (v, r)) :
    ∃ t, v.spelling = '{' :: t ∧ Reads (inline? read) (fun _ => True) t v := by
  unfold inline? at h
  split at h
  -- an empty table keeps its space
  · next rest hs =>
    cases h
    refine ⟨s.takeWhile isSpace ++ ['}'], rfl, fun rest' _ => ?_⟩
    have hstop : ∀ c, ('}' :: rest').head? = some c → isSpace c = false := by
      rintro c ⟨⟩
      rfl
    have hall : ∀ c ∈ s.takeWhile isSpace, isSpace c = true := fun c hc => List.mem_takeWhile_imp hc
    rw [List.append_assoc, inline?]
    simp only [List.cons_append, List.nil_append, dropWhile_append_stop hall hstop,
      takeWhile_append_stop hall hstop]
  -- any other is spelled from its tree, and the entries of the spelling make that tree again
  · obtain ⟨⟨es, rest⟩, hp, h⟩ := Option.bind_eq_some_iff.1 h
    obtain ⟨cs, hd, h⟩ := Option.bind_eq_some_iff.1 h
    cases h
    obtain ⟨hn, hknown⟩ := pairs?_known hl hp
    have hnil : GrownAll (inlineLeaf read) true (keyLimit - 1) [] := trivial
    have hgrown := hnil.of_defineAll? hknown hd
    have hne := hgrown.2 (.inr hn)
    have hown := GrownAll.ownAll cs hgrown.1
    have hes := OwnAll.entriesUnder_ne_nil [] cs hne hown
    have hknown' := GrownAll.known cs hgrown.1
    refine ⟨[','].intercalate ((entriesUnder [] cs).map (Entry.text ([' '], [' ']))) ++ ['}'], rfl,
      fun rest' _ => ?_⟩
    have hpairs := pairs?_texts hes hknown' ([' '], [' ']) rest'
    have hdef : Entry.defineAll? [] (entriesUnder [] cs) = some ([] ++ cs) := OwnAll.rebuild cs hown (by simp)
    rw [List.append_assoc, List.singleton_append, inline?]
    split
    · next u hu =>
      obtain ⟨e, es', hcons⟩ := List.exists_cons_of_ne_nil hes
      obtain ⟨b, c, t, ht, hb, hc⟩ := text_head (hknown' e (by rw [hcons]; exact List.mem_cons_self))
        ([' '], [' '])
      obtain ⟨w, hw⟩ := intercalate_cons (e.text ([' '], [' '])) (es'.map (Entry.text ([' '], [' '])))
      rw [hcons, List.map_cons, hw, ht] at hu
      have hne : c ≠ '}' ∧ isSpace c = false := by
        rcases hc with hc | rfl | rfl
        · refine ⟨?_, ?_⟩
          · rintro rfl
            exact absurd hc (by decide)
          · by_contra hs
            exact absurd hc (by simp [isBareKeyChar_of_isSpace (by simpa using hs : isSpace c = true)])
        · decide
        · decide
      simp only [List.append_assoc, List.cons_append] at hu
      rw [dropWhile_append_stop hb (by rintro d ⟨⟩; exact hne.2)] at hu
      exact absurd (List.cons.inj hu).1 hne.1
    · rw [hpairs]
      simp only [Option.bind_eq_bind, Option.bind_some, hdef, List.nil_append]

end Inline

/-- Every value that has been read is read again from its spelling. -/
theorem value?_legible (n : Nat) {s r : List Char} {v : Value} (h : value? n s = some (v, r)) :
    v.Legible (value? n) := by
  induction n generalizing s r v with
  | zero => exact plain?_legible h 0
  | succ n ih =>
    unfold value? at h
    split at h
    · next s =>
      obtain ⟨⟨⟨ds, text⟩, rest⟩, hi, he⟩ := Option.map_eq_some_iff.1 h
      cases he
      refine ⟨⟨'[', text, rfl, rfl⟩, fun rest' _ => ?_⟩
      rw [List.cons_append, value?, items?_reads (fun _ _ _ => value?_head) (fun _ _ _ => ih) hi rest'
        trivial]
      rfl
    · next s =>
      obtain ⟨t, ht, hread⟩ := inline?_reads (fun _ _ _ => ih) h
      refine ⟨⟨'{', t, ht, rfl⟩, fun rest' _ => ?_⟩
      rw [ht, List.cons_append, value?, hread rest' trivial]
    · exact plain?_legible h (n + 1)

end CBuild.Toml
