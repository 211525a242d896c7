import CBuild.Toml.Document
import CBuild.Proofs.Toml.Values

/-! The lines of a document read again one after the other: what stands between two of them goes with the
second. -/

namespace CBuild.Toml

section Lines

variable {b a : List Char} {path : List Key} {after gap rest : List Char}

theorem after?_append (p s : List Char) : Text.after? p (p ++ s) = some s := by
  rw [Text.after?, if_pos (by simp), List.drop_left]

theorem solid_innerText (hp : path ≠ []) (hk : ∀ k ∈ path, k.WellSpelled) (r : List Char) :
    Solid (innerText path ++ r) := by
  obtain ⟨c, t, h, hc⟩ := innerText_head hp hk
  have ne (d : Char) (hd : isBareKeyChar d = false ∧ d ≠ '"' ∧ d ≠ '\'') : c ≠ d := by
    rintro rfl
    rcases hc with hc | hc | hc
    · exact absurd (hd.1.symm.trans hc) Bool.false_ne_true
    · exact hd.2.1 hc
    · exact hd.2.2 hc
  have hs : isSpace c = false := by
    simp only [isSpace, Bool.or_eq_false_iff, decide_eq_false_iff_not]
    exact ⟨ne ' ' (by decide), ne '\t' (by decide)⟩
  rw [h, List.cons_append]
  exact solid_cons hs (ne '\n' (by decide)) (ne '\r' (by decide)) (ne '#' (by decide))

theorem Entry.read?_line (before : List Char) (hp : path ≠ []) (hk : ∀ k ∈ path, k.WellSpelled)
    (hl : path.length < keyLimit) (hs : ∀ c ∈ a, isSpace c = true)
    (hg : ∀ c ∈ gap, isSpace c = true) {v : Value} {p : List Char → Prop}
    (hv : Reads (value? depthLimit) p v.spelling v)
    (hh : ∃ c r, v.spelling = c :: r ∧ isSpace c = false)
    (ha : EndsLine after) (hr : p (after ++ '\n' :: rest)) :
    Entry.read? before
        (innerText path ++ (a ++ '=' :: (gap ++ (v.spelling ++ (after ++ '\n' :: rest))))) =
      some (⟨lead before (reread ([], a) path), gap, v, after⟩, rest) := by
  have hpath := keyPath?_innerText ([], a) hp hk hl (by simp) hs
    (endsPath_cons (.inl rfl) (gap ++ (v.spelling ++ (after ++ '\n' :: rest))))
  have hhead : ∀ c, (v.spelling ++ (after ++ '\n' :: rest)).head? = some c → isSpace c = false := by
    obtain ⟨d, r, hd, hs⟩ := hh
    rw [hd]
    rintro c ⟨⟩
    exact hs
  rw [List.nil_append] at hpath
  simp only [Entry.read?, hpath, Option.bind_eq_bind, Option.bind_some]
  rw [show ∀ s : List Char, Text.after? ['='] ('=' :: s) = some s from after?_append ['='],
    Option.bind_some, dropWhile_append_stop hg hhead, hv _ hr]
  simp only [Option.bind_some, takeWhile_append_stop hg hhead]
  rw [ha rest, Option.bind_some]
  rfl

theorem Header.read?_line (before : List Char) (hp : path ≠ []) (hk : ∀ k ∈ path, k.WellSpelled)
    (hl : path.length < keyLimit) (hb : ∀ c ∈ b, isSpace c = true)
    (hs : ∀ c ∈ a, isSpace c = true) (ha : EndsLine after) (element : Bool)
    (rest : List Char) :
    Header.read? before element
        (b ++ (innerText path ++ (a ++
          ((if element then [']', ']'] else [']']) ++ (after ++ '\n' :: rest))))) =
      some (⟨before, element, reread (b, a) path, after⟩, rest) := by
  have he : EndsPath ((if element then [']', ']'] else [']']) ++ (after ++ '\n' :: rest)) := by
    cases element <;> exact endsPath_cons (.inr rfl) _
  rw [Header.read?]
  simp only [keyPath?_innerText (b, a) hp hk hl hb hs he, Option.bind_eq_bind, Option.bind_some,
    after?_append, ha rest]
  rfl

end Lines

def unmarked (s : List Char) : List Char :=
  (Text.after? ['\uFEFF'] s).getD s

namespace Statement

/-- In front of anything the text reads as the statement, after the trivia `before`. -/
structure Spelled (before text : List Char) (st : Statement) : Prop where
  trivia : IsTrivia false before
  solid : ∀ rest, Solid (text ++ rest)
  reads : ∀ rest, read? before (text ++ rest) = some (st, rest)

section Spelling

variable {before b a gap after : List Char} {path : List Key}

theorem head_innerText_ne (hp : path ≠ []) (hk : ∀ k ∈ path, k.WellSpelled) (r : List Char) :
    ∃ c t, innerText path ++ r = c :: t ∧ c ≠ '[' := by
  obtain ⟨c, t, h, hc⟩ := innerText_head hp hk
  refine ⟨c, t ++ r, by rw [h, List.cons_append], ?_⟩
  rintro rfl
  rcases hc with hc | hc | hc <;> exact absurd hc (by decide)

theorem spelled_entry {v : Value} (hb : IsTrivia false before) (hp : path ≠ [])
    (hk : ∀ k ∈ path, k.WellSpelled) (hl : path.length < keyLimit) (hs : ∀ c ∈ a, isSpace c = true)
    (hg : ∀ c ∈ gap, isSpace c = true)
    (hv : Reads (value? depthLimit) (fun rest => ∃ r, rest = after ++ '\n' :: r) v.spelling v)
    (hh : ∃ c r, v.spelling = c :: r ∧ isSpace c = false) (ha : EndsLine after) :
    Spelled before (innerText path ++ (a ++ '=' :: (gap ++ (v.spelling ++ (after ++ ['\n'])))))
      (.entry ⟨lead before (reread ([], a) path), gap, v, after⟩) := by
  have ht (rest : List Char) :
      innerText path ++ (a ++ '=' :: (gap ++ (v.spelling ++ (after ++ ['\n'])))) ++ rest =
        innerText path ++ (a ++ '=' :: (gap ++ (v.spelling ++ (after ++ '\n' :: rest)))) := by
    simp
  refine ⟨hb, fun rest => ?_, fun rest => ?_⟩
  · rw [List.append_assoc]
    exact solid_innerText hp hk _
  · have hread := Entry.read?_line before hp hk hl hs hg hv hh ha ⟨rest, rfl⟩
    obtain ⟨c, t, hc, hne⟩ := head_innerText_ne hp hk
      (a ++ '=' :: (gap ++ (v.spelling ++ (after ++ '\n' :: rest))))
    rw [ht]
    rw [hc] at hread ⊢
    rw [read?, hread]
    · rfl
    · exact fun r h => hne (List.cons.inj h).1
    · exact fun r h => hne (List.cons.inj h).1

def headerText (element : Bool) (path after : List Char) : List Char :=
  (if element then '[' :: '[' :: path ++ [']', ']'] else '[' :: path ++ [']']) ++ after ++ ['\n']

theorem spelled_header (hb : IsTrivia false before) (hp : path ≠ []) (hk : ∀ k ∈ path, k.WellSpelled)
    (hl : path.length < keyLimit) (hs : ∀ c ∈ b, isSpace c = true) (hs' : ∀ c ∈ a, isSpace c = true)
    (ha : EndsLine after) (element : Bool) :
    Spelled before (headerText element (b ++ innerText path ++ a) after)
      (.header ⟨before, element, reread (b, a) path, after⟩) := by
  refine ⟨hb, fun rest => ?_, fun rest => ?_⟩
  · cases element <;> exact solid_cons rfl (by decide) (by decide) (by decide)
  · have hread := Header.read?_line before hp hk hl hs hs' ha element rest
    cases element with
    | true =>
      have ht : headerText true (b ++ innerText path ++ a) after ++ rest =
          '[' :: '[' :: (b ++ (innerText path ++ (a ++ ([']', ']'] ++ (after ++ '\n' :: rest))))) := by
        simp [headerText]
      rw [if_pos rfl] at hread
      rw [ht, read?, hread]
      rfl
    | false =>
      have ht : headerText false (b ++ innerText path ++ a) after ++ rest =
          '[' :: (b ++ (innerText path ++ (a ++ ([']'] ++ (after ++ '\n' :: rest))))) := by
        simp [headerText]
      have hne : ∀ r, b ++ (innerText path ++ (a ++ ([']'] ++ (after ++ '\n' :: rest)))) = '[' :: r →
          False := by
        intro r hr
        cases b with
        | nil =>
          obtain ⟨c, t, hc, hne⟩ := head_innerText_ne hp hk (a ++ ([']'] ++ (after ++ '\n' :: rest)))
          rw [List.nil_append, hc] at hr
          exact hne (List.cons.inj hr).1
        | cons c b =>
          have hc := hs c List.mem_cons_self
          rw [(List.cons.inj hr).1] at hc
          exact absurd hc (by decide)
      rw [if_neg Bool.false_ne_true] at hread
      rw [ht, read?, hread]
      · rfl
      · exact hne

end Spelling

theorem readAll?_of_trivia {t : List Char} (h : CBuild.Toml.trivia false t = (t, [])) :
    readAll? t = some ([], t) := by
  rw [readAll?, h]
  rfl

theorem readAll?_spelled {before text : List Char} {st : Statement} (h : Spelled before text st)
    (rest : List Char) :
    readAll? (before ++ (text ++ rest)) = (readAll? rest).map fun (sts, t) => (st :: sts, t) := by
  have hne : text ≠ [] := by
    rintro rfl
    have := h.reads []
    simp [read?, Entry.read?, keyPath?, spacedKeys?, simpleKey?] at this
  have hpos := List.length_pos_iff.2 hne
  rw [readAll?, trivia_append h.trivia (h.solid rest)]
  dsimp only
  rw [if_neg (by simp [hne]), h.reads rest]
  dsimp only
  rw [if_pos (by simp only [List.length_append]; omega)]

theorem read?_eq_none {c : Char} (hs : isSpace c = false) (hb : isBareKeyChar c = false)
    (hm : c ≠ '"' ∧ c ≠ '\'' ∧ c ≠ '[') (before r : List Char) : read? before (c :: r) = none := by
  rw [read?, Entry.read?, keyPath?_eq_none hs hb ⟨hm.1, hm.2.1⟩]
  · rfl
  · exact fun r h => hm.2.2 (List.cons.inj h).1
  · exact fun r h => hm.2.2 (List.cons.inj h).1

theorem unmarked_of_readAll? {s : List Char} {x : List Statement × List Char}
    (h : readAll? s = some x) : unmarked s = s := by
  rw [unmarked, Text.after?, if_neg]
  · rfl
  · intro hp
    obtain ⟨t, rfl⟩ := List.isPrefixOf_iff_prefix.1 hp
    have hsolid : CBuild.Toml.trivia false ('\uFEFF' :: t) = ([], '\uFEFF' :: t) :=
      solid_cons (by decide) (by decide) (by decide) (by decide)
    rw [List.singleton_append, readAll?, hsolid] at h
    dsimp only at h
    rw [if_neg (List.cons_ne_nil _ _), read?_eq_none (by decide) (by decide) (by decide)] at h
    cases h

theorem sections_entries (es : List Entry) (sts : List Statement) :
    sections (es.map .entry ++ sts) = (es ++ (sections sts).1, (sections sts).2) := by
  induction es with
  | nil => rfl
  | cons e es ih => rw [List.map_cons, List.cons_append, sections, ih, List.cons_append]

end Statement

end CBuild.Toml
