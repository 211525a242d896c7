import CBuild.Toml.Edit
import CBuild.Proofs.Toml.Keys

/-! Values read again from the way they are written: quoted texts, and arrays item by item. -/

namespace CBuild.Toml

section Plain

theorem quote_head (s : List Char) : ∃ m r, quote s = m :: r ∧ (m = '"' ∨ m = '\'') := by
  rw [quote]
  cases Quoting.ofValue s
  · exact ⟨'"', _, rfl, .inl rfl⟩
  · exact ⟨'\'', _, rfl, .inr rfl⟩
  · exact ⟨'"', _, rfl, .inl rfl⟩
  · exact ⟨'\'', _, rfl, .inr rfl⟩

theorem value?_plain {c : Char} (hl : c ≠ '[') (hb : c ≠ '{') (n : Nat) (r : List Char) :
    value? n (c :: r) = plain? (c :: r) := by
  cases n with
  | zero => rw [value?]
  | succ n =>
    rw [value?]
    · rintro r' ⟨⟩
      exact hl rfl
    · rintro r' ⟨⟩
      exact hb rfl

theorem plain?_mark {m : Char} (hm : m = '"' ∨ m = '\'') (r : List Char) :
    plain? (m :: r) =
      (string? (m :: r)).map fun (t, rest) => (⟨.text (String.ofList t), consumed (m :: r) rest⟩, rest) := by
  rcases hm with rfl | rfl <;> rfl

theorem value?_quote (n : Nat) (s : List Char) :
    Reads (value? n) NoMark (quote s) ⟨.text (String.ofList s), quote s⟩ := by
  intro rest hr
  obtain ⟨m, r, hq, hm⟩ := quote_head s
  have hs := string?_quote hr s
  have hc := consumed_append (quote s) rest
  have hne : m ≠ '[' ∧ m ≠ '{' := by rcases hm with rfl | rfl <;> decide
  rw [hq, List.cons_append] at hs hc ⊢
  rw [value?_plain hne.1 hne.2, plain?_mark hm, hs, Option.map_some]
  exact congrArg (fun x => some ((⟨.text (String.ofList s), x⟩ : Value), rest)) hc

end Plain

section Arrays

variable {read : List Char → Option (Value × List Char)} {b a r rest : List Char} {v : Value}

theorem solid_mark {m : Char} (hm : m = ']' ∨ m = ',') : Solid (m :: rest) := by
  rcases hm with rfl | rfl <;> exact solid_cons (by decide) (by decide) (by decide) (by decide)

theorem items?_close (hb : IsTrivia false b) :
    items? read (b ++ ']' :: rest) = some (([], b ++ [']']), rest) := by
  rw [items?, trivia_append hb (solid_mark (.inl rfl))]
  rfl

theorem items?_of_last {s u : List Char} (hs : trivia false s = (b, r)) (hc : r.head? ≠ some ']')
    (hv : read r = some (v, u)) (ha : trivia false u = (a, ']' :: rest)) :
    items? read s = some (([v.data], b ++ v.spelling ++ a ++ [']']), rest) := by
  rw [items?, hs]
  dsimp only
  split
  · exact absurd rfl hc
  · simp only [hv, ha]

theorem items?_of_comma {s u : List Char} (hs : trivia false s = (b, r)) (hc : r.head? ≠ some ']')
    (hv : read r = some (v, u)) (ha : trivia false u = (a, ',' :: rest)) (hl : rest.length < s.length) :
    items? read s = (items? read rest).map fun ((ds, text), rest) =>
      ((v.data :: ds, b ++ v.spelling ++ a ++ ',' :: text), rest) := by
  rw [items?, hs]
  dsimp only
  split
  · exact absurd rfl hc
  · simp only [hv, ha, if_pos hl]

/-- The items that are read one behind the other: none, a last one, or one with a comma and the others behind it. -/
inductive Items (read : List Char → Option (Value × List Char)) :
    List Char → List Data → List Char → List Char → Prop
  | close {s b rest : List Char} (hb : trivia false s = (b, ']' :: rest)) : Items read s [] (b ++ [']']) rest
  | last {s b r u a rest : List Char} {v : Value} (hb : trivia false s = (b, r)) (hv : read r = some (v, u))
      (ha : trivia false u = (a, ']' :: rest)) : Items read s [v.data] (b ++ v.spelling ++ a ++ [']']) rest
  | comma {s b r u a w text rest : List Char} {v : Value} {ds : List Data} (hb : trivia false s = (b, r))
      (hv : read r = some (v, u)) (ha : trivia false u = (a, ',' :: w)) (hl : w.length < s.length)
      (h : Items read w ds text rest) : Items read s (v.data :: ds) (b ++ v.spelling ++ a ++ ',' :: text) rest

theorem items_of_items? {s text : List Char} {ds : List Data} (h : items? read s = some ((ds, text), rest)) :
    Items read s ds text rest := by
  fun_induction items? read s generalizing ds text rest with
  | case1 s b rest hb =>
    cases h
    exact .close hb
  | case2 s b r hb hv hr =>
    simp only [hv] at h
    cases h
  | case3 s b r hb v u hv a rest hr ha =>
    simp only [hv, ha] at h
    cases h
    exact .last hb hv ha
  | case4 s b r hb v u hv a w hl hr ha ih =>
    simp only [hv, ha, if_pos hl] at h
    obtain ⟨⟨⟨ds', text'⟩, rest⟩, hi, he⟩ := Option.map_eq_some_iff.1 h
    cases he
    exact .comma hb hv ha hl (ih hi)
  | case5 s b r hb v u hv a w hl hr ha =>
    simp only [hv, ha, if_neg hl] at h
    cases h
  | case6 s b r hb v u hv a w ha hr h1 h2 =>
    simp only [hv, ha] at h
    cases h

inductive Pairs (read : List Char → Option (Value × List Char)) : List Char → List Entry → List Char → Prop
  | last {s rest : List Char} {e : Entry} (hp : pair? read s = some (e, '}' :: rest)) : Pairs read s [e] rest
  | comma {s w rest : List Char} {e : Entry} {es : List Entry} (hp : pair? read s = some (e, ',' :: w))
      (hl : w.length < s.length) (h : Pairs read w es rest) : Pairs read s (e :: es) rest

theorem pairs_of_pairs? {s : List Char} {es : List Entry} (h : pairs? read s = some (es, rest)) :
    Pairs read s es rest := by
  fun_induction pairs? read s generalizing es with
  | case1 s e rest hp =>
    cases h
    exact .last hp
  | case2 s e w hp hl ih =>
    obtain ⟨⟨fs, t⟩, hf, he⟩ := Option.map_eq_some_iff.1 h
    cases he
    exact .comma hp hl (ih hf)
  | case3 => cases h
  | case4 => cases h

theorem items?_last (hb : IsTrivia false b) (hs : Solid r) (hc : r.head? ≠ some ']')
    (hv : read r = some (v, a ++ ']' :: rest)) (ht : IsTrivia false a) :
    items? read (b ++ r) = some (([v.data], b ++ v.spelling ++ a ++ [']']), rest) :=
  items?_of_last (trivia_append hb hs) hc hv (trivia_append ht (solid_mark (.inl rfl)))

theorem items?_comma (hb : IsTrivia false b) (hs : Solid r) (hc : r.head? ≠ some ']')
    (hv : read r = some (v, a ++ ',' :: rest)) (ht : IsTrivia false a)
    (hl : rest.length < r.length) :
    items? read (b ++ r) = (items? read rest).map fun ((ds, text), rest) =>
      ((v.data :: ds, b ++ v.spelling ++ a ++ ',' :: text), rest) :=
  items?_of_comma (trivia_append hb hs) hc hv (trivia_append ht (solid_mark (.inr rfl)))
    (by rw [List.length_append]; omega)

theorem solid_quote (s r : List Char) : Solid (quote s ++ r) := by
  obtain ⟨m, t, hq, hm⟩ := quote_head s
  rw [hq, List.cons_append]
  rcases hm with rfl | rfl <;> exact solid_cons (by decide) (by decide) (by decide) (by decide)

theorem head?_quote_append (s r : List Char) : (quote s ++ r).head? ≠ some ']' := by
  obtain ⟨m, t, hq, hm⟩ := quote_head s
  rw [hq, List.cons_append, List.head?_cons]
  rcases hm with rfl | rfl <;> decide

theorem noMark_cons {c : Char} (hq : c ≠ '"') (ha : c ≠ '\'') (r : List Char) : NoMark (c :: r) :=
  ⟨by simpa using hq, by simpa using ha⟩

def itemLines (vs : List (List Char)) : List Char :=
  vs.flatMap fun v => "\n    ".toList ++ quote v ++ [',']

theorem items?_itemLines (n : Nat) (vs : List (List Char)) (rest : List Char) :
    items? (value? n) (itemLines vs ++ '\n' :: ']' :: rest) =
      some ((vs.map fun v => .text (String.ofList v), itemLines vs ++ ['\n', ']']), rest) := by
  induction vs with
  | nil => exact items?_close (b := ['\n']) (by simp [IsTrivia])
  | cons v vs ih =>
    have hb : IsTrivia false "\n    ".toList := by simp [IsTrivia, isSpace]
    have hv := value?_quote n v (',' :: (itemLines vs ++ '\n' :: ']' :: rest))
      (noMark_cons (by decide) (by decide) _)
    have h := items?_comma (a := []) hb (solid_quote v _) (head?_quote_append v _) hv rfl
      (by simp only [List.length_append, List.length_cons]; omega)
    rw [itemLines, List.flatMap_cons, ← itemLines]
    simp only [List.append_assoc, List.cons_append, List.nil_append]
    rw [h, ih]
    simp

theorem value?_arrayText (n : Nat) (vs : List (List Char)) :
    Reads (value? (n + 1)) (fun _ => True) (arrayText vs) (arrayValue vs) := by
  intro rest _
  have open_ (items : List Data) (text r : List Char)
      (h : items? (value? n) (text ++ rest) = some ((items, text), rest)) :
      value? (n + 1) ('[' :: text ++ rest) = some (⟨.array items, '[' :: text⟩, rest) := by
    rw [List.cons_append, value?, h, Option.map_some]
  match vs with
  | [] => exact open_ [] [']'] rest (items?_close (b := []) rfl)
  | [v] =>
    have hv := value?_quote n v (']' :: rest) (noMark_cons (by decide) (by decide) _)
    have h := items?_last (b := []) (a := []) rfl (solid_quote v _) (head?_quote_append v _) hv rfl
    refine open_ [.text (String.ofList v)] (quote v ++ [']']) rest ?_
    simpa using h
  | u :: v :: vs =>
    refine open_ ((u :: v :: vs).map fun v => .text (String.ofList v))
      (itemLines (u :: v :: vs) ++ ['\n', ']']) rest ?_
    rw [List.append_assoc]
    exact items?_itemLines n (u :: v :: vs) rest

end Arrays

end CBuild.Toml
