import CBuild.Source.Include
import CBuild.Proofs.Text.Lines

/-! Which lines are include lines, and of what, told without the way they are read. No target is empty, so none is at
the end of every path, and none has a line end in it. -/

namespace CBuild.Source

variable {line q : List Char} {t : List Char}

/-- The line asks for `q`, which stands between the first two quotation marks behind the directive, or behind the only
one up to the end of the line. -/
def AsksFor (line q : List Char) : Prop :=
  ∃ p r, line = includeDirective ++ p ++ '"' :: q ++ r ∧ '"' ∉ p ∧ q ≠ [] ∧ '"' ∉ q ∧ (r = [] ∨ ∃ s, r = '"' :: s)

theorem quote_not_mem_includeDirective : '"' ∉ includeDirective := by
  decide

theorem dropWhile_quoted {p : List Char} (hp : '"' ∉ p) (s : List Char) :
    (p ++ s).dropWhile (· ≠ '"') = s.dropWhile (· ≠ '"') :=
  List.dropWhile_append_of_pos fun c hc => decide_eq_true fun h : c = '"' => hp (h ▸ hc)

theorem takeWhile_quoted {r : List Char} (hq : '"' ∉ q) (hr : r = [] ∨ ∃ s, r = '"' :: s) :
    (q ++ r).takeWhile (· ≠ '"') = q := by
  have hpos : ∀ c ∈ q, decide (c ≠ '"') = true := fun c hc => decide_eq_true fun h => hq (h ▸ hc)
  rw [List.takeWhile_append_of_pos hpos]
  rcases hr with rfl | ⟨s, rfl⟩ <;> simp

theorem quote_not_mem_takeWhile (s : List Char) : '"' ∉ s.takeWhile (· ≠ '"') := by
  intro h
  have hc := List.all_takeWhile (l := s) (p := fun c => decide (c ≠ '"'))
  simpa using List.all_eq_true.1 hc _ h

theorem dropWhile_quoted_cases (s : List Char) :
    s.dropWhile (· ≠ '"') = [] ∨ ∃ r, s.dropWhile (· ≠ '"') = '"' :: r := by
  rcases h : s.dropWhile (· ≠ '"') with _ | ⟨c, r⟩
  · exact .inl rfl
  · have hc := List.head?_dropWhile_not (fun c => decide (c ≠ '"')) s
    rw [h] at hc
    refine .inr ⟨r, ?_⟩
    simpa using hc

theorem AsksFor.isIncludeLine (h : AsksFor line q) : isIncludeLine line = true := by
  obtain ⟨p, r, rfl, -, -, -, -⟩ := h
  rw [Source.isIncludeLine, Bool.and_eq_true, List.isPrefixOf_iff_prefix]
  refine ⟨⟨p ++ '"' :: q ++ r, ?_⟩, ?_⟩
  · simp only [List.append_assoc, List.cons_append]
  · rw [List.contains_iff_mem]
    simp only [List.mem_append, List.mem_cons, true_or, or_true]

theorem AsksFor.of_includeTarget? (h : includeTarget? line = some q) : AsksFor line q := by
  unfold includeTarget? at h
  split at h
  · next hline =>
    rw [Source.isIncludeLine, Bool.and_eq_true, List.isPrefixOf_iff_prefix, List.contains_iff_mem] at hline
    obtain ⟨⟨s, rfl⟩, hquote⟩ := hline
    rw [dropWhile_quoted quote_not_mem_includeDirective] at h
    rcases dropWhile_quoted_cases s with hs | ⟨r, hr⟩
    · have hmem : '"' ∈ s := (List.mem_append.1 hquote).resolve_left quote_not_mem_includeDirective
      rw [← List.takeWhile_append_dropWhile (p := fun c => decide (c ≠ '"')) (l := s), hs, List.append_nil] at hmem
      exact absurd hmem (quote_not_mem_takeWhile s)
    · simp only [hr, List.drop_one, List.tail_cons] at h
      split at h
      · cases h
      · next hne =>
        obtain rfl := Option.some.inj h
        refine ⟨s.takeWhile (· ≠ '"'), r.dropWhile (· ≠ '"'), ?_, quote_not_mem_takeWhile s, hne,
          quote_not_mem_takeWhile r, dropWhile_quoted_cases r⟩
        rw [List.append_assoc, List.cons_append, List.takeWhile_append_dropWhile, ← hr, List.append_assoc,
          List.takeWhile_append_dropWhile]
  · cases h

theorem AsksFor.includeTarget? (h : AsksFor line q) : includeTarget? line = some q := by
  have hline := h.isIncludeLine
  obtain ⟨p, r, rfl, hp, hne, hq, hr⟩ := h
  have hfront : '"' ∉ includeDirective ++ p := by
    rw [List.mem_append, not_or]
    exact ⟨quote_not_mem_includeDirective, hp⟩
  have htarget : (((includeDirective ++ p ++ '"' :: q ++ r).dropWhile (· ≠ '"')).drop 1).takeWhile (· ≠ '"') = q := by
    rw [List.append_assoc, dropWhile_quoted hfront, List.cons_append, List.dropWhile_cons_of_neg (by simp),
      List.drop_one, List.tail_cons, takeWhile_quoted hq hr]
  rw [Source.includeTarget?, if_pos hline, htarget]
  exact if_neg hne

theorem includeTarget?_eq_some_iff : includeTarget? line = some q ↔ AsksFor line q :=
  ⟨AsksFor.of_includeTarget?, AsksFor.includeTarget?⟩

theorem AsksFor.mem (h : AsksFor line q) {c : Char} (hc : c ∈ q) : c ∈ line := by
  obtain ⟨p, r, rfl, -, -, -, -⟩ := h
  simp only [List.mem_append, List.mem_cons, hc, or_true, true_or]

/-- The targets of a text without carriage returns are what its lines ask for, in their order. They are not empty, end
within their line, and stay what they are when the lines end in a carriage return and a line feed. -/
theorem includeTargets_of_lines (t : List Char) (h : '\r' ∉ t) :
    (∀ line q, includeTarget? line = some q ↔ AsksFor line q) ∧
      includeTargets t = (t.splitOn '\n').filterMap includeTarget? ∧
      (∀ q ∈ includeTargets t, q ≠ [] ∧ '"' ∉ q ∧ '\n' ∉ q) ∧
      includeTargets (Text.withReturns t) = includeTargets t := by
  have hlines : ∀ l ∈ t.splitOn '\n', '\n' ∉ l ∧ '\r' ∉ l := by
    intro l hl
    exact ⟨Text.not_mem_splitOn '\n' t l hl, fun hr => h (Text.mem_of_mem_splitOn '\n' t l hl _ hr).1⟩
  have hnil : includeTarget? [] = none := rfl
  have hplain : includeTargets t = (t.splitOn '\n').filterMap includeTarget? := by
    have hread := Text.filterMap_lines hnil (.inl rfl) _ hlines
    rwa [List.intercalate_splitOn] at hread
  refine ⟨fun line q => includeTarget?_eq_some_iff, hplain, ?_, ?_⟩
  · intro q hq
    rw [hplain, List.mem_filterMap] at hq
    obtain ⟨line, hline, hq⟩ := hq
    have hasks := includeTarget?_eq_some_iff.1 hq
    have hfeed : '\n' ∉ q := fun hfeed => (hlines line hline).1 (hasks.mem hfeed)
    obtain ⟨p, r, -, -, hne, hquote, -⟩ := hasks
    exact ⟨hne, hquote, hfeed⟩
  · rw [hplain, Text.withReturns_eq]
    exact Text.filterMap_lines hnil (.inr rfl) _ hlines

theorem includeTargets_returns_unterminated :
    '\r' ∉ "#include \"a.h\n #include \"b.h\"\n".toList ∧
      includeTargets (Text.withReturns "#include \"a.h\n #include \"b.h\"\n".toList) = ["a.h".toList] := by
  have hreturn : '\r' ∉ "#include \"a.h\n #include \"b.h\"\n".toList := by decide
  refine ⟨hreturn, ?_⟩
  rw [(includeTargets_of_lines _ hreturn).2.2.2]
  decide

end CBuild.Source
