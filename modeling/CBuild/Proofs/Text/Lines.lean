import CBuild.Text.Lines
import Mathlib.Data.List.Basic

/-! The lines of a text told by its line feeds. A line end of two characters is taken off a line as one of a single
character is. -/

namespace CBuild.Text

variable {l e s : List Char} {ls : List (List Char)}

/-- The text with a carriage return before each line feed. -/
def withReturns (s : List Char) : List Char :=
  s.flatMap fun c => if c = '\n' then ['\r', '\n'] else [c]

theorem mem_of_mem_splitOn (c : Char) (s : List Char) : ∀ part ∈ s.splitOn c, ∀ d ∈ part, d ∈ s ∧ d ≠ c := by
  induction s with
  | nil => simp
  | cons a s ih =>
    have hrest : ∀ part ∈ s.splitOn c, ∀ d ∈ part, d ∈ a :: s ∧ d ≠ c := fun part hpart d hd =>
      ⟨List.mem_cons_of_mem _ (ih part hpart d hd).1, (ih part hpart d hd).2⟩
    rw [List.splitOn_cons_eq_if_modifyHead]
    split
    · rw [List.forall_mem_cons]
      exact ⟨by simp, hrest⟩
    · next ha =>
      rcases h : s.splitOn c with _ | ⟨part, rest⟩
      · simp
      · rw [h, List.forall_mem_cons] at hrest
        rw [List.modifyHead_cons, List.forall_mem_cons, List.forall_mem_cons]
        exact ⟨⟨⟨List.mem_cons_self, by simpa using ha⟩, hrest.1⟩, hrest.2⟩

theorem not_mem_splitOn (c : Char) (s : List Char) : ∀ part ∈ s.splitOn c, c ∉ part := fun part hpart hc =>
  (mem_of_mem_splitOn c s part hpart c hc).2 rfl

theorem pieces_line (h : '\n' ∉ l) (r : List Char) : pieces (l ++ '\n' :: r) = (l ++ ['\n']) :: pieces r := by
  induction l with
  | nil => simp [pieces]
  | cons c l ih =>
    have hc : c ≠ '\n' := fun hc => h (by simp [hc])
    have hl : '\n' ∉ l := fun hl => h (by simp [hl])
    rw [List.cons_append, pieces, if_neg hc, ih hl]
    rfl

theorem pieces_last (h : '\n' ∉ l) (hne : l ≠ []) : pieces l = [l] := by
  induction l with
  | nil => exact absurd rfl hne
  | cons c l ih =>
    have hc : c ≠ '\n' := fun hc => h (by simp [hc])
    have hl : '\n' ∉ l := fun hl => h (by simp [hl])
    rw [pieces, if_neg hc]
    by_cases hl' : l = []
    · simp [hl', pieces]
    · rw [ih hl hl']

/-- A text is one line without a line feed, or such a line, a line feed and a text. -/
theorem line_induction {motive : List Char → Prop} (last : ∀ l, '\n' ∉ l → motive l)
    (line : ∀ l s, '\n' ∉ l → motive s → motive (l ++ '\n' :: s)) (s : List Char) : motive s := by
  suffices h : ∀ l, '\n' ∉ l → motive (l ++ s) from h [] List.not_mem_nil
  induction s with
  | nil => simpa using last
  | cons c s ih =>
    intro l hl
    by_cases hc : c = '\n'
    · rw [hc]
      exact line l s hl (ih [] List.not_mem_nil)
    · have hmore := ih (l ++ [c]) (by simp [hl, Ne.symm hc])
      rwa [List.append_assoc, List.singleton_append] at hmore

theorem pieces_append (s t : List Char) : pieces (s ++ '\n' :: t) = pieces (s ++ ['\n']) ++ pieces t := by
  induction s using line_induction with
  | last l hl => rw [pieces_line hl, pieces_line hl, pieces, List.singleton_append]
  | line l s hl ih => simp only [List.append_assoc, List.cons_append, pieces_line hl, ih]

theorem lines_append (s t : List Char) : lines (s ++ '\n' :: t) = lines (s ++ ['\n']) ++ lines t := by
  rw [lines, pieces_append, List.map_append, lines, lines]

def IsLineEnd (e : List Char) : Prop :=
  e = ['\n'] ∨ e = ['\r', '\n']

theorem withoutEnd_append (he : IsLineEnd e) (h : l.getLast? ≠ some '\r') : withoutEnd (l ++ e) = l := by
  rcases he with rfl | rfl
  · -- without the last line feed, the line would have to end in a carriage return to lose more
    unfold withoutEnd
    simp only [List.reverse_append, List.reverse_cons, List.reverse_nil, List.nil_append, List.singleton_append]
    split
    · next r hr =>
      have hlast : l.reverse.head? = some '\r' := by
        rw [(List.cons.inj hr).2]
        rfl
      exact absurd (List.head?_reverse ▸ hlast) h
    · next r _ hr =>
      rw [← (List.cons.inj hr).2, List.reverse_reverse]
    · next hr => exact absurd rfl (hr _)
  · simp [withoutEnd]

theorem withoutEnd_last (h : '\n' ∉ l) : withoutEnd l = l := by
  unfold withoutEnd
  split
  · next r hr =>
    have hmem : '\n' ∈ l.reverse := by simp [hr]
    exact absurd (List.mem_reverse.1 hmem) h
  · next r _ hr =>
    have hmem : '\n' ∈ l.reverse := by simp [hr]
    exact absurd (List.mem_reverse.1 hmem) h
  · rfl

theorem lines_line (he : IsLineEnd e) (h : '\n' ∉ l ∧ '\r' ∉ l) (r : List Char) :
    lines (l ++ e ++ r) = l :: lines r := by
  have hlast : l.getLast? ≠ some '\r' := fun hr => h.2 (List.mem_of_getLast? hr)
  have hpieces : pieces (l ++ e ++ r) = (l ++ e) :: pieces r := by
    rcases he with rfl | rfl
    · simpa using pieces_line h.1 r
    · have hl : '\n' ∉ l ++ ['\r'] := by simp [h.1]
      simpa using pieces_line hl r
  rw [lines, hpieces, List.map_cons, withoutEnd_append he hlast, lines]

/-- The lines of texts put together with a line end are the texts. The one that would come after a last line end is no
line, so a reading of the lines has to take nothing of an empty one. -/
theorem filterMap_lines {α : Type} {f : List Char → Option α} (hf : f [] = none) (he : IsLineEnd e) :
    ∀ ls : List (List Char), (∀ l ∈ ls, '\n' ∉ l ∧ '\r' ∉ l) → (lines (e.intercalate ls)).filterMap f = ls.filterMap f
  | [], _ => by simp [lines, pieces]
  | [l], h => by
    have hl := h l (by simp)
    by_cases hne : l = []
    · simp [hne, lines, pieces, hf]
    · simp [lines, pieces_last hl.1 hne, withoutEnd_last hl.1]
  | l :: l' :: ls, h => by
    have hl := h l (by simp)
    have hrest := filterMap_lines hf he (l' :: ls) fun x hx => h x (by simp [List.mem_cons.1 hx])
    rw [List.intercalate_cons_cons, lines_line he hl, List.filterMap_cons, hrest,
      ← List.filterMap_cons]

theorem filterMap_lines_append {α : Type} {f : List Char → Option α} (hf : f [] = none)
    (hs : s.getLast? ≠ some '\r') : (lines (s ++ ['\n'])).filterMap f = (lines s).filterMap f := by
  induction s using line_induction with
  | last l hl =>
    by_cases hne : l = []
    · simp [hne, lines, pieces, withoutEnd, hf]
    · rw [lines, lines, pieces_line hl, pieces_last hl hne, pieces, List.map_singleton, List.map_singleton,
        withoutEnd_append (.inl rfl) hs, withoutEnd_last hl]
  | line l s hl ih =>
    have hrest : s.getLast? ≠ some '\r' := by
      intro hr
      apply hs
      rw [List.getLast?_append, List.getLast?_cons, hr]
      rfl
    rw [List.append_assoc, List.cons_append, lines_append l (s ++ _), lines_append l s, List.filterMap_append,
      List.filterMap_append, ih hrest]

theorem withReturns_line (h : '\n' ∉ l) : withReturns l = l := by
  induction l with
  | nil => rfl
  | cons c l ih =>
    have hc : c ≠ '\n' := fun hc => h (by simp [hc])
    have hl := ih fun hl => h (by simp [hl])
    rw [withReturns] at hl ⊢
    rw [List.flatMap_cons, hl, if_neg hc, List.singleton_append]

theorem withReturns_append (l r : List Char) : withReturns (l ++ r) = withReturns l ++ withReturns r :=
  List.flatMap_append

theorem withReturns_intercalate (h : ∀ l ∈ ls, '\n' ∉ l) :
    withReturns (['\n'].intercalate ls) = ['\r', '\n'].intercalate ls := by
  induction ls with
  | nil => simp [withReturns]
  | cons l ls ih =>
    have hl := withReturns_line (h l (by simp))
    have hls := ih fun x hx => h x (by simp [hx])
    cases ls with
    | nil => simpa using hl
    | cons l' ls =>
      rw [List.intercalate_cons_cons, List.intercalate_cons_cons, ← hls, withReturns_append, withReturns_append, hl]
      rfl

theorem withReturns_eq (s : List Char) : withReturns s = ['\r', '\n'].intercalate (s.splitOn '\n') := by
  have hjoined : ['\n'].intercalate (s.splitOn '\n') = s := List.intercalate_splitOn _
  have hreturns := withReturns_intercalate (not_mem_splitOn '\n' s)
  rwa [hjoined] at hreturns

end CBuild.Text
