import CBuild.Proofs.Manifest.Examples
import CBuild.Proofs.Text.Lines
import CBuild.Proofs.Toml.Breaking

/-! Which examples stand between the lines of a document. If no string takes several lines and the text reads
after the pass as well, no example was inside an array, for no assignment can stand there. -/

namespace CBuild

open Toml Statement

section Headers

variable {inComment : Bool} {s t r before : List Char} {sts : List Statement} {st : Statement}

def HeaderFree (s : List Char) : Prop :=
  ∀ line ∈ Text.pieces s, (Text.trimStart line).head? ≠ some '['

theorem HeaderFree.nil : HeaderFree [] := by
  simp [HeaderFree, Text.pieces]

theorem Text.pieces_cons {c : Char} (h : c ≠ '\n') (s : List Char) :
    pieces (c :: s) = (c :: (pieces s).headD []) :: (pieces s).tail := by
  rw [pieces, if_neg h]
  cases pieces s <;> rfl

theorem exists_piece_of_trivia (h : trivia inComment s = (t, '[' :: r)) :
    ∃ line ∈ if inComment then (Text.pieces s).tail else Text.pieces s, (Text.trimStart line).head? = some '[' := by
  have later {ic : Bool} {p : List Char} {ps : List (List Char)}
      (h : ∃ line ∈ ps, (Text.trimStart line).head? = some '[') :
      ∃ line ∈ if ic then (p :: ps).tail else p :: ps, (Text.trimStart line).head? = some '[' := by
    obtain ⟨line, hm, hl⟩ := h
    refine ⟨line, ?_, hl⟩
    split
    · exact hm
    · exact List.mem_cons_of_mem p hm
  fun_induction trivia inComment s generalizing t with
  | case1 => cases h
  | case2 ic s x rest hx ih =>
    cases h
    rw [Text.pieces, if_pos rfl]
    exact later (ih hx)
  | case3 ic s x rest hx ih =>
    cases h
    rw [Text.pieces_cons (by decide), Text.pieces, if_pos rfl]
    exact later (ih hx)
  | case4 ic c s hn hr hc x rest hx ih =>
    cases h
    have hn : c ≠ '\n' := fun he => hn he
    have hfound := ih hx
    rw [Text.pieces_cons hn]
    by_cases hcomment : (ic || decide (c = '#')) = true
    · rw [if_pos hcomment] at hfound
      exact later hfound
    · rw [if_neg hcomment] at hfound
      obtain ⟨line, hm, hl⟩ := hfound
      obtain ⟨rfl, hh⟩ : ic = false ∧ c ≠ '#' := by simpa using hcomment
      have hs : isSpace c = true := by simpa [hh] using hc
      rw [if_neg (by simp)]
      cases hp : Text.pieces s with
      | nil =>
        rw [hp] at hm
        cases hm
      | cons p ps =>
        rw [hp, List.mem_cons] at hm
        rcases hm with rfl | hm
        · refine ⟨c :: line, List.mem_cons_self, ?_⟩
          have hb : Text.isBlank c = true := by rcases isSpace_iff.1 hs with rfl | rfl <;> decide
          rwa [Text.trimStart, List.dropWhile_cons_of_pos hb]
        · exact ⟨line, List.mem_cons_of_mem _ hm, hl⟩
  | case5 ic c s hn hr hc =>
    cases h
    cases ic with
    | true => exact absurd (by decide) hc
    | false => exact ⟨_, by rw [Text.pieces_cons (by decide)]; exact List.mem_cons_self, rfl⟩

def LineLeft (s r : List Char) : Prop :=
  r = [] ∨ ∃ a, s = a ++ '\n' :: r

theorem LineLeft.of_suffix {u : List Char} (h : LineLeft u r) (hu : u <:+ s) : LineLeft s r := by
  obtain ⟨b, rfl⟩ := hu
  exact h.imp_right fun ⟨a, ha⟩ => ⟨b ++ a, by rw [ha, List.append_assoc]⟩

theorem lineLeft_of_lineEnd? (h : lineEnd? s = some (t, r)) : LineLeft s r := by
  have hsuffix (n : Nat) : (s.dropWhile isSpace).drop n <:+ s :=
    (List.drop_suffix _ _).trans (List.dropWhile_suffix _)
  rw [lineEnd?] at h
  split at h
  · cases h
    exact .inl rfl
  · next u hu =>
    cases h
    exact LineLeft.of_suffix (.inr ⟨[], hu⟩) (hsuffix _)
  · next u hu =>
    cases h
    exact LineLeft.of_suffix (.inr ⟨['\r'], hu⟩) (hsuffix _)
  · cases h

theorem lineLeft_of_read? (h : read? before s = some (st, r)) : LineLeft s r := by
  have header {element : Bool} {s : List Char} {p : Header × List Char}
      (h : Header.read? before element s = some p) : LineLeft s p.2 := by
    simp only [Header.read?, Option.bind_eq_bind, Option.bind_eq_some_iff] at h
    obtain ⟨⟨path, r1⟩, hp, r2, ha, ⟨after, rest⟩, hl, he⟩ := h
    cases he
    obtain rfl : r1 = _ := eq_of_after? ha
    exact (lineLeft_of_lineEnd? hl).of_suffix ((List.suffix_append _ _).trans (keyPath?_extent hp).suffix)
  have entry {s : List Char} {p : Entry × List Char} (h : Entry.read? before s = some p) : LineLeft s p.2 := by
    simp only [Entry.read?, Option.bind_eq_bind, Option.bind_eq_some_iff] at h
    obtain ⟨⟨path, r1⟩, hp, r2, ha, ⟨v, r3⟩, hv, ⟨behind, rest⟩, hl, he⟩ := h
    cases he
    obtain rfl : r1 = _ := eq_of_after? ha
    exact (lineLeft_of_lineEnd? hl).of_suffix ((value?_extent depthLimit hv).suffix.trans
      ((List.dropWhile_suffix _).trans ((List.suffix_append _ _).trans (keyPath?_extent hp).suffix)))
  unfold Statement.read? at h
  split at h
  · obtain ⟨p, hp, he⟩ := Option.map_eq_some_iff.1 h
    cases he
    exact (header hp).of_suffix ((List.suffix_cons _ _).trans (List.suffix_cons _ _))
  · obtain ⟨p, hp, he⟩ := Option.map_eq_some_iff.1 h
    cases he
    exact (header hp).of_suffix (List.suffix_cons _ _)
  · obtain ⟨p, hp, he⟩ := Option.map_eq_some_iff.1 h
    cases he
    exact entry hp

theorem LineLeft.headerFree (h : LineLeft s r) (hs : HeaderFree s) : HeaderFree r := by
  obtain rfl | ⟨a, rfl⟩ := h
  · exact .nil
  · rw [HeaderFree, Text.pieces_append, List.forall_mem_append] at hs
    exact hs.2

theorem sections_of_headerFree (h : readAll? s = some (sts, t)) (hs : HeaderFree s) : (sections sts).2 = [] := by
  fun_induction readAll? s generalizing sts t with
  | case1 =>
    cases h
    rfl
  | case2 => cases h
  | case3 s before r ht hr st rest hst hlt ih =>
    obtain ⟨⟨sts', t'⟩, hall, he⟩ := Option.map_eq_some_iff.1 h
    cases he
    have hrest := ((lineLeft_of_read? hst).of_suffix (trivia_suffix ht)).headerFree hs
    cases st with
    | entry e =>
      have hnone := ih hall hrest
      exact hnone
    | header hd =>
      have hbracket : ∃ u, r = '[' :: u := by
        unfold Statement.read? at hst
        split at hst
        · exact ⟨_, rfl⟩
        · exact ⟨_, rfl⟩
        · obtain ⟨p, -, he⟩ := Option.map_eq_some_iff.1 hst
          cases he
      obtain ⟨u, rfl⟩ := hbracket
      obtain ⟨line, hm, hl⟩ := exists_piece_of_trivia ht
      exact absurd hl (hs line hm)
  | case4 => cases h

end Headers

section Apart

variable {o f m s x line key : List Char} {keys : List (List Char)}

/-- Behind the text reads what reads behind the other. -/
def GoesOn (o m : List Char) : Prop :=
  ∀ x, (readAll? (unmarked (o ++ x))).isSome = (readAll? (unmarked (m ++ x))).isSome

theorem GoesOn.append (h : GoesOn o m) (l : List Char) : GoesOn (o ++ l) (m ++ l) := by
  intro x
  rw [List.append_assoc, List.append_assoc]
  exact h (l ++ x)

theorem readAll?_lineFeed (x : List Char) :
    (readAll? (unmarked (['\n'] ++ x))).isSome = (readAll? x).isSome := by
  rw [unmarked_of_head (by simp)]
  have hread : readAll? (['\n'] ++ x) = (readAll? x).map (allBehind ['\n']) := readAll?_of_trivia_append trivia_newline
  rw [hread, Option.isSome_map]

theorem goesOn_lineFeed (h : (readAll? (unmarked o)).isSome = true) (ho : Whole o)
    (hmark : ∀ x, (line ++ x).head? ≠ some '\uFEFF')
    (hline : ∀ x, (readAll? (line ++ x)).isSome = (readAll? x).isSome) : GoesOn (o ++ line) ['\n'] := by
  intro x
  obtain ⟨⟨sts, t⟩, hread⟩ := Option.isSome_iff_exists.1 h
  rw [readAll?_lineFeed, List.append_assoc, readAll?_unmarked_append hread ho (hmark x), Option.isSome_map, hline]

theorem oneLine_unmarked (h : oneLine s = true) : oneLine (unmarked s) = true := by
  cases s with
  | nil => exact h
  | cons c s =>
    rw [unmarked_cons]
    split
    · next hc =>
      subst hc
      exact (Ahead.quiet (by decide) s).oneLine h
    · exact h

theorem isSome_readAll?_unmarked (hz : Assigns x) (hm : Whole m) (hone : oneLine (m ++ s) = true)
    (hs : (readAll? (unmarked (m ++ s))).isSome = true) (hx : (readAll? (unmarked (m ++ x))).isSome = true) :
    (readAll? (unmarked m)).isSome = true := by
  by_cases hn : m = []
  · subst hn
    rw [unmarked_of_head (by simp), readAll?]
    rfl
  · have hone := oneLine_unmarked hone
    rw [unmarked_append hn] at hone hs hx
    exact readAll?_within hz hm.unmarked hone hs hx

/-- A byte order mark hides the bracket of a header that it stands in front of. -/
def hidesHeader (s : List Char) : Bool :=
  s.head? = some '\uFEFF' && (Text.trimStart s.tail).head? = some '['

theorem hidesHeader_of_append (h : hidesHeader (s ++ x) = false) : hidesHeader s = false := by
  cases s with
  | nil => rfl
  | cons c s =>
    have htrim (hs : (Text.trimStart s).head? = some '[') : (Text.trimStart (s ++ x)).head? = some '[' := by
      obtain ⟨u, hu⟩ := List.head?_eq_some_iff.1 hs
      rw [Text.trimStart] at hu
      rw [Text.trimStart, List.dropWhile_append, hu]
      rfl
    simp only [hidesHeader, List.cons_append, List.head?_cons, List.tail_cons, Bool.and_eq_false_iff] at h ⊢
    exact h.imp_right fun hx => decide_eq_false (mt htrim (of_decide_eq_false hx))

theorem HeaderFree.append (ho : HeaderFree (unmarked o)) (hw : Whole o) (hm : '\n' ∉ m)
    (hline : (Text.trimStart (m ++ ['\n'])).head? ≠ some '[')
    (hfirst : o = [] → hidesHeader (m ++ ['\n']) = false) : HeaderFree (unmarked (o ++ (m ++ ['\n']))) := by
  have single {l : List Char} (hl : '\n' ∉ l) (h : (Text.trimStart (l ++ ['\n'])).head? ≠ some '[') :
      HeaderFree (l ++ ['\n']) := by
    have hp : Text.pieces (l ++ ['\n']) = [l ++ ['\n']] := by
      rw [Text.pieces_line hl, Text.pieces]
    rw [HeaderFree, hp, List.forall_mem_singleton]
    exact h
  by_cases hn : o = []
  · replace hfirst := hfirst hn
    subst hn
    rw [List.nil_append]
    cases m with
    | nil => exact single hm hline
    | cons c m =>
      rw [List.cons_append, unmarked_cons]
      split
      · next hc =>
        subst hc
        refine single (fun h => hm (List.mem_cons_of_mem _ h)) ?_
        exact of_decide_eq_false hfirst
      · exact single hm hline
  · rw [unmarked_append hn, HeaderFree]
    rcases hw.unmarked with he | hl
    · rw [he, List.nil_append]
      exact single hm hline
    · obtain ⟨u, hu⟩ := List.getLast?_eq_some_iff.1 hl
      rw [hu] at ho ⊢
      rw [List.append_assoc, List.singleton_append, Text.pieces_append, List.forall_mem_append]
      exact ⟨ho, single hm hline⟩

/-- Where no string takes several lines, and the text reads before the pass and after it, each example that is
turned stands between two lines. -/
theorem examplesApart_of_reads (hk : ∀ key ∈ keys, IsBare key) (ho : Whole o) (hf : Whole f) (hm : Whole m)
    (hom : GoesOn o m) (hfm : GoesOn f m) (hfree : HeaderFree (unmarked o)) (hone : oneLine (m ++ s) = true)
    (hs : (readAll? (unmarked (o ++ s))).isSome = true)
    (hfilled : (readAll? (unmarked (f ++ (fillExamplesIn keys (Text.pieces s)).flatten))).isSome = true)
    (hfirst : o = [] → hidesHeader s = false) : examplesApart keys o (Text.pieces s) = true := by
  -- on the lines that are left; `m` is what `o` and `f` have in common since the last example
  induction hlen : s.length using Nat.strongRecOn generalizing s o f m keys with
  | ind n ih =>
    subst hlen
    by_cases hnil : s = []
    · subst hnil
      rfl
    obtain ⟨line, rest, rfl, hp, l, hl, hend⟩ := Text.pieces_first hnil
    rw [hp, examplesApart]
    rw [hp, fillExamplesIn] at hfilled
    by_cases hopen : (Text.trimStart line).head? = some '['
    · rw [if_pos hopen]
    rw [if_neg hopen] at hfilled ⊢
    have hshort (h : line = l ++ ['\n']) : rest.length < (line ++ rest).length := by
      rw [h]
      simp only [List.length_append, List.length_singleton]
      omega
    have hfree' (h : line = l ++ ['\n']) : HeaderFree (unmarked (o ++ line)) := by
      subst h
      exact hfree.append ho hl hopen fun hn => hidesHeader_of_append (hfirst hn)
    have hnext : o ++ line = [] → hidesHeader rest = false := by
      intro he
      obtain rfl := (List.append_eq_nil_iff.1 he).2
      obtain h | ⟨-, rfl⟩ := hend
      · simp at h
      · rfl
    cases hfind : keys.find? (isExampleOf (Text.trimStart line)) with
    | none =>
      rw [hfind] at hfilled
      dsimp only at hfilled ⊢
      obtain h | ⟨rfl, rfl⟩ := hend
      · have hlined : Lined line := by
          rw [h]
          exact lined_append l (show Lined ['\n'] from rfl)
        rw [← List.append_assoc] at hs hone
        rw [List.flatten_cons, ← List.append_assoc] at hfilled
        exact ih _ (hshort h) hk (.inr (lined_append o hlined)) (.inr (lined_append f hlined))
          (.inr (lined_append m hlined)) (hom.append line) (hfm.append line) (hfree' h) hone hs hfilled hnext rfl
      · rfl
    | some key =>
      rw [hfind] at hfilled
      dsimp only at hfilled ⊢
      have hkey := hk key (List.mem_of_find?_eq_some hfind)
      rw [List.flatten_cons] at hfilled
      have hz : Assigns (key ++ " = []\n".toList ++ (fillExamplesIn (keys.erase key) (Text.pieces rest)).flatten) :=
        ⟨key, _, hkey.1, hkey.2, by rw [List.append_assoc]; rfl⟩
      have hbetween := isSome_readAll?_unmarked hz hm hone (by rw [← hom]; exact hs) (by rw [← hfm]; exact hfilled)
      have habove : (readAll? (unmarked o)).isSome = true := by
        have hsame := hom []
        rwa [List.append_nil, List.append_nil, hbetween] at hsame
      have hwritten : (readAll? (unmarked f)).isSome = true := by
        have hsame := hfm []
        rwa [List.append_nil, List.append_nil, hbetween] at hsame
      obtain ⟨⟨sts, t⟩, hread⟩ := Option.isSome_iff_exists.1 habove
      have hentries : readsAsEntries o = true := by
        rw [readsAsEntries, hread]
        exact List.isEmpty_iff.2 (sections_of_headerFree hread hfree)
      rw [hentries, Bool.true_and]
      obtain h | ⟨rfl, rfl⟩ := hend
      · have hlined : Lined line := by
          rw [h]
          exact lined_append l (show Lined ['\n'] from rfl)
        have hlist : Lined (key ++ " = []\n".toList) := lined_append key (show Lined " = []\n".toList from rfl)
        obtain ⟨r, hr⟩ := isExampleOf_head (List.find?_some hfind)
        obtain ⟨c, l', hline, -⟩ := exists_comment_of_example hl (.inl h) hr ho hentries hs
        have hne (x : List Char) : line = l → x = [] := fun he => absurd (he.symm.trans h) (by simp)
        have hgo : GoesOn (o ++ line) ['\n'] := goesOn_lineFeed habove ho (head_of_example hr) fun x => by
          rw [hline x (hne x), Option.isSome_map]
        have hgo' : GoesOn (f ++ (key ++ " = []\n".toList)) ['\n'] :=
          goesOn_lineFeed hwritten hf (fun x => by rw [List.append_assoc]; exact head_of_isBare hkey _) fun x => by
            rw [readAll?_listLine hkey, Option.isSome_map]
        rw [← List.append_assoc] at hs hfilled hone
        have hrest : oneLine (['\n'] ++ rest) = true := by
          have := oneLine_of_append (.inr (lined_append m hlined)) hone
          rwa [oneLine, List.singleton_append, lexemes_cons (by decide)]
        exact ih _ (hshort h) (fun k hm => hk k (List.mem_of_mem_erase hm)) (.inr (lined_append o hlined))
          (.inr (lined_append f hlist)) (.inr (show Lined ['\n'] from rfl)) hgo hgo' (hfree' h) hrest hs hfilled hnext rfl
      · rfl

theorem examplesApart_of_fillExamples (hk : ∀ key ∈ keys, IsBare key) (hone : oneLine s = true)
    (hmark : hidesHeader s = false) (hs : (readAll? (unmarked s)).isSome = true)
    (hfilled : (readAll? (unmarked (fillExamples s keys))).isSome = true) :
    examplesApart keys [] (Text.pieces s) = true := by
  have hnil : Whole [] := .inl rfl
  have hfree : HeaderFree (unmarked []) := .nil
  exact examplesApart_of_reads (m := []) hk hnil hnil hnil (fun _ => rfl) (fun _ => rfl) hfree hone hs hfilled
    fun _ => hmark

end Apart

end CBuild
