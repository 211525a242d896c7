import CBuild.Manifest.Lists
import CBuild.Proofs.Toml.Comments
import CBuild.Proofs.Toml.Gaining
import CBuild.Proofs.Toml.Lines

/-! Turning commented examples into empty lists. The pass that does so goes by lines and knows nothing of
strings and arrays that take several: where the lines it turns stand between the lines of the document, the
document gains the lists and nothing else. -/

namespace CBuild

open Toml Statement

section Pieces

theorem Text.pieces_first {s : List Char} (h : s ≠ []) :
    ∃ line rest, s = line ++ rest ∧ pieces s = line :: pieces rest ∧
      ∃ m, '\n' ∉ m ∧ (line = m ++ ['\n'] ∨ line = m ∧ rest = []) := by
  induction s with
  | nil => exact absurd rfl h
  | cons c r ih =>
    by_cases hc : c = '\n'
    · subst hc
      exact ⟨['\n'], r, rfl, by rw [pieces, if_pos rfl], [], by simp, .inl rfl⟩
    · by_cases hr : r = []
      · subst hr
        exact ⟨[c], [], rfl, by simp [pieces, hc], [c], by simpa using Ne.symm hc,
          .inr ⟨rfl, rfl⟩⟩
      · obtain ⟨line, rest, rfl, hp, m, hm, hl⟩ := ih hr
        refine ⟨c :: line, rest, rfl, by rw [pieces, if_neg hc, hp], c :: m, ?_, ?_⟩
        · exact fun h => (List.mem_cons.1 h).elim (fun he => hc he.symm) hm
        · rcases hl with rfl | ⟨rfl, hrest⟩
          · exact .inl rfl
          · exact .inr ⟨rfl, hrest⟩

end Pieces

section Lines

def readsAsEntries (s : List Char) : Bool :=
  (readAll? (unmarked s)).any fun (sts, _) => (sections sts).2.isEmpty

/-- Every example that is turned into a list stands between two lines of the document. -/
def examplesApart (keys : List (List Char)) (above : List Char) : List (List Char) → Bool
  | [] => true
  | line :: rest =>
    let start := Text.trimStart line
    if start.head? = some '[' then true
    else
      match keys.find? (isExampleOf start) with
      | some key => readsAsEntries above && examplesApart (keys.erase key) (above ++ line) rest
      | none => examplesApart keys (above ++ line) rest

def examplesIn (keys : List (List Char)) : List (List Char) → List (List Char × List Char)
  | [] => []
  | line :: rest =>
    let start := Text.trimStart line
    if start.head? = some '[' then []
    else
      match keys.find? (isExampleOf start) with
      | some key => (key, line) :: examplesIn (keys.erase key) rest
      | none => examplesIn keys rest

variable {key s : List Char} {keys : List (List Char)}

theorem nodup_examplesIn (hn : keys.Nodup) (lines : List (List Char)) :
    ((examplesIn keys lines).map Prod.fst).Nodup ∧ ∀ key ∈ (examplesIn keys lines).map Prod.fst, key ∈ keys := by
  induction lines generalizing keys with
  | nil => exact ⟨List.nodup_nil, fun _ h => absurd h List.not_mem_nil⟩
  | cons line rest ih =>
    rw [examplesIn]
    split
    · exact ⟨List.nodup_nil, fun _ h => absurd h List.not_mem_nil⟩
    · split
      · next key hfind =>
        obtain ⟨hnodup, hmem⟩ := ih (hn.erase key)
        rw [List.map_cons, List.nodup_cons, List.forall_mem_cons]
        exact ⟨⟨fun h => (hn.mem_erase_iff.1 (hmem key h)).1 rfl, hnodup⟩, List.mem_of_find?_eq_some hfind,
          fun k h => List.mem_of_mem_erase (hmem k h)⟩
      · exact ih hn

theorem readAll?_listLine (hk : IsBare key) (rest : List Char) :
    readAll? (key ++ " = []\n".toList ++ rest) =
      (readAll? rest).map fun p => (.entry (listEntry [] key) :: p.1, p.2) := by
  have hl : (Line.assignment key (arrayValue []) []).Legible :=
    ⟨hk, ⟨'[', [']'], rfl, rfl⟩, endsLine_nil, fun rest _ => value?_arrayText 78 [] rest trivial⟩
  have h := readAll?_spelled (Line.spelled_assignment isTrivia_nil hl) rest
  rw [List.nil_append] at h
  exact h

theorem isExampleOf_head {start : List Char} (h : isExampleOf start key = true) :
    ∃ r, start = '#' :: r := by
  unfold isExampleOf at h
  split at h
  · exact ⟨_, rfl⟩
  · cases h

end Lines

section Filling

variable {s o f x line : List Char} {key : List Char} {keys : List (List Char)} {xs : List Example}

theorem unmarked_cons (c : Char) (s : List Char) :
    unmarked (c :: s) = if c = '\uFEFF' then s else c :: s := by
  rw [unmarked, Text.after?]
  by_cases h : c = '\uFEFF'
  · simp [h]
  · simp [h, Ne.symm h]

theorem unmarked_append (h : s ≠ []) (x : List Char) : unmarked (s ++ x) = unmarked s ++ x := by
  obtain ⟨c, s, rfl⟩ := List.exists_cons_of_ne_nil h
  rw [List.cons_append, unmarked_cons, unmarked_cons]
  split <;> rfl

theorem unmarked_of_head (h : x.head? ≠ some '\uFEFF') : unmarked x = x := by
  cases x with
  | nil => rfl
  | cons c x => rw [unmarked_cons, if_neg (by simpa using h)]

theorem Toml.Whole.unmarked (h : Whole s) : Whole (unmarked s) := by
  by_cases hn : Toml.unmarked s = []
  · exact .inl hn
  · rcases h with rfl | hs
    · exact absurd rfl hn
    · obtain ⟨c, s, rfl⟩ := List.exists_cons_of_ne_nil hs.ne_nil
      rw [unmarked_cons] at hn ⊢
      refine .inr (hs.of_suffix ?_ hn)
      split
      · exact List.suffix_cons c s
      · exact List.suffix_rfl

theorem readAll?_unmarked_append {sts : List Statement} {t : List Char}
    (h : readAll? (unmarked s) = some (sts, t)) (hs : Whole s) (hx : x.head? ≠ some '\uFEFF') :
    readAll? (unmarked (s ++ x)) =
      (readAll? x).map fun p => (sts ++ (allBehind t p).1, (allBehind t p).2) := by
  by_cases hn : s = []
  · subst hn
    have hnil := readAll?_append h (.inl rfl) x
    rw [List.nil_append, unmarked_of_head hx]
    exact hnil
  · rw [unmarked_append hn]
    exact readAll?_append h hs.unmarked x

theorem takeWhile_of_endsComment {m y : List Char} (h : endsComment m y = true) :
    m.takeWhile isPrintable = m.filter (· ≠ '\r') := by
  induction m with
  | nil => rfl
  | cons c m ih =>
    rw [endsComment] at h
    split at h
    · next hp =>
      have hc : c ≠ '\r' := by
        rintro rfl
        exact absurd hp (by decide)
      have hkeep : decide (c ≠ '\r') = true := decide_eq_true hc
      rw [List.takeWhile_cons_of_pos hp, List.filter_cons, if_pos hkeep, ih h]
    · next hp =>
      simp only [Bool.and_eq_true, decide_eq_true_eq, List.isEmpty_iff] at h
      obtain ⟨⟨rfl, rfl⟩, -⟩ := h
      rw [List.takeWhile_cons_of_neg hp]
      rfl

theorem readAll?_example {m r : List Char} (hm : '\n' ∉ m) (hl : line = m ++ ['\n'] ∨ line = m)
    (hr : Text.trimStart line = '#' :: r) : ∃ (reads : Bool) (c l : List Char),
      (∀ x, (line = m → x = []) →
        readAll? (line ++ x) = if reads = true then (readAll? x).map (allBehind c) else none) ∧
        (reads = true → c = line.filter (· ≠ '\r') ∧ comments c = [l] ∧ (line = m ∨ IsTrivia false c ∧ Lined c)) := by
  have trimmed : ∃ u, Text.trimStart m = '#' :: u := by
    rcases hl with rfl | rfl
    · rw [Text.trimStart, List.dropWhile_append] at hr
      split at hr
      · cases hr
      · next hne =>
        rw [List.isEmpty_iff] at hne
        obtain ⟨c, u, hu⟩ := List.exists_cons_of_ne_nil hne
        rw [hu, List.cons_append] at hr
        exact ⟨u, hu.trans (by rw [(List.cons.inj hr).1])⟩
    · exact ⟨r, hr⟩
  obtain ⟨u, hu⟩ := trimmed
  obtain ⟨w, rfl, hw⟩ : ∃ w, m = w ++ '#' :: u ∧ ∀ c ∈ w, Text.isBlank c = true :=
    ⟨m.takeWhile Text.isBlank, by rw [← hu, Text.trimStart, List.takeWhile_append_dropWhile],
      fun c hc => List.mem_takeWhile_imp hc⟩
  rw [List.mem_append, List.mem_cons, not_or, not_or] at hm
  obtain ⟨hwn, -, hun⟩ := hm
  have hp : ∀ c ∈ u.takeWhile isPrintable, isPrintable c = true := fun c hc => List.mem_takeWhile_imp hc
  have hpn : '\n' ∉ u.takeWhile isPrintable := fun h => isPrintable_ne (hp _ h) rfl
  obtain ⟨e, rfl, he⟩ : ∃ e, line = w ++ '#' :: u ++ e ∧ (e = [] ∨ e = ['\n']) := by
    rcases hl with rfl | rfl
    · exact ⟨['\n'], rfl, .inr rfl⟩
    · exact ⟨[], by rw [List.append_nil], .inl rfl⟩
  refine ⟨w.all isSpace && endsComment u e, w ++ '#' :: (u.takeWhile isPrintable ++ e), '#' :: u.takeWhile isPrintable,
    fun x hx => ?_, fun hreads => ?_⟩
  · have hy : e ++ x = [] ∨ ∃ y, e ++ x = '\n' :: y := by
      rcases he with rfl | rfl
      · exact .inl (by rw [hx (by rw [List.append_nil]), List.append_nil])
      · exact .inr ⟨x, rfl⟩
    have hends : endsComment u (e ++ x) = endsComment u e := by
      rcases he with rfl | rfl
      · rw [hx (by rw [List.append_nil]), List.append_nil]
      · exact endsComment_line u x []
    have hend : readAll? (e ++ x) = (readAll? x).map (allBehind e) := by
      rcases he with rfl | rfl
      · simp [funext allBehind_nil]
      · exact readAll?_of_trivia_append trivia_newline
    rw [List.append_assoc, List.append_assoc, List.cons_append, readAll?_comment hw hwn hun hy, hends, hend]
    split
    · rw [Option.map_map]
      refine congrArg (Option.map · _) (funext fun p => ?_)
      rw [Function.comp_apply, allBehind_allBehind, List.append_assoc, List.cons_append]
    · rfl
  · rw [Bool.and_eq_true, List.all_eq_true] at hreads
    obtain ⟨hs, hends⟩ := hreads
    have hquiet : ∀ c ∈ w, isQuiet c = true := fun c hc => isQuiet_of_isSpace (hs c hc)
    have hself : endsComment (u.takeWhile isPrintable) e = true := endsComment_of_isPrintable hp e
    refine ⟨?_, ?_, ?_⟩
    · have hspace : w.filter (· ≠ '\r') = w := by
        refine List.filter_eq_self.2 fun c hc => decide_eq_true ?_
        rintro rfl
        exact absurd (hs _ hc) (by decide)
      have hend : e.filter (· ≠ '\r') = e := by rcases he with rfl | rfl <;> rfl
      rw [List.filter_append, List.filter_append, hspace, hend, List.filter_cons_of_pos (by decide),
        takeWhile_of_endsComment hends, List.append_assoc, List.cons_append]
    · rw [Toml.comments, lexemes_append_of_quiet hquiet, ← Toml.comments, comments_hash_line hpn he hself,
        List.takeWhile_eq_self_iff.2 hp]
    · rcases he with rfl | rfl
      · exact .inl (List.append_nil _)
      · have hlined : Lined ('#' :: (u ++ ['\n'])) := lined_append ('#' :: u) (show Lined ['\n'] from rfl)
        obtain ⟨ht, hl⟩ := isTrivia_of_lined hlined (trivia_hash_line hun (.inr rfl) hends)
        exact .inr ⟨(isTrivia_of_isSpace hs).append ht, lined_append w hl⟩

theorem head_of_isBare (hk : IsBare key) (x : List Char) : (key ++ x).head? ≠ some '\uFEFF' := by
  obtain ⟨c, u, rfl⟩ := List.exists_cons_of_ne_nil hk.1
  intro h
  have hc := hk.2 c List.mem_cons_self
  rw [Option.some.inj h] at hc
  exact absurd hc (by decide)

theorem head_of_example {r : List Char} (hr : Text.trimStart line = '#' :: r) (x : List Char) :
    (line ++ x).head? ≠ some '\uFEFF' := by
  cases line with
  | nil => cases hr
  | cons c line =>
    intro h
    obtain rfl : c = '\uFEFF' := Option.some.inj h
    rw [Text.trimStart, List.dropWhile_cons_of_neg (by decide)] at hr
    exact absurd (List.cons.inj hr).1 (by decide)

/-- In front of the text `x` the lines written so far read as the lines read so far do, with lists for the examples
`xs`. -/
def Keeps (xs : List Example) (o f x : List Char) : Prop :=
  ∀ p, readAll? (unmarked (o ++ x)) = some p →
    ∃ p', readAll? (unmarked (f ++ x)) = some p' ∧ Fills xs p p' ∧
      (commentsOf p).Perm (commentsOf p' ++ xs.flatMap fun x => Toml.comments x.line)

theorem Keeps.turn {c l : List Char} (hkeep : Keeps xs o f []) (ho : Whole o) (hf : Whole f)
    (hr : readsAsEntries o = true) (hk : IsBare key) (hc : Toml.comments c = [l]) (line : List Char) :
    ∃ above, ∀ x, (line ++ x).head? ≠ some '\uFEFF' → readAll? (line ++ x) = (readAll? x).map (allBehind c) →
      x = [] ∨ IsTrivia false c ∧ Lined c →
      Keeps (xs ++ [⟨key, above, c⟩]) (o ++ line) (f ++ (key ++ " = []\n".toList)) x := by
  obtain ⟨⟨above, t⟩, habove, hentries⟩ := (Option.any_eq_true _ _).1 hr
  rw [List.isEmpty_iff] at hentries
  obtain ⟨⟨written, t'⟩, hwritten, hfills, hperm⟩ := hkeep (above, t) (by rw [List.append_nil, habove])
  rw [List.append_nil] at hwritten
  refine ⟨t', fun x hmark hline hopen p hp => ?_⟩
  rw [List.append_assoc, readAll?_unmarked_append habove ho hmark, hline, Option.map_map] at hp
  obtain ⟨below, hbelow, rfl⟩ := Option.map_eq_some_iff.1 hp
  rw [Function.comp_apply, allBehind_allBehind]
  have hfresh : (key ++ " = []\n".toList ++ x).head? ≠ some '\uFEFF' := by
    rw [List.append_assoc]
    exact head_of_isBare hk _
  obtain ⟨htrivia, -⟩ := isTrivia_of_readAll? ho.unmarked habove
  refine ⟨(written ++ .entry (listEntry t' key) :: below.1, below.2), ?_, hfills.insert hentries key c below, ?_⟩
  · rw [List.append_assoc, readAll?_unmarked_append hwritten hf hfresh, readAll?_listLine hk, hbelow]
    simp [allBehind, behind, lead, listEntry, Key.opening]
  · -- the comment of the example is taken; what stood above it goes with the list
    have hopen : IsTrivia false (t ++ c) ∨ below = ([], []) := by
      rcases hopen with rfl | ⟨hclosed, -⟩
      · rw [readAll?_of_trivia rfl, Option.some.injEq] at hbelow
        exact .inr hbelow.symm
      · exact .inl (htrivia.append hclosed)
    have hbehind : commentsOf (allBehind (t ++ c) below) = Toml.comments t ++ [l] ++ commentsOf below := by
      rw [commentsOf_allBehind (readAll?_known hbelow).1 hopen, comments_append_of_isTrivia htrivia, hc]
    have hlist : (Statement.entry (listEntry t' key)).comments = Toml.comments t' := by
      have hempty : Toml.comments (arrayValue []).spelling = [] := comments_arrayText []
      rw [Statement.comments, Entry.comments, listEntry, hempty, comments_nil, List.append_nil, List.append_nil]
      rfl
    rw [List.perm_iff_count] at hperm ⊢
    intro a
    have ha := hperm a
    have hb := congrArg (List.count a) hbehind
    simp only [commentsOf, List.flatMap_append, List.flatMap_cons, List.flatMap_nil, hlist, hc,
      List.count_append, List.count_nil] at ha hb ⊢
    omega

theorem Keeps.pass (hkeep : ∀ x, Keeps xs o f x) (x : List Char) : Keeps xs (o ++ line) (f ++ line) x := by
  intro p hp
  rw [List.append_assoc] at hp ⊢
  exact hkeep (line ++ x) p hp

/-- Lines of a text with the examples `xs` among them turned into lists. -/
structure Turned (xs : List Example) (o f : List Char) : Prop where
  above : Whole o
  written : Whole f
  keeps : ∀ x, Keeps xs o f x

theorem Turned.pass (ht : Turned xs o f) (m : List Char) : Turned xs (o ++ (m ++ ['\n'])) (f ++ (m ++ ['\n'])) where
  above := .inr (lined_append o (lined_append m (show Lined ['\n'] from rfl)))
  written := .inr (lined_append f (lined_append m (show Lined ['\n'] from rfl)))
  keeps := Keeps.pass ht.keeps

theorem exists_comment_of_example {m r rest : List Char} (hm : '\n' ∉ m)
    (hl : line = m ++ ['\n'] ∨ line = m ∧ rest = []) (hr : Text.trimStart line = '#' :: r) (ho : Whole o)
    (ha : readsAsEntries o = true) (hs : (readAll? (unmarked (o ++ (line ++ rest)))).isSome = true) :
    ∃ c l, (∀ x, (line = m → x = []) → readAll? (line ++ x) = (readAll? x).map (allBehind c)) ∧
      c = line.filter (· ≠ '\r') ∧ Toml.comments c = [l] ∧ (line = m ∨ IsTrivia false c ∧ Lined c) := by
  obtain ⟨reads, c, l, hreads, hcomments⟩ := readAll?_example hm (hl.imp_right And.left) hr
  obtain rfl : reads = true := by
    obtain ⟨⟨above, t⟩, habove, -⟩ := (Option.any_eq_true _ _).1 ha
    rw [readAll?_unmarked_append habove ho (head_of_example hr rest), Option.isSome_map,
      hreads rest (by rintro rfl; exact (hl.resolve_left (by simp)).2)] at hs
    by_contra h
    rw [if_neg h] at hs
    cases hs
  exact ⟨c, l, hreads, hcomments rfl⟩

theorem Turned.turn {m rest : List Char} (ht : Turned xs o f) (hk : IsBare key) (ha : readsAsEntries o = true)
    (hexample : isExampleOf (Text.trimStart line) key = true) (hm : '\n' ∉ m)
    (hl : line = m ++ ['\n'] ∨ line = m ∧ rest = [])
    (hs : (readAll? (unmarked (o ++ (line ++ rest)))).isSome = true) :
    ∃ above, ∀ x, (line = m → x = []) →
      Keeps (xs ++ [⟨key, above, line.filter (· ≠ '\r')⟩]) (o ++ line) (f ++ (key ++ " = []\n".toList)) x := by
  obtain ⟨r, hr⟩ := isExampleOf_head hexample
  obtain ⟨c, l, hreads, rfl, hc, hopen⟩ := exists_comment_of_example hm hl hr ht.above ha hs
  obtain ⟨above, turned⟩ := (ht.keeps []).turn ht.above ht.written ha hk hc line
  exact ⟨above, fun x hx => turned x (head_of_example hr x) (hreads x hx) (hopen.imp_left hx)⟩

/-- The text that reads as `p` has been written again as `w`, with lists more for the examples `turned` behind `xs`. -/
def Written (xs : List Example) (turned : List (List Char × List Char)) (p : List Statement × List Char)
    (w : List Char) : Prop :=
  ∃ ys, ys.map (fun y => (y.key, y.line)) = turned.map (fun l => (l.1, l.2.filter (· ≠ '\r'))) ∧
    ∃ p', readAll? (unmarked w) = some p' ∧ Fills (xs ++ ys) p p' ∧
      (commentsOf p).Perm (commentsOf p' ++ (xs ++ ys).flatMap fun x => Toml.comments x.line)

theorem fillExamplesIn_turned (ht : Turned xs o f) (hk : ∀ key ∈ keys, IsBare key)
    (ha : examplesApart keys o (Text.pieces s) = true) {p : List Statement × List Char}
    (hs : readAll? (unmarked (o ++ s)) = some p) :
    Written xs (examplesIn keys (Text.pieces s)) p (f ++ (fillExamplesIn keys (Text.pieces s)).flatten) := by
  -- on the lines that are left; `o` is what stands above them, and `f` what the pass has made of it
  induction hlen : s.length using Nat.strongRecOn generalizing s o f keys xs with
  | ind n ih =>
    have stop (h : fillExamplesIn keys (Text.pieces s) = Text.pieces s) (hnone : examplesIn keys (Text.pieces s) = []) :
        Written xs (examplesIn keys (Text.pieces s)) p (f ++ (fillExamplesIn keys (Text.pieces s)).flatten) := by
      rw [h, hnone, Text.flatten_pieces]
      exact ⟨[], rfl, by rw [List.append_nil]; exact ht.keeps s p hs⟩
    by_cases hnil : s = []
    · subst hnil
      exact stop rfl rfl
    · obtain ⟨line, rest, rfl, hp, m, hm, hl⟩ := Text.pieces_first hnil
      have hshort : rest.length < n := by
        rw [← hlen, List.length_append]
        have hpos : 0 < line.length := by
          rcases hl with rfl | ⟨rfl, rfl⟩
          · simp
          · rwa [List.append_nil, ← ne_eq, ← List.length_pos_iff] at hnil
        omega
      rw [hp, examplesApart] at ha
      rw [hp, fillExamplesIn, examplesIn] at stop ⊢
      by_cases hopen : (Text.trimStart line).head? = some '['
      · rw [if_pos hopen, if_pos hopen] at stop ⊢
        exact stop rfl rfl
      rw [if_neg hopen] at ha
      rw [if_neg hopen, if_neg hopen] at stop ⊢
      cases hfind : keys.find? (isExampleOf (Text.trimStart line)) with
      | none =>
        rw [hfind] at ha stop
        dsimp only at ha stop ⊢
        rcases hl with rfl | ⟨rfl, rfl⟩
        · rw [List.flatten_cons, ← List.append_assoc f]
          rw [← List.append_assoc] at hs
          exact ih _ hshort (ht.pass m) hk ha hs rfl
        · exact stop rfl rfl
      | some key =>
        rw [hfind] at ha
        dsimp only at ha ⊢
        rw [Bool.and_eq_true] at ha
        have hbare := hk key (List.mem_of_find?_eq_some hfind)
        obtain ⟨above, turned⟩ := ht.turn hbare ha.1 (List.find?_some hfind) hm hl (Option.isSome_of_mem hs)
        rw [List.flatten_cons, ← List.append_assoc f]
        rcases hl with rfl | ⟨rfl, rfl⟩
        · rw [← List.append_assoc] at hs
          obtain ⟨ys, hys, hwritten⟩ := ih _ hshort
            ⟨.inr (lined_append o (lined_append m (show Lined ['\n'] from rfl))),
              .inr (lined_append f (lined_append key (show Lined " = []\n".toList from rfl))),
              fun x => turned x (by simp)⟩
            (fun k h => hk k (List.mem_of_mem_erase h)) ha.2 hs rfl
          refine ⟨⟨key, above, _⟩ :: ys, by rw [List.map_cons, List.map_cons, hys], ?_⟩
          rwa [List.append_assoc xs, List.singleton_append] at hwritten
        · refine ⟨[⟨key, above, _⟩], rfl, turned [] (fun _ => rfl) p ?_⟩
          rwa [List.append_assoc]

/-- The pass adds lists to the lines of a text, and takes nothing away but the examples that they stand for. -/
theorem fillExamples_fills (hk : ∀ key ∈ keys, IsBare key) (ha : examplesApart keys [] (Text.pieces s) = true)
    {p : List Statement × List Char} (hs : readAll? (unmarked s) = some p) :
    ∃ xs, xs.map (fun x => (x.key, x.line)) =
        (examplesIn keys (Text.pieces s)).map (fun l => (l.1, l.2.filter (· ≠ '\r'))) ∧
      ∃ p', readAll? (unmarked (fillExamples s keys)) = some p' ∧ Fills xs p p' ∧
        (commentsOf p).Perm (commentsOf p' ++ xs.flatMap fun x => Toml.comments x.line) := by
  have keep (x : List Char) : Keeps [] [] [] x := fun p h => ⟨p, h, .rest p, by simp⟩
  exact fillExamplesIn_turned ⟨.inl rfl, .inl rfl, keep⟩ hk ha hs

theorem examples_keys {turned : List (List Char × List Char)}
    (h : xs.map (fun x => (x.key, x.line)) = turned.map (fun l => (l.1, l.2.filter (· ≠ '\r')))) :
    xs.map Example.key = turned.map Prod.fst := by
  have hkeys := congrArg (List.map Prod.fst) h
  rwa [List.map_map, List.map_map] at hkeys

end Filling

end CBuild
