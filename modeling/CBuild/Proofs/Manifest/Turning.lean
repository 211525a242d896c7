import CBuild.Proofs.Manifest.Examples
import CBuild.Proofs.Toml.Continuing

/-! The pass over the examples, told line by line. A key takes the first line that suggests it, if that stands above all
tables, whatever the other keys are; every line that no key takes stays. -/

namespace CBuild

open Toml Statement

variable {key other line s r : List Char} {keys lines : List (List Char)} {i j : Nat} {c : Char}

section Suggesting

/-- The line is a number sign, the key and an equals sign, with white space before each of them or none, and then
anything. -/
def Suggests (key line : List Char) : Prop :=
  ∃ a b d rest, (∀ x ∈ a ++ b ++ d, Text.isBlank x = true) ∧
    line = a ++ '#' :: (b ++ (key ++ (d ++ '=' :: rest)))

def OpensTable (line : List Char) : Prop :=
  ∃ a rest, (∀ x ∈ a, Text.isBlank x = true) ∧ line = a ++ '[' :: rest

theorem Text.trimStart_append {a : List Char} (ha : ∀ x ∈ a, isBlank x = true) (hc : isBlank c = false) :
    trimStart (a ++ c :: r) = c :: r := by
  rw [trimStart, List.dropWhile_append_of_pos ha, List.dropWhile_cons_of_neg (by simp [hc])]

theorem Text.exists_of_trimStart (h : trimStart s = r) : ∃ a, (∀ x ∈ a, isBlank x = true) ∧ s = a ++ r := by
  refine ⟨s.takeWhile isBlank, fun x hx => List.mem_takeWhile_imp hx, ?_⟩
  rw [← h, trimStart, List.takeWhile_append_dropWhile]

theorem opensTable_iff : OpensTable line ↔ (Text.trimStart line).head? = some '[' := by
  constructor
  · rintro ⟨a, rest, ha, rfl⟩
    rw [Text.trimStart_append ha (by decide), List.head?_cons]
  · intro h
    obtain ⟨rest, hrest⟩ := List.head?_eq_some_iff.1 h
    obtain ⟨a, ha, rfl⟩ := Text.exists_of_trimStart hrest
    exact ⟨a, rest, ha, rfl⟩

theorem Suggests.exists_behind (hk : IsBare key) (h : Suggests key line) :
    ∃ u rest, Text.trimStart line = '#' :: u ∧ Text.trimStart u = key ++ rest ∧
      (Text.trimStart rest).head? = some '=' ∧ ∀ x, rest.head? = some x → isBareKeyChar x = false := by
  obtain ⟨a, b, d, rest, hblank, rfl⟩ := h
  simp only [List.forall_mem_append] at hblank
  obtain ⟨⟨ha, hb⟩, hd⟩ := hblank
  obtain ⟨c, key, rfl⟩ := List.exists_cons_of_ne_nil hk.1
  have hc : Text.isBlank c = false := by
    rw [Bool.eq_false_iff]
    intro hblank
    have hbare := hk.2 c List.mem_cons_self
    rw [not_isBareKeyChar_of_isBlank hblank] at hbare
    cases hbare
  refine ⟨_, d ++ '=' :: rest, Text.trimStart_append ha (by decide), Text.trimStart_append hb hc, ?_, ?_⟩
  · rw [Text.trimStart_append hd (by decide), List.head?_cons]
  · intro x hx
    cases d with
    | nil =>
      cases hx
      decide
    | cons y d =>
      cases hx
      exact not_isBareKeyChar_of_isBlank (hd _ List.mem_cons_self)

theorem suggests_iff (hk : IsBare key) : Suggests key line ↔ isExampleOf (Text.trimStart line) key = true := by
  constructor
  · intro h
    obtain ⟨u, rest, hline, hu, hrest, -⟩ := h.exists_behind hk
    rw [hline, isExampleOf, hu, after?_append, Option.any_some, decide_eq_true_eq]
    exact hrest
  · intro h
    unfold isExampleOf at h
    split at h
    next u hline =>
      rw [Option.any_eq_true] at h
      obtain ⟨rest, hafter, hequals⟩ := h
      obtain ⟨t, ht⟩ := List.head?_eq_some_iff.1 (of_decide_eq_true hequals)
      obtain ⟨a, ha, rfl⟩ := Text.exists_of_trimStart hline
      obtain ⟨b, hb, rfl⟩ := Text.exists_of_trimStart (eq_of_after? hafter)
      obtain ⟨d, hd, rfl⟩ := Text.exists_of_trimStart ht
      refine ⟨a, b, d, t, ?_, rfl⟩
      simp only [List.forall_mem_append]
      exact ⟨⟨ha, hb⟩, hd⟩
    next => cases h

/-- No line suggests two keys, so that a key never takes the line of one that it starts. -/
theorem Suggests.unique (hk : IsBare key) (ho : IsBare other) (h : Suggests key line) (h' : Suggests other line) :
    key = other := by
  have reads {k rest : List Char} (hk : IsBare k) (hrest : ∀ x, rest.head? = some x → isBareKeyChar x = false) :
      (k ++ rest).takeWhile isBareKeyChar = k :=
    takeWhile_append_stop hk.2 hrest
  obtain ⟨u, rest, hline, hu, -, hstop⟩ := h.exists_behind hk
  obtain ⟨u', rest', hline', hu', -, hstop'⟩ := h'.exists_behind ho
  have hsame : u = u' := (List.cons.inj (hline.symm.trans hline')).2
  rw [← reads hk hstop, ← reads ho hstop', ← hu, ← hu', hsame]

theorem Suggests.not_opensTable (h : Suggests key line) : ¬OpensTable line := by
  obtain ⟨a, b, d, rest, hblank, rfl⟩ := h
  simp only [List.forall_mem_append] at hblank
  rw [opensTable_iff, Text.trimStart_append hblank.1.1 (by decide), List.head?_cons]
  decide

end Suggesting

section Taking

/-- The line at a place is the first that suggests the key, and none above it opens a table. -/
structure Takes (key : List Char) (lines : List (List Char)) (i : Nat) : Prop where
  suggested : ∃ line, lines[i]? = some line ∧ Suggests key line
  above : ∀ line ∈ lines.take i, ¬OpensTable line
  first : ∀ line ∈ lines.take i, ¬Suggests key line

theorem takes_zero : Takes key (line :: lines) 0 ↔ Suggests key line := by
  constructor
  · rintro ⟨⟨l, hl, hs⟩, -, -⟩
    cases hl
    exact hs
  · exact fun h => ⟨⟨line, rfl, h⟩, by simp, by simp⟩

theorem takes_succ : Takes key (line :: lines) (i + 1) ↔
    ¬OpensTable line ∧ ¬Suggests key line ∧ Takes key lines i := by
  constructor
  · rintro ⟨hs, habove, hfirst⟩
    rw [List.take_succ_cons, List.forall_mem_cons] at habove hfirst
    exact ⟨habove.1, hfirst.1, hs, habove.2, hfirst.2⟩
  · rintro ⟨ho, hn, hs, habove, hfirst⟩
    refine ⟨hs, ?_, ?_⟩
    · rw [List.take_succ_cons, List.forall_mem_cons]
      exact ⟨ho, habove⟩
    · rw [List.take_succ_cons, List.forall_mem_cons]
      exact ⟨hn, hfirst⟩

theorem Takes.unique (h : Takes key lines i) (h' : Takes key lines j) : i = j := by
  have notBelow {i j : Nat} (h : Takes key lines i) (h' : Takes key lines j) : ¬i < j := by
    intro hlt
    obtain ⟨line, hline, hs⟩ := h.suggested
    exact h'.first line (List.mem_of_getElem? ((List.getElem?_take_of_lt hlt).trans hline)) hs
  exact Nat.le_antisymm (Nat.le_of_not_lt (notBelow h' h)) (Nat.le_of_not_lt (notBelow h h'))

theorem not_takes_nil : ¬Takes key [] i := by
  rintro ⟨⟨line, hline, -⟩, -, -⟩
  cases hline

theorem not_takes_of_opensTable (h : OpensTable line) : ¬Takes key (line :: lines) i := by
  intro ht
  cases i with
  | zero => exact (takes_zero.1 ht).not_opensTable h
  | succ i => exact (takes_succ.1 ht).1 h

theorem mem_examplesIn (hk : ∀ key ∈ keys, IsBare key) (hn : keys.Nodup) :
    (key, s) ∈ examplesIn keys lines ↔ key ∈ keys ∧ ∃ i, Takes key lines i ∧ lines[i]? = some s := by
  induction lines generalizing keys with
  | nil => simp [examplesIn, not_takes_nil]
  | cons line lines ih =>
    rw [examplesIn]
    split
    next hopen => simp [not_takes_of_opensTable (opensTable_iff.2 hopen)]
    next hopen =>
      rw [← opensTable_iff] at hopen
      split
      next first hfind =>
        have hm : first ∈ keys := List.mem_of_find?_eq_some hfind
        have hs : Suggests first line := (suggests_iff (hk first hm)).2 (List.find?_some hfind)
        rw [List.mem_cons, ih (fun other ho => hk other (List.mem_of_mem_erase ho)) (hn.erase first), Prod.mk.injEq]
        constructor
        · rintro (⟨rfl, rfl⟩ | ⟨hkey, i, ht, hline⟩)
          · exact ⟨hm, 0, takes_zero.2 hs, rfl⟩
          · obtain ⟨hne, hkey⟩ := hn.mem_erase_iff.1 hkey
            refine ⟨hkey, i + 1, takes_succ.2 ⟨hopen, fun hother => hne ?_, ht⟩, hline⟩
            exact hother.unique (hk key hkey) (hk first hm) hs
        · rintro ⟨hkey, i, ht, hline⟩
          cases i with
          | zero =>
            cases hline
            exact .inl ⟨(takes_zero.1 ht).unique (hk key hkey) (hk first hm) hs, rfl⟩
          | succ i =>
            obtain ⟨-, hother, ht⟩ := takes_succ.1 ht
            refine .inr ⟨hn.mem_erase_iff.2 ⟨fun he => hother (he ▸ hs), hkey⟩, i, ht, hline⟩
      next hfind =>
        rw [ih hk hn]
        have hnone (hkey : key ∈ keys) : ¬Suggests key line := fun hs =>
          List.find?_eq_none.1 hfind key hkey ((suggests_iff (hk key hkey)).1 hs)
        constructor
        · rintro ⟨hkey, i, ht, hline⟩
          exact ⟨hkey, i + 1, takes_succ.2 ⟨hopen, hnone hkey, ht⟩, hline⟩
        · rintro ⟨hkey, i, ht, hline⟩
          cases i with
          | zero => exact absurd (takes_zero.1 ht) (hnone hkey)
          | succ i => exact ⟨hkey, i, (takes_succ.1 ht).2.2, hline⟩

/-- The examples are the lines that the keys take, one for each key that takes a line. -/
structure AreTaken (keys lines : List (List Char)) (xs : List Example) : Prop where
  nodup : (xs.map Example.key).Nodup
  key_iff : ∀ key, key ∈ xs.map Example.key ↔ key ∈ keys ∧ ∃ i, Takes key lines i
  line : ∀ x ∈ xs, ∃ i l, Takes x.key lines i ∧ lines[i]? = some l ∧ x.line = l.filter (· ≠ '\r')

theorem areTaken_of_examplesIn {xs : List Example} (hk : ∀ key ∈ keys, IsBare key) (hn : keys.Nodup)
    (h : xs.map (fun x => (x.key, x.line)) =
      (examplesIn keys lines).map (fun l => (l.1, l.2.filter (· ≠ '\r')))) : AreTaken keys lines xs := by
  have hkeys := examples_keys h
  refine ⟨hkeys ▸ (nodup_examplesIn hn lines).1, fun key => ?_, fun x hx => ?_⟩
  · rw [hkeys, List.mem_map]
    constructor
    · rintro ⟨⟨_, l⟩, hl, rfl⟩
      obtain ⟨hkey, i, ht, -⟩ := (mem_examplesIn hk hn).1 hl
      exact ⟨hkey, i, ht⟩
    · rintro ⟨hkey, i, ht⟩
      obtain ⟨l, hl, -⟩ := ht.suggested
      exact ⟨(key, l), (mem_examplesIn hk hn).2 ⟨hkey, i, ht, hl⟩, rfl⟩
  · have hmem := List.mem_map_of_mem (f := fun x => (x.key, x.line)) hx
    rw [h] at hmem
    obtain ⟨⟨key, l⟩, hl, he⟩ := List.mem_map.1 hmem
    obtain ⟨rfl, hline⟩ := Prod.mk.inj he
    obtain ⟨-, i, ht, hl⟩ := (mem_examplesIn hk hn).1 hl
    exact ⟨i, l, ht, hl, hline.symm⟩

/-- The lines of a text when each of the keys has taken its line. -/
structure Turns (keys lines turned : List (List Char)) : Prop where
  length_eq : turned.length = lines.length
  taken : ∀ key ∈ keys, ∀ i, Takes key lines i → turned[i]? = some (key ++ " = []\n".toList)
  left : ∀ i, (∀ key ∈ keys, ¬Takes key lines i) → turned[i]? = lines[i]?

theorem Turns.of_opensTable (h : OpensTable line) (keys lines : List (List Char)) :
    Turns keys (line :: lines) (line :: lines) where
  length_eq := rfl
  taken _ _ _ ht := absurd ht (not_takes_of_opensTable h)
  left _ _ := rfl

theorem Turns.cons_taken {turned : List (List Char)} (hk : ∀ key ∈ keys, IsBare key) (hn : keys.Nodup)
    (hm : key ∈ keys) (hs : Suggests key line) (h : Turns (keys.erase key) lines turned) :
    Turns keys (line :: lines) ((key ++ " = []\n".toList) :: turned) where
  length_eq := congrArg Nat.succ h.length_eq
  taken other ho i ht := by
    cases i with
    | zero =>
      rw [hs.unique (hk key hm) (hk other ho) (takes_zero.1 ht)]
      rfl
    | succ i =>
      obtain ⟨-, hother, hrest⟩ := takes_succ.1 ht
      have hne : other ≠ key := fun he => hother (he ▸ hs)
      exact h.taken other ((List.mem_erase_of_ne hne).2 ho) i hrest
  left i hnone := by
    cases i with
    | zero => exact absurd (takes_zero.2 hs) (hnone key hm)
    | succ i =>
      refine h.left i fun other ho ht => hnone other (List.mem_of_mem_erase ho) ?_
      refine takes_succ.2 ⟨hs.not_opensTable, fun hother => ?_, ht⟩
      have hne := (hn.mem_erase_iff.1 ho).1
      exact hne (hother.unique (hk other (List.mem_of_mem_erase ho)) (hk key hm) hs)

theorem Turns.cons_left {turned : List (List Char)} (hopen : ¬OpensTable line)
    (hs : ∀ key ∈ keys, ¬Suggests key line) (h : Turns keys lines turned) :
    Turns keys (line :: lines) (line :: turned) where
  length_eq := congrArg Nat.succ h.length_eq
  taken key hk i ht := by
    cases i with
    | zero => exact absurd (takes_zero.1 ht) (hs key hk)
    | succ i => exact h.taken key hk i (takes_succ.1 ht).2.2
  left i hnone := by
    cases i with
    | zero => rfl
    | succ i => exact h.left i fun key hk ht => hnone key hk (takes_succ.2 ⟨hopen, hs key hk, ht⟩)

theorem turns_fillExamplesIn (hk : ∀ key ∈ keys, IsBare key) (hn : keys.Nodup) (lines : List (List Char)) :
    Turns keys lines (fillExamplesIn keys lines) := by
  induction lines generalizing keys with
  | nil => exact ⟨rfl, fun _ _ _ ht => by simpa using ht.suggested, fun _ _ => rfl⟩
  | cons line lines ih =>
    rw [fillExamplesIn]
    split
    next hopen => exact .of_opensTable (opensTable_iff.2 hopen) keys lines
    next hopen =>
      rw [← opensTable_iff] at hopen
      split
      next key hfind =>
        have hm : key ∈ keys := List.mem_of_find?_eq_some hfind
        have hs : Suggests key line := (suggests_iff (hk key hm)).2 (List.find?_some hfind)
        exact .cons_taken hk hn hm hs (ih (fun other ho => hk other (List.mem_of_mem_erase ho)) (hn.erase key))
      next hfind =>
        refine .cons_left hopen (fun key hm hs => ?_) (ih hk hn)
        exact List.find?_eq_none.1 hfind key hm ((suggests_iff (hk key hm)).1 hs)

theorem Turns.eq {turned turned' : List (List Char)} (h : Turns keys lines turned) (h' : Turns keys lines turned') :
    turned = turned' := by
  refine List.ext_getElem? fun i => ?_
  by_cases htaken : ∃ key ∈ keys, Takes key lines i
  · obtain ⟨key, hk, ht⟩ := htaken
    rw [h.taken key hk i ht, h'.taken key hk i ht]
  · have hnone : ∀ key ∈ keys, ¬Takes key lines i := fun key hk ht => htaken ⟨key, hk, ht⟩
    rw [h.left i hnone, h'.left i hnone]

theorem Turns.of_erase {turned : List (List Char)} (hnone : ∀ i, ¬Takes key lines i)
    (h : Turns (keys.erase key) lines turned) : Turns keys lines turned where
  length_eq := h.length_eq
  taken other ho i ht := by
    have hne : other ≠ key := fun he => hnone i (he ▸ ht)
    exact h.taken other ((List.mem_erase_of_ne hne).2 ho) i ht
  left i hleft := h.left i fun other ho => hleft other (List.mem_of_mem_erase ho)

/-- The pass over the examples changes no more than one line for each key: the first that suggests the key, if no line
above it opens a table, becomes an empty list, and no key that is no more than the start of another takes its line. A
key that has no such line might as well not be there, and the other lines stay where and as they are. -/
theorem fillExamples_turns (hk : ∀ key ∈ keys, IsBare key) (hn : keys.Nodup) (text : List Char) :
    (∃ turned, fillExamples text keys = turned.flatten ∧ Turns keys (Text.pieces text) turned) ∧
      (Text.pieces text).flatten = text ∧
      (∀ key ∈ keys, ∀ i, Takes key (Text.pieces text) i →
        (∀ j, Takes key (Text.pieces text) j → j = i) ∧
        ∀ other line, IsBare other → (Text.pieces text)[i]? = some line → Suggests other line → other = key) ∧
      ∀ key ∈ keys, (∀ i, ¬Takes key (Text.pieces text) i) →
        fillExamples text (keys.erase key) = fillExamples text keys := by
  have hturns := turns_fillExamplesIn hk hn (Text.pieces text)
  refine ⟨⟨_, rfl, hturns⟩, Text.flatten_pieces text, fun key hm i ht => ⟨?_, ?_⟩, fun key hm hnone => ?_⟩
  · exact fun j hj => hj.unique ht
  · intro other line ho hline hs
    obtain ⟨l, hl, hkey⟩ := ht.suggested
    rw [hline] at hl
    cases hl
    exact hs.unique ho (hk key hm) hkey
  · have hbare : ∀ other ∈ keys.erase key, IsBare other := fun other ho => hk other (List.mem_of_mem_erase ho)
    have hrest := turns_fillExamplesIn hbare (hn.erase key) (Text.pieces text)
    exact congrArg List.flatten ((hrest.of_erase hnone).eq hturns)

theorem fillExamples_turns_started :
    (∀ key ∈ ["lib".toList, "libs".toList], IsBare key) ∧ ["lib".toList, "libs".toList].Nodup ∧
      ∃ turned : List (List Char),
        fillExamples "# libs = 1\r\n #lib=\n[x]\n# lib = 2".toList ["lib".toList, "libs".toList] = turned.flatten ∧
        turned.length = 4 ∧ turned[0]? = some "libs = []\n".toList ∧
        turned[1]? = some "lib = []\n".toList ∧ turned[3]? = some "# lib = 2".toList := by
  have hbare : ∀ key ∈ ["lib".toList, "libs".toList], IsBare key := by
    simp only [List.forall_mem_cons, List.not_mem_nil, false_imp_iff, implies_true, and_true]
    exact ⟨⟨by decide, List.all_eq_true.1 (by decide)⟩, by decide, List.all_eq_true.1 (by decide)⟩
  have hnodup : ["lib".toList, "libs".toList].Nodup := by decide
  refine ⟨hbare, hnodup, ?_⟩
  obtain ⟨⟨turned, htext, hlength, htaken, hleft⟩, -⟩ :=
    fillExamples_turns hbare hnodup "# libs = 1\r\n #lib=\n[x]\n# lib = 2".toList
  have hpieces : Text.pieces "# libs = 1\r\n #lib=\n[x]\n# lib = 2".toList =
      ["# libs = 1\r\n".toList, " #lib=\n".toList, "[x]\n".toList, "# lib = 2".toList] := by decide
  rw [hpieces] at hlength htaken hleft
  have hlibs : Suggests "libs".toList "# libs = 1\r\n".toList := (suggests_iff (hbare _ (by decide))).2 (by decide)
  have hlib : Suggests "lib".toList " #lib=\n".toList := (suggests_iff (hbare _ (by decide))).2 (by decide)
  have hother : ¬Suggests "lib".toList "# libs = 1\r\n".toList := fun h =>
    absurd (h.unique (hbare "lib".toList (by decide)) (hbare "libs".toList (by decide)) hlibs) (by decide)
  refine ⟨turned, htext, hlength, htaken "libs".toList (by decide) 0 (takes_zero.2 hlibs),
    htaken "lib".toList (by decide) 1 ?_, hleft 3 ?_⟩
  · exact takes_succ.2 ⟨hlibs.not_opensTable, hother, takes_zero.2 hlib⟩
  · intro key _ ht
    exact ht.above "[x]\n".toList (by decide) (opensTable_iff.2 (by decide))

end Taking

end CBuild
