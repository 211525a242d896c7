import CBuild.Proofs.Manifest.Passing
import CBuild.Proofs.Manifest.Slots
import CBuild.Proofs.Toml.Refitting

/-! The template with something else in its slots. It reads as before if each slot has a line about its key only,
and the pass over the examples changes nothing but the slots. -/

namespace CBuild.Manifest

open Toml (Data Line Value Children Document)

section Frames

/-- What may stand in the slots: a line that reads, and says something of its key only. -/
structure Fits (line : String → String → List String → Line) (m : Manifest) : Prop where
  legible : ∀ s ∈ slots, (line s.key s.example_ (m.listAt s.key)).Legible
  names : ∀ s ∈ slots, List.Sublist ((Line.assigned [line s.key s.example_ (m.listAt s.key)]).map Prod.fst)
    [s.key.toList]

variable {line : String → String → List String → Line} {m : Manifest} {l : Line}

theorem mem_slotLines {ss : List Slot} : l ∈ slotLines line m ss ↔
    ∃ s ∈ ss, l = .note s.comment.toList ∨ l = line s.key s.example_ (m.listAt s.key) := by
  simp [slotLines]

theorem Fits.legible_topLinesOf (h : Fits line m) : ∀ l ∈ topLinesOf line m, l.Legible := by
  have htemplate := legible_topLines m
  rw [← topLinesOf_listLine, topLinesOf] at htemplate
  intro l hl
  rw [topLinesOf, List.mem_append, List.mem_append] at hl
  rcases hl with (hl | hl) | hl
  · exact htemplate l (by simp [hl])
  · obtain ⟨s, hs, rfl | rfl⟩ := mem_slotLines.1 hl
    · have hmem : Line.note s.comment.toList ∈ slotLines listLine m slots := mem_slotLines.2 ⟨s, hs, .inl rfl⟩
      exact htemplate _ (by simp [hmem])
    · exact h.legible s hs
  · exact htemplate l (by simp [hl])

theorem assigned_slotLines (line : String → String → List String → Line) (m : Manifest) (ss : List Slot) :
    Line.assigned (slotLines line m ss) =
      ss.flatMap fun s => Line.assigned [line s.key s.example_ (m.listAt s.key)] := by
  induction ss with
  | nil => rfl
  | cons s ss ih =>
    rw [slotLines_cons, Line.assigned, ← List.singleton_append, Line.assigned_append, ih, List.flatMap_cons]

theorem assigned_topLinesOf (line : String → String → List String → Line) (m : Manifest) :
    Line.assigned (topLinesOf line m) =
      [("compiler".toList, .text m.compiler), ("name".toList, .text m.name), ("output".toList, .text m.output)] ++
        slots.flatMap fun s => Line.assigned [line s.key s.example_ (m.listAt s.key)] := by
  rw [topLinesOf, Line.assigned_append, Line.assigned_append, assigned_slotLines]
  exact List.append_nil _

theorem Fits.names_topLinesOf (h : Fits line m) :
    List.Sublist ((Line.assigned (topLinesOf line m)).map Prod.fst)
      (["compiler", "name", "output"].map String.toList ++ slots.map fun s => s.key.toList) := by
  have slotNames (ss : List Slot) (hs : ∀ s ∈ ss, s ∈ slots) : List.Sublist
      ((ss.flatMap fun s => Line.assigned [line s.key s.example_ (m.listAt s.key)]).map Prod.fst)
      (ss.map fun s => s.key.toList) := by
    induction ss with
    | nil => exact List.Sublist.refl _
    | cons s ss ih =>
      rw [List.flatMap_cons, List.map_append, List.map_cons, ← List.singleton_append]
      exact (h.names s (hs s List.mem_cons_self)).append (ih fun t ht => hs t (List.mem_cons_of_mem _ ht))
  rw [assigned_topLinesOf, List.map_append]
  exact (List.Sublist.refl _).append (slotNames slots fun _ hs => hs)

theorem nodup_names : (["compiler", "name", "output"].map String.toList ++ slots.map fun s => s.key.toList).Nodup ∧
    "shell".toList ∉ ["compiler", "name", "output"].map String.toList ++ slots.map fun s => s.key.toList := by
  decide

theorem nodup_hooks (h : ShellHooks) : ((Line.assigned (hookLines h)).map Prod.fst).Nodup := by
  have names : (["before", "after", "misc"].map String.toList).Nodup := by decide
  exact names.sublist (names_hookLines h)

def hooksChild (line : String → String → List String → Line) (m : Manifest) : Children :=
  [(⟨"shell".toList, "shell".toList, ([], []), some ([], [])⟩,
    .table (.headed ⟨1, Line.left [] (topLinesOf line m), []⟩) (Line.children [] (hookLines m.shell)))]

def documentOf (line : String → String → List String → Line) (m : Manifest) : Document :=
  ⟨Line.children [] (topLinesOf line m) ++ hooksChild line m, Line.left [] (hookLines m.shell)⟩

def documentText (line : String → String → List String → Line) (m : Manifest) : List Char :=
  (topLinesOf line m).flatMap Line.text ++
    (Line.headerText "shell".toList ++ (hookLines m.shell).flatMap Line.text)

theorem text_documentOf (line : String → String → List String → Line) (m : Manifest) :
    (documentOf line m).text = documentText line m :=
  Document.text_lines _ _ _

theorem Fits.parse?_documentText (h : Fits line m) :
    Document.parse? (documentText line m) = some (documentOf line m) :=
  Document.parse?_lines h.legible_topLinesOf (legible_hookLines m.shell)
    ⟨by decide, List.all_eq_true.1 (by decide)⟩ (fun hm => nodup_names.2 (h.names_topLinesOf.subset hm))
    (nodup_names.1.sublist h.names_topLinesOf) (nodup_hooks m.shell)

theorem Fits.read?_documentText (h : Fits line m) : Toml.read? (documentText line m) =
    some (.table (Line.named (Line.assigned (topLinesOf line m)) ++
      [("shell", .table (Line.named (Line.assigned (hookLines m.shell))))])) := by
  have hread := Toml.read?_lines h.legible_topLinesOf (legible_hookLines m.shell)
    ⟨by decide, List.all_eq_true.1 (by decide)⟩ (fun hm => nodup_names.2 (h.names_topLinesOf.subset hm))
    (nodup_names.1.sublist h.names_topLinesOf) (nodup_hooks m.shell)
  rwa [String.ofList_toList] at hread

end Frames

section Filling

variable {keys : List (List Char)} {m : Manifest}

def arrayLine (key : String) (values : List (List Char)) : Line :=
  .assignment key.toList (Toml.arrayValue values) []

def filledLine (keys : List (List Char)) (key example_ : String) (vs : List String) : Line :=
  if vs = [] ∧ key.toList ∈ keys then arrayLine key [] else listLine key example_ vs

def listKeys : List (List Char) :=
  slots.map fun s => s.key.toList

namespace Slot

def exampleLine (s : Slot) : List Char :=
  (listText s.key s.example_ []).toList.dropLast

/-- The pass goes by the comment and by the list, and takes the example for one of this key only. -/
structure Sound (keys : List (List Char)) (s : Slot) : Prop where
  comment : Passes keys s.comment.toList
  opening : Passes keys (s.key.toList ++ " = [".toList ++ ['\n'])
  example_text : (listText s.key s.example_ []).toList = s.exampleLine ++ ['\n']
  example_line : '\n' ∉ s.exampleLine
  example_head : (Text.trimStart (s.exampleLine ++ ['\n'])).head? ≠ some '['
  example_key : ∀ key ∈ keys, isExampleOf (Text.trimStart (s.exampleLine ++ ['\n'])) key =
    decide (key = s.key.toList)

theorem sound (hk : ∀ key ∈ keys, key ∈ listKeys) : ∀ s ∈ slots, s.Sound keys := by
  have checked : ∀ s ∈ slots,
      (Toml.Lined s.comment.toList ∧ (Text.pieces s.comment.toList).all (isPassed listKeys)) ∧
      ('\n' ∉ s.key.toList ++ " = [".toList ∧ isPassed listKeys (s.key.toList ++ " = [".toList ++ ['\n'])) ∧
      (listText s.key s.example_ []).toList = s.exampleLine ++ ['\n'] ∧ '\n' ∉ s.exampleLine ∧
      (Text.trimStart (s.exampleLine ++ ['\n'])).head? ≠ some '[' ∧
      ∀ key ∈ listKeys, isExampleOf (Text.trimStart (s.exampleLine ++ ['\n'])) key =
        decide (key = s.key.toList) := by
    unfold Toml.Lined
    decide +kernel
  intro s hs
  obtain ⟨⟨hlined, hcomment⟩, ⟨hnewline, hopening⟩, htext, hline, hhead, hkey⟩ := checked s hs
  have hpieces : (Text.pieces s.comment.toList).all (isPassed keys) = true :=
    List.all_eq_true.2 fun p hp => isPassed_mono hk (List.all_eq_true.1 hcomment p hp)
  exact ⟨passes_of_pieces (.inr hlined) hpieces, passes_line hnewline (isPassed_mono hk hopening), htext, hline,
    hhead, fun key h => hkey key (hk key h)⟩

end Slot

theorem passes_items {vs : List (List Char)} (h : ∀ v ∈ vs, '\n' ∉ v) :
    Passes keys (vs.flatMap fun v => "    ".toList ++ Toml.quote v ++ [','] ++ ['\n']) := by
  induction vs with
  | nil => exact passes_nil
  | cons v vs ih =>
    rw [List.forall_mem_cons] at h
    rw [List.flatMap_cons]
    refine Passes.append ?_ (ih h.2)
    obtain ⟨c, r, hq, hc⟩ := Toml.quote_head v
    refine passes_line ?_ (isPassed_of_head (c := c) (t := r ++ [','] ++ ['\n']) ?_ ?_ ?_)
    · simp [newline_not_mem_quote h.1]
    · rw [hq]
      rcases hc with rfl | rfl <;> rfl
    · rcases hc with rfl | rfl <;> decide
    · rcases hc with rfl | rfl <;> decide

theorem text_listLine {key example_ : String} {vs : List String} (h : vs ≠ []) :
    (listLine key example_ vs).text = (key.toList ++ " = [".toList ++ ['\n']) ++
      ((vs.map String.toList).flatMap (fun v => "    ".toList ++ Toml.quote v ++ [','] ++ ['\n']) ++
        ("]".toList ++ ['\n'])) := by
  have hitems (vs : List (List Char)) : Toml.itemLines vs ++ ['\n'] =
      '\n' :: vs.flatMap fun v => "    ".toList ++ Toml.quote v ++ [','] ++ ['\n'] := by
    induction vs with
    | nil => rfl
    | cons v vs ih =>
      rw [Toml.itemLines, List.flatMap_cons, ← Toml.itemLines, List.append_assoc, ih, List.flatMap_cons]
      simp
  have hclose : Toml.itemLines (vs.map String.toList) ++ ['\n', ']'] =
      Toml.itemLines (vs.map String.toList) ++ ['\n'] ++ [']'] := by simp
  rw [listLine, if_neg h, Line.text, listValue]
  dsimp only
  rw [hclose, hitems]
  simp

theorem passes_listLine {s : Slot} (hs : s.Sound keys) {vs : List String} (hne : vs ≠ [])
    (hv : ∀ v ∈ vs, '\n' ∉ v.toList) : Passes keys (listLine s.key s.example_ vs).text := by
  rw [text_listLine hne]
  refine hs.opening.append (Passes.append (passes_items ?_) (passes_line (by decide) ?_))
  · intro v hm
    obtain ⟨w, hw, rfl⟩ := List.mem_map.1 hm
    exact hv w hw
  · exact isPassed_of_head (c := ']') (t := ['\n']) rfl (by decide) (by decide)

theorem fillExamples_slot {s : Slot} (hs : s.Sound keys) {vs : List String}
    (hv : ∀ v ∈ vs, '\n' ∉ v.toList) (hk : s.key.toList ∈ keys → vs = []) (r : List Char) :
    fillExamples ((listLine s.key s.example_ vs).text ++ r) keys =
      (filledLine keys s.key s.example_ vs).text ++ fillExamples r (keys.erase s.key.toList) := by
  by_cases hm : s.key.toList ∈ keys
  · have hvs := hk hm
    subst hvs
    have hfind : keys.find? (isExampleOf (Text.trimStart (s.exampleLine ++ ['\n']))) = some s.key.toList := by
      rcases hf : keys.find? (isExampleOf (Text.trimStart (s.exampleLine ++ ['\n']))) with _ | key
      · have hnone := List.find?_eq_none.1 hf _ hm
        rw [hs.example_key _ hm] at hnone
        simp at hnone
      · have hsome := List.find?_some hf
        rw [hs.example_key _ (List.mem_of_find?_eq_some hf), decide_eq_true_eq] at hsome
        rw [hsome]
    rw [filledLine, if_pos ⟨rfl, hm⟩, listLine, if_pos rfl, Line.text, hs.example_text, List.append_assoc,
      List.singleton_append, fillExamples_example hs.example_line hs.example_head hfind]
    simp [arrayLine, Line.text, Toml.arrayValue, Toml.arrayText]
  · rw [filledLine, if_neg fun h => hm h.2, List.erase_of_not_mem hm]
    by_cases hne : vs = []
    · subst hne
      rw [listLine, if_pos rfl, Line.text, hs.example_text]
      have hpass : isPassed keys (s.exampleLine ++ ['\n']) = true := by
        rw [isPassed, Bool.and_eq_true, decide_eq_true_eq, List.all_eq_true]
        refine ⟨hs.example_head, fun key hkey => ?_⟩
        rw [hs.example_key key hkey]
        have hother : key ≠ s.key.toList := fun h => hm (h ▸ hkey)
        simp [hother]
      exact passes_line hs.example_line hpass r
    · exact passes_listLine hs hne hv r

theorem filledLine_erase {key other example_ : String} {vs : List String} (h : other ≠ key) (hn : keys.Nodup) :
    filledLine (keys.erase key.toList) other example_ vs = filledLine keys other example_ vs := by
  have hne : other.toList ≠ key.toList := fun he => h (String.toList_inj.1 he)
  simp only [filledLine, hn.mem_erase_iff, hne, ne_eq, not_false_eq_true, true_and]

theorem fillExamples_slotLines {ss : List Slot} (hss : ∀ s ∈ ss, s ∈ slots) (hd : (ss.map Slot.key).Nodup)
    (hkeys : ∀ key ∈ keys, key ∈ listKeys) (hn : keys.Nodup)
    (hv : ∀ s ∈ ss, ∀ v ∈ m.listAt s.key, '\n' ∉ v.toList)
    (hk : ∀ s ∈ ss, s.key.toList ∈ keys → m.listAt s.key = []) :
    ∃ left, (∀ key ∈ left, key ∈ listKeys) ∧
      ∀ r, fillExamples ((slotLines listLine m ss).flatMap Line.text ++ r) keys =
      (slotLines (filledLine keys) m ss).flatMap Line.text ++ fillExamples r left := by
  -- behind each slot its key is no longer looked for, so the keys change on the way
  induction ss generalizing keys with
  | nil => exact ⟨keys, hkeys, fun _ => rfl⟩
  | cons s ss ih =>
    rw [List.forall_mem_cons] at hss hv hk
    rw [List.map_cons, List.nodup_cons] at hd
    have hsound := Slot.sound hkeys s hss.1
    obtain ⟨left, hleft, hrest⟩ := ih hss.2 hd.2 (fun key h => hkeys key (List.mem_of_mem_erase h))
      (hn.erase s.key.toList) hv.2 fun t ht h => hk.2 t ht (List.mem_of_mem_erase h)
    have hsame : slotLines (filledLine (keys.erase s.key.toList)) m ss = slotLines (filledLine keys) m ss := by
      refine List.flatMap_congr fun t ht => ?_
      have hne : t.key ≠ s.key := fun he => hd.1 (he ▸ List.mem_map_of_mem ht)
      rw [filledLine_erase hne hn]
    refine ⟨left, hleft, fun r => ?_⟩
    simp only [slotLines_cons, List.flatMap_cons, List.append_assoc]
    rw [Line.text, hsound.comment, fillExamples_slot hsound hv.1 hk.1, hrest, hsame]

/-- No text of the template's top table takes more than a line. -/
structure Plain (m : Manifest) : Prop where
  scalars : ∀ s ∈ [m.compiler, m.name, m.output], '\n' ∉ s.toList
  lists : ∀ s ∈ slots, ∀ v ∈ m.listAt s.key, '\n' ∉ v.toList

theorem passes_scalar {c : Char} {name after : List Char} {s : String} (hs : '\n' ∉ s.toList)
    (hc : Text.isBlank c = false) (hb : c ≠ '[') (hn : c ≠ '#') (hname : '\n' ∉ c :: name) (hafter : '\n' ∉ after) :
    Passes keys (Line.assignment (c :: name) (textValue s) after).text := by
  have htext : (Line.assignment (c :: name) (textValue s) after).text =
      (c :: (name ++ " = ".toList ++ Toml.quote s.toList ++ after)) ++ ['\n'] := by
    simp [Line.text, textValue]
  rw [htext]
  let t := name ++ " = ".toList ++ Toml.quote s.toList ++ after ++ ['\n']
  refine passes_line ?_ (isPassed_of_head (t := t) ?_ hb hn)
  · have hquote := newline_not_mem_quote hs
    rw [List.mem_cons, not_or] at hname ⊢
    refine ⟨hname.1, ?_⟩
    simp only [List.mem_append, not_or]
    exact ⟨⟨⟨hname.2, by decide⟩, hquote⟩, hafter⟩
  · rw [List.cons_append, Text.trimStart, List.dropWhile_cons_of_neg (by simp [hc])]

theorem passes_notes (hkeys : ∀ key ∈ keys, key ∈ listKeys) :
    Passes keys "# This handles building the project\n\n".toList ∧ Passes keys closing.text := by
  have passes {t : List Char} (ht : Toml.Lined t ∧ (Text.pieces t).all (isPassed listKeys) = true) :
      Passes keys t :=
    passes_of_pieces (.inr ht.1)
      (List.all_eq_true.2 fun p hp => isPassed_mono hkeys (List.all_eq_true.1 ht.2 p hp))
  unfold Toml.Lined at passes
  exact ⟨passes (by decide +kernel), passes (by decide +kernel)⟩

theorem passes_scalarLines (hm : Plain m) (hkeys : ∀ key ∈ keys, key ∈ listKeys) :
    Passes keys ((scalarLines m).flatMap Line.text) := by
  have hs := hm.scalars
  simp only [List.forall_mem_cons, List.not_mem_nil, false_imp_iff, implies_true, and_true] at hs
  have hcompiler := @passes_scalar keys 'c' "ompiler".toList
    " # Change to whatever compiles your C/C++ code. Even emcc works!".toList m.compiler hs.1 (by decide)
    (by decide) (by decide) (by decide) (by decide)
  have hname := @passes_scalar keys 'n' "ame".toList
    " # The name of the project, used in build messages.".toList m.name hs.2.1 (by decide) (by decide)
    (by decide) (by decide) (by decide)
  have houtput := @passes_scalar keys 'o' "utput".toList " # The output file.".toList m.output hs.2.2 (by decide)
    (by decide) (by decide) (by decide) (by decide)
  exact (passes_notes hkeys).1.append (hcompiler.append (hname.append (houtput.append passes_nil)))

/-- The pass over the text of a template whose lists under the keys are empty. -/
theorem fillExamples_documentText (hm : Plain m) (hkeys : ∀ key ∈ keys, key ∈ listKeys) (hn : keys.Nodup)
    (hk : ∀ s ∈ slots, s.key.toList ∈ keys → m.listAt s.key = []) :
    fillExamples (documentText listLine m) keys = documentText (filledLine keys) m := by
  obtain ⟨left, hleft, hslots⟩ := fillExamples_slotLines (fun _ h => h) (by decide) hkeys hn hm.lists hk
  simp only [documentText, topLinesOf, List.flatMap_append, List.append_assoc]
  rw [passes_scalarLines hm hkeys, hslots]
  have htable (r : List Char) : fillExamples (Line.headerText "shell".toList ++ r) left =
      Line.headerText "shell".toList ++ r :=
    @fillExamples_table left "[shell]".toList (by decide) (by decide) r
  rw [List.flatMap_singleton, (passes_notes hleft).2, htable]

end Filling

end CBuild.Manifest
