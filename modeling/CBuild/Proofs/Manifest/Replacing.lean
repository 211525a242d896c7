import CBuild.Proofs.Manifest.Filling

/-! Replacing lists in the text of a fresh configuration file. The new arrays go into the slots of the
template, the frame around them stays, and the text reads as the configuration with the new lists. -/

namespace CBuild.Manifest

open Toml (Data Line Value Children Document)

section Putting

abbrev Lists := List (String × List String)

def Lists.toChars (lists : Lists) : Toml.Lists :=
  lists.map fun p => (p.1.toList, p.2.map String.toList)

def editedLine (lists : Lists) (key example_ : String) (vs : List String) : Line :=
  match lists.lookup key with
  | some new => arrayLine key (new.map String.toList)
  | none => listLine key example_ vs

variable {lists : Lists} {line : String → String → List String → Line} {m : Manifest} {keys : List (List Char)}

theorem key_ne_scalar : ∀ name ∈ listKeys, name ≠ "compiler".toList ∧ name ≠ "name".toList ∧
    name ≠ "output".toList ∧ name ≠ "shell".toList := by
  decide

theorem isBare_key : ∀ s ∈ slots, Toml.IsBare s.key.toList := by
  have h : ∀ s ∈ slots, s.key.toList ≠ [] ∧ s.key.toList.all Toml.isBareKeyChar = true := by decide
  exact fun s hs => ⟨(h s hs).1, List.all_eq_true.1 (h s hs).2⟩

theorem legible_arrayLine {key : String} (hk : Toml.IsBare key.toList) (values : List (List Char)) :
    (arrayLine key values).Legible := by
  have hhead : ∃ r, Toml.arrayText values = '[' :: r := by
    match values with
    | [] => exact ⟨_, rfl⟩
    | [v] => exact ⟨_, rfl⟩
    | u :: v :: vs => exact ⟨_, rfl⟩
  obtain ⟨r, hr⟩ := hhead
  exact ⟨hk, ⟨'[', r, hr, rfl⟩, Toml.endsLine_nil, fun rest _ => Toml.value?_arrayText 78 values rest trivial⟩

/-- What stands in the slots is as the template has it or an array. -/
def Filled (line : String → String → List String → Line) (m : Manifest) : Prop :=
  ∀ s ∈ slots, line s.key s.example_ (m.listAt s.key) = listLine s.key s.example_ (m.listAt s.key) ∨
    ∃ values, line s.key s.example_ (m.listAt s.key) = arrayLine s.key values

theorem Filled.fits (h : Filled line m) : Fits line m where
  legible := by
    intro s hs
    rcases h s hs with he | ⟨values, he⟩
    · rw [he]
      refine legible_topLines m _ ?_
      rw [← topLinesOf_listLine, topLinesOf]
      have hmem : listLine s.key s.example_ (m.listAt s.key) ∈ slotLines listLine m slots :=
        mem_slotLines.2 ⟨s, hs, .inr rfl⟩
      simp [hmem]
    · rw [he]
      exact legible_arrayLine (isBare_key s hs) values
  names := by
    intro s hs
    rcases h s hs with he | ⟨values, he⟩
    · rw [he, listLine]
      split <;> simp [Line.assigned]
    · rw [he]
      exact List.Sublist.refl _

theorem filled_listLine (m : Manifest) : Filled listLine m :=
  fun _ _ => .inl rfl

theorem filled_filledLine (keys : List (List Char)) (m : Manifest) : Filled (filledLine keys) m := by
  intro s _
  rw [filledLine]
  split
  · exact .inr ⟨[], rfl⟩
  · exact .inl rfl

theorem filled_editedLine (lists : Lists) (m : Manifest) : Filled (editedLine lists) m := by
  intro s _
  rw [editedLine]
  split
  · exact .inr ⟨_, rfl⟩
  · exact .inl rfl

theorem Filled.isList (h : Filled line m) {s : Slot} (hs : s ∈ slots) :
    (line s.key s.example_ (m.listAt s.key)).IsList := by
  rcases h s hs with he | ⟨values, he⟩
  · rw [he, listLine]
    split
    · trivial
    · exact ⟨rfl, _, rfl⟩
  · rw [he]
    exact ⟨rfl, _, rfl⟩

theorem Filled.refit (h : Filled line m) (name : List Char) (values : List (List Char)) :
    Filled (fun key example_ vs => (line key example_ vs).refit name values) m := by
  intro s hs
  dsimp only
  rcases h s hs with he | ⟨old, he⟩
  · rw [he, listLine]
    split
    · exact .inl rfl
    · rw [Line.refit]
      split
      · exact .inr ⟨values, rfl⟩
      · exact .inl rfl
  · rw [he, arrayLine, Line.refit]
    split
    · exact .inr ⟨values, rfl⟩
    · exact .inr ⟨old, rfl⟩

theorem refit_topLinesOf {name : List Char} (hname : name ∈ listKeys)
    (line : String → String → List String → Line) (m : Manifest) (values : List (List Char)) :
    (topLinesOf line m).map (Line.refit name values) =
      topLinesOf (fun key example_ vs => (line key example_ vs).refit name values) m := by
  obtain ⟨hc, hn, ho, -⟩ := key_ne_scalar name hname
  have hscalars : (scalarLines m).map (Line.refit name values) = scalarLines m := by
    simp only [scalarLines, List.map_cons, List.map_nil, Line.refit, if_neg hc.symm, if_neg hn.symm,
      if_neg ho.symm]
  have hslots : (slotLines line m slots).map (Line.refit name values) =
      slotLines (fun key example_ vs => (line key example_ vs).refit name values) m slots := by
    rw [slotLines, List.map_flatMap]
    rfl
  rw [topLinesOf, List.map_append, List.map_append, hscalars, hslots]
  rfl

theorem Filled.isList_topLinesOf (h : Filled line m) {name : List Char} (hname : name ∈ listKeys) {l : Line}
    (hl : l ∈ topLinesOf line m) (ha : ∃ v after, l = .assignment name v after) : l.IsList := by
  obtain ⟨v, after, rfl⟩ := ha
  rw [topLinesOf, List.mem_append, List.mem_append] at hl
  rcases hl with (hl | hl) | hl
  · simp only [scalarLines, List.mem_cons, List.not_mem_nil, or_false] at hl
    obtain ⟨hc, hn, ho, -⟩ := key_ne_scalar name hname
    rcases hl with he | he | he | he
    · cases he
    · exact absurd (Line.assignment.inj he).1 hc
    · exact absurd (Line.assignment.inj he).1 hn
    · exact absurd (Line.assignment.inj he).1 ho
  · obtain ⟨s, hs, he | he⟩ := mem_slotLines.1 hl
    · cases he
    · rw [he]
      exact h.isList hs
  · simp [closing] at hl

theorem child?_hooksChild {name : List Char} (hname : name ∈ listKeys)
    (line : String → String → List String → Line) (m : Manifest) : (hooksChild line m).child? name = none := by
  refine Children.child?_eq_none.2 fun p hp => ?_
  rw [hooksChild, List.mem_singleton] at hp
  rw [hp]
  exact (key_ne_scalar name hname).2.2.2.symm

theorem Filled.putArray (h : Filled line m) {name : List Char} (hname : name ∈ listKeys)
    (hm : name ∈ (Line.assigned (topLinesOf line m)).map Prod.fst) (values : List (List Char)) :
    (documentOf line m).top.putArray name values =
      (documentOf (fun key example_ vs => (line key example_ vs).refit name values) m).top := by
  have hnone := child?_hooksChild hname line m
  rw [documentOf, Line.putArray_children hm (fun l hl => h.isList_topLinesOf hname hl) hnone,
    refit_topLinesOf hname, documentOf, hooksChild, hooksChild, ← refit_topLinesOf hname, Line.left_refit]

theorem Filled.putArrays {lists : Toml.Lists} (h : Filled line m)
    (hl : ∀ p ∈ lists, p.1 ∈ listKeys ∧ p.1 ∈ (Line.assigned (topLinesOf line m)).map Prod.fst) :
    (documentOf line m).putArrays lists =
      documentOf (fun key example_ vs => (line key example_ vs).refitAll lists) m := by
  -- each step changes the line of one slot: the next one starts from other lines, under the same names
  induction lists generalizing line with
  | nil => rfl
  | cons p lists ih =>
    obtain ⟨name, values⟩ := p
    rw [List.forall_mem_cons] at hl
    have hnames : (Line.assigned (topLinesOf (fun key example_ vs =>
        (line key example_ vs).refit name values) m)).map Prod.fst =
          (Line.assigned (topLinesOf line m)).map Prod.fst := by
      rw [← refit_topLinesOf hl.1.1, Line.names_refit]
    have hrest := ih (h.refit name values) fun p hp => ⟨(hl.2 p hp).1, hnames ▸ (hl.2 p hp).2⟩
    rw [Document.putArrays, List.foldl_cons]
    dsimp only
    rw [h.putArray hl.1.1 hl.1.2]
    exact hrest

theorem documentOf_congr {line' : String → String → List String → Line}
    (h : ∀ s ∈ slots, line s.key s.example_ (m.listAt s.key) = line' s.key s.example_ (m.listAt s.key)) :
    documentOf line m = documentOf line' m := by
  have hslots : slotLines line m slots = slotLines line' m slots := by
    refine List.flatMap_congr fun s hs => ?_
    rw [h s hs]
  rw [documentOf, documentOf, hooksChild, hooksChild, topLinesOf, topLinesOf, hslots]

theorem lookup_toChars (lists : Lists) (key : String) :
    lists.toChars.lookup key.toList = (lists.lookup key).map (List.map String.toList) := by
  induction lists with
  | nil => rfl
  | cons p lists ih =>
    have hkey : (key.toList == p.1.toList) = (key == p.1) := by
      rw [Bool.eq_iff_iff, beq_iff_eq, beq_iff_eq, String.toList_inj]
    rw [Lists.toChars, List.map_cons, List.lookup_cons, List.lookup_cons, hkey, ← Lists.toChars, ih]
    cases key == p.1 <;> rfl

theorem keys_toChars (lists : Lists) : lists.toChars.map Prod.fst = (lists.map Prod.fst).map String.toList := by
  rw [Lists.toChars, List.map_map, List.map_map]
  rfl

theorem mem_keys_toChars {key : String} :
    key.toList ∈ lists.toChars.map Prod.fst ↔ key ∈ lists.map Prod.fst := by
  rw [keys_toChars, List.mem_map_of_injective fun _ _ h => String.toList_inj.1 h]

theorem nodup_toChars (hd : (lists.map Prod.fst).Nodup) : (lists.toChars.map Prod.fst).Nodup := by
  rw [keys_toChars]
  exact hd.map fun _ _ h => String.toList_inj.1 h

end Putting

section Replacing

variable {lists : Lists} {m : Manifest} {s : Slot}

theorem key_mem_listKeys (hs : s ∈ slots) : s.key.toList ∈ listKeys :=
  List.mem_map_of_mem hs

theorem mem_names_topLinesOf (hs : s ∈ slots) {line : String → String → List String → Line} (h : Fits line m) :
    s.key.toList ∈ (Line.assigned (topLinesOf line m)).map Prod.fst ↔
      Line.assigned [line s.key s.example_ (m.listAt s.key)] ≠ [] := by
  have hscalar := key_ne_scalar _ (key_mem_listKeys hs)
  rw [assigned_topLinesOf, List.map_append, List.mem_append, List.map_flatMap, List.mem_flatMap]
  constructor
  · rintro (hm | ⟨t, ht, hm⟩)
    · simp only [List.map_cons, List.map_nil, List.mem_cons, List.not_mem_nil, or_false] at hm
      rcases hm with he | he | he
      · exact absurd he hscalar.1
      · exact absurd he hscalar.2.1
      · exact absurd he hscalar.2.2.1
    · have hkey := List.mem_singleton.1 ((h.names t ht).subset hm)
      have hsame : s = t := List.inj_on_of_nodup_map (by decide : (slots.map Slot.key).Nodup) hs ht
        (String.toList_inj.1 hkey)
      subst hsame
      rintro hnil
      rw [hnil] at hm
      exact absurd hm List.not_mem_nil
  · intro hne
    refine .inr ⟨s, hs, ?_⟩
    rcases List.sublist_singleton.1 (h.names s hs) with hnil | hone
    · exact absurd (List.map_eq_nil_iff.1 hnil) hne
    · rw [hone]
      exact List.mem_singleton_self _

theorem mem_missing (hs : s ∈ slots) (m : Manifest) (names : List (List Char)) :
    s.key.toList ∈ names.filter (fun key => ((documentOf listLine m).top.child? key).isNone) ↔
      s.key.toList ∈ names ∧ m.listAt s.key = [] := by
  have hempty : Line.assigned [listLine s.key s.example_ (m.listAt s.key)] = [] ↔ m.listAt s.key = [] := by
    rw [assigned_listLine, listEntries]
    split <;> simp_all [Line.assigned]
  rw [List.mem_filter, Option.isNone_iff_eq_none, documentOf, Children.child?_append,
    child?_hooksChild (key_mem_listKeys hs), Option.or_none, Line.child?_children_eq_none,
    mem_names_topLinesOf hs (filled_listLine m).fits, not_not, hempty]

theorem mem_keys_iff {key : String} : key ∈ lists.map Prod.fst ↔ ∃ new, lists.lookup key = some new := by
  rw [← Option.isSome_iff_exists, List.lookup_isSome_iff]
  simp

theorem refitAll_filledLine (hd : (lists.map Prod.fst).Nodup) {keys : List (List Char)} {key : String}
    {vs : List String} (hk : key.toList ∈ keys ↔ key ∈ lists.map Prod.fst ∧ vs = []) (example_ : String) :
    (filledLine keys key example_ vs).refitAll lists.toChars = editedLine lists key example_ vs := by
  have put (v : Value) : (Line.assignment key.toList v []).refitAll lists.toChars =
      match lists.lookup key with
      | some new => arrayLine key (new.map String.toList)
      | none => .assignment key.toList v [] := by
    rw [Line.refitAll_assignment (nodup_toChars hd), lookup_toChars]
    cases lists.lookup key <;> rfl
  by_cases hf : vs = [] ∧ key.toList ∈ keys
  · obtain ⟨new, hnew⟩ := mem_keys_iff.1 (hk.1 hf.2).1
    rw [filledLine, if_pos hf, arrayLine, put, editedLine, hnew]
  · rw [filledLine, if_neg hf, listLine, editedLine]
    by_cases hv : vs = []
    · have hnone : lists.lookup key = none := by
        rw [← Option.not_isSome_iff_eq_none]
        intro hs
        exact hf ⟨hv, hk.2 ⟨mem_keys_iff.2 (Option.isSome_iff_exists.1 hs), hv⟩⟩
      rw [if_pos hv, Line.refitAll_note, hnone, listLine, if_pos hv]
    · rw [if_neg hv, put]
      cases lists.lookup key with
      | none => rw [listLine, if_neg hv]
      | some new => rfl

/-- The arrays that are put into the filled text are the lines that an edit leaves. -/
theorem putArrays_filledLine (hd : (lists.map Prod.fst).Nodup)
    (hlisted : ∀ key ∈ lists.toChars.map Prod.fst, ∃ s ∈ slots, s.key.toList = key) {keys : List (List Char)}
    (hk : ∀ s ∈ slots, s.key.toList ∈ keys ↔ s.key ∈ lists.map Prod.fst ∧ m.listAt s.key = []) :
    (documentOf (filledLine keys) m).putArrays lists.toChars = documentOf (editedLine lists) m := by
  have hnames {s : Slot} (hs : s ∈ slots) (hkey : s.key ∈ lists.map Prod.fst) :
      s.key.toList ∈ (Line.assigned (topLinesOf (filledLine keys) m)).map Prod.fst := by
    rw [mem_names_topLinesOf hs (filled_filledLine keys m).fits, filledLine]
    split
    · simp [arrayLine, Line.assigned]
    · next hf =>
      have hne : m.listAt s.key ≠ [] := fun he => hf ⟨he, (hk s hs).2 ⟨hkey, he⟩⟩
      simp [listLine, hne, Line.assigned]
  rw [(filled_filledLine keys m).putArrays]
  · exact documentOf_congr fun s hs => refitAll_filledLine hd (hk s hs) s.example_
  · intro p hp
    have hname : p.1 ∈ lists.toChars.map Prod.fst := List.mem_map_of_mem hp
    obtain ⟨s, hs, he⟩ := hlisted p.1 hname
    rw [← he, mem_keys_toChars] at hname
    rw [← he]
    exact ⟨key_mem_listKeys hs, hnames hs hname⟩

def withLists (m : Manifest) (lists : Lists) : Manifest :=
  { m with
    flags := (lists.lookup "flags").getD m.flags
    files := (lists.lookup "files").getD m.files
    includes := (lists.lookup "includes").getD m.includes
    libs := (lists.lookup "libs").getD m.libs
    libraries := (lists.lookup "libraries").getD m.libraries }

/-- What stands in the slot of a list when some are replaced: the new list, or what the template has there. -/
def slotText (lists : Lists) (key example_ : String) (vs : List String) : String :=
  match lists.lookup key with
  | some new => key ++ " = " ++ String.ofList (Toml.arrayText (new.map String.toList)) ++ "\n"
  | none => listText key example_ vs

theorem toList_slotText (lists : Lists) (key example_ : String) (vs : List String) :
    (slotText lists key example_ vs).toList = (editedLine lists key example_ vs).text := by
  rw [slotText, editedLine]
  split
  · simp [arrayLine, Line.text, Toml.arrayValue]
  · exact toList_listText key example_ vs

theorem gives_editedLine (lists : Lists) (key example_ : String) (vs : List String) :
    Gives key ((lists.lookup key).getD vs) (Line.assigned [editedLine lists key example_ vs]) := by
  rw [editedLine]
  cases lists.lookup key with
  | none =>
    have hlist := assigned_listLine key example_ vs []
    rw [Line.assigned, List.append_nil] at hlist
    exact .inl hlist
  | some new =>
    refine .inr ?_
    simp [arrayLine, Line.assigned, Toml.arrayValue, Function.comp_def]

theorem parse_slotText (m : Manifest) (lists : Lists) :
    parse (renderOf (slotText lists) m) = .ok (m.withLists lists) := by
  have hread := (filled_editedLine lists m).fits.read?_documentText
  have hentries := ofEntries_gives (m.withLists lists) (gives_editedLine lists "flags" "std=c++17" m.flags)
    (gives_editedLine lists "files" "main.cpp" m.files) (gives_editedLine lists "includes" "includes/" m.includes)
    (gives_editedLine lists "libs" "path/to/lib" m.libs) (gives_editedLine lists "libraries" "libname" m.libraries)
  have htext : (renderOf (slotText lists) m).toList = documentText (editedLine lists) m :=
    toList_renderOf (toList_slotText lists) m
  have hassigned : Line.assigned (topLinesOf (editedLine lists) m) = scalarEntries (m.withLists lists) ++
      Line.assigned [editedLine lists "flags" "std=c++17" m.flags] ++
      Line.assigned [editedLine lists "files" "main.cpp" m.files] ++
      Line.assigned [editedLine lists "includes" "includes/" m.includes] ++
      Line.assigned [editedLine lists "libs" "path/to/lib" m.libs] ++
      Line.assigned [editedLine lists "libraries" "libname" m.libraries] := by
    rw [assigned_topLinesOf]
    simp only [slots, List.flatMap_cons, List.flatMap_nil, List.append_nil, List.append_assoc]
    rfl
  rw [parse, htext, hread, hassigned]
  dsimp only
  have hshell : (m.withLists lists).shell = m.shell := rfl
  rw [hshell] at hentries
  rw [hentries]
  rfl

/-- Replacing lists in a fresh text that takes a line for each of its strings. Each listed key has its new
array where its old one or the example of it stood, between the comments around it, and all other text is as
it was; the text reads as the configuration with the new lists. -/
theorem replaceLists?_render (hm : m.Plain) (hd : (lists.map Prod.fst).Nodup)
    (hkeys : ∀ p ∈ lists, p.1 ∈ ["flags", "files", "includes", "libs", "libraries"]) :
    replaceLists? m.render.toList lists.toChars = some (renderOf (slotText lists) m).toList ∧
      parse (renderOf (slotText lists) m) = .ok (m.withLists lists) := by
  refine ⟨?_, parse_slotText m lists⟩
  have hlisted : ∀ key ∈ lists.toChars.map Prod.fst, ∃ s ∈ slots, s.key.toList = key := by
    rw [keys_toChars]
    intro key hkey
    obtain ⟨_, hname, rfl⟩ := List.mem_map.1 hkey
    obtain ⟨p, hp, rfl⟩ := List.mem_map.1 hname
    have hslot : p.1 ∈ slots.map Slot.key := hkeys p hp
    obtain ⟨s, hs, he⟩ := List.mem_map.1 hslot
    exact ⟨s, hs, congrArg String.toList he⟩
  have hrender : m.render.toList = documentText listLine m := by
    rw [← renderOf_listText]
    exact toList_renderOf toList_listText m
  -- the first parse tells which lists are missing, and these are the empty ones
  let missing := (lists.toChars.map Prod.fst).filter fun key =>
    ((documentOf listLine m).top.child? key).isNone
  have hmissing {s : Slot} (hs : s ∈ slots) :
      s.key.toList ∈ missing ↔ s.key ∈ lists.map Prod.fst ∧ m.listAt s.key = [] := by
    rw [mem_missing hs, mem_keys_toChars]
  have hfill : fillExamples (documentText listLine m) missing = documentText (filledLine missing) m :=
    fillExamples_documentText hm (fun key h => List.mem_map.2 (hlisted key (List.mem_filter.1 h).1))
      ((nodup_toChars hd).filter _)
      fun s hs h => ((hmissing hs).1 h).2
  rw [hrender, replaceLists?, (filled_listLine m).fits.parse?_documentText]
  show ((Document.parse? (fillExamples (documentText listLine m) missing)).bind _) = _
  rw [hfill, (filled_filledLine missing m).fits.parse?_documentText, Option.bind_some,
    putArrays_filledLine hd hlisted fun _ => hmissing, text_documentOf,
    toList_renderOf (toList_slotText lists)]
  rfl

theorem replaceLists?_render_files :
    replaceLists? (render { flags := ["g"] }).toList (Lists.toChars [("files", ["a\nb"])]) =
        some (renderOf (slotText [("files", ["a\nb"])]) { flags := ["g"] }).toList ∧
      parse (renderOf (slotText [("files", ["a\nb"])]) { flags := ["g"] }) =
        .ok { flags := ["g"], files := ["a\nb"] } := by
  have hplain : Plain { flags := ["g"] } := by
    constructor
    · decide
    · decide
  exact replaceLists?_render hplain (by decide) (by decide)

end Replacing

end CBuild.Manifest
