import CBuild.Manifest.Schema
import CBuild.Manifest.Template
import CBuild.Proofs.Toml.Lines

/-! The text of a fresh configuration file reads as the configuration it was made of. -/

namespace CBuild.Manifest

open Toml (Data Line Value)

section Lines

def textValue (s : String) : Value :=
  ⟨.text s, Toml.quote s.toList⟩

def listValue (vs : List String) : Value :=
  ⟨.array (vs.map .text), '[' :: (Toml.itemLines (vs.map String.toList) ++ ['\n', ']'])⟩

def listLine (key example_ : String) (vs : List String) : Line :=
  if vs = [] then .note (listText key example_ []).toList
  else .assignment key.toList (listValue vs) []

theorem legible_text {name : List Char} (hn : name ≠ []) (hc : ∀ c ∈ name, Toml.isBareKeyChar c = true)
    (s : String) {after : List Char} (ha : Toml.EndsLine after)
    (hm : ∀ r, Toml.NoMark (after ++ '\n' :: r)) : (Line.assignment name (textValue s) after).Legible := by
  obtain ⟨m, r, hq, hm'⟩ := Toml.quote_head s.toList
  refine ⟨⟨hn, hc⟩, ⟨m, r, hq, by rcases hm' with rfl | rfl <;> rfl⟩, ha, ?_⟩
  rintro _ ⟨r, rfl⟩
  have h := Toml.value?_quote Toml.depthLimit s.toList (after ++ '\n' :: r) (hm r)
  rwa [String.ofList_toList] at h

theorem reads_listValue (vs : List String) (rest : List Char) :
    Toml.value? Toml.depthLimit ((listValue vs).spelling ++ rest) = some (listValue vs, rest) := by
  have h := Toml.items?_itemLines 78 (vs.map String.toList) rest
  rw [listValue, List.cons_append, List.append_assoc, Toml.depthLimit, Toml.value?]
  simp only [List.cons_append, List.nil_append, h, Option.map_some, List.map_map]
  simp [Function.comp_def]

theorem legible_list {key : String} (hn : key.toList ≠ [])
    (hc : key.toList.all Toml.isBareKeyChar = true) {example_ : String}
    (he : Toml.IsTrivia false (listText key example_ []).toList) (vs : List String) :
    (listLine key example_ vs).Legible := by
  rw [listLine]
  split
  · exact he
  · exact ⟨⟨hn, List.all_eq_true.1 hc⟩, ⟨'[', _, rfl, rfl⟩, Toml.endsLine_nil,
      fun rest _ => reads_listValue vs rest⟩

theorem toList_items (vs : List String) :
    '\n' :: (String.join (vs.map fun v => "    " ++ quoted v ++ ",\n")).toList =
      Toml.itemLines (vs.map String.toList) ++ ['\n'] := by
  induction vs with
  | nil => rfl
  | cons v vs ih =>
    rw [List.map_cons, String.join_cons, List.map_cons, Toml.itemLines, List.flatMap_cons,
      ← Toml.itemLines, List.append_assoc, ← ih]
    simp [quoted]

theorem toList_listText (key example_ : String) (vs : List String) :
    (listText key example_ vs).toList = (listLine key example_ vs).text := by
  cases vs with
  | nil => rfl
  | cons v vs =>
    have h : Toml.itemLines ((v :: vs).map String.toList) ++ ['\n', ']'] =
        '\n' :: (String.join ((v :: vs).map fun v => "    " ++ quoted v ++ ",\n")).toList ++ [']'] := by
      rw [toList_items, List.append_assoc]
      rfl
    rw [listLine, if_neg (List.cons_ne_nil _ _), Line.text, listValue, h, listText]
    · simp
    · rintro ⟨⟩

end Lines

section Template

def topLines (m : Manifest) : List Line :=
  [.note "# This handles building the project\n\n".toList,
   .assignment "compiler".toList (textValue m.compiler)
    " # Change to whatever compiles your C/C++ code. Even emcc works!".toList,
   .assignment "name".toList (textValue m.name)
    " # The name of the project, used in build messages.".toList,
   .assignment "output".toList (textValue m.output) " # The output file.".toList,
   .note "\n# Flags passed to the compiler, such as std=c++17\n".toList,
   listLine "flags" "std=c++17" m.flags,
   .note "\n# The C/C++ files that will be compiled, in order. Globs are allowed.\n".toList,
   listLine "files" "main.cpp" m.files,
   .note "\n# Where are the header files located?\n".toList,
   listLine "includes" "includes/" m.includes,
   .note "\n# Not to be confused with libraries, these are the paths to the libraries.\n".toList,
   listLine "libs" "path/to/lib" m.libs,
   .note "\n# Libraries linked into the project. Their path must be listed in libs.\n".toList,
   listLine "libraries" "libname" m.libraries,
   .note "\n# Shell commands to run before or after building.\n".toList]

def hookLines (h : ShellHooks) : List Line :=
  [listLine "before" "echo hello world" h.before,
   listLine "after" "echo bye world" h.after,
   listLine "misc" "echo misc call" h.misc]

theorem toList_assignment (key s after : String) :
    (Line.assignment key.toList (textValue s) after.toList).text =
      (key ++ " = " ++ quoted s ++ (after ++ "\n")).toList := by
  simp [Line.text, textValue, quoted]

theorem toList_render (m : Manifest) :
    (render m).toList = (topLines m).flatMap Line.text ++
      (Line.headerText "shell".toList ++ (hookLines m.shell).flatMap Line.text) := by
  have hn (s : String) : (Line.note s.toList).text = s.toList := rfl
  have hh : Line.headerText "shell".toList = "[shell]\n".toList := by decide
  have hs (s : String) : "\n# Shell commands to run before or after building.\n" ++ ("[shell]\n" ++ s) =
      "\n# Shell commands to run before or after building.\n[shell]\n" ++ s := by
    rw [← String.append_assoc]
    simp only [String.reduceAppend]
  simp only [topLines, hookLines, List.flatMap_cons, List.flatMap_nil, List.append_nil,
    toList_assignment, ← toList_listText, hn, hh, ← String.toList_append]
  refine congrArg String.toList ?_
  simp only [String.reduceAppend, String.append_assoc]
  -- the literals are many and long: `rw` would compare each of them with those of `hs`
  simp only [hs]
  unfold render scalarsText listsText hooksText
  simp only [String.append_assoc]

theorem isTrivia_note {t : List Char} (h : Toml.IsTrivia false t) : (Line.note t).Legible := h

theorem legible_topLines (m : Manifest) : ∀ l ∈ topLines m, l.Legible := by
  have text {name : List Char} (hn : name ≠ []) (hc : name.all Toml.isBareKeyChar = true)
      (s : String) {comment : List Char}
      (ha : Toml.lineEnd? (' ' :: comment) = some (' ' :: comment, [])) :
      (Line.assignment name (textValue s) (' ' :: comment)).Legible :=
    legible_text hn (List.all_eq_true.1 hc) s (Toml.endsLine_of_lineEnd? ha) fun _ =>
      Toml.noMark_cons (by decide) (by decide) _
  simp only [topLines, List.forall_mem_cons, List.not_mem_nil, false_imp_iff, implies_true, and_true]
  refine ⟨?_, text ?_ ?_ _ ?_, text ?_ ?_ _ ?_, text ?_ ?_ _ ?_, ?_, legible_list ?_ ?_ ?_ _, ?_,
    legible_list ?_ ?_ ?_ _, ?_, legible_list ?_ ?_ ?_ _, ?_, legible_list ?_ ?_ ?_ _, ?_,
    legible_list ?_ ?_ ?_ _, ?_⟩
  all_goals first | decide +kernel | exact isTrivia_note (by decide +kernel)

theorem legible_hookLines (h : ShellHooks) : ∀ l ∈ hookLines h, l.Legible := by
  simp only [hookLines, List.forall_mem_cons, List.not_mem_nil, false_imp_iff, implies_true, and_true]
  refine ⟨legible_list ?_ ?_ ?_ _, legible_list ?_ ?_ ?_ _, legible_list ?_ ?_ ?_ _⟩
  all_goals decide +kernel

end Template

section Reading

def listEntries (key : String) (vs : List String) : List (List Char × Data) :=
  if vs = [] then [] else [(key.toList, .array (vs.map .text))]

theorem assigned_listLine (key example_ : String) (vs : List String) (ls : List Line) :
    Line.assigned (listLine key example_ vs :: ls) = listEntries key vs ++ Line.assigned ls := by
  rw [listLine, listEntries]
  split <;> rfl

theorem assigned_topLines (m : Manifest) :
    Line.assigned (topLines m) =
      [("compiler".toList, .text m.compiler), ("name".toList, .text m.name),
        ("output".toList, .text m.output)] ++ listEntries "flags" m.flags ++
        listEntries "files" m.files ++ listEntries "includes" m.includes ++
        listEntries "libs" m.libs ++ listEntries "libraries" m.libraries := by
  simp only [topLines, Line.assigned, assigned_listLine, textValue, List.append_assoc, List.append_nil,
    List.cons_append, List.nil_append]

theorem assigned_hookLines (h : ShellHooks) :
    Line.assigned (hookLines h) =
      listEntries "before" h.before ++ listEntries "after" h.after ++ listEntries "misc" h.misc := by
  simp [hookLines, Line.assigned, assigned_listLine]

theorem names_listEntries (key : String) (vs : List String) :
    List.Sublist ((listEntries key vs).map Prod.fst) [key.toList] := by
  rw [listEntries]
  split <;> simp

theorem names_topLines (m : Manifest) :
    List.Sublist ((Line.assigned (topLines m)).map Prod.fst)
      (["compiler", "name", "output", "flags", "files", "includes", "libs", "libraries"].map
        String.toList) := by
  rw [assigned_topLines]
  simp only [List.map_append]
  exact ((((List.Sublist.refl _).append (names_listEntries _ _)).append (names_listEntries _ _)).append
    (names_listEntries _ _)).append (names_listEntries _ _) |>.append (names_listEntries _ _)

theorem names_hookLines (h : ShellHooks) :
    List.Sublist ((Line.assigned (hookLines h)).map Prod.fst)
      (["before", "after", "misc"].map String.toList) := by
  rw [assigned_hookLines]
  simp only [List.map_append]
  exact ((names_listEntries _ _).append (names_listEntries _ _)).append (names_listEntries _ _)

theorem mapM_textOf (vs : List String) : (vs.map Data.text).mapM textOf = .ok vs := by
  induction vs with
  | nil => rfl
  | cons v vs ih =>
    rw [List.map_cons, List.mapM_cons, ih]
    rfl

theorem listOf_texts (vs : List String) : listOf (.array (vs.map .text)) = .ok vs :=
  mapM_textOf vs

/-- The entries that a list may have: those of its line, or an array whatever it holds. -/
def Gives (key : String) (vs : List String) (es : List (List Char × Data)) : Prop :=
  es = listEntries key vs ∨ es = [(key.toList, .array (vs.map .text))]

theorem foldlM_gives {α : Type} (set : α → String × Data → Except Mismatch α) (key : String)
    (vs : List String) {es : List (List Char × Data)} (h : Gives key vs es) {a b : α}
    (hs : set a (key, .array (vs.map .text)) = .ok b) (he : vs = [] → a = b)
    (rest : List (List Char × Data)) :
    (Line.named (es ++ rest)).foldlM set a = (Line.named rest).foldlM set b := by
  have written (rest : List (List Char × Data)) :
      (Line.named ((key.toList, .array (vs.map .text)) :: rest)).foldlM set a =
        (Line.named rest).foldlM set b := by
    simp only [Line.named, List.map_cons, List.foldlM_cons, String.ofList_toList, hs]
    rfl
  rcases h with rfl | rfl
  · rw [listEntries]
    split
    · next hv =>
      rw [he hv, List.nil_append]
    · exact written rest
  · exact written rest

theorem ofData_hookLines (h : ShellHooks) :
    ShellHooks.ofData (.table (Line.named (Line.assigned (hookLines h)))) = .ok h := by
  have before := foldlM_gives ShellHooks.set "before" h.before (.inl rfl)
    (a := {}) (b := { before := h.before }) (by rw [ShellHooks.set, listOf_texts]; rfl)
    fun he => by rw [he]
  have after := foldlM_gives ShellHooks.set "after" h.after (.inl rfl)
    (a := { before := h.before }) (b := { before := h.before, after := h.after })
    (by rw [ShellHooks.set, listOf_texts]; rfl) fun he => by rw [he]
  have misc := foldlM_gives ShellHooks.set "misc" h.misc (.inl rfl)
    (a := { before := h.before, after := h.after }) (b := h)
    (by rw [ShellHooks.set, listOf_texts]; rfl) fun he => by rw [← he]
  rw [ShellHooks.ofData, assigned_hookLines, List.append_assoc, before, after,
    ← List.append_nil (listEntries "misc" h.misc), misc]
  rfl

def scalarEntries (m : Manifest) : List (List Char × Data) :=
  [("compiler".toList, .text m.compiler), ("name".toList, .text m.name), ("output".toList, .text m.output)]

theorem ofEntries_gives (m : Manifest) {flags files includes libs libraries : List (List Char × Data)}
    (hflags : Gives "flags" m.flags flags) (hfiles : Gives "files" m.files files)
    (hincludes : Gives "includes" m.includes includes) (hlibs : Gives "libs" m.libs libs)
    (hlibraries : Gives "libraries" m.libraries libraries) :
    ofEntries (Line.named (scalarEntries m ++ flags ++ files ++ includes ++ libs ++ libraries) ++
      [("shell", .table (Line.named (Line.assigned (hookLines m.shell))))]) = .ok m := by
  let scalars : Manifest := { compiler := m.compiler, name := m.name, output := m.output }
  have flags := foldlM_gives set "flags" m.flags hflags
    (a := scalars) (b := { scalars with flags := m.flags }) (by rw [set, listOf_texts]; rfl)
    fun he => by rw [he]
  have files := foldlM_gives set "files" m.files hfiles
    (a := { scalars with flags := m.flags })
    (b := { scalars with flags := m.flags, files := m.files }) (by rw [set, listOf_texts]; rfl)
    fun he => by rw [he]
  have includes := foldlM_gives set "includes" m.includes hincludes
    (a := { scalars with flags := m.flags, files := m.files })
    (b := { m with libs := [], libraries := [], shell := {} }) (by rw [set, listOf_texts]; rfl)
    fun he => by rw [he]
  have libs := foldlM_gives set "libs" m.libs hlibs
    (a := { m with libs := [], libraries := [], shell := {} })
    (b := { m with libraries := [], shell := {} }) (by rw [set, listOf_texts]; rfl)
    fun he => by rw [he]
  have libraries' := foldlM_gives set "libraries" m.libraries hlibraries
    (a := { m with libraries := [], shell := {} }) (b := { m with shell := {} })
    (by rw [set, listOf_texts]; rfl) fun he => by rw [he]
  have start (rest : List (List Char × Data)) : (Line.named (scalarEntries m ++ rest)).foldlM set {} =
      (Line.named rest).foldlM set scalars := by
    simp only [scalarEntries, Line.named, List.cons_append, List.nil_append, List.map_cons, List.foldlM_cons,
      String.ofList_toList]
    rfl
  rw [ofEntries, List.foldlM_append]
  simp only [List.append_assoc]
  rw [start, flags, files, includes, libs, ← List.append_nil libraries, libraries']
  show ([("shell", _)] : List (String × Data)).foldlM set _ = _
  rw [List.foldlM_cons, set, ofData_hookLines]
  rfl

theorem ofEntries_lines (m : Manifest) :
    ofEntries (Line.named (Line.assigned (topLines m)) ++
      [("shell", .table (Line.named (Line.assigned (hookLines m.shell))))]) = .ok m := by
  rw [assigned_topLines]
  exact ofEntries_gives m (.inl rfl) (.inl rfl) (.inl rfl) (.inl rfl) (.inl rfl)

/-- Every configuration, whatever its texts, is read from the text it is rendered as. -/
theorem parse_render (m : Manifest) : parse m.render = .ok m := by
  have names : (["compiler", "name", "output", "flags", "files", "includes", "libs", "libraries"].map
      String.toList).Nodup ∧ "shell".toList ∉ ["compiler", "name", "output", "flags", "files",
      "includes", "libs", "libraries"].map String.toList := by decide
  have hooks : (["before", "after", "misc"].map String.toList).Nodup := by decide
  have said := Toml.read?_lines (legible_topLines m)
    (legible_hookLines m.shell) ⟨by decide, List.all_eq_true.1 (by decide)⟩
    (fun h => names.2 ((names_topLines m).subset h)) (names.1.sublist (names_topLines m))
    (hooks.sublist (names_hookLines m.shell))
  rw [← toList_render, String.ofList_toList] at said
  rw [parse, said]
  dsimp only
  rw [ofEntries_lines]
  rfl

end Reading

end CBuild.Manifest
