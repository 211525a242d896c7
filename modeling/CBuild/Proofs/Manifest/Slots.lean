import CBuild.Proofs.Manifest.Rendering

/-! The template as a frame of comments with a slot for each list. What stands in the slots may be what the
template puts there, or an array whatever the list. -/

namespace CBuild.Manifest

open Toml (Data Line Value)

/-- The place of a list in the template: the comment in front of it, its key, and the example of it. -/
structure Slot where
  comment : String
  key : String
  example_ : String

def slots : List Slot :=
  [⟨"\n# Flags passed to the compiler, such as std=c++17\n", "flags", "std=c++17"⟩,
   ⟨"\n# The C/C++ files that will be compiled, in order. Globs are allowed.\n", "files", "main.cpp"⟩,
   ⟨"\n# Where are the header files located?\n", "includes", "includes/"⟩,
   ⟨"\n# Not to be confused with libraries, these are the paths to the libraries.\n", "libs", "path/to/lib"⟩,
   ⟨"\n# Libraries linked into the project. Their path must be listed in libs.\n", "libraries", "libname"⟩]

def listAt (m : Manifest) (key : String) : List String :=
  match key with
  | "flags" => m.flags
  | "files" => m.files
  | "includes" => m.includes
  | "libs" => m.libs
  | "libraries" => m.libraries
  | _ => []

/-- The template with a text of choice in each slot. -/
def renderOf (text : String → String → List String → String) (m : Manifest) : String :=
  m.scalarsText ++ String.join (slots.map fun s => s.comment ++ text s.key s.example_ (m.listAt s.key)) ++
    hooksText m.shell

theorem renderOf_listText (m : Manifest) : renderOf listText m = m.render := by
  have hflags : m.listAt "flags" = m.flags := rfl
  have hfiles : m.listAt "files" = m.files := rfl
  have hincludes : m.listAt "includes" = m.includes := rfl
  have hlibs : m.listAt "libs" = m.libs := rfl
  have hlibraries : m.listAt "libraries" = m.libraries := rfl
  have hnil : String.join [] = "" := rfl
  unfold renderOf render listsText slots
  simp only [List.map_cons, List.map_nil, String.join_cons, hflags, hfiles, hincludes, hlibs, hlibraries]
  rw [hnil]
  simp only [String.append_assoc]
  rw [String.empty_append]

def scalarLines (m : Manifest) : List Line :=
  [.note "# This handles building the project\n\n".toList,
   .assignment "compiler".toList (textValue m.compiler)
    " # Change to whatever compiles your C/C++ code. Even emcc works!".toList,
   .assignment "name".toList (textValue m.name)
    " # The name of the project, used in build messages.".toList,
   .assignment "output".toList (textValue m.output) " # The output file.".toList]

def closing : Line :=
  .note "\n# Shell commands to run before or after building.\n".toList

def slotLines (line : String → String → List String → Line) (m : Manifest) (ss : List Slot) : List Line :=
  ss.flatMap fun s => [.note s.comment.toList, line s.key s.example_ (m.listAt s.key)]

def topLinesOf (line : String → String → List String → Line) (m : Manifest) : List Line :=
  scalarLines m ++ slotLines line m slots ++ [closing]

theorem topLinesOf_listLine (m : Manifest) : topLinesOf listLine m = topLines m := rfl

variable {line : String → String → List String → Line} {text : String → String → List String → String}
  {m : Manifest}

theorem slotLines_cons (line : String → String → List String → Line) (m : Manifest) (s : Slot) (ss : List Slot) :
    slotLines line m (s :: ss) =
      .note s.comment.toList :: line s.key s.example_ (m.listAt s.key) :: slotLines line m ss := rfl

theorem toList_slots (h : ∀ key example_ vs, (text key example_ vs).toList = (line key example_ vs).text)
    (m : Manifest) (ss : List Slot) :
    (String.join (ss.map fun s => s.comment ++ text s.key s.example_ (m.listAt s.key))).toList =
      (slotLines line m ss).flatMap Line.text := by
  induction ss with
  | nil => rfl
  | cons s ss ih =>
    rw [List.map_cons, String.join_cons, String.toList_append, String.toList_append, ih, h,
      slotLines_cons, List.flatMap_cons, List.flatMap_cons, List.append_assoc]
    rfl

theorem glue {a b c : String} (h : a ++ b = c) (s : String) : a ++ (b ++ s) = c ++ s := by
  rw [← h, String.append_assoc]

theorem toList_scalarsText (m : Manifest) : m.scalarsText.toList = (scalarLines m).flatMap Line.text := by
  have hn (s : String) : (Line.note s.toList).text = s.toList := rfl
  have hcompiler := @glue "# This handles building the project\n\n" "compiler = " _ rfl
  have hname := @glue " # Change to whatever compiles your C/C++ code. Even emcc works!\n" "name = " _ rfl
  have houtput := @glue " # The name of the project, used in build messages.\n" "output = " _ rfl
  simp only [scalarLines, List.flatMap_cons, List.flatMap_nil, List.append_nil, toList_assignment, hn,
    ← String.toList_append]
  refine congrArg String.toList ?_
  unfold scalarsText
  simp only [String.reduceAppend, String.append_assoc]
  simp only [hcompiler, hname, houtput, String.reduceAppend]

theorem toList_hooksText (h : ShellHooks) :
    (hooksText h).toList =
      closing.text ++ (Line.headerText "shell".toList ++ (hookLines h).flatMap Line.text) := by
  have hn : closing.text = "\n# Shell commands to run before or after building.\n".toList := rfl
  have hh : Line.headerText "shell".toList = "[shell]\n".toList := by decide
  have hs := @glue "\n# Shell commands to run before or after building.\n" "[shell]\n"
    "\n# Shell commands to run before or after building.\n[shell]\n" (by simp only [String.reduceAppend])
  simp only [hookLines, List.flatMap_cons, List.flatMap_nil, List.append_nil, ← toList_listText, hn, hh,
    ← String.toList_append]
  refine congrArg String.toList ?_
  simp only [hs]
  unfold hooksText
  simp only [String.append_assoc]

theorem toList_renderOf (h : ∀ key example_ vs, (text key example_ vs).toList = (line key example_ vs).text)
    (m : Manifest) :
    (renderOf text m).toList = (topLinesOf line m).flatMap Line.text ++
      (Line.headerText "shell".toList ++ (hookLines m.shell).flatMap Line.text) := by
  rw [renderOf, String.toList_append, String.toList_append, toList_scalarsText, toList_slots h, toList_hooksText,
    topLinesOf, List.flatMap_append, List.flatMap_append, List.flatMap_singleton, List.append_assoc,
    List.append_assoc, List.append_assoc]

end CBuild.Manifest
