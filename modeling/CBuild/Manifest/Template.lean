import CBuild.Manifest
import CBuild.Toml.Quoted

/-! The text of a fresh configuration file. Every key is explained by a comment, and an empty list leaves a
commented example in its place. -/

namespace CBuild.Manifest

def quoted (s : String) : String :=
  String.ofList (Toml.quote s.toList)

/-- A list, one item to a line, or an example of it in a comment. -/
def listText (key example_ : String) (values : List String) : String :=
  match values with
  | [] => "# " ++ key ++ " = [" ++ quoted example_ ++ "]\n"
  | vs => key ++ " = [\n" ++ String.join (vs.map fun v => "    " ++ quoted v ++ ",\n") ++ "]\n"

def scalarsText (m : Manifest) : String :=
  "# This handles building the project\n\n" ++
  "compiler = " ++ quoted m.compiler ++
    " # Change to whatever compiles your C/C++ code. Even emcc works!\n" ++
  "name = " ++ quoted m.name ++ " # The name of the project, used in build messages.\n" ++
  "output = " ++ quoted m.output ++ " # The output file.\n"

def listsText (m : Manifest) : String :=
  "\n# Flags passed to the compiler, such as std=c++17\n" ++
    listText "flags" "std=c++17" m.flags ++
  "\n# The C/C++ files that will be compiled, in order. Globs are allowed.\n" ++
    listText "files" "main.cpp" m.files ++
  "\n# Where are the header files located?\n" ++
    listText "includes" "includes/" m.includes ++
  "\n# Not to be confused with libraries, these are the paths to the libraries.\n" ++
    listText "libs" "path/to/lib" m.libs ++
  "\n# Libraries linked into the project. Their path must be listed in libs.\n" ++
    listText "libraries" "libname" m.libraries

def hooksText (h : ShellHooks) : String :=
  "\n# Shell commands to run before or after building.\n[shell]\n" ++
    listText "before" "echo hello world" h.before ++
    listText "after" "echo bye world" h.after ++
    listText "misc" "echo misc call" h.misc

def render (m : Manifest) : String :=
  m.scalarsText ++ m.listsText ++ hooksText m.shell

end CBuild.Manifest
