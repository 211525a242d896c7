import CBuild.Glob.Expand
import CBuild.Manifest

/-! The compiler command of a project:

    <compiler> -o <output> <files...> -I<includes...> -L<libs...> -l<libraries...> <flags...>

Arguments go to the compiler as they are, without a shell in between. -/

namespace CBuild

structure Command where
  program : String
  args : List String
deriving DecidableEq

namespace Command

def pretty (c : Command) : String :=
  c.program ++ String.join (c.args.map fun a => " \\\n    " ++ a)

def shownArg (a : String) : String :=
  if a = "" || a.toList.any Text.isBlank then "\"" ++ a ++ "\"" else a

def display (c : Command) : String :=
  " ".intercalate (c.program :: c.args.map shownArg)

def invocation (c : Command) (directory : Path) : Invocation :=
  ⟨Path.ofString c.program, c.args, directory⟩

def shell (line : String) : Command :=
  ⟨"sh", ["-c", line]⟩

def includeFlags (directories : List String) : List String :=
  directories.map ("-I" ++ ·)

/-- A compiler flag; a dash is put in front where there is none. -/
def flagArg (flag : String) : String :=
  if flag.toList.head? = some '-' then flag else "-" ++ flag

section

variable {m : Type → Type} [Monad m] [Host m]

/-- The sources that one entry of the files means: the matches of a pattern, or the entry itself. -/
def sourcesOf (root : Path) (entry : String) : Action m (List String) := do
  if Glob.isPattern entry.toList then
    let found ← Glob.files root entry.toList
    if found = [] then
      (Host.log .warn ("`" ++ entry ++ "` matched no files") : m Unit)
    return found.map fun p => String.ofList p.slashed
  else return [entry]

/-- The command that builds a project in a directory. -/
def compose (c : Manifest) (root : Path) : Action m Command := do
  if !c.hasSources then throw .noSources
  let sources := (← c.files.mapM (sourcesOf root)).flatten
  if sources = [] then throw .nothingMatched
  return ⟨c.compiler, ["-o", c.output] ++ sources ++ includeFlags c.includes ++
    c.libs.map ("-L" ++ ·) ++ c.libraries.map ("-l" ++ ·) ++ c.flags.map flagArg⟩

end

end Command
end CBuild
