import CBuild.Glob.Pattern
import CBuild.Host
import CBuild.Manifest.Schema

/-! Everything that can go wrong, by its cause, and what is said about it. -/

namespace CBuild

inductive FileAction
  | createDirectory
  | read
  | write
  | remove
  | execute
  | readSource
deriving DecidableEq

inductive Failure
  | rootNotDirectory (root : Path)
  | refused (action : FileAction) (path : Path) (cause : OsError)
  | badConfig (path : Path) (cause : ManifestError)
  | badDocument
  | badPattern (pattern : List Char) (fault : Glob.Misplaced)
  | notTomlFile (path : Path)
  | configMissing (path : Path)
  | configExists (path : Path)
  | noSources
  | nothingMatched
  | compilerMissing (name : String)
  | buildFailed (command : String) (status : ExitStatus)
  | notBuilt (output : String)
  | programFailed (output : String) (status : ExitStatus)

namespace FileAction

def describe (p : Path) : FileAction → String
  | createDirectory => "failed to create directory: " ++ p.toString
  | read => "failed to read file: " ++ p.toString
  | write => "failed to write file: " ++ p.toString
  | remove => "failed to remove file: " ++ p.toString
  | execute => "failed to execute `" ++ p.toString ++ "`"
  | readSource => "failed to read " ++ p.toString

end FileAction

namespace Failure

def message : Failure → String
  | rootNotDirectory root => "project root is not a directory: " ++ root.toString
  | refused action path _ => action.describe path
  | badConfig path _ => "failed to parse config: " ++ path.toString
  | badDocument => "failed to parse config for editing"
  | badPattern pattern _ => "invalid glob pattern: " ++ String.ofList pattern
  | notTomlFile path => "config file must be a .toml file: " ++ path.toString
  | configMissing path =>
    "config file `" ++ path.toString ++ "` does not exist\n\nhelp: Run `pmk init` to create one"
  | configExists path =>
    "config file `" ++ path.toString ++
      "` already exists\n\nhelp: Run `pmk update --new` to recreate it"
  | noSources =>
    "nothing to build: `files` is empty\n\nhelp: List sources in `files`, or run `pmk generate <entry>`"
  | nothingMatched => "nothing to build: no file matched the `files` patterns"
  | compilerMissing name =>
    "compiler `" ++ name ++
      "` not found\n\nhelp: Install it or set `compiler` in the config file"
  | buildFailed command status =>
    "build failed: `" ++ command ++ "` exited with " ++ status.describe
  | notBuilt output =>
    "`" ++ output ++ "` has not been built yet\n\nhelp: Run `pmk run --build` to build it first"
  | programFailed output status => "`" ++ output ++ "` exited with " ++ status.describe

def cause? : Failure → Option String
  | refused _ _ cause => some cause.describe
  | badConfig _ .notToml => some "TOML parse error"
  | badConfig _ (.mismatch m) => some ("TOML parse error: " ++ m.message)
  | badDocument => some "TOML parse error"
  | badPattern _ fault =>
    some ("Pattern syntax error near position " ++ toString fault.position ++ ": " ++
      fault.kind.describe)
  | _ => none

def report (f : Failure) : String :=
  match f.cause? with
  | some c => f.message ++ ": " ++ c
  | none => f.message

end Failure

/-- What the operations of the build helper do: they ask the system, and may fail. -/
abbrev Action (m : Type → Type) := ExceptT Failure m

namespace Action

variable {m : Type → Type} [Monad m]

def attempt (action : FileAction) (p : Path) (request : m (Except OsError α)) : Action m α := do
  match ← (request : m _) with
  | .ok a => return a
  | .error e => throw (.refused action p e)

end Action
end CBuild
