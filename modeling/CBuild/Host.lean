import CBuild.Path
import CBuild.Text.Utf8

/-! What the build helper asks of the system it runs on. Files are named by paths; a relative path starts at
the directory the process runs in. -/

namespace CBuild

inductive OsError
  | notFound
  | badFormat
  | permissionDenied
  | alreadyExists
  | notADirectory
  | isADirectory
  | nameTooLong
  | tooManyLinks
  | notSupported
  | invalidName
  | invalidArgument
  | notText
  | wholeTree
deriving DecidableEq

namespace OsError

def reason : OsError → String
  | notFound => "No such file or directory"
  | badFormat => "Exec format error"
  | permissionDenied => "Permission denied"
  | alreadyExists => "File exists"
  | notADirectory => "Not a directory"
  | isADirectory => "Is a directory"
  | nameTooLong => "File name too long"
  | tooManyLinks => "Too many levels of symbolic links"
  | notSupported => "Operation not supported"
  | invalidName => "file name contained an unexpected NUL byte"
  | invalidArgument => "nul byte found in provided data"
  | notText => "stream did not contain valid UTF-8"
  | wholeTree => "failed to create whole tree"

/-- The number of an error that the operating system reports. The others are found without asking it. -/
def number? : OsError → Option Nat
  | notFound => some 2
  | badFormat => some 8
  | permissionDenied => some 13
  | alreadyExists => some 17
  | notADirectory => some 20
  | isADirectory => some 21
  | nameTooLong => some 36
  | tooManyLinks => some 40
  | notSupported => some 95
  | _ => none

def describe (e : OsError) : String :=
  match e.number? with
  | some n => e.reason ++ " (os error " ++ toString n ++ ")"
  | none => e.reason

end OsError

inductive FileKind
  | file
  | directory
  /-- A device, or whatever else is no regular file. -/
  | other
deriving DecidableEq

/-- What an entry of a directory is, as the directory lists it. -/
inductive EntryKind
  | file
  | directory
  | link
  | other
deriving DecidableEq

inductive ExitStatus
  | code (n : Nat)
  | signal (n : Nat)
deriving DecidableEq

namespace ExitStatus

def success (s : ExitStatus) : Bool :=
  s = .code 0

def signalName : Nat → String
  | 1 => " (SIGHUP)"
  | 2 => " (SIGINT)"
  | 3 => " (SIGQUIT)"
  | 4 => " (SIGILL)"
  | 5 => " (SIGTRAP)"
  | 6 => " (SIGABRT)"
  | 7 => " (SIGBUS)"
  | 8 => " (SIGFPE)"
  | 9 => " (SIGKILL)"
  | 10 => " (SIGUSR1)"
  | 11 => " (SIGSEGV)"
  | 12 => " (SIGUSR2)"
  | 13 => " (SIGPIPE)"
  | 14 => " (SIGALRM)"
  | 15 => " (SIGTERM)"
  | 16 => " (SIGSTKFLT)"
  | 24 => " (SIGXCPU)"
  | 25 => " (SIGXFSZ)"
  | 26 => " (SIGVTALRM)"
  | 27 => " (SIGPROF)"
  | 29 => " (SIGIO)"
  | 30 => " (SIGPWR)"
  | 31 => " (SIGSYS)"
  | _ => ""

def describe : ExitStatus → String
  | code n => "exit status: " ++ toString n
  | signal n => "signal: " ++ toString n ++ signalName n

instance : ToString ExitStatus := ⟨describe⟩

end ExitStatus

/-- A program to start: its path or name, its arguments, and the directory to start it in. -/
structure Invocation where
  program : Path
  args : List String
  directory : Path
deriving DecidableEq

inductive Level
  | debug
  | info
  | warn
deriving DecidableEq

namespace Level

def mark : Level → String
  | debug => "DEBUG "
  | info => " INFO "
  | warn => " WARN "

/-- Characters that a terminal would obey are written as escapes; line feeds are not among them. -/
def harmless (c : Char) : List Char :=
  let code := Nat.toDigits 16 c.toNat
  if "\x07\x08\x0c".toList.contains c then "\\x0".toList ++ code
  else if c = '\x1b' || c = '\x7f' then "\\x".toList ++ code
  else if 0x80 ≤ c.val && c.val ≤ 0x9f then "\\u\x7b".toList ++ code ++ ['}']
  else [c]

def line (l : Level) (s : String) : String :=
  l.mark ++ String.ofList (s.toList.flatMap harmless) ++ "\n"

end Level

class Host (m : Type → Type) where
  /-- What a path leads to, links followed, when it leads to anything. -/
  kind? : Path → m (Option FileKind)
  namesIn : Path → m (Except OsError (List (List Char)))
  /-- The names in a directory, each with what it names. Links are not followed. -/
  entriesIn : Path → m (Except OsError (List (List Char × EntryKind)))
  /-- No path with more names than this leads anywhere. -/
  deepest : m Nat
  readBytes : Path → m (Except OsError Bytes)
  /-- Puts bytes in place of what a file held, making the file if its directory is there. -/
  writeBytes : Path → Bytes → m (Except OsError Unit)
  makeDirectory : Path → m (Except OsError Unit)
  removeFile : Path → m (Except OsError Unit)
  isExecutable : Path → m Bool
  programDirectories : m (List Path)
  /-- Starts a program and waits for its end. -/
  start : Invocation → m (Except OsError ExitStatus)
  log : Level → String → m Unit
  workingDirectory : m Path
  print : String → m Unit
  tell : String → m Unit

namespace Host

variable {m : Type → Type} [Monad m] [Host m]

def exists? (p : Path) : m Bool := do
  return (← kind? p).isSome

def isFile (p : Path) : m Bool := do
  return (← kind? p) = some .file

def isDirectory (p : Path) : m Bool := do
  return (← kind? p) = some .directory

/-- A path of the same components, less a dot in front. -/
def plain (p : Path) : Path :=
  if p.isAbsolute then p else Path.ofComponents (p.components.dropWhile (· = .current))

/-- Whether there is a program of this name. A name of several components is a path; any other is looked for
in the program directories. -/
def findsProgram (name : String) : m Bool := do
  if name = "" then return false
  let p := Path.ofString name
  if p.components.length > 1 then isExecutable (plain p)
  else (← programDirectories).anyM fun d => isExecutable (d / p)

end Host
end CBuild
