import CBuild.Machine.State

/-! What files start. A program of the machine itself is a file that holds its name behind a mark. A script
names its interpreter in its first line. -/

namespace CBuild

inductive Image
  | own (name : String)
  | script (interpreter : List Char) (argument : Option (List Char))
  | unknown
deriving DecidableEq

namespace Image

def mark : Bytes :=
  [0x7f, 0x45, 0x4c, 0x46]

def bytesOf (name : String) : Bytes :=
  mark ++ Utf8.encode name

def isBlank (c : Char) : Bool :=
  c = ' ' || c = '\t'

def headLength : Nat := 256

/-- The interpreter that a first line names after its mark. Without an end, the line must show where the
name of the interpreter ends. -/
def interpreter (hasEnd isWhole : Bool) (line : List Char) : Image :=
  let trimmed := if hasEnd then (line.reverse.dropWhile isBlank).reverse else line
  let named := trimmed.dropWhile isBlank
  let path := named.takeWhile (!isBlank ·)
  let rest := named.drop path.length
  if path = [] then .unknown
  else if !hasEnd && !isWhole && rest = [] then .unknown
  else .script path (if rest = [] then none else some (rest.dropWhile isBlank))

def ofBytes (b : Bytes) : Image :=
  if mark.isPrefixOf b then .own (String.ofList (Utf8.decodeLossy (b.drop mark.length)))
  else
    match b.take headLength with
    | 0x23 :: 0x21 :: r =>
      let r := r.takeWhile (· ≠ 0)
      let line := r.takeWhile (· ≠ 0x0a)
      interpreter (line.length < r.length) (b.length < headLength) (Utf8.decodeLossy line)
    | _ => .unknown

end Image

namespace Machine

def State.executableAt (m : State) (p : Path) : Except OsError Bytes := do
  match ← m.tree.find m.here p with
  | (_, .file b true) => return b
  | _ => throw .permissionDenied

/-- How many interpreters may stand between a script and a program. -/
def nesting : Nat := 5

/-- The program that a path starts, and its arguments, the first of which is the name it was started by. -/
def State.load (m : State) : (depth : Nat) → Path → List (List Char) →
    Except OsError (String × List (List Char))
  | 0, _, _ => throw .tooManyLinks
  | n + 1, p, args => do
    match Image.ofBytes (← m.executableAt p) with
    | .own name => return (name, args)
    | .unknown => throw .badFormat
    | .script interpreter argument =>
      m.load n ⟨interpreter⟩ (interpreter :: argument.toList ++ p.chars :: args.drop 1)

/-- The path of a program: the name itself when it has a slash, otherwise that of the first executable file
of this name in the directories. -/
def State.locate (m : State) (directories : List (List Char)) (name : List Char) : Except OsError Path :=
  if name.contains '/' then (m.executableAt ⟨name⟩).map fun _ => ⟨name⟩
  else if name = [] then .error .notFound
  else
    let candidates : List Path := directories.map fun d => if d = [] then ⟨name⟩ else ⟨d ++ '/' :: name⟩
    match candidates.find? fun p => (m.executableAt p).toOption.isSome with
    | some p => .ok p
    | none =>
      .error (if candidates.any fun p => match m.executableAt p with
        | .error .permissionDenied => true
        | _ => false then .permissionDenied else .notFound)

def programDirectories : List Location :=
  [["usr", "local", "sbin"], ["usr", "local", "bin"], ["usr", "sbin"], ["usr", "bin"], ["sbin"], ["bin"]].map
    (·.map String.toList)

end Machine
end CBuild
