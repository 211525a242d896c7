import CBuild.Failure
import CBuild.Machine.Image

/-! A machine as the system that the build helper runs on. -/

namespace CBuild

namespace Machine

/-- What stands at a location. The null device is read and written like a file, but is no regular one. -/
def kindOf (l : Location) : TreeEntry → FileKind
  | .directory => .directory
  | _ => if l = FileTree.nowhere then .other else .file

def isExecutable (m : Machine) (p : Path) : Bool :=
  match m.tree.find m.here p with
  | .ok (_, .file _ x) => x
  | _ => false

def namesIn (m : Machine) (p : Path) : Except OsError (List (List Char)) := do
  match ← m.tree.find m.here p with
  | (l, .directory) => return m.tree.namesIn l
  | _ => throw .notADirectory

def entryKindOf (l : Location) : TreeEntry → EntryKind
  | .file _ _ => if l = FileTree.nowhere then .other else .file
  | .directory => .directory
  | .link _ => .link

def entriesIn (m : Machine) (p : Path) : Except OsError (List (List Char × EntryKind)) := do
  match ← m.tree.find m.here p with
  | (l, .directory) => return (m.tree.entriesIn l).map fun (n, e) => (n, entryKindOf (l ++ [n]) e)
  | _ => throw .notADirectory

/-- A path on which every name goes down, or follows a link, has no more names than this. -/
def deepest (m : Machine) : Nat :=
  (FileTree.linkLimit + 1) * (m.tree.height + 1)

/-- Starts a program in a directory, and gives it nothing to read. -/
def start (i : Invocation) (m : Machine) : Except OsError ExitStatus × Machine :=
  if i.program.chars.contains '\x00' || i.args.any (·.toList.contains '\x00') then
    (.error .invalidArgument, m)
  else
    match m.tree.find m.here i.directory with
    | .ok (l, .directory) =>
      let inner := { m with here := l }
      let loaded : Except OsError (String × List (List Char)) := do
        let path ← inner.locate (programDirectories.map fun l => (pathOf l).chars) i.program.chars
        inner.load (nesting + 1) path (i.program.chars :: i.args.map String.toList)
      match loaded with
      | .error e => (.error e, m)
      | .ok (program, args) =>
        let (status, left) := m.programs program args inner.toState
        (.ok status, { m with toState := { left with here := m.here } })
    | .ok _ => (.error .notADirectory, m)
    | .error e => (.error e, m)

def log (level : Level) (s : String) (m : Machine) : Machine :=
  if level = .debug && !m.verbose then m else m.tell (Utf8.encode (level.line s))

def change (f : Machine → Except OsError FileTree) : StateM Machine (Except OsError Unit) := do
  let m ← get
  match f m with
  | .ok t =>
    set { m with tree := t }
    return .ok ()
  | .error e => return .error e

instance : Host (StateM Machine) where
  kind? p := do
    let m ← get
    return ((m.tree.find m.here p).toOption.map fun x => kindOf x.1 x.2)
  namesIn p := do return (← get).namesIn p
  entriesIn p := do return (← get).entriesIn p
  deepest := do return (← get).deepest
  readBytes p := do
    let m ← get
    return m.tree.readFile m.here p
  writeBytes p b := change fun m => m.tree.writeFile m.here p b
  makeDirectory p := change fun m => m.tree.makeDirectory m.here p
  removeFile p := change fun m => m.tree.removeFile m.here p
  isExecutable p := do return (← get).isExecutable p
  programDirectories := return Machine.programDirectories.map pathOf
  start i := modifyGet (start i)
  log level s := modify (log level s)
  workingDirectory := do return pathOf (← get).here
  print s := modify fun m => m.print (Utf8.encode s)
  tell s := modify fun m => m.tell (Utf8.encode s)

end Machine
end CBuild
