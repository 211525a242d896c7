import CBuild.Failure
import CBuild.Source.Suffix

/-! The source files of a project, in the order of their paths. A file is looked up by what its path ends in,
so a name may fit several files; the first in the order is meant. -/

namespace CBuild.Source

structure Record where
  path : Path
  relative : Path
  suffix : List Char
deriving DecidableEq

namespace Record

/-- The path as it is compared with names. -/
def key [PathText] (r : Record) : List Char :=
  r.path.slashed

def isHeader (r : Record) : Bool :=
  headerSuffixes.contains r.suffix

def stem [PathText] (r : Record) : List Char :=
  r.key.take (r.key.length - r.suffix.length)

def endsWith [PathText] (name : List Char) (r : Record) : Bool :=
  name.isSuffixOf r.key

end Record

structure Index where
  root : Path
  records : List Record

namespace Index

def candidates [PathText] (ix : Index) (name : List Char) : List Record :=
  ix.records.filter (Record.endsWith (Text.slashed name))

/-- The record that a name means. -/
def resolve? [PathText] (ix : Index) (name : List Char) : Option Record :=
  ix.records.find? (Record.endsWith (Text.slashed name))

/-- The implementation file paired with a header: the first suffix for which there is one counts. -/
def companion? [PathText] (ix : Index) (r : Record) : Option Record :=
  if r.isHeader then implementationSuffixes.findSome? fun s => ix.resolve? (r.stem ++ s) else none

/-- Keeps the first of neighbours with the same path. -/
def withoutRepeats : List Record → List Record
  | a :: b :: r =>
    if a.path.same b.path then withoutRepeats (a :: r) else a :: withoutRepeats (b :: r)
  | l => l
termination_by l => l.length

def record? (root relative : Path) : Option Record :=
  (relative.fileName?.bind suffixOf?).map fun s => ⟨root / relative, relative, s⟩

/-- The index of the files at some relative paths, which may come in any order. -/
def ofFiles (root : Path) (files : List Path) : Index :=
  ⟨root, withoutRepeats
    ((files.filterMap (record? root)).mergeSort fun a b => a.path.le b.path)⟩

variable {m : Type → Type} [Monad m] [Host m]

/-- The files below a directory, seen from it, down to a depth. What an entry is, its directory tells, so nothing is
asked of a path but whether a link leads to a file. Links to directories are passed by, like directories that cannot
be read, and devices. -/
def filesBelow (root : Path) : (depth : Nat) → (relative : List (List Char)) → m (List Path)
  | 0, _ => return []
  | depth + 1, relative => do
    let here (names : List (List Char)) : Path := ⟨['/'].intercalate names⟩
    match ← Host.entriesIn (if relative = [] then root else root / here relative) with
    | .error _ => return []
    | .ok entries =>
      let found ← entries.mapM fun (n, kind) => do
        let p := here (relative ++ [n])
        match kind with
        | .file => return [p]
        | .directory => filesBelow root depth (relative ++ [n])
        | .link => if ← Host.isFile (root / p) then return [p] else return []
        | .other => return []
      return found.flatten

/-- The index of all source files below a root, which must be a directory. -/
def build (root : Path) : Action m Index := do
  if ← (Host.isDirectory root : m Bool) then
    let depth ← (Host.deepest : m Nat)
    let ix := ofFiles root (← (filesBelow root (depth + 1) [] : m _))
    (Host.log .debug ("indexed " ++ toString ix.records.length ++ " source files under " ++
      root.toString) : m Unit)
    return ix
  else throw (.rootNotDirectory root)

end Index
end CBuild.Source
