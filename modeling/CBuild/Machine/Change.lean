import CBuild.Machine.Lookup

/-! Requests that change a tree, and what the changes were. -/

namespace CBuild.FileTree

/-- A new entry at a location, in place of what was there unless that is a directory. -/
def set (t : FileTree) (l : Location) (e : TreeEntry) : Except OsError FileTree :=
  match l.getLast? with
  | none => .error .isADirectory
  | some n =>
    if h : t.IsDirectory l.dropLast ∧ ¬ t.IsDirectory (l.dropLast ++ [n]) then
      .ok (t.put l.dropLast n e h.1 h.2)
    else .error .isADirectory

/-- The location of the file that a path names. With `make`, an empty one is made under a free name. With
`clear`, the file loses its content. -/
def openFile (t : FileTree) (here : Location) (p : Path) (make clear : Bool) :
    Except OsError (FileTree × Location) := do
  match ← t.place here p true with
  | .found l =>
    match t.get? l with
    | some (.file _ x) => return (← if clear then t.set l (.file [] x) else .ok t, l)
    | _ => throw .isADirectory
  | .free d n asDirectory =>
    if !make then throw .notFound
    else if asDirectory then throw .isADirectory
    else return (← t.set (d ++ [n]) (.file [] false), d ++ [n])

def append (t : FileTree) (l : Location) (b : Bytes) : FileTree :=
  match t.get? l with
  | some (.file c x) => (t.set l (.file (c ++ b) x)).toOption.getD t
  | _ => t

def readFile (t : FileTree) (here : Location) (p : Path) : Except OsError Bytes := do
  match ← t.find here p with
  | (_, .file b _) => return b
  | _ => throw .isADirectory

/-- Where the null device is. -/
def nowhere : Location :=
  ["dev".toList, "null".toList]

/-- Bytes in place of what a file holds. Nothing is ever kept of what is written nowhere. -/
def writeFile (t : FileTree) (here : Location) (p : Path) (b : Bytes) : Except OsError FileTree := do
  let (u, l) ← t.openFile here p true true
  return if l = nowhere then u else u.append l b

def withoutEndSlashes (p : Path) : Path :=
  match p.chars.reverse.dropWhile (· = '/') with
  | [] => p
  | r => ⟨r.reverse⟩

def makeDirectory (t : FileTree) (here : Location) (p : Path) : Except OsError FileTree := do
  match ← t.place here (withoutEndSlashes p) false with
  | .found _ => throw .alreadyExists
  | .free d n _ => t.set (d ++ [n]) .directory

def makeLink (t : FileTree) (here : Location) (p target : Path) : Except OsError FileTree := do
  match ← t.place here p false with
  | .found _ => throw .alreadyExists
  | .free d n asDirectory => if asDirectory then throw .notFound else t.set (d ++ [n]) (.link target)

def removeFile (t : FileTree) (here : Location) (p : Path) : Except OsError FileTree := do
  match ← t.place here p false with
  | .found l => if h : t.IsDirectory l then throw .isADirectory else return t.remove l h
  | .free _ _ _ => throw .notFound

def removeAll (t : FileTree) (here : Location) (p : Path) : Except OsError FileTree := do
  match ← t.place here p false with
  | .found l => return t.prune l
  | .free _ _ _ => throw .notFound

def setExecutable (t : FileTree) (here : Location) (p : Path) (x : Bool) :
    Except OsError FileTree := do
  match ← t.find here p with
  | (l, .file b _) => t.set l (.file b x)
  | _ => return t

def ofEntries (entries : List (Location × TreeEntry)) : FileTree :=
  entries.foldl (fun t (l, e) => (t.set l e).toOption.getD t) empty

def below (t : FileTree) (l : Location) : List (Location × TreeEntry) :=
  t.entries.filterMap fun (k, e) =>
    if l.isPrefixOf k && l.length < k.length then some (k.drop l.length, e) else none

end CBuild.FileTree
