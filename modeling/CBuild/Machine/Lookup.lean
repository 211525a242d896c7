import CBuild.Host
import CBuild.Machine.FileTree

/-! Where paths lead in a tree. Walking a path follows the links on the way, of which there may be forty. -/

namespace CBuild

/-- What a path names: something that is there, or a name that is free in a directory. A slash at the end
leaves room for a directory only. -/
inductive Place
  | found (l : Location)
  | free (directory : Location) (name : List Char) (asDirectory : Bool)
deriving DecidableEq

namespace FileTree

def linkLimit : Nat := 40

def nameLimit : Nat := 255

def pathLimit : Nat := 4095

def byteLength (s : List Char) : Nat :=
  s.foldl (fun n c => n + c.utf8Size) 0

/-- Walks from a directory along the parts of a path. A link at the very end is only followed when asked
for. -/
def walk (t : FileTree) (follow : Bool) (links : Nat) (here : Location) :
    List (List Char) → Except OsError Place
  | [] => .ok (.found here)
  | part :: rest =>
    if part = [] ∨ part = ['.'] then walk t follow links here rest
    else if part = ['.', '.'] then walk t follow links here.dropLast rest
    else if byteLength part > nameLimit then .error .nameTooLong
    else
      match t.get? (here ++ [part]) with
      | none =>
        if rest.all (· = []) then .ok (.free here part (rest ≠ [])) else .error .notFound
      | some .directory => walk t follow links (here ++ [part]) rest
      | some (.file _ _) =>
        if rest = [] then .ok (.found (here ++ [part])) else .error .notADirectory
      | some (.link target) =>
        if rest = [] && !follow then .ok (.found (here ++ [part]))
        else
          match links with
          | 0 => .error .tooManyLinks
          | n + 1 => walk t follow n (if target.isAbsolute then [] else here) (target.parts ++ rest)
termination_by parts => (links, parts.length)

def place (t : FileTree) (here : Location) (p : Path) (follow : Bool) : Except OsError Place :=
  if p.chars.contains '\x00' then .error .invalidName
  else if p.chars = [] then .error .notFound
  else if byteLength p.chars > pathLimit then .error .nameTooLong
  else t.walk follow linkLimit (if p.isAbsolute then [] else here) p.parts

def find (t : FileTree) (here : Location) (p : Path) : Except OsError (Location × TreeEntry) := do
  match ← t.place here p true with
  | .found l =>
    match t.get? l with
    | some e => return (l, e)
    | none => throw .notFound
  | .free _ _ _ => throw .notFound

end FileTree
end CBuild
