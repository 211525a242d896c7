import CBuild.Text.Lines
import CBuild.Text.Utf8

/-! Paths as they are written. A path keeps its spelling; its components are what the spelling means:
empty parts and inner `.` parts mean nothing, a leading `.` and every `..` count. Joining, parents and
names work on the spelling, order and relative paths on the components. -/

namespace CBuild

inductive Component
  | root
  | current
  | parent
  | name (n : List Char)
deriving DecidableEq

structure Path where
  chars : List Char
deriving DecidableEq, Inhabited

/-- How the characters of paths are read as text. -/
class PathText where
  text : List Char → List Char

namespace PathText

instance ofText : PathText where
  text s := s

/-- Names are bytes, a character for each. What is no UTF-8 is replaced. -/
@[reducible]
def ofBytes : PathText where
  text s := Utf8.decodeLossy (s.map fun c => UInt8.ofNat c.toNat)

@[simp]
theorem text_ofText (s : List Char) : text s = s := rfl

end PathText

namespace Component

def text : Component → List Char
  | root => ['/']
  | current => ['.']
  | parent => ['.', '.']
  | name n => n

def compare : Component → Component → Ordering
  | root, root => .eq
  | root, _ => .lt
  | _, root => .gt
  | current, current => .eq
  | current, _ => .lt
  | _, current => .gt
  | parent, parent => .eq
  | parent, _ => .lt
  | _, parent => .gt
  | name a, name b => List.compareLex (fun c d => Ord.compare c.val d.val) a b

/-- What a part between slashes means, when it means anything. -/
def ofPart? (part : List Char) : Option Component :=
  if part = [] ∨ part = ['.'] then none
  else if part = ['.', '.'] then some parent
  else some (name part)

end Component

namespace Path

def ofString (s : String) : Path :=
  ⟨s.toList⟩

def toString (p : Path) : String :=
  String.ofList p.chars

instance : ToString Path := ⟨toString⟩

instance : Hashable Path := ⟨fun p => hash p.toString⟩

def parts (p : Path) : List (List Char) :=
  p.chars.splitOn '/'

def isAbsolute (p : Path) : Bool :=
  p.chars.head? = some '/'

/-- A path spelled `.` or starting with `./` begins at the current directory, and says so. -/
def startsHere (p : Path) : Bool :=
  p.parts.head? = some ['.']

def components (p : Path) : List Component :=
  let named := p.parts.filterMap Component.ofPart?
  if p.isAbsolute then .root :: named
  else if p.startsHere then .current :: named
  else named

/-- A path ends openly when a name can follow without a slash in between. -/
def endsOpen (p : Path) : Bool :=
  p.chars = [] ∨ p.chars.getLast? = some '/'

/-- `q` as seen from `p`; an absolute `q` is itself from everywhere. -/
def join (p q : Path) : Path :=
  if q.isAbsolute then q
  else if p.endsOpen then ⟨p.chars ++ q.chars⟩
  else ⟨p.chars ++ '/' :: q.chars⟩

instance : Div Path := ⟨join⟩

def ofName (n : List Char) : Path :=
  ⟨n⟩

def ofComponents (cs : List Component) : Path :=
  cs.foldl (fun p c => p / ofName c.text) ⟨[]⟩

/-- Parts that end a spelling without meaning anything. -/
def isIdle (part : List Char) : Bool :=
  part = [] ∨ part = ['.']

def dropIdleEnd (parts : List (List Char)) : List (List Char) :=
  (parts.reverse.dropWhile isIdle).reverse

/-- The part that a spelling is anchored by (the emptiness before a leading slash, or a leading `.`),
and the parts after it up to the last that means something. -/
def anchored (p : Path) : List (List Char) × List (List Char) :=
  if p.isAbsolute ∨ p.startsHere then (p.parts.take 1, dropIdleEnd (p.parts.drop 1))
  else ([], dropIdleEnd p.parts)

/-- The path without its last component. The top directory and the empty path have no parent. -/
def parent? (p : Path) : Option Path :=
  let (anchor, body) := p.anchored
  match dropIdleEnd body.dropLast with
  | [] =>
    if body ≠ [] then some (if p.isAbsolute then ⟨['/']⟩ else ⟨anchor.flatten⟩)
    else if p.startsHere then some ⟨[]⟩
    else none
  | kept => some ⟨['/'].intercalate (anchor ++ kept)⟩

def fileName? (p : Path) : Option (List Char) :=
  match p.anchored.2.getLast? with
  | some part => if part = ['.', '.'] then none else some part
  | none => none

/-- What follows the last dot of the file name, unless the name starts with that dot. -/
def extension? (p : Path) : Option (List Char) :=
  p.fileName?.bind fun n =>
    let tail := n.reverse.takeWhile (· ≠ '.')
    if tail.length + 1 < n.length then some tail.reverse else none

/-- The text of the spelling, with slashes for backslashes. -/
def slashed [PathText] (p : Path) : List Char :=
  Text.slashed (PathText.text p.chars)

def compare (p q : Path) : Ordering :=
  List.compareLex Component.compare p.components q.components

def le (p q : Path) : Bool :=
  (compare p q).isLE

/-- Two spellings name the same path when their components agree. -/
def same (p q : Path) : Bool :=
  p.components = q.components

end Path
end CBuild
