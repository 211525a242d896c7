import CBuild.Toml.Lexeme
import CBuild.Toml.Quoted

/-! Keys and the dotted paths they form, with the way they are written. Inside a path each key carries
the space around it; the space around the whole path goes with its last key. -/

namespace CBuild.Toml

structure Key where
  name : List Char
  spelling : List Char
  /-- The space before and after the key where a dot adjoins it. -/
  inner : List Char × List Char
  /-- The space before and after the path that the key ends, if it has ended one. -/
  outer : Option (List Char × List Char)
deriving DecidableEq

namespace Key

def fresh (name : List Char) : Key :=
  ⟨name, quoteKey name, ([], []), none⟩

end Key

def names (path : List Key) : List (List Char) :=
  path.map Key.name

/-- The keys of a path with the dots between them, less the space around the whole. -/
def innerText : List Key → List Char
  | [] => []
  | [k] => k.spelling
  | k :: l :: r => k.spelling ++ k.inner.2 ++ '.' :: (l.inner.1 ++ innerText (l :: r))

/-- A path as it is written; `space` stands around one whose last key has never ended a path. -/
def pathText (space : List Char × List Char) (path : List Key) : List Char :=
  let around := (path.getLast?.bind Key.outer).getD space
  around.1 ++ innerText path ++ around.2

def simpleKey? (s : List Char) : Option ((List Char × List Char) × List Char) :=
  match s with
  | '"' :: r => (basicBody? r).map fun (t, rest) => ((t, consumed s rest), rest)
  | '\'' :: r => (literalBody? r).map fun (t, rest) => ((t, consumed s rest), rest)
  | _ =>
    let t := s.takeWhile isBareKeyChar
    if t = [] then none else some ((t, t), s.drop t.length)

def spacedKeys? (s : List Char) : Option (List Key × List Char) :=
  let before := s.takeWhile isSpace
  match simpleKey? (s.dropWhile isSpace) with
  | none => none
  | some ((name, spelling), r) =>
    let key : Key := ⟨name, spelling, (before, r.takeWhile isSpace), none⟩
    match r.dropWhile isSpace with
    | '.' :: r' =>
      if r'.length < s.length then (spacedKeys? r').map fun (ks, rest) => (key :: ks, rest)
      else none
    | r' => some ([key], r')
termination_by s.length

/-- Moves the space around the whole path to its last key. -/
def settle (path : List Key) : List Key :=
  let before := (path.head?.map fun k => k.inner.1).getD []
  let after := (path.getLast?.map fun k => k.inner.2).getD []
  let rec go (first : Bool) : List Key → List Key
    | [] => []
    | [k] => [{ k with inner := (if first then [] else k.inner.1, []), outer := some (before, after) }]
    | k :: r => { k with inner := (if first then [] else k.inner.1, k.inner.2) } :: go false r
  go true path

/-- Paths have fewer than 80 keys. -/
def keyLimit : Nat := 80

def keyPath? (s : List Char) : Option (List Key × List Char) :=
  (spacedKeys? s).bind fun (path, rest) =>
    if path.length < keyLimit then some (settle path, rest) else none

def lead (text : List Char) : List Key → List Key
  | [] => []
  | [k] => [{ k with outer := k.outer.map fun (b, a) => (text ++ b, a) }]
  | k :: r => k :: lead text r

end CBuild.Toml
