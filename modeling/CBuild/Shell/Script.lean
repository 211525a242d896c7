import CBuild.Text.Utf8

/-! Scripts of a command language as trees. A word keeps how its parts were quoted, since only what stands
outside quotation marks is split into fields and matched against file names. -/

namespace CBuild.Shell

/-- What a stream of a command is joined to. -/
inductive Way
  | read
  | write
  | clobber
  | append
  | readWrite
  | copy
  | here
deriving DecidableEq

structure Redirection (Word : Type) where
  stream : Nat
  way : Way
  target : Word

/-- What becomes of the value of a parameter, given a word. -/
inductive Use
  | value
  | length
  | orElse
  | orAssign
  | orComplain
  | ifSet
  | cutFront (longest : Bool)
  | cutBack (longest : Bool)
  | wrong
deriving DecidableEq

mutual

inductive Part
  | text (s : List Char)
  | literal (s : List Char)
  | quotation (parts : List Part)
  | parameter (name : List Char) (use : Use) (nullCounts : Bool) (word : List Part)
  | output (script : List Script)
  | arithmetic (parts : List Part)

/-- A command. Lists of scripts run one after the other. -/
inductive Script
  | simple (line : Nat) (assigned : List (List Char × List Part)) (words : List (List Part))
      (redirections : List (Redirection (List Part)))
  | both (a b : Script)
  | either (a b : Script)
  | negated (a : Script)
  | pipe (stages : List Script)
  | background (a : Script)
  | choose (condition yes no : List Script)
  | each (line : Nat) (name : List Char) (words : Option (List (List Part))) (body : List Script)
  | loop (expected : Bool) (condition body : List Script)
  | select (line : Nat) (word : List Part) (branches : List (List (List Part) × List Script))
  | apart (line : Nat) (body : List Script)
  | grouped (body : List Script)
  | redirected (line : Nat) (body : Script) (redirections : List (Redirection (List Part)))
  | define (name : List Char) (body : Script)

end

abbrev Word := List Part

namespace Word

def cons (s : List Char) : Word → Word
  | .text t :: r => .text (s ++ t) :: r
  | w => .text s :: w

def bare? : Word → Option (List Char)
  | [] => some []
  | [.text s] => some s
  | _ => none

end Word

def isNameStart (c : Char) : Bool :=
  c.isAlpha || c = '_'

def isNameChar (c : Char) : Bool :=
  c.isAlphanum || c = '_'

def isName : List Char → Bool
  | c :: r => isNameStart c && r.all isNameChar
  | [] => false

def assignment? (s : List Char) : Option (List Char × List Char) :=
  let name := s.takeWhile isNameChar
  match s.drop name.length with
  | '=' :: value => if isName name then some (name, value) else none
  | _ => none

def Word.assignment? : Word → Option (List Char × Word)
  | .text s :: rest =>
    (Shell.assignment? s).map fun (name, value) => (name, if value = [] then rest else .text value :: rest)
  | _ => none

end CBuild.Shell
