import CBuild.Shell.Arithmetic
import CBuild.Shell.Field

/-! The values of words. What scripts in them print is found by a function that is given. -/

namespace CBuild.Shell

/-- How a part of a word is taken: whether it is quoted, and whether its own text counts as a value. -/
structure Taking where
  isQuoted : Bool := false
  isValue : Bool := false

namespace Taking

def origin (t : Taking) : Origin :=
  if t.isQuoted then .quoted else if t.isValue then .value else .script

def valueOrigin (t : Taking) : Origin :=
  if t.isQuoted then .quoted else .value

end Taking

def argumentItems (sh : Shell) (t : Taking) (isStar : Bool) : List Item :=
  if t.isQuoted && isStar then
    let between := match sh.value? "IFS".toList with
      | some s => s.take 1
      | none => [' ']
    itemsOf .quoted (joined between sh.args)
  else
    [Item.border].intercalate (sh.args.map fun a =>
      (if t.isQuoted then [Item.held] else []) ++ itemsOf t.valueOrigin a)

def parameterItems? (sh : Shell) (t : Taking) (name : List Char) : Option (List Item) :=
  if name = ['@'] || name = ['*'] then
    if sh.args = [] then none else some (argumentItems sh t (name = ['*']))
  else (sh.parameter? name).map (itemsOf t.valueOrigin)

def sumVariable (name : List Char) : Work Int := do
  let text := ((← get).value? name).getD []
  match number? text with
  | some n => return n
  | none => fail ("Illegal number: " ++ String.ofList text)

def sumFault {α : Type} (text : List Char) (f : SumFault) : Work α :=
  fail ("arithmetic expression: " ++ f.message ++ ": \"" ++ String.ofList text ++ "\"")

def sumOf (text : List Char) : Work Int :=
  match Sum.parse text with
  | .error f => sumFault text f
  | .ok s =>
    s.value sumVariable (fun name n => assign name (toString n).toList) (sumFault text)

/-- The length of the part that a pattern takes from the front of a text. -/
def matchLength? (longest : Bool) (pattern : List Wildcard) (s : List Char) : Option Nat :=
  let lengths := List.range (s.length + 1)
  (if longest then lengths.reverse else lengths).find? fun k => Wildcard.matchesText pattern (s.take k)

def cutFront (longest : Bool) (pattern : List Wildcard) (s : List Char) : List Char :=
  s.drop ((matchLength? longest pattern s).getD 0)

def cutBack (longest : Bool) (pattern : List Wildcard) (s : List Char) : List Char :=
  let lengths := List.range (s.length + 1)
  match (if longest then lengths else lengths.reverse).find? fun k =>
    Wildcard.matchesText pattern (s.drop k) with
  | some k => s.take k
  | none => s

def trimmed (printed : Bytes) : List Char :=
  let s := (Utf8.decodeLossy printed).filter (· ≠ '\x00')
  (s.reverse.dropWhile (· = '\n')).reverse

def notSet {α : Type} (name : List Char) (nullCounts : Bool) : Work α :=
  fail (String.ofList name ++ ": parameter not set" ++ if nullCounts then " or null" else "")

/-- Whether these are the arguments, quoted, when there are none: they leave nothing behind. -/
def vanishes (sh : Shell) : List Part → Bool
  | [.parameter name .value _ _] => name = ['@'] && sh.args.isEmpty
  | _ => false

mutual

def partItems (output : List Script → Work Bytes) (t : Taking) : Part → Work (List Item)
  | .text s => return itemsOf t.origin s
  | .literal s => return .held :: itemsOf .quoted s
  | .quotation ps => do
    if vanishes (← get) ps then return []
    return .held :: (← items output { isQuoted := true } ps)
  | .output script => do
    return itemsOf t.valueOrigin (trimmed (← output script))
  | .arithmetic ps => do
    let text := textOf (← items output { isQuoted := true } ps)
    return itemsOf t.valueOrigin (toString (← sumOf text)).toList
  | .parameter name use nullCounts word => do
    let sh ← get
    let found := parameterItems? sh t name
    let isArguments := name = ['@'] || name = ['*']
    let known (v : Option (List Item)) : Work (List Item) :=
      match v with
      | some v => return v
      | none => if sh.hasOption 'u' && !isArguments then notSet name false else return []
    let filled : Option (List Item) :=
      match found with
      | some v => if nullCounts && textOf v = [] then none else some v
      | none => none
    match use with
    | .value => known found
    | .length =>
      let v ← known found
      return itemsOf t.valueOrigin (numberText (encode (textOf v)).length)
    | .cutFront longest =>
      let v ← known found
      let pattern := patternOf (← items output {} word)
      return itemsOf t.valueOrigin (cutFront longest pattern (textOf v))
    | .cutBack longest =>
      let v ← known found
      let pattern := patternOf (← items output {} word)
      return itemsOf t.valueOrigin (cutBack longest pattern (textOf v))
    | .orElse =>
      match filled with
      | some v => return v
      | none => items output { t with isValue := true } word
    | .ifSet =>
      match filled with
      | some _ => items output { t with isValue := true } word
      | none => return []
    | .orAssign =>
      match filled with
      | some v => return v
      | none =>
        if !isName name then fail (String.ofList name ++ ": bad variable name")
        let value := textOf (← items output { isValue := true } word)
        assign name value
        return itemsOf t.valueOrigin value
    | .orComplain =>
      match filled with
      | some v => return v
      | none =>
        if word.isEmpty then notSet name nullCounts
        let what := textOf (← items output { isValue := true } word)
        fail (String.ofList name ++ ": " ++ String.ofList what)
    | .wrong => fail "Bad substitution"

def items (output : List Script → Work Bytes) (t : Taking) : List Part → Work (List Item)
  | [] => return []
  | p :: rest => do
    let a ← partItems output t p
    return a ++ (← items output t rest)

end

def home? (sh : Shell) (user : List Char) : Option (List Char) :=
  if user = [] then sh.value? "HOME".toList
  else if user = "root".toList then some "/root".toList
  else none

def withHome (sh : Shell) : Word → Word
  | .text ('~' :: s) :: rest =>
    let user := s.takeWhile (· ≠ '/')
    let after := s.drop user.length
    match if after = [] && !rest.isEmpty then none else home? sh user with
    | some home => .literal home :: .text after :: rest
    | none => .text ('~' :: s) :: rest
  | w => w

section

variable (output : List Script → Work Bytes)

def wordText (w : Word) : Work (List Char) := do
  return textOf (← items output {} (withHome (← get) w))

def wordPattern (w : Word) : Work (List Wildcard) := do
  return patternOf (← items output {} (withHome (← get) w))

def wordFields (w : Word) : Work (List (List Char)) := do
  let sh ← get
  let is ← items output {} (withHome sh w)
  let sh ← get
  let fields := fieldsOf sh.separators is
  return if sh.hasOption 'f' then fields.map Field.text else fields.flatMap (pathsOf sh.machine.toState)

end

end CBuild.Shell
