import CBuild.Shell.State
import CBuild.Text.Wildcard

/-! What words become before a command runs. Every character knows where it comes from: only values split
into fields, and nothing that was quoted matches file names. -/

namespace CBuild.Shell

inductive Origin
  | script
  | quoted
  | value
deriving DecidableEq

inductive Item
  | char (c : Char) (o : Origin)
  | border
  | held
deriving DecidableEq

def itemsOf (o : Origin) (s : List Char) : List Item :=
  s.map fun c => .char c o

def textOf (items : List Item) : List Char :=
  items.filterMap fun
    | .char c _ => some c
    | .border => some ' '
    | .held => none

abbrev Field := List (Char × Bool)

namespace Field

def text (f : Field) : List Char :=
  f.map Prod.fst

end Field

def patternOf (items : List Item) : List Wildcard :=
  Wildcard.ofChars (items.filterMap fun
    | .char c o => some (c, o ≠ .quoted)
    | .border => some (' ', false)
    | .held => none)

/-- The fields so far, the one that goes on, and whether white space ended the last one. -/
structure Fields where
  complete : List Field := []
  current : Option Field := none
  afterBlank : Bool := false

namespace Fields

def close (f : Fields) : Fields :=
  { f with complete := f.current.toList ++ f.complete, current := none }

/-- White space only ends a field that has begun; any other separator ends one, begun or not. -/
def add (separators : List Char) (f : Fields) : Item → Fields
  | .held => { f with current := some (f.current.getD []), afterBlank := false }
  | .border => { f.close with afterBlank := false }
  | .char c o =>
    if o = .value && separators.contains c then
      if c = ' ' || c = '\t' || c = '\n' then
        if f.current.isSome then { f.close with afterBlank := true } else f
      else if f.current.isNone && f.afterBlank then { f with afterBlank := false }
      else { complete := f.current.getD [] :: f.complete, current := none, afterBlank := false }
    else { f with current := some ((c, o ≠ .quoted) :: f.current.getD []), afterBlank := false }

end Fields

def fieldsOf (separators : List Char) (items : List Item) : List Field :=
  ((items.foldl (Fields.add separators) {}).close.complete.map List.reverse).reverse

def sortNames (names : List (List Char)) : List (List Char) :=
  names.mergeSort fun a b => (compare (String.ofList a) (String.ofList b)).isLE

def pathsFrom (m : Machine.State) (start : List Char) : List Field → List (List Char)
  | [] => [start]
  | f :: rest =>
    let pattern := Wildcard.ofChars f
    let goOn (name : List Char) : List (List Char) :=
      if rest.isEmpty then [start ++ name] else pathsFrom m (start ++ name ++ ['/']) rest
    if !Wildcard.isWild pattern then goOn f.text
    else
      match m.tree.find m.here ⟨if start = [] then ['.'] else start⟩ with
      | .ok (l, .directory) =>
        let special := if f.head?.map Prod.fst = some '.' then [['.'], ['.', '.']] else []
        let names := (special ++ m.tree.namesIn l).filter fun n =>
          (n.head? ≠ some '.' || f.head?.map Prod.fst = some '.') && Wildcard.matchesText pattern n
        names.flatMap goOn
      | _ => []

def isThere (m : Machine.State) (path : List Char) : Bool :=
  match m.tree.place m.here ⟨path⟩ (path.getLast? = some '/') with
  | .ok (.found _) => true
  | _ => false

/-- The names that a field matches, or else the field itself. -/
def pathsOf (m : Machine.State) (f : Field) : List (List Char) :=
  if !Wildcard.isWild (Wildcard.ofChars f) then [f.text]
  else
    let components := (f.splitOnP fun c => c.1 = '/')
    match (pathsFrom m [] components).filter (isThere m) with
    | [] => [f.text]
    | found => sortNames found

end CBuild.Shell
