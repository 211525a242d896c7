import CBuild.Utility.Streams

/-! Regular expressions in their two spellings, and the parts of a text that they match. -/

namespace CBuild

inductive Regex
  | char (c : Char)
  | any
  | among (isNegated : Bool) (ranges : List (Char × Char))
  | start
  | finish
  | wordStart
  | wordEnd
  | boundary
  | again (group : Nat)
  | group (number : Nat) (alternatives : List (List Regex))
  | repeated (r : Regex) (least : Nat) (most : Option Nat)

namespace Regex

structure Source where
  rest : List Char
  groups : Nat := 0

abbrev Reading := StateT Source Option

def advance (rest : List Char) : Reading Unit :=
  modify fun s => { s with rest := rest }

def bracket : (fuel : Nat) → (isFirst : Bool) → List Char → Option (List (Char × Char) × List Char)
  | 0, _, _ => none
  | _, _, [] => none
  | n + 1, isFirst, c :: r =>
    if c = ']' && !isFirst then some ([], r)
    else
      let named := r.drop 1 |>.takeWhile (· ≠ ':')
      match if c = '[' && r.head? = some ':' then Utility.characterClass? (String.ofList named) else none with
      | some f =>
        let singles := (((List.range 128).map Char.ofNat).filter f).map fun c => (c, c)
        (bracket n false (r.drop (named.length + 3))).map fun (l, x) => (singles ++ l, x)
      | none =>
        match c, r with
        | '\\', 'n' :: rest => (bracket n false rest).map fun (l, x) => (('\n', '\n') :: l, x)
        | '\\', 't' :: rest => (bracket n false rest).map fun (l, x) => (('\t', '\t') :: l, x)
        | _, '-' :: d :: rest =>
          if d = ']' then (bracket n false r).map fun (l, x) => ((c, c) :: l, x)
          else (bracket n false rest).map fun (l, x) => ((c, d) :: l, x)
        | _, _ => (bracket n false r).map fun (l, x) => ((c, c) :: l, x)

def bounds? (isExtended : Bool) (s : List Char) : Option (Nat × Option Nat × List Char) :=
  let number (s : List Char) : Option Nat := (String.ofList s).toNat?
  let least := s.takeWhile Char.isDigit
  let close (r : List Char) (a : Nat) (b : Option Nat) : Option (Nat × Option Nat × List Char) :=
    match isExtended, r with
    | true, '}' :: r => some (a, b, r)
    | false, '\\' :: '}' :: r => some (a, b, r)
    | _, _ => none
  match s.drop least.length with
  | ',' :: r =>
    let most := r.takeWhile Char.isDigit
    close (r.drop most.length) ((number least).getD 0) (number most)
  | r =>
    match number least with
    | some n => close r n (some n)
    | none => none

def wordRanges : List (Char × Char) :=
  [('a', 'z'), ('A', 'Z'), ('0', '9'), ('_', '_')]

def blankRanges : List (Char × Char) :=
  [(' ', ' '), ('\t', '\r')]

def escaped : Char → Regex
  | 'n' => char '\n'
  | 't' => char '\t'
  | 'w' => among false wordRanges
  | 'W' => among true wordRanges
  | 's' => among false blankRanges
  | 'S' => among true blankRanges
  | 'b' => boundary
  | '<' => wordStart
  | '>' => wordEnd
  | c => if c.isDigit && c ≠ '0' then again (c.toNat - 48) else char c

def suffixes (isExtended : Bool) : (fuel : Nat) → Regex → Reading Regex
  | 0, r => return r
  | n + 1, r => do
    let s := (← get).rest
    let goOn (least : Nat) (most : Option Nat) (rest : List Char) : Reading Regex := do
      advance rest
      suffixes isExtended n (repeated r least most)
    let braces (rest : List Char) : Reading Regex := do
      let (a, b, rest) ← bounds? isExtended rest
      goOn a b rest
    match isExtended, s with
    | _, '*' :: rest => goOn 0 none rest
    | true, '+' :: rest => goOn 1 none rest
    | true, '?' :: rest => goOn 0 (some 1) rest
    | true, '{' :: rest => braces rest
    | false, '\\' :: '+' :: rest => goOn 1 none rest
    | false, '\\' :: '?' :: rest => goOn 0 (some 1) rest
    | false, '\\' :: '{' :: rest => braces rest
    | _, _ => return r

def sequenceEnds (isExtended : Bool) : List Char → Bool
  | [] => true
  | '\\' :: '|' :: _ | '\\' :: ')' :: _ => !isExtended
  | '|' :: _ => isExtended
  | _ => false

mutual

def alternatives (isExtended : Bool) : (fuel : Nat) → (depth : Nat) → Reading (List (List Regex))
  | 0, _ => failure
  | n + 1, depth => do
    let a ← sequence isExtended n depth true
    match isExtended, (← get).rest with
    | true, '|' :: rest =>
      advance rest
      return a :: (← alternatives isExtended n depth)
    | false, '\\' :: '|' :: rest =>
      advance rest
      return a :: (← alternatives isExtended n depth)
    | _, _ => return [a]

def sequence (isExtended : Bool) : (fuel : Nat) → (depth : Nat) → (isFirst : Bool) → Reading (List Regex)
  | 0, _, _ => failure
  | n + 1, depth, isFirst => do
    let s := (← get).rest
    if sequenceEnds isExtended s || isExtended && depth > 0 && s.head? = some ')' then return []
    let item (r : Regex) (rest : List Char) : Reading (List Regex) := do
      advance rest
      let r ← suffixes isExtended n r
      return r :: (← sequence isExtended n depth false)
    let anchor (r : Regex) (rest : List Char) : Reading (List Regex) := do
      advance rest
      return r :: (← sequence isExtended n depth isFirst)
    let open_ (rest : List Char) : Reading (List Regex) := do
      let k := (← get).groups + 1
      set ({ rest := rest, groups := k } : Source)
      let inner ← alternatives isExtended n (depth + 1)
      match isExtended, (← get).rest with
      | true, ')' :: rest => item (group k inner) rest
      | false, '\\' :: ')' :: rest => item (group k inner) rest
      | _, _ => failure
    match s with
    | [] => return []
    | '\\' :: [] => failure
    | '\\' :: c :: rest =>
      if !isExtended && c = '(' then open_ rest
      else if !isExtended && c = '{' then failure
      else item (escaped c) rest
    | '(' :: rest => if isExtended then open_ rest else item (char '(') rest
    | '[' :: rest =>
      let isNegated := rest.head? = some '^'
      let inner := if isNegated then rest.drop 1 else rest
      let (ranges, rest) ← bracket (inner.length + 1) true inner
      item (among isNegated ranges) rest
    | '.' :: rest => item any rest
    | '^' :: rest => if isExtended || isFirst then anchor start rest else item (char '^') rest
    | '$' :: rest =>
      if isExtended || sequenceEnds isExtended rest then anchor finish rest else item (char '$') rest
    | c :: rest => item (char c) rest

end

def parse? (isExtended : Bool) (s : List Char) : Option Regex :=
  match (alternatives isExtended (4 * s.length + 8) 0).run { rest := s } with
  | some (as, ⟨[], _⟩) => some (group 0 as)
  | _ => none

/-- Where matching is: what lies behind, the nearest first, what lies ahead, and what groups matched. -/
structure Place where
  behind : List Char
  ahead : List Char
  groups : List (Nat × List Char) := []

def isWordChar (c : Char) : Bool :=
  c.isAlphanum || c = '_'

def sameChar (ignoresCase : Bool) (c d : Char) : Bool :=
  c = d || ignoresCase && c.toLower = d.toLower

def step (p : Place) (fits : Char → Bool) (k : Place → Option Place) : Option Place :=
  match p.ahead with
  | c :: r => if fits c then k { p with behind := c :: p.behind, ahead := r } else none
  | [] => none

def takeText (ignoresCase : Bool) : List Char → Place → Option Place
  | [], p => some p
  | c :: r, p =>
    match p.ahead with
    | d :: rest =>
      if sameChar ignoresCase c d then takeText ignoresCase r { p with behind := d :: p.behind, ahead := rest }
      else none
    | [] => none

/-- Matches an expression and goes on with what follows it. More is tried before less. -/
def matchThen (ignoresCase : Bool) : (fuel : Nat) → Regex → Place → (Place → Option Place) → Option Place
  | 0, _, _, _ => none
  | n + 1, r, p, k =>
    let startsWord := (p.ahead.head?.map isWordChar).getD false
    let endsWord := (p.behind.head?.map isWordChar).getD false
    match r with
    | char c => step p (sameChar ignoresCase c) k
    | any => step p (fun _ => true) k
    | among isNegated ranges =>
      let within (c : Char) : Bool := ranges.any fun (a, b) => a ≤ c && c ≤ b
      step p (fun c =>
        isNegated ^^ (within c || ignoresCase && (within c.toLower || within c.toUpper))) k
    | start => if p.behind = [] then k p else none
    | finish => if p.ahead = [] then k p else none
    | wordStart => if startsWord && !endsWord then k p else none
    | wordEnd => if endsWord && !startsWord then k p else none
    | boundary => if startsWord != endsWord then k p else none
    | again g => (takeText ignoresCase ((p.groups.lookup g).getD []) p).bind k
    | group g alternatives =>
      let before := p.ahead.length
      alternatives.findSome? fun rs =>
        let finish (q : Place) : Option Place :=
          k { q with groups := (g, p.ahead.take (before - q.ahead.length)) :: q.groups }
        (rs.foldr (fun r k => fun q => matchThen ignoresCase n r q k) finish) p
    | repeated r least most =>
      let more : Option Place :=
        if most = some 0 then none
        else
          matchThen ignoresCase n r p fun q =>
            if q.ahead.length = p.ahead.length then none
            else matchThen ignoresCase n (repeated r (least - 1) (most.map (· - 1))) q k
      match more with
      | some q => some q
      | none => if least = 0 then k p else none

def search (ignoresCase : Bool) (r : Regex) : Place → (fuel : Nat) → Option (List Char × Place)
  | _, 0 => none
  | p, n + 1 =>
    match matchThen ignoresCase (20 * (p.ahead.length + 10)) r p some with
    | some q => some (p.behind, q)
    | none =>
      match p.ahead with
      | [] => none
      | c :: rest => search ignoresCase r { behind := c :: p.behind, ahead := rest } n

def occursIn (ignoresCase : Bool) (r : Regex) (s : List Char) : Bool :=
  (search ignoresCase r { behind := [], ahead := s } (s.length + 1)).isSome

/-- Something in place of matches: of the one with the number given, and with `all` of those after it. The
result tells whether there was any. -/
def substitute (ignoresCase all : Bool) (r : Regex) (by_ : (Nat → List Char) → List Char) (which : Nat)
    (s : List Char) : List Char × Bool :=
  go (s.length + 2) 1 { behind := [], ahead := s } false
where
  go : Nat → Nat → Place → Bool → List Char × Bool
    | 0, _, p, _ => (p.ahead, false)
    | n + 1, k, p, afterMatch =>
      match search ignoresCase r p (p.ahead.length + 1) with
      | none => (p.ahead, false)
      | some (behind, q) =>
        let before := (behind.take (behind.length - p.behind.length)).reverse
        let matched := (q.groups.lookup 0).getD []
        let isEmpty := matched = []
        -- Nothing is matched right behind a match.
        let counts := !(isEmpty && afterMatch && before = [])
        let isWanted := counts && (if all then k ≥ which else k = which)
        let shown := if isWanted then by_ fun g => (q.groups.lookup g).getD [] else matched
        let k' := if counts then k + 1 else k
        if isWanted && !all then (before ++ shown ++ q.ahead, true)
        else if isEmpty then
          match q.ahead with
          | [] => (before ++ shown, isWanted)
          | c :: rest =>
            let (tail, found) := go n k' { behind := c :: q.behind, ahead := rest } false
            (before ++ shown ++ c :: tail, isWanted || found)
        else
          let (tail, found) := go n k' { behind := q.behind, ahead := q.ahead } true
          (before ++ shown ++ tail, isWanted || found)

end Regex
end CBuild
