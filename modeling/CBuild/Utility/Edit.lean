import CBuild.Utility.Regex

/-! Editing a stream line by line, as a script of commands says. -/

namespace CBuild.Edit

inductive Address
  | line (n : Nat)
  | last
  | matching (r : Regex) (ignoresCase : Bool)
  | every (first step : Nat)
  | further (n : Nat)

inductive Piece
  | text (s : List Char)
  | group (n : Nat)
deriving DecidableEq

inductive Action
  | substitute (r : Regex) (ignoresCase : Bool) (by_ : List Piece) (all : Bool) (which : Nat) (prints : Bool)
      (file : Option (List Char))
  | transliterate (from_ into : List Char)
  | delete
  | deleteFirst
  | print
  | printFirst
  | quit (status : Nat) (isSilent : Bool)
  | append (s : List Char)
  | insert (s : List Char)
  | change (s : List Char)
  | next
  | appendNext
  | number
  | hold
  | appendHold
  | fetch
  | appendFetch
  | swap
  | label (s : List Char)
  | branch (label : List Char)
  | branchIfChanged (label : List Char)
  | branchUnlessChanged (label : List Char)
  | opening
  | closing
  | read (file : List Char)
  | write (file : List Char)

structure Command where
  from_ : Option Address
  upTo : Option Address
  isNegated : Bool
  action : Action

def delimited (d : Char) : (fuel : Nat) → (inBrackets : Bool) → List Char → Option (List Char × List Char)
  | 0, _, _ => none
  | _, _, [] => none
  | n + 1, inBrackets, '\\' :: c :: r =>
    let kept := if c = d && !inBrackets then (if d = 'n' then ['\\', c] else [c])
      else if c = '\n' then ['\n'] else ['\\', c]
    (delimited d n inBrackets r).map fun (a, b) => (kept ++ a, b)
  | n + 1, inBrackets, c :: r =>
    if c = d && !inBrackets then some ([], r)
    else
      let inBrackets := if c = '[' then true else if c = ']' then false else inBrackets
      (delimited d n inBrackets r).map fun (a, b) => (c :: a, b)

def pieces : List Char → List Piece
  | '\\' :: c :: r =>
    if c.isDigit then .group (c.toNat - 48) :: pieces r
    else if c = 'n' then .text ['\n'] :: pieces r
    else if c = 't' then .text ['\t'] :: pieces r
    else .text [c] :: pieces r
  | '&' :: r => .group 0 :: pieces r
  | c :: r => .text [c] :: pieces r
  | [] => []

structure Source where
  rest : List Char
  former : Option Regex := none

abbrev Reading := StateT Source Option

def advance (rest : List Char) : Reading Unit :=
  modify fun s => { s with rest := rest }

def isBlank (c : Char) : Bool :=
  c = ' ' || c = '\t'

def expression (isExtended : Bool) (s : List Char) : Reading Regex := do
  if s = [] then
    match (← get).former with
    | some r => return r
    | none => failure
  let r ← Regex.parse? isExtended s
  modify fun s => { s with former := some r }
  return r

def address? (isExtended : Bool) : Reading (Option Address) := do
  let s := (← get).rest
  let digits := s.takeWhile Char.isDigit
  let pattern (d : Char) (r : List Char) : Reading (Option Address) := do
    let (text, rest) ← delimited d (r.length + 1) false r
    let e ← expression isExtended text
    let flags := rest.takeWhile fun c => c = 'I' || c = 'M'
    advance (rest.drop flags.length)
    return some (.matching e (flags.contains 'I'))
  if digits ≠ [] then
    let n := ((String.ofList digits).toNat?).getD 0
    match s.drop digits.length with
    | '~' :: r =>
      let step := r.takeWhile Char.isDigit
      advance (r.drop step.length)
      return some (.every n (((String.ofList step).toNat?).getD 0))
    | r =>
      advance r
      return some (.line n)
  match s with
  | '$' :: r =>
    advance r
    return some .last
  | '/' :: r => pattern '/' r
  | '\\' :: d :: r => pattern d r
  | '+' :: r =>
    let n := r.takeWhile Char.isDigit
    if n = [] then failure
    advance (r.drop n.length)
    return some (.further (((String.ofList n).toNat?).getD 0))
  | _ => return none

def skipBlanks : Reading Unit :=
  modify fun s => { s with rest := s.rest.dropWhile isBlank }

def shownText (s : List Char) : List Char × List Char :=
  let s := s.dropWhile isBlank
  let s := match s with
    | '\\' :: '\n' :: r => r
    | '\\' :: r => r
    | s => s
  go s
where
  go : List Char → List Char × List Char
    | [] => ([], [])
    | '\\' :: c :: r =>
      let (a, b) := go r
      (c :: a, b)
    | '\n' :: r => ([], r)
    | c :: r =>
      let (a, b) := go r
      (c :: a, b)

def name : Reading (List Char) := do
  skipBlanks
  let s := (← get).rest
  let a := s.takeWhile fun c => c ≠ '\n' && c ≠ ';'
  advance (s.drop a.length)
  return (a.reverse.dropWhile isBlank).reverse

def fileName : Reading (List Char) := do
  skipBlanks
  let s := (← get).rest
  let a := s.takeWhile (· ≠ '\n')
  advance (s.drop a.length)
  return a

def substitution (isExtended : Bool) : Reading Action := do
  match (← get).rest with
  | d :: r =>
    if d = '\n' || d = '\\' then failure
    let (pattern, r) ← delimited d (r.length + 1) false r
    let rec replaced : Nat → List Char → Option (List Char × List Char)
      | 0, _ => none
      | _, [] => none
      | n + 1, '\\' :: c :: r =>
        (replaced n r).map fun (a, b) => ((if c = d && !c.isDigit && c ≠ '&' then [c] else ['\\', c]) ++ a, b)
      | n + 1, c :: r => if c = d then some ([], r) else (replaced n r).map fun (a, b) => (c :: a, b)
    let (text, r) ← replaced (r.length + 1) r
    let e ← expression isExtended pattern
    let flags := r.takeWhile fun c => c.isDigit || "gpiIeMm".toList.contains c
    advance (r.drop flags.length)
    let digits := flags.filter Char.isDigit
    let file ← match (← get).rest with
      | 'w' :: r => do
        advance r
        pure (some (← fileName))
      | _ => pure none
    return .substitute e (flags.any fun c => c = 'i' || c = 'I') (pieces text) (flags.contains 'g')
      (((String.ofList digits).toNat?).getD 1) (flags.contains 'p') file
  | [] => failure

def action (isExtended : Bool) (c : Char) : Reading Action := do
  let shown (f : List Char → Action) : Reading Action := do
    let (text, rest) := shownText (← get).rest
    advance ('\n' :: rest)
    return f text
  match c with
  | 's' => substitution isExtended
  | 'y' =>
    match (← get).rest with
    | d :: r =>
      let (a, r) ← delimited d (r.length + 1) false r
      let (b, r) ← delimited d (r.length + 1) false r
      advance r
      let plain (s : List Char) : List Char := (pieces s).flatMap fun
        | .text s => s
        | .group _ => ['&']
      if (plain a).length ≠ (plain b).length then failure
      return .transliterate (plain a) (plain b)
    | [] => failure
  | 'd' => return .delete
  | 'D' => return .deleteFirst
  | 'p' => return .print
  | 'P' => return .printFirst
  | 'q' | 'Q' =>
    skipBlanks
    let s := (← get).rest
    let digits := s.takeWhile Char.isDigit
    advance (s.drop digits.length)
    return .quit (((String.ofList digits).toNat?).getD 0) (c = 'Q')
  | 'a' => shown .append
  | 'i' => shown .insert
  | 'c' => shown .change
  | 'n' => return .next
  | 'N' => return .appendNext
  | '=' => return .number
  | 'h' => return .hold
  | 'H' => return .appendHold
  | 'g' => return .fetch
  | 'G' => return .appendFetch
  | 'x' => return .swap
  | ':' => return .label (← name)
  | 'b' => return .branch (← name)
  | 't' => return .branchIfChanged (← name)
  | 'T' => return .branchUnlessChanged (← name)
  | '{' => return .opening
  | '}' => return .closing
  | 'r' => return .read (← fileName)
  | 'w' => return .write (← fileName)
  | _ => failure

def commands (isExtended : Bool) : (fuel : Nat) → Reading (List Command)
  | 0 => failure
  | n + 1 => do
    modify fun s => { s with rest := s.rest.dropWhile fun c => isBlank c || c = '\n' || c = ';' }
    match (← get).rest with
    | [] => return []
    | '#' :: r =>
      advance (r.dropWhile (· ≠ '\n'))
      commands isExtended n
    | _ =>
      let from_ ← address? isExtended
      skipBlanks
      let upTo ← match from_, (← get).rest with
        | some _, ',' :: r => do
          advance r
          skipBlanks
          match ← address? isExtended with
          | some a => pure (some a)
          | none => failure
        | _, _ => pure none
      skipBlanks
      let negations := (← get).rest.takeWhile fun c => c = '!' || isBlank c
      modify fun s => { s with rest := s.rest.drop negations.length }
      match (← get).rest with
      | [] => failure
      | c :: r =>
        advance r
        let a ← action isExtended c
        let endsItself := c = '{' || c = '}'
        skipBlanks
        match (← get).rest with
        | [] => pure ()
        | d :: _ =>
          if !endsItself && d ≠ '\n' && d ≠ ';' && d ≠ '}' && d ≠ '#' then failure
        return ⟨from_, upTo, negations.contains '!', a⟩ :: (← commands isExtended n)

structure State where
  pattern : List Char := []
  held : List Char := []
  ahead : List (List Char) := []
  line : Nat := 0
  out : List Char := []
  queue : List Char := []
  hasChanged : Bool := false
  /-- The ranges that are open, by command, with the line each ends at if that is known. -/
  open_ : List (Nat × Option Nat) := []
  files : List (List Char × List Char) := []
  status : Nat := 0

def Address.holds (s : State) : Address → Bool
  | line n => s.line = n
  | last => s.ahead.isEmpty
  | matching r i => r.occursIn i s.pattern
  | every first step => if step = 0 then s.line = first else s.line ≥ first && (s.line - first) % step = 0
  | further _ => false

def selected (k : Nat) (c : Command) (s : State) : Bool × State :=
  match c.from_, c.upTo with
  | none, _ => (true, s)
  | some a, none => (a.holds s, s)
  | some a, some b =>
    match s.open_.lookup k with
    | some stop =>
      let ends : Bool := match stop, b with
        | some n, _ => s.line ≥ n
        | none, b => b.holds s
      let others := s.open_.filter (·.1 ≠ k)
      match stop with
      | some n =>
        if s.line > n then (false, { s with open_ := others })
        else (true, if ends then { s with open_ := others } else s)
      | none => (true, if ends then { s with open_ := others } else s)
    | none =>
      if a.holds s then
        let stop : Option (Option Nat) := match b with
          | .line n => if n ≤ s.line then none else some (some n)
          | .further n => if n = 0 then none else some (some (s.line + n))
          | .last => if s.ahead.isEmpty then none else some none
          | _ => some none
        match stop with
        | some stop => (true, { s with open_ := (k, stop) :: s.open_ })
        | none => (true, s)
      else (false, s)

/-- What follows a command. -/
inductive Then
  | goOn
  | jump (k : Nat)
  | finish (shows : Bool)
  | restart
  | quit (shows : Bool)

def firstLine (s : List Char) : List Char :=
  s.takeWhile (· ≠ '\n')

def behindClosing (cs : List Command) (k : Nat) : Nat :=
  go (cs.drop (k + 1)) (k + 1) 0
where
  go : List Command → Nat → Nat → Nat
    | [], i, _ => i
    | c :: r, i, depth =>
      match c.action with
      | .opening => go r (i + 1) (depth + 1)
      | .closing => if depth = 0 then i + 1 else go r (i + 1) (depth - 1)
      | _ => go r (i + 1) depth

def labelled (cs : List Command) (l : List Char) : Nat :=
  if l = [] then cs.length
  else (cs.findIdx? fun c => match c.action with
    | .label m => m = l
    | _ => false).getD cs.length

def addTo (files : List (List Char × List Char)) (f s : List Char) : List (List Char × List Char) :=
  match files with
  | [] => [(f, s)]
  | (g, t) :: r => if g = f then (g, t ++ s) :: r else (g, t) :: addTo r f s

def perform (isQuiet : Bool) (readFile : List Char → List Char) (cs : List Command) (c : Command)
    (s : State) : Then × State :=
  let show_ (t : List Char) (s : State) : State := { s with out := s.out ++ t ++ ['\n'] }
  match c.action with
  | .substitute r i by_ all which prints file =>
    let replacement (group : Nat → List Char) : List Char := by_.flatMap fun
      | .text t => t
      | .group n => group n
    let (t, found) := r.substitute i all replacement which s.pattern
    if !found then (.goOn, s)
    else
      let s := { s with pattern := t, hasChanged := true }
      let s := if prints then show_ t s else s
      (.goOn, match file with
        | some f => { s with files := addTo s.files f (t ++ ['\n']) }
        | none => s)
  | .transliterate a b =>
    (.goOn, { s with pattern := s.pattern.map fun c => (b[a.idxOf c]?).getD c })
  | .delete => (.finish false, s)
  | .deleteFirst =>
    if s.pattern.contains '\n' then
      (.restart, { s with pattern := s.pattern.drop ((firstLine s.pattern).length + 1) })
    else (.finish false, s)
  | .print => (.goOn, show_ s.pattern s)
  | .printFirst => (.goOn, show_ (firstLine s.pattern) s)
  | .quit status isSilent => (.quit (!isSilent), { s with status := status })
  | .append t => (.goOn, { s with queue := s.queue ++ t ++ ['\n'] })
  | .insert t => (.goOn, show_ t s)
  | .change t =>
    let inRange := c.upTo.isSome && !c.isNegated
    let isOpen := inRange && (s.open_.any fun _ => true)
    (.finish false, if isOpen then s else show_ t s)
  | .next =>
    match s.ahead with
    | [] => (.quit true, s)
    | l :: r =>
      let s := if isQuiet then s else show_ s.pattern s
      (.goOn, { s with
        pattern := l, ahead := r, line := s.line + 1, out := s.out ++ s.queue, queue := [] })
  | .appendNext =>
    match s.ahead with
    | [] => (.quit true, s)
    | l :: r =>
      (.goOn, { s with
        pattern := s.pattern ++ '\n' :: l, ahead := r, line := s.line + 1, out := s.out ++ s.queue
        queue := [] })
  | .number => (.goOn, show_ (Utility.numberText s.line) s)
  | .hold => (.goOn, { s with held := s.pattern })
  | .appendHold => (.goOn, { s with held := s.held ++ '\n' :: s.pattern })
  | .fetch => (.goOn, { s with pattern := s.held })
  | .appendFetch => (.goOn, { s with pattern := s.pattern ++ '\n' :: s.held })
  | .swap => (.goOn, { s with pattern := s.held, held := s.pattern })
  | .label _ | .opening | .closing => (.goOn, s)
  | .branch l => (.jump (labelled cs l), s)
  | .branchIfChanged l =>
    if s.hasChanged then (.jump (labelled cs l), { s with hasChanged := false }) else (.goOn, s)
  | .branchUnlessChanged l =>
    if s.hasChanged then (.goOn, { s with hasChanged := false }) else (.jump (labelled cs l), s)
  | .read f => (.goOn, { s with queue := s.queue ++ readFile f })
  | .write f => (.goOn, { s with files := addTo s.files f (s.pattern ++ ['\n']) })

def round (isQuiet : Bool) (readFile : List Char → List Char) (cs : List Command) :
    (fuel : Nat) → Nat → State → Then × State
  | 0, _, s => (.quit true, s)
  | n + 1, k, s =>
    match cs[k]? with
    | none => (.finish true, s)
    | some c =>
      let (found, s) := selected k c s
      if found = c.isNegated then
        match c.action with
        | .opening => round isQuiet readFile cs n (behindClosing cs k) s
        | _ => round isQuiet readFile cs n (k + 1) s
      else
        match perform isQuiet readFile cs c s with
        | (.goOn, s) => round isQuiet readFile cs n (k + 1) s
        | (.jump j, s) => round isQuiet readFile cs n j s
        | (.restart, s) => round isQuiet readFile cs n 0 s
        | result => result

def rounds (isQuiet : Bool) (readFile : List Char → List Char) (cs : List Command) :
    (fuel : Nat) → State → State
  | 0, s => s
  | n + 1, s =>
    match s.ahead with
    | [] => s
    | l :: r =>
      let limit := 1000 + 100 * (r.length + 1) * (cs.length + 1)
      let (t, s) := round isQuiet readFile cs limit 0
        { s with pattern := l, ahead := r, line := s.line + 1, hasChanged := false }
      let (shows, goesOn) := match t with
        | .finish b => (b, true)
        | .quit b => (b, false)
        | _ => (true, true)
      let shown := if shows && !isQuiet then s.pattern ++ ['\n'] else []
      let s := { s with out := s.out ++ shown ++ s.queue, queue := [] }
      if goesOn then rounds isQuiet readFile cs n s else { s with ahead := [] }

/-- The edited text. A last line without an end stays without one. -/
def edited (isQuiet : Bool) (readFile : List Char → List Char) (cs : List Command) (b : Bytes) (s : State) :
    State :=
  let lines := Utility.linesIn b
  let s := rounds isQuiet readFile cs (lines.length + 1) { s with ahead := lines }
  let endsOpen := b ≠ [] && b.getLast? ≠ some 10
  if endsOpen && s.out.getLast? = some '\n' then { s with out := s.out.dropLast } else s

open Utility

def sed : String × Program :=
  ("sed", withOptions "sed" ⟨"nErsuz", "ef", [("quiet", 'n'), ("silent", 'n'), ("expression", 'e'), ("file", 'f'),
      ("regexp-extended", 'E'), ("in-place", 'i')], "i"⟩ 1 (fun g => do
    let scripts ← g.options.filterMapM fun (c, v) => do
      if c = 'e' then return some v
      else if c = 'f' then
        match ← contentOf v with
        | .ok b => return some (Utf8.decodeLossy b)
        | .error _ => return none
      else return none
    let (script, operands) := match scripts, g.operands with
      | [], s :: rest => (s, rest)
      | [], [] => ([], [])
      | scripts, operands => (['\n'].intercalate scripts, operands)
    if scripts = [] && g.operands = [] then
      return (← refuse "Usage: sed [OPTION]... \x7bscript-only-if-no-other-script\x7d [input-file]..." 1)
    match (commands (g.has 'E' || g.has 'r') (script.length + 2)).run { rest := script } with
    | none => refuse ("sed: -e expression #1, char " ++ toString script.length ++ ": unknown command") 1
    | some (cs, _) =>
      let p ← get
      let readText (a : List Char) : List Char :=
        Utf8.decodeLossy ((p.tree.readFile p.here ⟨a⟩).toOption.getD [])
      let saveAll (s : State) : StateM Process Unit :=
        s.files.forM fun (f, t) => do
          if f = "/dev/stdout".toList then Process.say t
          else discard (change "sed: couldn't open file" fun p => p.tree.writeFile p.here ⟨f⟩ (Process.encode t))
      if g.has 'i' then
        let mut status := 0
        for a in operands do
          match ← contentOf a with
          | .error x => status := ← refuseFor ("sed: can't read " ++ String.ofList a) x 2
          | .ok b =>
            let s := edited (g.has 'n') readText cs b {}
            let suffix := (g.value? 'i').getD []
            if suffix ≠ [] then
              discard (change "sed: cannot rename" fun p => p.tree.writeFile p.here ⟨a ++ suffix⟩ b)
            status := max status (← change ("sed: couldn't open file " ++ String.ofList a) fun p =>
              p.tree.writeFile p.here ⟨a⟩ (Process.encode s.out))
            saveAll s
        return status
      else
        let (found, status) ← contents "sed: can't read " 2 operands
        let s := edited (g.has 'n') readText cs (found.flatMap Prod.snd) {}
        Process.say s.out
        saveAll s
        return max status s.status) false)

end CBuild.Edit
