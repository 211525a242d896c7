import CBuild.Text.Wildcard
import CBuild.Utility.Files
import CBuild.Utility.Regex

/-! Looking for lines in files and for files in directories. -/

namespace CBuild.Utility

/-- Starts a command, given its arguments from its own name on, and waits for its end. -/
abbrev Launch := List (List Char) → StateM Process (Except OsError Ending)

abbrev Launcher := Launch → List (List Char) → StateM Process Ending

def succeeds (name : String) (launch : Launch) (args : List (List Char)) : StateM Process Bool := do
  match ← launch args with
  | .ok e => return e = .code 0
  | .error x =>
    Process.complain (name ++ ": " ++ quoted (args.headD []) ++ ": " ++ x.reason)
    return false

/-- The lines around lines that fit, with their numbers, and whether each fits itself. -/
def withContext (before after : Nat) (lines : List (Nat × List Char × Bool)) : List (Nat × List Char × Bool) :=
  let hits := lines.filterMap fun (k, _, fits) => if fits then some k else none
  lines.filter fun (k, _, _) => hits.any fun h => h ≤ k + before && k ≤ h + after

def matchesIn (ignoresCase : Bool) (r : Regex) : (fuel : Nat) → Regex.Place → List (List Char)
  | 0, _ => []
  | n + 1, p =>
    match r.search ignoresCase p (p.ahead.length + 1) with
    | none => []
    | some (_, q) =>
      match (q.groups.lookup 0).getD [], q.ahead with
      | [], [] => []
      | [], c :: rest => matchesIn ignoresCase r n { behind := c :: q.behind, ahead := rest }
      | m, _ => m :: matchesIn ignoresCase r n { q with groups := [] }

def filesBelow (t : FileTree) : (depth : Nat) → (path : List Char) → Location → List (List Char)
  | 0, _, _ => []
  | n + 1, path, l =>
    (sorted (t.namesIn l)).flatMap fun name =>
      match t.get? (l ++ [name]) with
      | some .directory => filesBelow t n (inDirectory path name) (l ++ [name])
      | some (.file _ _) => [inDirectory path name]
      | _ => []

def literally (isExtended : Bool) (s : List Char) : List Char :=
  s.flatMap fun c =>
    if ".*[]^$\\".toList.contains c || isExtended && "+?()|\x7b\x7d".toList.contains c then ['\\', c] else [c]

def grepWith (name : String) (isExtended isFixed : Bool) : String × Program :=
  (name, withOptions name { flags := "EFGPvqilLncohHswxrRIaz", valued := "efmABC", optional := ""
                            long := [("quiet", 'q'), ("silent", 'q'), ("invert-match", 'v'),
      ("ignore-case", 'i'), ("count", 'c'), ("files-with-matches", 'l'), ("line-number", 'n'),
      ("extended-regexp", 'E'), ("fixed-strings", 'F'), ("word-regexp", 'w'), ("line-regexp", 'x'),
      ("only-matching", 'o'), ("recursive", 'r'), ("regexp", 'e'), ("no-messages", 's'),
      ("no-filename", 'h')] } 2 (fun g => do
    let given := (g.options.filter (·.1 = 'e')).map Prod.snd
    let fromFiles ← (g.options.filter (·.1 = 'f')).mapM fun (_, a) => do
      match ← contentOf a with
      | .ok b => return linesIn b
      | .error _ => return []
    let (patterns, operands) := match given ++ fromFiles.flatten, g.operands with
      | [], p :: rest => ([p], rest)
      | [], [] => ([], [])
      | ps, operands => (ps, operands)
    if patterns = [] then
      Process.complain ("Usage: " ++ name ++ " [OPTION]... PATTERNS [FILE]...")
      return (← refuse ("Try '" ++ name ++ " --help' for more information.") 2)
    let isExtended := g.has 'E' || g.has 'P' || isExtended && !g.has 'G'
    let isFixed := g.has 'F' || isFixed
    let spelled := (patterns.flatMap fun p => p.splitOn '\n').map fun p =>
      let p := if isFixed then literally isExtended p else p
      if g.has 'x' then
        (if isExtended then ['^', '('] ++ p ++ [')', '$'] else "^\\(".toList ++ p ++ "\\)$".toList)
      else if g.has 'w' then
        (if isExtended then "\\b(".toList ++ p ++ ")\\b".toList else "\\b\\(".toList ++ p ++ "\\)\\b".toList)
      else p
    match spelled.mapM (Regex.parse? isExtended) with
    | none => refuse (name ++ ": Invalid regular expression") 2
    | some rs =>
      let p ← get
      let deep := g.has 'r' || g.has 'R'
      let operands := if deep then
          (if operands = [] then [['.']] else operands).flatMap fun a =>
            match p.tree.find p.here ⟨a⟩ with
            | .ok (l, .directory) => filesBelow p.tree (p.tree.height + 1) a l
            | _ => [a]
        else operands
      let mut found : List (List Char × Bytes) := []
      let mut status := 0
      if operands = [] then found := [(['-'], ← Process.input)]
      for a in operands do
        match ← contentOf a with
        | .ok b => found := found ++ [(a, b)]
        | .error x =>
          if !g.has 's' then Process.complain (name ++ ": " ++ String.ofList a ++ ": " ++ x.reason)
          status := 2
      let hasNames := (operands.length > 1 || deep || g.has 'H') && !g.has 'h'
      let fits (line : List Char) : Bool := g.has 'v' ^^ rs.any fun r => r.occursIn (g.has 'i') line
      let number (c : Char) : Nat := ((g.value? c).bind fun s => (String.ofList s).toNat?).getD 0
      let most := (g.value? 'm').bind fun s => (String.ofList s).toNat?
      let before := max (number 'B') (number 'C')
      let after := max (number 'A') (number 'C')
      let mut hasAny := false
      for (a, b) in found do
        let lines := ((linesIn b).zipIdx 1).map fun (line, k) => (k, line, fits line)
        let hits := lines.filter (·.2.2)
        let hits := match most with
          | some n => hits.take n
          | none => hits
        let name := if a = ['-'] then "(standard input)".toList else a
        let lead (sep : Char) (k : Nat) : List Char :=
          (if hasNames then name ++ [sep] else []) ++ (if g.has 'n' then numberText k ++ [sep] else [])
        if !hits.isEmpty then hasAny := true
        if g.has 'q' then pure ()
        else if g.has 'c' then sayLine ((if hasNames then name ++ [':'] else []) ++ numberText hits.length)
        else if g.has 'l' then
          if !hits.isEmpty then sayLine name
        else if g.has 'L' then
          if hits.isEmpty then sayLine name
        else if g.has 'o' then
          for (k, line, _) in hits do
            for r in rs do
              for m in matchesIn (g.has 'i') r (line.length + 1) { behind := [], ahead := line } do
                sayLine (lead ':' k ++ m)
        else
          let kept := lines.map fun (k, line, fits) => (k, line, fits && hits.any fun h => h.1 = k)
          let mut former := 0
          for (k, line, isHit) in withContext before after kept do
            if (before > 0 || after > 0) && former ≠ 0 && former + 1 < k then sayLine ['-', '-']
            sayLine (lead (if isHit then ':' else '-') k ++ line)
            former := k
      if g.has 'q' && hasAny then return 0
      return if status ≠ 0 then status else if hasAny then 0 else 1) false)

/-- What is asked of each file that is found. -/
inductive Query
  | name (p : List Wildcard) (ignoresCase : Bool)
  | path (p : List Wildcard)
  | kind (c : Char)
  | isEmpty
  | isExecutable
  | newer (than : List Char)
  | print (isNull : Bool)
  | delete
  | execute (args : List (List Char))
  | gather (args : List (List Char))
  | always (b : Bool)
  | prune
  | not (q : Query)
  | both (a b : Query)
  | either (a b : Query)

namespace Query

def acts : Query → Bool
  | print _ | delete | execute _ | gather _ => true
  | not q => acts q
  | both a b | either a b => acts a || acts b
  | _ => false

abbrev Reading := StateT (List (List Char)) (Except String)

def pattern (s : List Char) (ignoresCase : Bool) : List Wildcard :=
  Wildcard.ofChars ((if ignoresCase then s.map Char.toLower else s).map fun c => (c, true))

def argumentFor (name : String) : Reading (List Char) := do
  match ← get with
  | a :: rest =>
    set rest
    return a
  | [] => throw ("missing argument to \x60" ++ name ++ "'")

mutual

def disjunction : (fuel : Nat) → Reading Query
  | 0 => throw "too deep"
  | n + 1 => do
    let a ← conjunction n
    match (← get).map String.ofList with
    | "-o" :: _ | "-or" :: _ =>
      modify fun ts => ts.drop 1
      return either a (← disjunction n)
    | _ => return a

def conjunction : (fuel : Nat) → Reading Query
  | 0 => throw "too deep"
  | n + 1 => do
    let a ← primary n
    match (← get).map String.ofList with
    | [] | "-o" :: _ | "-or" :: _ | ")" :: _ => return a
    | "-a" :: _ | "-and" :: _ =>
      modify fun ts => ts.drop 1
      return both a (← conjunction n)
    | _ => return both a (← conjunction n)

def primary : (fuel : Nat) → Reading Query
  | 0 => throw "too deep"
  | n + 1 => do
    let name := String.ofList ((← get).headD [])
    modify fun ts => ts.drop 1
    match name with
    | "!" | "-not" => return not (← primary n)
    | "(" =>
      let q ← disjunction n
      if (← get).head? ≠ some [')'] then throw "invalid expression; expected to find a ')'"
      modify fun ts => ts.drop 1
      return q
    | "-name" => return .name (pattern (← argumentFor name) false) false
    | "-iname" => return .name (pattern (← argumentFor name) true) true
    | "-path" | "-wholename" => return path (pattern (← argumentFor name) false)
    | "-type" => return kind ((← argumentFor name).headD 'f')
    | "-empty" => return isEmpty
    | "-executable" => return isExecutable
    | "-newer" => return newer (← argumentFor name)
    | "-print" => return print false
    | "-print0" => return print true
    | "-delete" => return delete
    | "-true" => return always true
    | "-false" => return always false
    | "-prune" => return prune
    | "-depth" => return always true
    | "-exec" =>
      let ts ← get
      let args := ts.takeWhile fun a => a ≠ [';'] && a ≠ ['+']
      if args.length = ts.length then throw "missing argument to \x60-exec'"
      set (ts.drop (args.length + 1))
      return if (ts.drop args.length).head? = some ['+'] then gather args.dropLast else execute args
    | _ => throw ("unknown predicate \x60" ++ name ++ "'")

end

def filled (path : List Char) (args : List (List Char)) : List (List Char) :=
  args.map fun a => go path a
where
  go (path : List Char) : List Char → List Char
    | '{' :: '}' :: r => path ++ go path r
    | c :: r => c :: go path r
    | [] => []

def gathering? : Query → Option (List (List Char))
  | gather args => some args
  | not q => gathering? q
  | both a b | either a b => (gathering? a).or (gathering? b)
  | _ => none

def answer (launch : Launch) (path : List Char) (l : Location) (e : TreeEntry) :
    Query → StateT (List (List Char)) (StateM Process) Bool
  | .name p ignoresCase =>
    let s := lastName path
    return Wildcard.matchesText p (if ignoresCase then s.map Char.toLower else s)
  | .path p => return Wildcard.matchesText p path
  | kind c =>
    return match e with
      | .directory => c = 'd'
      | .file _ _ => c = 'f'
      | .link _ => c = 'l'
  | isEmpty => do
    let p ← getThe Process
    return match e with
      | .directory => p.tree.namesIn l = []
      | .file b _ => b = []
      | .link _ => false
  | isExecutable =>
    return match e with
      | .file _ x => x
      | _ => true
  | newer _ => return false
  | print isNull => do
    Process.say (path ++ if isNull then ['\x00'] else ['\n'])
    return true
  | delete => do
    let p ← getThe Process
    if p.tree.namesIn l ≠ [] then
      Process.complain ("find: cannot delete " ++ quoted path ++ ": Directory not empty")
      return false
    modifyThe Process (Process.withTree (p.tree.prune l))
    return true
  | execute args => succeeds "find" launch (filled path args)
  | gather _ => do
    modify fun paths => path :: paths
    return true
  | always b => return b
  | prune => return true
  | not q => do return !(← answer launch path l e q)
  | both a b => do
    if ← answer launch path l e a then answer launch path l e b else return false
  | either a b => do
    if ← answer launch path l e a then return true else answer launch path l e b

def prunes (path : List Char) (e : TreeEntry) : Query → Bool
  | prune => true
  | both a b => holdsPurely path e a && prunes path e b
  | either a b => prunes path e a || prunes path e b
  | _ => false
where
  holdsPurely (path : List Char) (e : TreeEntry) : Query → Bool
    | .name p _ => Wildcard.matchesText p (lastName path)
    | .path p => Wildcard.matchesText p path
    | kind c => c = 'd' && e = .directory
    | both a b => holdsPurely path e a && holdsPurely path e b
    | either a b => holdsPurely path e a || holdsPurely path e b
    | always b => b
    | _ => true

end Query

def under (t : FileTree) (q : Query) (lowerFirst : Bool) : (fuel : Nat) → (depth : Nat) → List Char →
    Location → TreeEntry → List (Nat × List Char × Location × TreeEntry)
  | 0, _, _, _, _ => []
  | n + 1, depth, path, l, e =>
    let below := if e ≠ .directory || q.prunes path e then []
      else (sorted (t.namesIn l)).flatMap fun name =>
        match t.get? (l ++ [name]) with
        | some f => under t q lowerFirst n (depth + 1) (inDirectory path name) (l ++ [name]) f
        | none => []
    if lowerFirst then below ++ [(depth, path, l, e)] else (depth, path, l, e) :: below

def depthBounds : List (List Char) → Option Nat × Nat × List (List Char)
  | a :: n :: rest =>
    let k := (String.ofList n).toNat?
    if a = "-maxdepth".toList then
      let (_, least, others) := depthBounds rest
      (k, least, others)
    else if a = "-mindepth".toList then
      let (most, _, others) := depthBounds rest
      (most, k.getD 0, others)
    else
      let (most, least, others) := depthBounds (n :: rest)
      (most, least, a :: others)
  | args => (none, 0, args)

def find : String × Launcher :=
  ("find", fun launch args => do
    let isTest (a : List Char) : Bool :=
      a.head? = some '-' && a.length > 1 || a = ['!'] || a = ['(']
    let paths := args.takeWhile (!isTest ·)
    let (most, least, tests) := depthBounds (args.drop paths.length)
    let query : Except String Query :=
      if tests = [] then .ok (.print false)
      else
        match (Query.disjunction (4 * tests.length + 4)).run tests with
        | .error s => .error s
        | .ok (q, []) => .ok (if q.acts then q else .both q (.print false))
        | .ok (_, a :: _) => .error ("paths must precede expression: \x60" ++ String.ofList a ++ "'")
    match query with
    | .error s => return .code (← refuse ("find: " ++ s) 1)
    | .ok q =>
      let lowerFirst := tests.contains "-delete".toList || tests.contains "-depth".toList
      let mut status := 0
      let mut gathered : List (List Char) := []
      for a in if paths = [] then [['.']] else paths do
        let p ← get
        match entryAt? p a with
        | .error x => status := ← refuseFor ("find: " ++ quoted a) x 1
        | .ok (l, e) =>
          for (depth, path, l, e) in under p.tree q lowerFirst (p.tree.height + 1) 0 a l e do
            if depth ≥ least && most.all (depth ≤ ·) then
              let (_, found) ← (q.answer launch path l e).run gathered
              gathered := found
      match q.gathering? with
      | some args =>
        if !gathered.isEmpty then
          if !(← succeeds "find" launch (args ++ gathered.reverse)) then status := 1
      | none => pure ()
      return .code status)

end CBuild.Utility
