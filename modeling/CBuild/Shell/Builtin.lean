import CBuild.Shell.Running
import CBuild.Utility.Condition
import CBuild.Utility.Printing

/-! The commands that a shell does by itself. Some are special: what they assign stays, and their mistakes end
the shell. -/

namespace CBuild.Shell

abbrev Builtin := Engine → List (List Char) → Work Nat

def natural (s : List Char) : Work Nat :=
  match Condition.number? s with
  | some n => if n < 0 then fail ("Illegal number: " ++ String.ofList s) else return n.toNat
  | none => fail ("Illegal number: " ++ String.ofList s)

def lettersOf (known : List Char) : List (List Char) → Work (List Char × List (List Char))
  | [] => return ([], [])
  | a :: rest =>
    if a = ['-', '-'] then return ([], rest)
    else if a.head? = some '-' && a.length > 1 then do
      match (a.drop 1).find? fun c => !known.contains c with
      | some c => fail ("Illegal option -" ++ String.singleton c)
      | none =>
        let (letters, operands) ← lettersOf known rest
        return (a.drop 1 ++ letters, operands)
    else return ([], a :: rest)

def sayLine (s : List Char) : Work Unit :=
  asProcess (Process.say (s ++ ['\n']))

def inApostrophes (s : List Char) : List Char :=
  '\'' :: s.flatMap (fun c => if c = '\'' then "'\"'\"'".toList else [c]) ++ ['\'']

def succeed : Builtin := fun _ _ => return 0

def printBytes (name : String) (b : Bytes) : Work Nat := do
  if b = [] || (← asProcess (Process.write 1 b)) then return 0
  report (name ++ ": I/O error")
  return 1

def echo : Builtin := fun _ args => printBytes "echo" (Printing.echoed args)

def printf : Builtin := fun _ args => do
  let (_, args) ← lettersOf [] args
  match args with
  | [] => fail "usage: printf format [arg ...]"
  | f :: values =>
    let r := Printing.formatted f values
    let status ← printBytes "printf" r.printed
    r.complaints.forM report
    return if r.complaints.isEmpty then status else 1

def test (name : String) : Builtin := fun _ args => do
  match Condition.ofCommand (← get).toProcess name args with
  | .ok true => return 0
  | .ok false => return 1
  | .error f => fail f.message

def plainPath (path : List Char) : List Char :=
  let parts := (path.splitOn '/').foldl (fun (kept : List (List Char)) part =>
    if part = [] || part = ['.'] then kept
    else if part = ['.', '.'] then kept.drop 1
    else part :: kept) []
  '/' :: joined ['/'] parts.reverse

def workingDirectory (sh : Shell) : List Char :=
  (sh.value? "PWD".toList).getD (Machine.pathOf sh.here).chars

def changeDirectory : Builtin := fun _ args => do
  let (letters, operands) ← lettersOf ['L', 'P'] args
  let sh ← get
  let former := workingDirectory sh
  let a := operands.headD ((sh.value? "HOME".toList).getD [])
  let (a, shows) := if a = ['-'] then ((sh.value? "OLDPWD".toList).getD former, true) else (a, false)
  let full := if a.head? = some '/' then a else former ++ '/' :: a
  let isPhysical := letters.getLast? = some 'P'
  let path := if isPhysical then a else plainPath full
  match if a = [] then .ok (sh.here, .directory) else sh.tree.find sh.here ⟨path⟩ with
  | .ok (l, .directory) =>
    set { sh with machine := { sh.machine with here := l } }
    let now := if a = [] then former else if isPhysical then (Machine.pathOf l).chars else path
    assign "OLDPWD".toList former
    assign "PWD".toList now
    markExported "OLDPWD".toList
    markExported "PWD".toList
    if shows then sayLine now
    return 0
  | _ => fail ("can't cd to " ++ String.ofList a)

def printDirectory : Builtin := fun _ args => do
  let (letters, _) ← lettersOf ['L', 'P'] args
  let sh ← get
  sayLine (if letters.getLast? = some 'P' then (Machine.pathOf sh.here).chars else workingDirectory sh)
  return 0

/-- Characters, each with whether a backslash kept its meaning away, up to the end of a line, and whether
there was an end. A backslash before the end of a line joins it with the next. -/
def lineOf (isRaw : Bool) : List Char → List (Char × Bool) × Bool × Nat
  | [] => ([], false, 0)
  | '\n' :: _ => ([], true, 1)
  | '\\' :: c :: r =>
    if isRaw then
      if c = '\n' then ([('\\', false)], true, 2)
      else
        let (l, ended, n) := lineOf isRaw r
        (('\\', false) :: (c, false) :: l, ended, n + 2)
    else
      let (l, ended, n) := lineOf isRaw r
      (if c = '\n' then l else (c, true) :: l, ended, n + 2)
  | c :: r =>
    let (l, ended, n) := lineOf isRaw r
    ((c, false) :: l, ended, n + 1)

/-- The values that a line gives to so many names. The last gets what is left. -/
def shares (separators : List Char) : (count : Nat) → List (Char × Bool) → List (List Char)
  | 0, _ => []
  | n + 1, line =>
    let ends (c : Char × Bool) : Bool := !c.2 && separators.contains c.1
    let isBlank (c : Char × Bool) : Bool := ends c && (c.1 = ' ' || c.1 = '\t' || c.1 = '\n')
    let line := line.dropWhile isBlank
    if n = 0 then [((line.reverse.dropWhile isBlank).reverse).map Prod.fst]
    else
      let field := line.takeWhile (!ends ·)
      let rest := (line.drop field.length).dropWhile isBlank
      let rest := match rest with
        | c :: r => if ends c then r else rest
        | [] => rest
      field.map Prod.fst :: shares separators n rest

def readVariables : Builtin := fun _ args => do
  let (letters, names) ← lettersOf ['r'] args
  if names = [] then fail "arg count"
  let sh ← get
  let channel := sh.streams.lookup 0
  let unread := match channel with
    | some k => sh.machine.unread k
    | none => []
  let isRaw := letters.contains 'r'
  -- One line is enough unless a backslash joins it with others.
  let text := Utf8.decodeLossy unread
  let (line, ended, taken) := lineOf isRaw text
  match channel with
  | some k =>
    let bytes := (encode (text.take taken)).length
    set { sh with machine := sh.machine.skip k (min bytes unread.length) }
  | none => pure ()
  let values := shares sh.separators names.length (line.filter (·.1 ≠ '\x00'))
  for (name, value) in names.zip values do
    if !isName name then fail (String.ofList name ++ ": bad variable name")
    assign name value
  return if ended then 0 else 1

def evaluate : Builtin := fun e args => do
  e.runText (joined [' '] args)
  return (← get).status

def findScript (name : List Char) : Work (List Char) := do
  if name.contains '/' then return name
  let sh ← get
  let candidates := sh.searchPath.map fun d => if d = [] then name else d ++ '/' :: name
  match candidates.find? (isPlainFile sh) with
  | some p => return p
  | none => fail (String.ofList name ++ ": not found")

def source : Builtin := fun e args => do
  match args with
  | [] => return 0
  | name :: _ =>
    let path ← findScript name
    let sh ← get
    match sh.tree.readFile sh.here ⟨path⟩ with
    | .error .isADirectory => return 0
    | .error x => fail ("cannot open " ++ String.ofList path ++ ": " ++ openReason false x)
    | .ok b =>
      set { sh with command := none }
      let r ← observe (e.runText (Utf8.decodeLossy b))
      modify fun inner => { inner with command := sh.command }
      match r with
      | .ok _ | .error .back => return (← get).status
      | .error s => throw s

def exitShell : Builtin := fun _ args => do
  match args with
  | [] => pure ()
  | a :: _ => setStatus ((← natural a) % 256)
  throw .exit

def returnBack : Builtin := fun _ args => do
  match args with
  | [] => pure ()
  | a :: _ => setStatus (← natural a)
  throw .back

def leaveLoops (stop : Nat → Stop) : Builtin := fun _ args => do
  let n ← match args with
    | [] => pure 1
    | a :: _ => natural a
  if n = 0 then fail ("Illegal number: " ++ String.ofList (args.headD []))
  let depth := (← get).loops
  if depth = 0 then return 0
  setStatus 0
  throw (stop (min n depth))

def declare (isReadonly : Bool) : Builtin := fun _ args => do
  let (letters, names) ← lettersOf ['p'] args
  let sh ← get
  if letters ≠ [] || names = [] then
    let listed := sh.bindings.filter fun (_, v) => if isReadonly then v.isReadonly else v.isExported
    for (name, v) in listed.mergeSort fun a b => (compare (String.ofList a.1) (String.ofList b.1)).isLE do
      let value := match v.value with
        | some s => '=' :: inApostrophes s
        | none => []
      sayLine ((if isReadonly then "readonly " else "export ").toList ++ name ++ value)
    return 0
  for a in names do
    let name := a.takeWhile (· ≠ '=')
    if !isName name then fail (String.ofList name ++ ": bad variable name")
    match a.drop name.length with
    | _ :: value => assign name value
    | [] => pure ()
    modify fun sh =>
      let v := (sh.named? name).getD {}
      sh.withVariable name
        (if isReadonly then { v with isReadonly := true } else { v with isExported := true })
  return 0

def declareLocal : Builtin := fun _ args => do
  if (← get).saved = [] then fail "not in a function"
  for a in args do
    let name := a.takeWhile (· ≠ '=')
    if !isName name then fail (String.ofList name ++ ": bad variable name")
    save name
    match a.drop name.length with
    | _ :: value => assign name value
    | [] => pure ()
  return 0

def unset : Builtin := fun _ args => do
  let (letters, names) ← lettersOf ['f', 'v'] args
  for name in names do
    if letters.getLast? = some 'f' then
      modify fun sh => { sh with functions := sh.functions.filter (·.1 ≠ name) }
    else
      match (← get).named? name with
      | some v =>
        if v.isReadonly then fail (String.ofList name ++ ": is read only")
        modify (withoutVariable name)
      | none => pure ()
  return 0

def optionNames : List (String × Char) :=
  [("errexit", 'e'), ("noglob", 'f'), ("ignoreeof", 'I'), ("interactive", 'i'), ("monitor", 'm'),
    ("noexec", 'n'), ("stdin", 's'), ("xtrace", 'x'), ("verbose", 'v'), ("vi", 'V'), ("emacs", 'E'),
    ("noclobber", 'C'), ("allexport", 'a'), ("notify", 'b'), ("nounset", 'u')]

def setOption (isOn : Bool) (c : Char) : Work Unit := do
  if !(optionNames.map Prod.snd).contains c then fail ("Illegal option -" ++ String.singleton c)
  modify fun sh =>
    let others := sh.options.filter (· ≠ c)
    { sh with options := if isOn then others ++ [c] else others }

def setNamedOption (isOn : Bool) (name : List Char) : Work Unit :=
  match optionNames.lookup (String.ofList name) with
  | some c => setOption isOn c
  | none => fail ("Illegal option -o " ++ String.ofList name)

def optionLetters? : List Char → Option (Bool × List Char)
  | '-' :: c :: r => some (true, c :: r)
  | '+' :: c :: r => some (false, c :: r)
  | _ => none

def setOptions : List (List Char) → Work (Option (List (List Char)))
  | [] => return none
  | a :: rest => do
    if a = ['-', '-'] then return some rest
    else if a = ['-'] then
      modify fun sh => { sh with options := sh.options.filter fun c => c ≠ 'x' && c ≠ 'v' }
      return if rest = [] then none else some rest
    else
      match optionLetters? a with
      | none => return some (a :: rest)
      | some (isOn, letters) =>
        (letters.filter (· ≠ 'o')).forM (setOption isOn)
        if letters.contains 'o' then
          match rest with
          | name :: rest' =>
            setNamedOption isOn name
            setOptions rest'
          | [] => return none
        else setOptions rest

def setShell : Builtin := fun _ args => do
  if args = [] then
    let sh ← get
    for (name, v) in sh.bindings.mergeSort fun a b =>
        (compare (String.ofList a.1) (String.ofList b.1)).isLE do
      match v.value with
      | some s => sayLine (name ++ '=' :: inApostrophes s)
      | none => pure ()
    return 0
  match ← setOptions args with
  | some operands => modify fun sh => { sh with args := operands }
  | none => pure ()
  return 0

def shift : Builtin := fun _ args => do
  let n ← match args with
    | [] => pure 1
    | a :: _ => natural a
  let sh ← get
  if n > sh.args.length then fail "can't shift that many"
  set { sh with args := sh.args.drop n }
  return 0

def otherSignals : List (String × Nat) :=
  [("CHLD", 17), ("CONT", 18), ("STOP", 19), ("TSTP", 20), ("TTIN", 21), ("TTOU", 22), ("URG", 23), ("WINCH", 28)]

/-- The number of a signal, by name or number. The end of the shell counts as one. -/
def signal? (s : List Char) : Option Nat :=
  match (String.ofList s).toNat? with
  | some n => if n ≤ 64 then some n else none
  | none =>
    if s = "EXIT".toList then some 0
    else
      let name := String.ofList (if "SIG".toList.isPrefixOf s then s.drop 3 else s)
      match otherSignals.lookup name with
      | some n => some n
      | none => (List.range 32).find? fun n => n ≠ 0 && ExitStatus.signalName n = " (SIG" ++ name ++ ")"

def signalText (n : Nat) : List Char :=
  if n = 0 then "EXIT".toList
  else
    let named := ((ExitStatus.signalName n).toList.drop 5).dropLast
    if named = [] then numberText n else named

def trap : Builtin := fun _ args => do
  let (_, args) ← lettersOf [] args
  match args with
  | [] =>
    for (n, action) in (← get).traps.mergeSort fun a b => a.1 ≤ b.1 do
      sayLine ("trap -- ".toList ++ inApostrophes action ++ ' ' :: signalText n)
    return 0
  | first :: rest =>
    let (action, names) : Option (List Char) × List (List Char) :=
      if rest = [] then (none, args)
      else if (String.ofList first).toNat?.isSome then (none, args)
      else (if first = ['-'] then none else some first, rest)
    for name in names do
      match signal? name with
      | none =>
        asProcess (Process.complain ("trap: " ++ String.ofList name ++ ": bad trap"))
        return 1
      | some n =>
        modify fun sh =>
          let others := sh.traps.filter (·.1 ≠ n)
          { sh with traps := match action with
              | some a => (n, a) :: others
              | none => others }
    return 0

def isMild (n : Nat) : Bool :=
  [0, 17, 18, 23, 28].contains n

def send (e : Engine) (signal process : Nat) : Work Bool := do
  let sh ← get
  if sh.numbers.contains process then
    if isMild signal then return true
    let isOwn := sh.numbers.head? = some process
    match if isOwn && signal ≠ 9 then sh.traps.lookup signal else none with
    | some action =>
      if action ≠ [] then
        e.runText action
        setStatus sh.status
      return true
    | none => throw (.killed process signal)
  else return (sh.jobs.lookup process).isSome

def kill : Builtin := fun e args => do
  let usage : Work Nat :=
    fail "Usage: kill [-s sigspec | -signum | -sigspec] [pid | job]... or\nkill -l [exitstatus]"
  let sendAll (signal : Nat) (targets : List (List Char)) : Work Nat := do
    if targets = [] then return (← usage)
    let mut worst := 0
    for t in targets do
      let n ← natural t
      if !(← send e signal n) then
        report "No such process\n"
        worst := 1
    return worst
  match args with
  | [] => usage
  | ['-', 'l'] :: [] =>
    sayLine ['0']
    for n in (List.range 32).drop 1 do sayLine (signalText n)
    return 0
  | ['-', 'l'] :: n :: _ =>
    let k ← natural n
    sayLine (signalText (if k > 128 then k - 128 else k))
    return 0
  | ['-', 's'] :: name :: targets =>
    match signal? name with
    | some n => sendAll n targets
    | none => fail ("invalid signal number or name: " ++ String.ofList name)
  | ['-', '-'] :: targets => sendAll 15 targets
  | ('-' :: s) :: targets =>
    match signal? s with
    | some n => sendAll n targets
    | none => fail ("Illegal option -" ++ String.ofList (s.take 1))
  | targets => sendAll 15 targets

/-- Tells the letters of options apart, one at every call. -/
def getopts : Builtin := fun _ args => do
  match args with
  | spec :: name :: rest =>
    let sh ← get
    let operands := if rest = [] then sh.args else rest
    let index := (Condition.number? ((sh.value? "OPTIND".toList).getD ['1'])).getD 1 |>.toNat
    let isSilent := spec.head? = some ':'
    let setIndex (n letter : Nat) : Work Unit := do
      assign "OPTIND".toList (numberText n)
      modify fun sh => { sh with letter := letter }
    let current := operands.getD (index - 1) []
    let finish (n : Nat) : Work Nat := do
      setIndex n 0
      assign name ['?']
      return 1
    if sh.letter = 0 && (current.head? ≠ some '-' || current.length < 2) then finish index
    else if sh.letter = 0 && current = ['-', '-'] then finish (index + 1)
    else
      let at_ := max sh.letter 1
      let c := current.getD at_ '?'
      let isLast := at_ + 1 ≥ current.length
      let after (n : Nat) : Work Unit := if isLast then setIndex (n + 1) 0 else setIndex n (at_ + 1)
      match if c = ':' then none else (spec.dropWhile (· ≠ c)).head?, (spec.dropWhile (· ≠ c)).drop 1 with
      | none, _ =>
        after index
        if isSilent then assign "OPTARG".toList [c]
        else
          asProcess (Process.complain ("Illegal option -" ++ String.singleton c))
          modify (withoutVariable "OPTARG".toList)
        assign name ['?']
        return 0
      | some _, ':' :: _ =>
        if !isLast then
          setIndex (index + 1) 0
          assign "OPTARG".toList (current.drop (at_ + 1))
          assign name [c]
          return 0
        else
          match operands[index]? with
          | some a =>
            setIndex (index + 2) 0
            assign "OPTARG".toList a
            assign name [c]
            return 0
          | none =>
            setIndex (index + 1) 0
            if isSilent then
              assign "OPTARG".toList [c]
              assign name [':']
            else
              asProcess (Process.complain ("No arg for -" ++ String.singleton c ++ " option"))
              modify (withoutVariable "OPTARG".toList)
              assign name ['?']
            return 0
      | some _, _ =>
        after index
        assign "OPTARG".toList []
        assign name [c]
        return 0
  | _ => fail "Usage: getopts optstring var [arg...]"

def wait : Builtin := fun _ args => do
  let sh ← get
  let mut status := 0
  for a in args do
    status := (sh.jobs.lookup (← natural a)).getD 127
  return status

def umask : Builtin := fun _ args => do
  if args = [] then sayLine "0022".toList
  return 0

def ulimit : Builtin := fun _ args => do
  if args.all fun a => a.head? = some '-' then sayLine "unlimited".toList
  return 0

def noJob (what : String) : Builtin := fun _ _ => fail what

def times : Builtin := fun _ _ => do
  sayLine "0m0.000000s 0m0.000000s".toList
  sayLine "0m0.000000s 0m0.000000s".toList
  return 0

def aliases : Builtin := fun _ args => do
  let mut status := 0
  for a in args do
    if !a.contains '=' then
      asProcess (Process.complain ("alias: " ++ String.ofList a ++ " not found"))
      status := 1
  return status

def specialBuiltins : List (String × Builtin) :=
  [(":", succeed), (".", source), ("eval", evaluate), ("exit", exitShell), ("return", returnBack),
    ("break", leaveLoops .leave), ("continue", leaveLoops .again), ("export", declare false),
    ("readonly", declare true), ("local", declareLocal), ("unset", unset), ("set", setShell),
    ("shift", shift), ("times", times), ("trap", trap)]

def regularBuiltins : List (String × Builtin) :=
  [("true", succeed), ("false", fun _ _ => return 1), ("echo", echo), ("printf", printf),
    ("test", test "test"), ("[", test "["), ("cd", changeDirectory), ("chdir", changeDirectory),
    ("pwd", printDirectory), ("read", readVariables), ("kill", kill), ("getopts", getopts), ("wait", wait),
    ("umask", umask), ("ulimit", ulimit), ("hash", succeed), ("jobs", succeed),
    ("fg", noJob "No current job"), ("bg", noJob "No current job"), ("alias", aliases), ("unalias", succeed)]

inductive Meaning
  | keyword
  | special (b : Builtin)
  | replacement
  | function (body : Script)
  | regular (b : Builtin)
  | plain
  | description
  | program

/-- What the name of a command means. Functions come before commands that are not special. -/
def meaning (sh : Shell) (usesFunctions : Bool) (name : List Char) : Meaning :=
  let text := String.ofList name
  match specialBuiltins.lookup text with
  | some b => .special b
  | none =>
    if text = "exec" then .replacement
    else
      match if usesFunctions then sh.functions.lookup name else none with
      | some body => .function body
      | none =>
        match regularBuiltins.lookup text with
        | some b => .regular b
        | none =>
          if text = "command" then .plain else if text = "type" then .description else .program

def describe (isVerbose : Bool) (name : List Char) : Work Nat := do
  let sh ← get
  let tell (full : String) : Work Nat := do
    sayLine (if isVerbose then name ++ full.toList else name)
    return 0
  if Token.keywords.contains (String.ofList name) then tell " is a shell keyword"
  else
    match meaning sh true name with
    | .special _ | .replacement => tell " is a special shell builtin"
    | .function _ => tell " is a shell function"
    | .regular _ | .plain | .description => tell " is a shell builtin"
    | _ =>
      match sh.machine.locate sh.searchPath name with
      | .ok p =>
        sayLine (if isVerbose then name ++ " is ".toList ++ p.chars else p.chars)
        return 0
      | .error _ =>
        if isVerbose then sayLine (name ++ ": not found".toList)
        return 127

end CBuild.Shell
