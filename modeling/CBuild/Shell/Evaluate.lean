import CBuild.Shell.Builtin
import CBuild.Utility.Programs

/-! Running scripts and programs. Scripts nest at most so deep and loops go on at most so long, so that what
never ends is cut off. -/

namespace CBuild.Shell

def tooDeep : Nat := 11

def tooLong : Nat := 9

/-- How many rounds a loop may have. -/
def rounds : Nat := 100000

section

variable (e : Engine)

/-- Under the option for it, a shell ends when a command fails that is not tested. -/
def checkFailure (isTested : Bool) : Work Unit := do
  let sh ← get
  if sh.status ≠ 0 && !isTested && sh.hasOption 'e' then throw .exit

/-- Runs something that may leave the round of a loop, and tells whether there is to be another. -/
def oneRound (work : Work Unit) : Work Bool := do
  match ← observe work with
  | .ok _ => return true
  | .error (.leave k) => if k ≤ 1 then return false else throw (.leave (k - 1))
  | .error (.again k) => if k ≤ 1 then return true else throw (.again (k - 1))
  | .error s => throw s

def withinLoop {α : Type} (work : Work α) : Work α := do
  let depth := (← get).loops
  modify fun sh => { sh with loops := depth + 1 }
  andFinally work fun sh => { sh with loops := depth }

def repeatWhile (isTested expected : Bool) (condition body : List Script) : (fuel : Nat) → (last : Nat) →
    Work Unit
  | 0, _ => do throw (.killed ((← get).numbers.headD 0) tooLong)
  | n + 1, last => do
    let holds : Except Stop Bool ← observe do
      e.runAll true condition
      return ((← get).status == 0) == expected
    let goesOn : Option Bool ← match holds with
      | .ok true => pure (some true)
      | .ok false => pure none
      | .error s => do
        if ← oneRound (throw s) then pure (some false) else pure none
    match goesOn with
    | none => setStatus last
    | some false => repeatWhile isTested expected condition body n last
    | some true =>
      if ← oneRound (e.runAll isTested body) then
        repeatWhile isTested expected condition body n (← get).status
      else pure ()

def repeatFor (isTested : Bool) (name : List Char) (body : List Script) : List (List Char) → Work Unit
  | [] => return
  | v :: rest => do
    assign name v
    if ← oneRound (e.runAll isTested body) then repeatFor isTested name body rest

def runStages (isTested : Bool) : List Script → (input : Option Nat) → Work Unit
  | [], _ => return
  | [last], input => do
    let enter (sh : Shell) : Shell := match input with
      | some k => setStream 0 k sh
      | none => sh
    setStatus (← e.inside enter (e.run isTested last))
  | a :: rest, input => do
    let k ← openHeld []
    let enter (sh : Shell) : Shell := match input with
      | some i => setStream 1 k (setStream 0 i sh)
      | none => setStream 1 k sh
    discard (e.inside enter (e.run isTested a))
    runStages isTested rest (some k)

def branchFor (v : List Char) : List (List Word × List Script) → Work (Option (List Script))
  | [] => return none
  | (patterns, body) :: rest => do
    if ← patterns.anyM fun p => return Wildcard.matchesText (← wordPattern e.printed p) v then
      return some body
    else branchFor v rest

def call (isTested : Bool) (body : Script) (args : List (List Char)) : Work Unit := do
  let sh ← get
  set { sh with args := args, loops := 0, saved := [] :: sh.saved }
  let r ← observe (e.run isTested body)
  modify fun inner =>
    { restore (inner.saved.headD []) inner with args := sh.args, loops := sh.loops, saved := sh.saved }
  match r with
  | .ok _ | .error .back => return
  | .error s => throw s

def signalMessage : Nat → String
  | 1 => "Hangup"
  | 3 => "Quit"
  | 4 => "Illegal instruction"
  | 5 => "Trace/breakpoint trap"
  | 6 => "Aborted"
  | 7 => "Bus error"
  | 8 => "Floating point exception"
  | 9 => "Killed"
  | 10 => "User defined signal 1"
  | 11 => "Segmentation fault"
  | 12 => "User defined signal 2"
  | 14 => "Alarm clock"
  | 15 => "Terminated"
  | 16 => "Stack fault"
  | 24 => "CPU time limit exceeded"
  | 25 => "File size limit exceeded"
  | 26 => "Virtual timer expired"
  | 27 => "Profiling timer expired"
  | 29 => "I/O possible"
  | 30 => "Power failure"
  | 31 => "Bad system call"
  | _ => ""

def startProgram (args : List (List Char)) : Work Nat := do
  let sh ← get
  let name := args.headD []
  if name = [] then
    report ": Permission denied"
    return 127
  let refuse (x : OsError) : Work Nat := do
    let isMissing := x = .notFound || x = .notADirectory
    report (String.ofList name ++ ": " ++ if isMissing then "not found" else x.reason)
    return if isMissing then 127 else 126
  let loaded : Except OsError (String × List (List Char)) := do
    let path ← sh.machine.locate sh.searchPath name
    sh.machine.loadForShell path args
  match loaded with
  | .error x => refuse x
  | .ok (program, argv) =>
    let (ending, p) := (Process.child (e.start program argv)).run
      { sh.toProcess with environment := sh.exports }
    set { sh with machine := p.machine }
    let status ← Ending.status ending
    match ending with
    | .killed _ s =>
      if signalMessage s ≠ "" then asProcess (Process.complain (signalMessage s))
    | .code _ => pure ()
    return status

def runBuiltin (isSpecial : Bool) (b : Builtin) (name : List Char) (args : List (List Char)) :
    Work Unit := do
  let former := (← get).command
  modify fun sh => { sh with command := some name }
  let r ← observe (b e args)
  modify fun sh => { sh with command := former }
  match r with
  | .ok n => setStatus n
  | .error .fault => if isSpecial then throw .fault
  | .error s => throw s

def replace (args : List (List Char)) : Work Unit := do
  let former := (← get).command
  modify fun sh => { sh with command := some "exec".toList }
  let n ← startProgram e args
  modify fun sh => { sh with command := former, status := n, traps := [] }
  throw .exit

def plainOptions : List (List Char) → List Char × List (List Char)
  | a :: rest =>
    if a = ['-', '-'] then ([], rest)
    else if a.head? = some '-' && a.length > 1 then
      let (letters, operands) := plainOptions rest
      (a.drop 1 ++ letters, operands)
    else ([], a :: rest)
  | [] => ([], [])

def perform (isTested : Bool) : (depth : Nat) → (usesFunctions isSpecial : Bool) →
    List (List Char) → Work Unit
  | _, _, _, [] => setStatus 0
  | 0, _, _, args => do setStatus (← startProgram e args)
  | n + 1, usesFunctions, mayEnd, name :: args => do
    match meaning (← get) usesFunctions name with
    | .special b => runBuiltin e mayEnd b name args
    | .replacement =>
      match (plainOptions args).2 with
      | [] => setStatus 0
      | args => replace e args
    | .function body => call e isTested body args
    | .regular b => runBuiltin e false b name args
    | .plain =>
      let (letters, operands) := plainOptions args
      if letters.contains 'v' || letters.contains 'V' then
        match operands with
        | [] => setStatus 0
        | a :: _ => setStatus (← describe (letters.contains 'V') a)
      else perform isTested n false false operands
    | .description =>
      let results ← args.mapM (describe true)
      setStatus (if results.all (· = 0) then 0 else 127)
    | .keyword | .program => setStatus (← startProgram e (name :: args))

def keepsAssignments (sh : Shell) : List (List Char) → Bool
  | [] => true
  | name :: _ =>
    match meaning sh true name with
    | .special _ | .replacement => true
    | _ => false

def takesAssignments (name : List Char) : Bool :=
  ["export", "readonly", "local", "alias"].contains (String.ofList name)

def arguments : (soFar : List (List Char)) → List Word → Work (List (List Char))
  | soFar, [] => return soFar
  | soFar, w :: rest => do
    let fields ← match soFar, w.assignment? with
      | name :: _, some (v, value) =>
        if takesAssignments name then do
          let s ← wordText e.printed value
          pure [v ++ '=' :: s]
        else wordFields e.printed w
      | _, _ => wordFields e.printed w
    arguments (soFar ++ fields) rest

def trace (sh : Shell) (assigned : List (List Char × List Char)) (args : List (List Char)) : Work Unit := do
  if sh.hasOption 'x' then
    let start := (sh.value? "PS4".toList).getD ['+', ' ']
    let shown := joined [' '] (assigned.map (fun (name, v) => name ++ '=' :: v) ++ args)
    match sh.streams.lookup 2 with
    | some k =>
      modify fun now =>
        { now with machine := (now.machine.write? (encode (start ++ shown ++ ['\n'])) k).getD now.machine }
    | none => return

def simple (isTested : Bool) (line : Nat) (assigned : List (List Char × Word)) (words : List Word)
    (rs : List (Redirection Word)) : Work Unit := do
  modify fun sh => { sh with line := line, substituted := 0 }
  let args ← arguments e [] words
  let joins ← rs.mapM e.redirection
  let before ← get
  let keeps := keepsAssignments before args
  let isReplacement := args = ["exec".toList]
  let finish (sh : Shell) : Shell := { sh with streams := before.streams }
  if !(← redirectAll joins) then
    modify finish
    setStatus 2
    if keeps && !args.isEmpty then throw .fault
  else
    let work : Work Unit := do
      let mut given : List (List Char × List Char) := []
      let former := (← get).saved
      if !keeps then modify fun sh => { sh with saved := [] :: sh.saved }
      for (name, value) in assigned do
        let v ← wordText e.printed value
        given := given ++ [(name, v)]
        if !keeps then save name
        assign name v
        if !keeps then markExported name
      trace before given args
      if args.isEmpty then setStatus (← get).substituted
      else if keeps then perform e isTested 8 true true args
      else
        -- A function sees the saved variables of its callers, not those given to itself.
        let frame := (← get).saved.headD []
        modify fun sh => { sh with saved := former }
        andFinally (perform e isTested 8 true true args) (restore frame)
    andFinally work fun sh => if isReplacement then sh else finish sh
  checkFailure isTested

def runCommand (isTested : Bool) : Script → Work Unit
  | .simple line assigned words rs => simple e isTested line assigned words rs
  | .both a b => do
    e.run true a
    if (← get).status = 0 then e.run isTested b
  | .either a b => do
    e.run true a
    if (← get).status ≠ 0 then e.run isTested b
  | .negated a => do
    e.run true a
    setStatus (if (← get).status = 0 then 1 else 0)
  | .pipe stages => do
    runStages e isTested stages none
    checkFailure isTested
  | .background a => do
    let k ← openHeld []
    let n := (← get).machine.nextNumber
    modify fun sh => { sh with machine := { sh.machine with nextNumber := n + 1 } }
    let status ← e.inside (setStream 0 k) (e.run isTested a)
    modify fun sh => { sh with jobs := (n, status) :: sh.jobs, lastJob := some n, status := 0 }
  | .choose condition yes no => do
    e.runAll true condition
    if (← get).status = 0 then e.runAll isTested yes
    else if no.isEmpty then setStatus 0
    else e.runAll isTested no
  | .each line name words body => do
    modify fun sh => { sh with line := line }
    let values ← match words with
      | some words => arguments e [] words
      | none => do pure (← get).args
    if values.isEmpty then setStatus 0
    withinLoop (repeatFor e isTested name body values)
  | .loop expected condition body =>
    withinLoop (repeatWhile e isTested expected condition body rounds 0)
  | .select line word branches => do
    modify fun sh => { sh with line := line }
    let v ← wordText e.printed word
    match ← branchFor e v branches with
    | none => setStatus 0
    | some body => if body.isEmpty then setStatus 0 else e.runAll isTested body
  | .apart line body => do
    modify fun sh => { sh with line := line }
    setStatus (← e.inside id (e.runAll isTested body))
    checkFailure isTested
  | .grouped body => e.runAll isTested body
  | .redirected line body rs => do
    modify fun sh => { sh with line := line }
    let joins ← rs.mapM e.redirection
    let former := (← get).streams
    if ← redirectAll joins then
      andFinally (e.run isTested body) fun sh => { sh with streams := former }
    else
      modify fun sh => { sh with streams := former, status := 2 }
      checkFailure isTested
  | .define name body => do
    modify fun sh => { sh with functions := (name, body) :: sh.functions.filter (·.1 ≠ name) }
    setStatus 0

def step (isTested : Bool) (s : Script) : Work Unit := do
  if (← get).hasOption 'n' then return
  runCommand e isTested s

def fresh (p : Process) (name : List Char) : Shell :=
  let given := p.environment.filter fun x => isName x.1
  let set_ (v : Variable) (name : String) (sh : Shell) : Shell := sh.withVariable name.toList v
  let pwd := match p.environment.lookup "PWD".toList with
    | some d =>
      match p.tree.find p.here ⟨d⟩ with
      | .ok (l, _) => if d.head? = some '/' && l = p.here then d else (Machine.pathOf p.here).chars
      | .error _ => (Machine.pathOf p.here).chars
    | none => (Machine.pathOf p.here).chars
  let start : Shell := { toProcess := p, name := name }
  let sh := given.foldl (fun (sh : Shell) (n, v) => sh.withVariable n { value := some v, isExported := true })
    start
  sh |> set_ { value := some " \t\n".toList } "IFS" |> set_ { value := some ['1'] } "OPTIND"
    |> set_ { value := some (numberText (p.numbers.getD 1 1)) } "PPID"
    |> set_ { value := some pwd, isExported := true } "PWD"

/-- The options of a shell that is started, and what follows them: whether a script is given as an operand, and
whether the standard input holds one. -/
def startOptions : List (List Char) → Work (Bool × Bool × List (List Char))
  | [] => return (false, false, [])
  | a :: rest => do
    if a = ['-'] || a = ['-', '-'] then return (false, false, rest)
    else
      match optionLetters? a with
      | none => return (false, false, a :: rest)
      | some (isOn, letters) =>
        (letters.filter fun c => !(['c', 'o', 'l'].contains c)).forM (setOption isOn)
        let more (found : Bool × Bool × List (List Char)) : Bool × Bool × List (List Char) :=
          (found.1 || letters.contains 'c', found.2.1 || letters.contains 's', found.2.2)
        if letters.contains 'o' then
          match rest with
          | name :: rest' =>
            setNamedOption isOn name
            return more (← startOptions rest')
          | [] => return more (false, false, [])
        else return more (← startOptions rest)

def startShell (args : List (List Char)) : Work Unit := do
  modify fun sh => { sh with line := 0 }
  let (givesScript, readsInput, operands) ← startOptions args
  let run (text : List Char) : Work Unit := do
    modify fun sh => { sh with line := 1 }
    if !(← e.runSource (text.length + 2) false { rest := text }) then pure ()
  if givesScript then
    match operands with
    | [] => fail "-c requires an argument"
    | text :: operands =>
      match operands with
      | name :: rest => modify fun sh => { sh with name := name, args := rest }
      | [] => pure ()
      run text
  else
    match readsInput, operands with
    | false, path :: rest =>
      match ← asProcess (Process.readFile path) with
      | .error .isADirectory => modify fun sh => { sh with name := path, args := rest }
      | .error x => fail ("cannot open " ++ String.ofList path ++ ": " ++ openReason false x)
      | .ok b =>
        modify fun sh => { sh with name := path, args := rest }
        run (Utf8.decodeLossy b)
    | _, operands =>
      modify fun sh => { sh with args := operands }
      run (Utf8.decodeLossy (← asProcess Process.input))

def shellProgram (args : List (List Char)) : StateM Process Ending := do
  let p ← get
  let (ending, sh) := (e.toEnd (startShell e (args.drop 1))).run (fresh p (args.headD []))
  set { p with machine := sh.machine }
  return ending

def launch : Utility.Launch := fun args => do
  let p ← get
  let directories := match p.environment.lookup "PATH".toList with
    | some s => s.splitOn ':'
    | none => Machine.programDirectories.map fun l => (Machine.pathOf l).chars
  let loaded : Except OsError (String × List (List Char)) := do
    let path ← p.machine.locate directories (args.headD [])
    p.machine.loadForShell path args
  match loaded with
  | .error x => return .error x
  | .ok (program, argv) => return .ok (← Process.child (e.start program argv))

def runProgram (name : String) (args : List (List Char)) : StateM Process Ending :=
  if ["sh", "dash", "bash"].contains name then shellProgram e args
  else
    match Utility.launchers.lookup name with
    | some run => run (launch e) (args.drop 1)
    | none =>
      match Utility.programs.lookup name with
      | some run => do return .code (← run (args.drop 1))
      | none => return .code 127

end

/-- Scripts and programs that nest at most so deep. -/
def engine : (depth : Nat) → Engine
  | 0 => {
      run := fun _ _ => do throw (.killed ((← get).numbers.headD 0) tooDeep)
      start := fun _ _ => do return .killed ((← get).numbers.headD 0) tooDeep }
  | n + 1 =>
    let e := engine n
    { run := step e, start := runProgram e }

def depth : Nat := 1500

end CBuild.Shell
