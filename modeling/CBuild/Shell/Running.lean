import CBuild.Shell.Expansion

/-! What running any part of a script needs: how its parts are run, shells inside shells, and streams that are
joined to something else. -/

namespace CBuild.Shell

/-- How scripts and programs run. A script that is tested may fail without harm. -/
structure Engine where
  run : (isTested : Bool) → Script → Work Unit
  /-- Starts a program of the machine, given its arguments from its own name on. -/
  start : String → List (List Char) → StateM Process Ending

def observe {α : Type} (work : Work α) : Work (Except Stop α) :=
  ExceptT.mk do return .ok (← work.run)

def conclude {α : Type} : Except Stop α → Work α
  | .ok a => return a
  | .error s => throw s

def andFinally {α : Type} (work : Work α) (tidy : Shell → Shell) : Work α := do
  let r ← observe work
  modify tidy
  conclude r

def Engine.runAll (e : Engine) (isTested : Bool) (body : List Script) : Work Unit :=
  body.forM (e.run isTested)

def Engine.runSource (e : Engine) : (fuel : Nat) → (ranAny : Bool) → Source → Work Bool
  | 0, ranAny, _ => return ranAny
  | n + 1, ranAny, s => do
    let (found, s) := s.readLine
    match found with
    | .error m =>
      modify fun sh => { sh with line := s.line }
      fail ("Syntax error: " ++ m.message)
    | .ok body =>
      e.runAll false body
      let ranAny := ranAny || !body.isEmpty
      if s.isFinished then return ranAny else e.runSource n ranAny s

/-- Runs the script that a text spells. One without commands succeeds. -/
def Engine.runText (e : Engine) (text : List Char) : Work Unit := do
  if !(← e.runSource (text.length + 2) false { rest := text }) then setStatus 0

def Engine.toEnd (e : Engine) (work : Work Unit) : StateM Shell Ending := do
  match ← work.run with
  | .error (.killed p s) => return .killed p s
  | _ =>
    let sh ← get
    match sh.traps.lookup 0 with
    | none => return .code sh.status
    | some action =>
      set { sh with traps := sh.traps.filter (·.1 ≠ 0) }
      match ← (e.runText action).run with
      | .error (.killed p s) => return .killed p s
      | .error _ => return .code (← get).status
      | .ok _ => return .code sh.status

def signalStatus (signal : Nat) : Nat :=
  128 + signal

/-- The status of a process that ended, unless what ended it is for this shell too. -/
def Ending.status : Ending → Work Nat
  | .code n => return n
  | .killed p s => do
    if (← get).numbers.contains p then throw (.killed p s)
    return signalStatus s

def Engine.inside (e : Engine) (enter : Shell → Shell) (work : Work Unit) : Work Nat := do
  let sh ← get
  let (ending, inner) := (e.toEnd work).run (enter { sh with traps := sh.traps.filter (·.2 = []) })
  set { sh with machine := { inner.machine with here := sh.here } }
  Ending.status ending

def setStream (stream channel : Nat) (sh : Shell) : Shell :=
  { sh with streams := (stream, channel) :: sh.streams.filter (·.1 ≠ stream) }

def closeStream (stream : Nat) (sh : Shell) : Shell :=
  { sh with streams := sh.streams.filter (·.1 ≠ stream) }

def openHeld (b : Bytes) : Work Nat := do
  let sh ← get
  let (k, m) := sh.machine.openChannel ⟨.held b, 0, false, true, true⟩
  set { sh with machine := m }
  return k

def Engine.printed (e : Engine) (script : List Script) : Work Bytes := do
  let k ← openHeld []
  let n ← e.inside (setStream 1 k) (e.runAll false script)
  let m := (← get).machine
  modify fun sh => { sh with
    machine := { m with channels := m.channels.shrink k }
    substituted := n }
  return m.unread k

def openReason (makes : Bool) : OsError → String
  | .notFound | .notADirectory => if makes then "Directory nonexistent" else "No such file"
  | e => e.reason

def openStream (stream : Nat) (path : List Char) (makes clears : Bool) (c : Location → Channel) :
    Work Unit := do
  let sh ← get
  match sh.toProcess.openFile path makes clears c with
  | .ok (k, p) => set (setStream stream k { sh with toProcess := p })
  | .error x =>
    fail ("cannot " ++ (if makes then "create " else "open ") ++ String.ofList path ++ ": " ++
      openReason makes x)

def isPlainFile (sh : Shell) (path : List Char) : Bool :=
  match sh.tree.find sh.here ⟨path⟩ with
  | .ok (l, .file _ _) => l ≠ FileTree.nowhere
  | _ => false

def redirect (r : Redirection (List Char)) : Work Unit := do
  let path := r.target
  match r.way with
  | .read => openStream r.stream path false false fun l => ⟨.file l, 0, false, true, false⟩
  | .write =>
    let sh ← get
    if sh.hasOption 'C' && isPlainFile sh path then
      fail ("cannot create " ++ String.ofList path ++ ": File exists")
    openStream r.stream path true true fun l => ⟨.file l, 0, false, false, true⟩
  | .clobber => openStream r.stream path true true fun l => ⟨.file l, 0, false, false, true⟩
  | .append => openStream r.stream path true false fun l => ⟨.file l, 0, true, false, true⟩
  | .readWrite => openStream r.stream path true false fun l => ⟨.file l, 0, false, true, true⟩
  | .here =>
    let k ← openHeld (encode path)
    modify (setStream r.stream k)
  | .copy =>
    if path = ['-'] then modify (closeStream r.stream)
    else
      let n := ((String.ofList path).toNat?).getD 0
      match (← get).streams.lookup n with
      | some k => modify (setStream r.stream k)
      | none => fail (toString n ++ ": Bad file descriptor")

/-- Expands what a redirection names, and gives what is to be done for it. The text of a document is only
expanded then. -/
def Engine.redirection (e : Engine) (r : Redirection Word) : Work (Work Unit) := do
  if r.way = .here then
    return do
      let text := textOf (← items e.printed { isQuoted := true } r.target)
      redirect { r with target := text }
  let text ← wordText e.printed r.target
  if r.way = .copy && text ≠ ['-'] && !(text.length = 1 && text.all Char.isDigit) then
    fail "Syntax error: Bad fd number"
  return redirect { r with target := text }

def redirectAll (joins : List (Work Unit)) : Work Bool := do
  match ← observe (joins.forM id) with
  | .ok _ => return true
  | .error .fault => return false
  | .error s => throw s

end CBuild.Shell
