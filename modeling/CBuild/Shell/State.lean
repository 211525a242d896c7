import CBuild.Shell.Reader
import CBuild.Utility.Process

/-! Shells at work. What a shell does may be cut short: by leaving a loop, a function or the shell itself. -/

namespace CBuild

namespace Shell

structure Variable where
  value : Option (List Char) := none
  isExported : Bool := false
  isReadonly : Bool := false
deriving DecidableEq

/-- Why a shell does not go on with what comes next. -/
inductive Stop
  | leave (loops : Nat)
  /-- It leaves so many loops but the last, of which it starts the next round. -/
  | again (loops : Nat)
  | back
  | exit
  | fault
  | killed (process signal : Nat)
deriving DecidableEq

end Shell

structure Shell extends Process where
  name : List Char
  args : List (List Char) := []
  bindings : List (List Char × Shell.Variable) := []
  functions : List (List Char × Shell.Script) := []
  options : List Char := []
  status : Nat := 0
  substituted : Nat := 0
  traps : List (Nat × List Char) := []
  line : Nat := 1
  command : Option (List Char) := none
  loops : Nat := 0
  /-- For each function at work, what variables were before it. -/
  saved : List (List (List Char × Option Shell.Variable)) := []
  jobs : List (Nat × Nat) := []
  lastJob : Option Nat := none
  letter : Nat := 0

namespace Shell

abbrev Work := ExceptT Stop (StateM Shell)

def encode (s : List Char) : Bytes :=
  Process.encode s

def asProcess {α : Type} (work : StateM Process α) : Work α := do
  let sh ← get
  let (a, p) := work.run sh.toProcess
  set { sh with toProcess := p }
  return a

def setStatus (n : Nat) : Work Unit :=
  modify fun sh => { sh with status := n }

def report (what : String) : Work Unit := do
  let sh ← get
  let of_ := match sh.command with
    | some c => String.ofList c ++ ": "
    | none => ""
  asProcess (Process.complain
    (String.ofList sh.name ++ ": " ++ toString sh.line ++ ": " ++ of_ ++ what))

def fail {α : Type} (what : String) : Work α := do
  report what
  setStatus 2
  throw .fault

def named? (sh : Shell) (name : List Char) : Option Variable :=
  sh.bindings.lookup name

def value? (sh : Shell) (name : List Char) : Option (List Char) :=
  (sh.named? name).bind Variable.value

def hasOption (sh : Shell) (o : Char) : Bool :=
  sh.options.contains o

def withVariable (name : List Char) (v : Variable) (sh : Shell) : Shell :=
  { sh with bindings := (name, v) :: sh.bindings.filter (·.1 ≠ name) }

def withoutVariable (name : List Char) (sh : Shell) : Shell :=
  { sh with bindings := sh.bindings.filter (·.1 ≠ name) }

def assign (name value : List Char) : Work Unit := do
  let sh ← get
  let v := (sh.named? name).getD {}
  if v.isReadonly then fail (String.ofList name ++ ": is read only")
  set (sh.withVariable name
    { v with value := some value, isExported := v.isExported || sh.hasOption 'a' })
  if name = "OPTIND".toList then modify fun sh => { sh with letter := 0 }

def markExported (name : List Char) : Work Unit :=
  modify fun sh => sh.withVariable name { (sh.named? name).getD {} with isExported := true }

def save (name : List Char) : Work Unit :=
  modify fun sh =>
    match sh.saved with
    | frame :: rest =>
      if (frame.map Prod.fst).contains name then sh
      else { sh with saved := ((name, sh.named? name) :: frame) :: rest }
    | [] => sh

def restore (frame : List (List Char × Option Variable)) (sh : Shell) : Shell :=
  frame.foldl (fun sh (name, v?) =>
    match v? with
    | some v => sh.withVariable name v
    | none => sh.withoutVariable name) sh

def exports (sh : Shell) : List (List Char × List Char) :=
  (sh.bindings.filterMap fun (name, v) =>
    if v.isExported then v.value.map (name, ·) else none).reverse

def separators (sh : Shell) : List Char :=
  (sh.value? "IFS".toList).getD " \t\n".toList

def searchPath (sh : Shell) : List (List Char) :=
  match sh.value? "PATH".toList with
  | some p => p.splitOn ':'
  | none => Machine.programDirectories.map fun l => (Machine.pathOf l).chars

def numberText (n : Nat) : List Char :=
  (toString n).toList

def joined (between : List Char) (words : List (List Char)) : List Char :=
  between.intercalate words

def optionOrder : List Char :=
  "ubaCEVvxsnmiIfe".toList

def parameter? (sh : Shell) (name : List Char) : Option (List Char) :=
  match name with
  | ['?'] => some (numberText sh.status)
  | ['#'] => some (numberText sh.args.length)
  | ['$'] => some (numberText (sh.numbers.headD 0))
  | ['!'] => sh.lastJob.map numberText
  | ['-'] => some (optionOrder.filter sh.hasOption)
  | ['0'] => some sh.name
  | _ =>
    match (String.ofList name).toNat? with
    | some n => sh.args[n - 1]?
    | none => sh.value? name

end Shell
end CBuild
