import CBuild.Utility.Process

/-! Options and operands of programs. Options may stand anywhere before a double dash. -/

namespace CBuild.Utility

/-- The options that a program knows: letters alone, letters with a value, and long names for them. An
optional value can only stand right behind its letter. -/
structure Known where
  flags : String := ""
  valued : String := ""
  long : List (String × Char) := []
  optional : String := ""

def known (flags valued : String) (long : List (String × Char)) : Known :=
  { flags, valued, long }

structure Given where
  options : List (Char × List Char) := []
  operands : List (List Char) := []
deriving DecidableEq

namespace Given

def has (g : Given) (c : Char) : Bool :=
  g.options.any (·.1 = c)

def value? (g : Given) (c : Char) : Option (List Char) :=
  (g.options.reverse.find? (·.1 = c)).map Prod.snd

def last? (g : Given) (cs : List Char) : Option Char :=
  (g.options.reverse.find? fun o => cs.contains o.1).map Prod.fst

def add (g : Given) (c : Char) (v : List Char) : Given :=
  { g with options := g.options ++ [(c, v)] }

end Given

inductive OptionFault
  | unknownLetter (c : Char)
  | unknownName (s : List Char)
  | missingValue (c : Char)
deriving DecidableEq

def OptionFault.message : OptionFault → String
  | unknownLetter c => "invalid option -- '" ++ String.singleton c ++ "'"
  | unknownName s => "unrecognized option '" ++ String.ofList s ++ "'"
  | missingValue c => "option requires an argument -- '" ++ String.singleton c ++ "'"

/-- The letters of one argument. The rest of it, or the next argument, is the value of a letter that has one.
The result says whether the next argument was taken. -/
def letters (k : Known) (g : Given) (next : Option (List Char)) :
    List Char → Except OptionFault (Given × Bool)
  | [] => .ok (g, false)
  | c :: r =>
    if k.flags.toList.contains c then letters k (g.add c []) next r
    else if k.optional.toList.contains c then .ok (g.add c r, false)
    else if k.valued.toList.contains c then
      if r ≠ [] then .ok (g.add c r, false)
      else
        match next with
        | some v => .ok (g.add c v, true)
        | none => .error (.missingValue c)
    else .error (.unknownLetter c)

def Known.read (k : Known) (stops : Bool) : (fuel : Nat) → Given → List (List Char) →
    Except OptionFault Given
  | 0, g, _ => .ok g
  | _, g, [] => .ok g
  | n + 1, g, a :: rest =>
    if a = ['-', '-'] then .ok { g with operands := g.operands ++ rest }
    else
      match a with
      | '-' :: '-' :: name =>
        let plain := name.takeWhile (· ≠ '=')
        match k.long.lookup (String.ofList plain) with
        | none => .error (.unknownName a)
        | some c =>
          match name.drop plain.length with
          | _ :: v => k.read stops n (g.add c v) rest
          | [] =>
            if k.valued.toList.contains c then
              match rest with
              | v :: rest' => k.read stops n (g.add c v) rest'
              | [] => .error (.missingValue c)
            else k.read stops n (g.add c []) rest
      | '-' :: c :: r =>
        match letters k g rest.head? (c :: r) with
        | .error f => .error f
        | .ok (g, true) => k.read stops n g (rest.drop 1)
        | .ok (g, false) => k.read stops n g rest
      | _ =>
        if stops then .ok { g with operands := g.operands ++ a :: rest }
        else k.read stops n { g with operands := g.operands ++ [a] } rest

def withOptions (name : String) (k : Known) (failure : Nat) (work : Given → StateM Process Nat)
    (stops : Bool) : Program := fun args => do
  match k.read stops (args.length + 1) {} args with
  | .ok g => work g
  | .error f =>
    Process.complain (name ++ ": " ++ f.message)
    Process.complain ("Try '" ++ name ++ " --help' for more information.")
    return failure

def program (name : String) (k : Known) (work : Given → StateM Process Nat) : String × Program :=
  (name, withOptions name k 1 work false)

def quoted (a : List Char) : String :=
  "'" ++ String.ofList a ++ "'"

def refuse (what : String) (status : Nat) : StateM Process Nat := do
  Process.complain what
  return status

def refuseFor (what : String) (x : OsError) (status : Nat) : StateM Process Nat :=
  refuse (what ++ ": " ++ x.reason) status

def missingOperand (name what : String) : StateM Process Nat := do
  Process.complain (name ++ ": missing " ++ what)
  refuse ("Try '" ++ name ++ " --help' for more information.") 1

def each (operands : List (List Char)) (work : List Char → StateM Process Nat) : StateM Process Nat := do
  return (← operands.mapM work).foldl max 0

def change (what : String) (result : Process → Except OsError FileTree) : StateM Process Nat := do
  match result (← get) with
  | .ok t =>
    modify (Process.withTree t)
    return 0
  | .error x => refuseFor what x 1

def sayLine (s : List Char) : StateM Process Unit :=
  Process.say (s ++ ['\n'])

def contentOf (a : List Char) : StateM Process (Except OsError Bytes) := do
  if a = ['-'] then return .ok (← Process.input)
  Process.readFile a

def contents (lead : String) (failure : Nat) (operands : List (List Char)) :
    StateM Process (List (List Char × Bytes) × Nat) := do
  if operands = [] then return ([(['-'], ← Process.input)], 0)
  let mut found : List (List Char × Bytes) := []
  let mut status := 0
  for a in operands do
    match ← contentOf a with
    | .ok b => found := found ++ [(a, b)]
    | .error x => status := max status (← refuseFor (lead ++ String.ofList a) x failure)
  return (found, status)

def linesIn (b : Bytes) : List (List Char) :=
  let s := Utf8.decodeLossy b
  let parts := s.splitOn '\n'
  if parts.getLast? = some [] then parts.dropLast else parts

def numberText (n : Nat) : List Char :=
  (toString n).toList

def sorted (names : List (List Char)) : List (List Char) :=
  names.mergeSort fun a b => (compare (String.ofList a) (String.ofList b)).isLE

end CBuild.Utility
