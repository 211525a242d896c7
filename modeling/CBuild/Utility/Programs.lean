import CBuild.Utility.Condition
import CBuild.Utility.Edit
import CBuild.Utility.Search

/-! The programs that every machine has. -/

namespace CBuild.Utility

def standFor (name : String) (launch : Launch) (args : List (List Char)) : StateM Process Ending := do
  match ← launch args with
  | .ok e => return e
  | .error x =>
    Process.complain (name ++ ": " ++ quoted (args.headD []) ++ ": " ++ x.reason)
    return .code (if x = .notFound then 127 else 126)

def env : String × Launcher :=
  ("env", fun launch args => do
    let rec settle : List (List Char) → StateM Process (List (List Char))
      | [] => return []
      | a :: rest => do
        if a = ['-', 'i'] || a = ['-'] || a = "--ignore-environment".toList then
          modify fun p => { p with environment := [] }
          settle rest
        else if a = ['-', 'u'] then
          match rest with
          | name :: rest' =>
            modify fun p => { p with environment := p.environment.filter (·.1 ≠ name) }
            settle rest'
          | [] => return []
        else if a = ['-', '-'] then settle rest
        else if a.contains '=' then
          let name := a.takeWhile (· ≠ '=')
          modify fun p => { p with
            environment := p.environment.filter (·.1 ≠ name) ++ [(name, a.drop (name.length + 1))] }
          settle rest
        else return a :: rest
    match ← settle args with
    | [] =>
      for (name, v) in (← get).environment do sayLine (name ++ '=' :: v)
      return .code 0
    | command => standFor "env" launch command)

def printenv : String × Program :=
  ("printenv", fun args => do
    let p ← get
    match args with
    | [] =>
      for (name, v) in p.environment do sayLine (name ++ '=' :: v)
      return 0
    | names => each names fun name => do
      match p.environment.lookup name with
      | some v =>
        sayLine v
        return 0
      | none => return 1)

def around (name : String) (skips : Nat) (valued : List String) : String × Launcher :=
  (name, fun launch args => do
    let rec operands : List (List Char) → List (List Char)
      | [] => []
      | a :: rest =>
        if valued.contains (String.ofList a) then
          match rest with
          | _ :: rest' => operands rest'
          | [] => []
        else if a.head? = some '-' then operands rest
        else a :: rest
    match (operands args).drop skips with
    | [] => return .code (← missingOperand name "operand")
    | command => standFor name launch command)

def quotedWords (s : List Char) : List (List Char) :=
  go (s.length + 1) s none
where
  go : Nat → List Char → Option (List Char) → List (List Char)
    | 0, _, word => word.toList
    | _, [], word => word.toList.map List.reverse
    | n + 1, c :: r, word =>
      if c = ' ' || c = '\t' || c = '\n' then (word.toList.map List.reverse) ++ go n r none
      else if c = '\'' || c = '"' then
        let inner := r.takeWhile (· ≠ c)
        go n (r.drop (inner.length + 1)) (some (inner.reverse ++ word.getD []))
      else
        match c, r with
        | '\\', d :: r' => go n r' (some (d :: word.getD []))
        | _, _ => go n r (some (c :: word.getD []))

def replaceAll (what by_ : List Char) : (fuel : Nat) → List Char → List Char
  | 0, s => s
  | _, [] => []
  | n + 1, c :: r =>
    if what ≠ [] && what.isPrefixOf (c :: r) then by_ ++ replaceAll what by_ n ((c :: r).drop what.length)
    else c :: replaceAll what by_ n r

def groupsOf {α : Type} (n : Nat) : (fuel : Nat) → List α → List (List α)
  | 0, _ => []
  | _, [] => []
  | k + 1, xs => xs.take n :: groupsOf n k (xs.drop n)

def xargs : String × Launcher :=
  ("xargs", fun launch args => do
    match Known.read { flags := "0rtpx", valued := "nIdLPsE", long := [("null", '0'), ("no-run-if-empty", 'r')] }
        true (args.length + 1) {} args with
    | .error f => return .code (← refuse ("xargs: " ++ f.message) 1)
    | .ok g =>
      let text := Utf8.decodeLossy (← Process.input)
      let command := if g.operands = [] then ["echo".toList] else g.operands
      let cutAt (d : Char) : List (List Char) :=
        let parts := text.splitOn d
        if parts.getLast? = some [] then parts.dropLast else parts
      let words := if g.has '0' then cutAt '\x00'
        else
          match g.value? 'd' with
          | some d => cutAt (if d = ['\\', 'n'] then '\n' else d.headD '\n')
          | none => if g.has 'I' then (cutAt '\n').filter (· ≠ []) else quotedWords text
      let commands := match g.value? 'I' with
        | some mark => words.map fun (w : List Char) =>
            command.map fun (a : List Char) =>
              replaceAll mark (w.dropWhile fun c => c = ' ') (a.length + 1) a
        | none =>
          let size := ((g.value? 'n').orElse fun _ => g.value? 'L').bind fun s => (String.ofList s).toNat?
          match size with
          | some n => (groupsOf (max n 1) (words.length + 1) words).map (command ++ ·)
          | none => if words = [] then (if g.has 'r' then [] else [command]) else [command ++ words]
      let mut status := 0
      for c in commands do
        match ← launch c with
        | .ok (.code 0) => pure ()
        | .ok (.code 255) => return .code 124
        | .ok (.code _) => status := 123
        | .ok (.killed _ _) => return .code 125
        | .error x =>
          Process.complain ("xargs: " ++ String.ofList (c.headD []) ++ ": " ++ x.reason)
          return .code (if x = .notFound then 127 else 126)
      return .code status)

def which : String × Program :=
  ("which", fun args => do
    let p ← get
    let directories := ((p.environment.lookup "PATH".toList).getD []).splitOn ':'
    each (args.filter (·.head? ≠ some '-')) fun a => do
      match p.machine.locate directories a with
      | .ok path =>
        sayLine path.chars
        return 0
      | .error _ => return 1)

/-- The value of an expression, from what binds loosest on. -/
inductive Value
  | number (n : Int)
  | text (s : List Char)
deriving DecidableEq

namespace Value

def ofText (s : List Char) : Value :=
  let digits := if s.head? = some '-' then s.drop 1 else s
  match (String.ofList digits).toNat? with
  | some n => if digits.all Char.isDigit then .number (if s.head? = some '-' then -n else n) else .text s
  | none => .text s

def chars : Value → List Char
  | number n => (toString n).toList
  | text s => s

def isNull (v : Value) : Bool :=
  v = .number 0 || v.chars = []

abbrev Reading := StateT (List (List Char)) (Except String)

def take : Reading (List Char) := do
  match ← get with
  | a :: rest =>
    set rest
    return a
  | [] => throw "syntax error: missing argument"

def truth (b : Bool) : Value :=
  .number (if b then 1 else 0)

def compares (op : String) (a b : Value) : Value :=
  let order := match ofText a.chars, ofText b.chars with
    | .number x, .number y => compare x y
    | _, _ => compare (String.ofList a.chars) (String.ofList b.chars)
  truth (match op with
    | "<" => order = .lt
    | "<=" => order ≠ .gt
    | "=" | "==" => order = .eq
    | "!=" => order ≠ .eq
    | ">=" => order ≠ .lt
    | _ => order = .gt)

def calculates (op : String) (a b : Value) : Reading Value := do
  match ofText a.chars, ofText b.chars with
  | .number x, .number y =>
    match op with
    | "+" => return .number (x + y)
    | "-" => return .number (x - y)
    | "*" => return .number (x * y)
    | "/" => if y = 0 then throw "division by zero" else return .number (x.tdiv y)
    | _ => if y = 0 then throw "division by zero" else return .number (x.tmod y)
  | _, _ => throw "non-integer argument"

def matching (a b : Value) : Reading Value := do
  match Regex.parse? false ('^' :: b.chars) with
  | none => throw "invalid regular expression"
  | some r =>
    let hasGroup := (String.ofList b.chars).splitOn "\\(" |>.length |> (· > 1)
    match r.search false { behind := [], ahead := a.chars } 1 with
    | some (_, q) =>
      return if hasGroup then .text ((q.groups.lookup 1).getD [])
        else .number ((q.groups.lookup 0).getD []).length
    | none => return if hasGroup then .text [] else .number 0

def levels : List (List String) :=
  [["|"], ["&"], ["<", "<=", "=", "==", "!=", ">=", ">"], ["+", "-"], ["*", "/", "%"], [":"]]

def apply (op : String) (a b : Value) : Reading Value :=
  if op = "|" then return if !a.isNull then a else if !b.isNull then b else .number 0
  else if op = "&" then return if a.isNull || b.isNull then .number 0 else a
  else if op = ":" then matching a b
  else if (levels.getD 2 []).contains op then return compares op a b
  else calculates op a b

def operations (operand : Reading Value) (ops : List String) : (fuel : Nat) → Value → Reading Value
  | 0, a => return a
  | n + 1, a => do
    match ← get with
    | op :: rest =>
      if ops.contains (String.ofList op) then
        set rest
        let b ← operand
        operations operand ops n (← apply (String.ofList op) a b)
      else return a
    | [] => return a

def atLevels (primary : Reading Value) (limit : Nat) : List (List String) → Reading Value
  | [] => primary
  | ops :: tighter => do
    let a ← atLevels primary limit tighter
    operations (atLevels primary limit tighter) ops limit a

def expression : (fuel : Nat) → Reading Value
  | 0 => throw "syntax error"
  | n + 1 => do
    let limit := (← get).length
    let primary : Reading Value := do
      let a ← take
      match String.ofList a with
      | "(" =>
        let v ← expression n
        if (← take) ≠ [')'] then throw "syntax error: expecting ')'"
        return v
      | "length" => return .number (← take).length
      | "substr" =>
        let s ← take
        match ofText (← take), ofText (← take) with
        | .number i, .number k =>
          return .text (if i < 1 || k < 1 then [] else (s.drop (i.toNat - 1)).take k.toNat)
        | _, _ => return .text []
      | "index" =>
        let s ← take
        let cs ← take
        let found := (s.findIdx? fun c => cs.contains c).map (· + 1)
        return .number ((found.getD 0 : Nat) : Int)
      | "+" => return .text (← take)
      | _ => return .text a
    atLevels primary limit levels

end Value

def expr : String × Program :=
  ("expr", fun args => do
    if args = [] then
      discard (missingOperand "expr" "operand")
      return 2
    match (Value.expression (args.length + 1)).run args with
    | .ok (v, []) =>
      sayLine v.chars
      return if v.isNull || Value.ofText v.chars = .number 0 then 1 else 0
    | .ok (_, a :: _) => refuse ("expr: syntax error: unexpected argument " ++ quoted a) 2
    | .error s =>
      let behind := if s = "syntax error: missing argument" then " after " ++ quoted (args.getLast?.getD [])
        else ""
      refuse ("expr: " ++ s ++ behind) 2)

def fixed (name line : String) : String × Program :=
  (name, fun _ => do
    sayLine line.toList
    return 0)

def uname : String × Program :=
  program "uname" (known "asnrvmpio" "" []) fun g => do
    sayLine (if g.has 'm' then "x86_64".toList else "Linux".toList)
    return 0

def programs : List (String × Program) :=
  [("true", fun _ => return 0), ("false", fun _ => return 1), ("echo", Printing.echo),
    ("printf", Printing.printf), ("test", Condition.program "test"), ("[", Condition.program "["),
    ("sleep", fun _ => return 0), ("sync", fun _ => return 0), Edit.sed,
    grepWith "grep" false false, grepWith "egrep" true false, grepWith "fgrep" false true,
    printenv, which, expr, uname, fixed "whoami" "root", fixed "nproc" "1",
    fixed "hostname" "localhost", fixed "date" "Thu Jan  1 00:00:00 UTC 1970", fixed "id" "0"] ++
    filePrograms ++ streamPrograms

def launchers : List (String × Launcher) :=
  [env, xargs, find, around "nice" 0 ["-n"], around "nohup" 0 [], around "timeout" 1 ["-s", "-k"],
    around "setsid" 0 [], around "stdbuf" 0 ["-i", "-o", "-e"]]

end CBuild.Utility
