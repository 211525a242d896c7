import CBuild.Utility.Process

/-! Conditions on texts, numbers and files, as they are spelled in arguments. -/

namespace CBuild.Condition

inductive Fault
  | unexpected (operator : List Char)
  | expectsArgument (operator : List Char)
  | expectsParenthesis
  | illegalNumber (s : List Char)
  | missingBracket
deriving DecidableEq

def Fault.message : Fault → String
  | unexpected o => (if o = [] then "" else String.ofList o ++ ": ") ++ "unexpected operator"
  | expectsArgument o => String.ofList o ++ ": argument expected"
  | expectsParenthesis => "closing paren expected"
  | illegalNumber s => "Illegal number: " ++ String.ofList s
  | missingBracket => "missing ]"

inductive Token
  | finish
  | operand
  | unary
  | binary
  | not
  | and
  | or
  | opening
  | closing
deriving DecidableEq

def unaryOps : List String :=
  ["-r", "-w", "-x", "-e", "-f", "-d", "-c", "-b", "-p", "-u", "-g", "-k", "-s", "-t", "-z", "-n", "-h", "-O",
    "-G", "-L", "-S"]

def binaryOps : List String :=
  ["=", "!=", "<", ">", "-eq", "-ne", "-ge", "-gt", "-le", "-lt", "-nt", "-ot", "-ef"]

def operator? (a : List Char) : Option Token :=
  let s := String.ofList a
  if unaryOps.contains s then some .unary
  else if binaryOps.contains s then some .binary
  else
    match s with
    | "!" => some .not
    | "-a" => some .and
    | "-o" => some .or
    | "(" => some .opening
    | ")" => some .closing
    | _ => none

def isOperand (args : List (List Char)) (i : Nat) : Bool :=
  match args[i + 1]?, args[i + 2]? with
  | none, _ => true
  | _, none => false
  | some s, _ => operator? s = some .binary

def tokenAt (args : List (List Char)) (i : Nat) : Token :=
  match args[i]? with
  | none => .finish
  | some a =>
    match operator? a with
    | some .unary => if isOperand args i then .operand else .unary
    | some .opening => if (args[i + 1]?).isNone then .operand else .opening
    | some t => t
    | none => .operand

def number? (s : List Char) : Option Int :=
  let isBlank (c : Char) : Bool := " \t\n\x0b\x0c\r".toList.contains c
  let s := s.dropWhile isBlank
  let r := if s.head? = some '-' || s.head? = some '+' then s.drop 1 else s
  let digits := r.takeWhile Char.isDigit
  if digits ≠ [] && (r.drop digits.length).all isBlank then
    (String.ofList digits).toNat?.map fun n => if s.head? = some '-' then -(n : Int) else n
  else none

def found? (p : Process) (a : List Char) : Option (Location × TreeEntry) :=
  (p.tree.find p.here ⟨a⟩).toOption

def isLink (p : Process) (a : List Char) : Bool :=
  match p.tree.place p.here ⟨a⟩ false with
  | .ok (.found l) =>
    match p.tree.get? l with
    | some (.link _) => true
    | _ => false
  | _ => false

def holdsOf (p : Process) (operator a : List Char) : Bool :=
  let there := found? p a
  match String.ofList operator with
  | "-z" => a = []
  | "-n" => a ≠ []
  | "-t" => false
  | "-h" | "-L" => isLink p a
  | "-r" | "-w" | "-e" | "-O" | "-G" => there.isSome
  | "-d" =>
    match there with
    | some (_, .directory) => true
    | _ => false
  | "-f" =>
    match there with
    | some (l, .file _ _) => l ≠ FileTree.nowhere
    | _ => false
  | "-c" =>
    match there with
    | some (l, .file _ _) => l = FileTree.nowhere
    | _ => false
  | "-x" =>
    match there with
    | some (_, .file _ x) => x
    | some (_, .directory) => true
    | _ => false
  | "-s" =>
    match there with
    | some (_, .file b _) => b ≠ []
    | some (_, .directory) => true
    | _ => false
  | _ => false

def compares (p : Process) (operator a b : List Char) : Except Fault Bool := do
  let byNumber (f : Int → Int → Bool) : Except Fault Bool := do
    match number? a, number? b with
    | some x, some y => return f x y
    | none, _ => throw (.illegalNumber a)
    | _, none => throw (.illegalNumber b)
  match String.ofList operator with
  | "=" => return a = b
  | "!=" => return a ≠ b
  | "<" => return String.ofList a < String.ofList b
  | ">" => return String.ofList b < String.ofList a
  | "-eq" => byNumber fun x y => x = y
  | "-ne" => byNumber fun x y => x ≠ y
  | "-lt" => byNumber fun x y => x < y
  | "-le" => byNumber fun x y => x ≤ y
  | "-gt" => byNumber fun x y => x > y
  | "-ge" => byNumber fun x y => x ≥ y
  | "-ef" =>
    match found? p a, found? p b with
    | some (l, _), some (k, _) => return l = k
    | _, _ => return false
  | "-nt" => return (found? p a).isSome && (found? p b).isNone
  | _ => return (found? p a).isNone && (found? p b).isSome

abbrev Reading := StateT Nat (Except Fault)

section

variable (p : Process) (args : List (List Char))

def argument (i : Nat) : List Char :=
  args.getD i []

def primary (disjunction : Token → Reading Bool) (t : Token) : Reading Bool := do
  let i ← get
  match t with
  | .finish => return false
  | .opening =>
    set (i + 1)
    let t := tokenAt args (i + 1)
    if t = .closing then return false
    let b ← disjunction t
    let j ← get
    set (j + 1)
    if tokenAt args (j + 1) ≠ .closing then throw .expectsParenthesis
    return b
  | .unary =>
    set (i + 1)
    match args[i + 1]? with
    | none => throw (.expectsArgument (argument args i))
    | some a => return holdsOf p (argument args i) a
  | _ =>
    if tokenAt args (i + 1) = .binary then
      set (i + 2)
      match args[i + 2]? with
      | none => throw (.expectsArgument (argument args (i + 1)))
      | some b => compares p (argument args (i + 1)) (argument args i) b
    else return argument args i ≠ []

def negation (disjunction : Token → Reading Bool) : (fuel : Nat) → Token → Reading Bool
  | 0, _ => throw .expectsParenthesis
  | n + 1, t => do
    if t ≠ .not then primary p args disjunction t
    else
      let i ← get
      let t := tokenAt args (i + 1)
      if t ≠ .finish then set (i + 1)
      return !(← negation disjunction n t)

def conjunction (disjunction : Token → Reading Bool) : (fuel : Nat) → Token → Reading Bool
  | 0, _ => throw .expectsParenthesis
  | n + 1, t => do
    let a ← negation p args disjunction (args.length + 2) t
    let i ← get
    if tokenAt args (i + 1) ≠ .and then return a
    set (i + 2)
    let b ← conjunction disjunction n (tokenAt args (i + 2))
    return a && b

def disjunction : (fuel : Nat) → Token → Reading Bool
  | 0, _ => throw .expectsParenthesis
  | n + 1, t => do
    let a ← conjunction p args (disjunction n) (args.length + 2) t
    let i ← get
    if tokenAt args (i + 1) ≠ .or then return a
    set (i + 2)
    let b ← disjunction n (tokenAt args (i + 2))
    return a || b

def whole (t : Token) : Except Fault Bool := do
  let (b, i) ← (disjunction p args (args.length + 2) t).run 0
  if i + 1 < args.length then throw (.unexpected (argument args i))
  return b

end

/-- Whether a condition holds. Three or four arguments are told apart by their number first. -/
def holds (p : Process) : (fuel : Nat) → List (List Char) → Except Fault Bool
  | 0, _ => return false
  | _, [] => return false
  | n + 1, args => do
    let isBinary := args.length = 3 && operator? (argument args 1) = some .binary
    if isBinary then whole p args .operand
    else if args.length = 3 || args.length = 4 then
      if args.head? = some ['('] && args.getLast? = some [')'] then
        let inner := (args.drop 1).dropLast
        whole p inner (tokenAt inner 0)
      else if args.head? = some ['!'] then return !(← holds p n (args.drop 1))
      else whole p args (tokenAt args 0)
    else whole p args (tokenAt args 0)

def ofCommand (p : Process) (name : String) (args : List (List Char)) : Except Fault Bool :=
  if name = "[" then
    if args.getLast? = some [']'] then holds p 8 args.dropLast else .error .missingBracket
  else holds p 8 args

def program (name : String) : Program := fun args => do
  match ofCommand (← get) name args with
  | .ok true => return 0
  | .ok false => return 1
  | .error f =>
    Process.complain (name ++ ": " ++ f.message)
    return 2

end CBuild.Condition
