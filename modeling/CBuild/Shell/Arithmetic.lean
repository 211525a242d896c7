import CBuild.Shell.Script

/-! Sums in scripts. Numbers have 64 bits, and what does not fit wraps around. -/

namespace CBuild.Shell

inductive BinaryOp
  | times | over | modulo
  | plus | minus
  | left | right
  | less | lessEqual | greater | greaterEqual
  | equal | unequal
  | bitAnd | bitXor | bitOr
deriving DecidableEq

inductive UnaryOp
  | plus | minus | not | complement
deriving DecidableEq

inductive Sum
  | number (n : Int)
  | name (s : List Char)
  | unary (op : UnaryOp) (a : Sum)
  | binary (op : BinaryOp) (a b : Sum)
  | both (a b : Sum)
  | either (a b : Sum)
  | choose (condition yes no : Sum)
  | assign (name : List Char) (op : Option BinaryOp) (a : Sum)

inductive SumFault
  | expectsOperand
  | expectsEnd
  | expectsParenthesis
  | expectsColon
  | divisionByZero
deriving DecidableEq

def SumFault.message : SumFault → String
  | expectsOperand => "expecting primary"
  | expectsEnd => "expecting EOF"
  | expectsParenthesis => "expecting ')'"
  | expectsColon => "expecting ':'"
  | divisionByZero => "division by zero"

def wrap (n : Int) : Int :=
  n.bmod 0x10000000000000000

def greatest : Int := 0x7FFFFFFFFFFFFFFF

def digitsOf (base : Nat) (s : List Char) : List Nat :=
  (s.map fun c =>
    if c.isDigit then c.toNat - 48
    else if c.isAlpha then c.toLower.toNat - 87
    else base).takeWhile (· < base)

/-- The number at the start of a text in one of the three notations, and how long it is. -/
def numeral (s : List Char) : Int × Nat :=
  let read (base : Nat) (s : List Char) : Int × Nat :=
    let ds := digitsOf base s
    (min greatest (ds.foldl (fun (a : Nat) d => a * base + d) 0 : Nat), ds.length)
  match s with
  | '0' :: x :: r =>
    if x = 'x' || x = 'X' then
      let (n, k) := read 16 r
      if k = 0 then (0, 1) else (n, k + 2)
    else read 8 s
  | '0' :: _ => read 8 s
  | _ => read 10 s

def number? (s : List Char) : Option Int :=
  let isBlank (c : Char) : Bool := " \t\n\x0b\x0c\r".toList.contains c
  let s := s.dropWhile isBlank
  let isNegative := s.head? = some '-'
  let r := if isNegative || s.head? = some '+' then s.drop 1 else s
  if (r.head?.map Char.isDigit).getD false then
    let (n, k) := numeral r
    if (r.drop k).all isBlank then some (if isNegative then -n else n) else none
  else if s = [] then some 0
  else none

namespace Sum

inductive Token
  | number (n : Int)
  | name (s : List Char)
  | sign (s : String)
deriving DecidableEq

def signs : List String :=
  ["<<=", ">>=", "==", "!=", ">=", ">>", "<=", "<<", "|=", "||", "&=", "&&", "*=", "/=", "%=", "+=", "-=",
    "^=", "=", "!", ">", "<", "|", "&", "*", "/", "%", "+", "-", "~", "^", "(", ")", "?", ":"]

def tokens : (fuel : Nat) → List Char → List Token
  | 0, _ => []
  | n + 1, s =>
    match s with
    | [] => []
    | c :: r =>
      if c = ' ' || c = '\t' || c = '\n' then tokens n r
      else if c.isDigit then
        let (v, k) := numeral s
        .number v :: tokens n (s.drop (max k 1))
      else if isNameStart c then
        let name := s.takeWhile isNameChar
        .name name :: tokens n (s.drop name.length)
      else
        match signs.find? fun t => t.toList.isPrefixOf s with
        | some t => .sign t :: tokens n (s.drop t.length)
        | none => .sign (String.singleton c) :: tokens n r

def binaryOp? : String → Option (BinaryOp × Nat)
  | "*" => some (.times, 0)
  | "/" => some (.over, 0)
  | "%" => some (.modulo, 0)
  | "+" => some (.plus, 1)
  | "-" => some (.minus, 1)
  | "<<" => some (.left, 2)
  | ">>" => some (.right, 2)
  | "<" => some (.less, 3)
  | "<=" => some (.lessEqual, 3)
  | ">" => some (.greater, 3)
  | ">=" => some (.greaterEqual, 3)
  | "==" => some (.equal, 4)
  | "!=" => some (.unequal, 4)
  | "&" => some (.bitAnd, 5)
  | "^" => some (.bitXor, 6)
  | "|" => some (.bitOr, 7)
  | _ => none

def loosest : Nat := 8

def assignment? (s : String) : Option (Option BinaryOp) :=
  if s = "=" then some none
  else if s.endsWith "=" then
    match binaryOp? (String.ofList s.toList.dropLast) with
    | some (op, level) => if level = 3 || level = 4 then none else some (some op)
    | none => none
  else none

abbrev Parsing := StateT (List Token) (Except SumFault)

def advance : Parsing Unit :=
  modify fun ts => ts.drop 1

def operand (whole : Parsing Sum) : (fuel : Nat) → Parsing Sum
  | 0 => throw .expectsOperand
  | n + 1 => do
    let ts ← get
    advance
    match ts with
    | .number v :: _ => return .number v
    | .name s :: _ => return .name s
    | .sign "(" :: _ =>
      let a ← whole
      if (← get).head? ≠ some (.sign ")") then throw .expectsParenthesis
      advance
      return a
    | .sign "+" :: _ => return .unary .plus (← operand whole n)
    | .sign "-" :: _ => return .unary .minus (← operand whole n)
    | .sign "!" :: _ => return .unary .not (← operand whole n)
    | .sign "~" :: _ => return .unary .complement (← operand whole n)
    | _ => throw .expectsOperand

/-- Operations that bind tighter than the bound, from a first operand on. -/
def operations (operand : Parsing Sum) : (fuel : Nat) → (bound : Nat) → Sum → Parsing Sum
  | 0, _, a => return a
  | n + 1, bound, a => do
    match ← get with
    | .sign s :: _ =>
      match binaryOp? s with
      | some (op, level) =>
        if level < bound then
          advance
          let b ← operations operand n level (← operand)
          operations operand n bound (.binary op a b)
        else return a
      | none => return a
    | _ => return a

def conjunction (operand : Parsing Sum) : (fuel : Nat) → Parsing Sum
  | 0 => throw .expectsOperand
  | n + 1 => do
    let a ← operations operand (n + 1) loosest (← operand)
    if (← get).head? = some (.sign "&&") then
      advance
      return .both a (← conjunction operand n)
    else return a

def disjunction (operand : Parsing Sum) : (fuel : Nat) → Parsing Sum
  | 0 => throw .expectsOperand
  | n + 1 => do
    let a ← conjunction operand (n + 1)
    if (← get).head? = some (.sign "||") then
      advance
      return .either a (← disjunction operand n)
    else return a

def conditional (whole operand : Parsing Sum) : (fuel : Nat) → Parsing Sum
  | 0 => throw .expectsOperand
  | n + 1 => do
    let c ← disjunction operand (n + 1)
    if (← get).head? = some (.sign "?") then
      advance
      let a ← whole
      if (← get).head? ≠ some (.sign ":") then throw .expectsColon
      advance
      return .choose c a (← conditional whole operand n)
    else return c

def whole : (fuel : Nat) → Parsing Sum
  | 0 => throw .expectsOperand
  | n + 1 => do
    match ← get with
    | .name s :: .sign t :: rest =>
      match assignment? t with
      | some op =>
        set rest
        return .assign s op (← whole n)
      | none => conditional (whole n) (operand (whole n) (n + 1)) (n + 1)
    | _ => conditional (whole n) (operand (whole n) (n + 1)) (n + 1)

def parse (s : List Char) : Except SumFault Sum := do
  let ts := tokens (s.length + 1) s
  let (a, rest) ← (whole (ts.length + 2)).run ts
  if rest = [] then return a else throw .expectsEnd

def truth (b : Bool) : Int :=
  if b then 1 else 0

def BinaryOp.apply (a b : Int) : BinaryOp → Int
  | .times => wrap (a * b)
  | .over => wrap (a.tdiv b)
  | .modulo => a.tmod b
  | .plus => wrap (a + b)
  | .minus => wrap (a - b)
  | .left => wrap (a * Int.pow 2 (b.emod 64).toNat)
  | .right => a.fdiv (Int.pow 2 (b.emod 64).toNat)
  | .less => truth (a < b)
  | .lessEqual => truth (a ≤ b)
  | .greater => truth (a > b)
  | .greaterEqual => truth (a ≥ b)
  | .equal => truth (a = b)
  | .unequal => truth (a ≠ b)
  | .bitAnd => (BitVec.ofInt 64 a &&& BitVec.ofInt 64 b).toInt
  | .bitXor => (BitVec.ofInt 64 a ^^^ BitVec.ofInt 64 b).toInt
  | .bitOr => (BitVec.ofInt 64 a ||| BitVec.ofInt 64 b).toInt

def UnaryOp.apply (a : Int) : UnaryOp → Int
  | .plus => a
  | .minus => wrap (-a)
  | .not => truth (a = 0)
  | .complement => -a - 1

section

variable {m : Type → Type} [Monad m]

def operate (fault : SumFault → m Int) (op : BinaryOp) (a b : Int) : m Int :=
  if b = 0 ∧ (op = .over ∨ op = .modulo) then fault .divisionByZero else return BinaryOp.apply a b op

def value (get : List Char → m Int) (set : List Char → Int → m Unit) (fault : SumFault → m Int) :
    Sum → m Int
  | .number n => return n
  | .name s => get s
  | .unary op a => return UnaryOp.apply (← value get set fault a) op
  | .binary op a b => do
    let x ← value get set fault a
    operate fault op x (← value get set fault b)
  | .both a b => do
    if (← value get set fault a) = 0 then return 0
    return truth ((← value get set fault b) ≠ 0)
  | .either a b => do
    if (← value get set fault a) ≠ 0 then return 1
    return truth ((← value get set fault b) ≠ 0)
  | .choose c a b => do
    if (← value get set fault c) ≠ 0 then value get set fault a else value get set fault b
  | .assign s op a => do
    let x ← value get set fault a
    let y ← match op with
      | none => pure x
      | some op => do operate fault op (← get s) x
    set s y
    return y

end

end Sum
end CBuild.Shell
