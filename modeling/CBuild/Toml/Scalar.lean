import CBuild.Toml.Data

/-! Values spelled without quotes or brackets: numbers, truth values, dates and times. Such a value is
one unbroken run of characters, except that one space may stand between a date and a time. -/

namespace CBuild.Toml

def isTokenChar (c : Char) : Bool :=
  c.isAlphanum || c = '+' || c = '-' || c = '_' || c = '.' || c = ':'

/-- Digits in groups that single underscores separate, without the underscores. -/
def ungrouped? (isDigit : Char → Bool) (s : List Char) : Option (List Char) :=
  let groups := s.splitOn '_'
  if groups.all fun g => g ≠ [] && g.all isDigit then some groups.flatten else none

def digitValue (c : Char) : Nat :=
  if c.isDigit then c.toNat - 48 else if 'a' ≤ c then c.toNat - 87 else c.toNat - 55

def valueOfDigits (base : Nat) (digits : List Char) : Nat :=
  digits.foldl (fun n c => base * n + digitValue c) 0

def sign : List Char → Bool × List Char
  | '-' :: r => (true, r)
  | '+' :: r => (false, r)
  | s => (false, s)

def decimalDigits? (s : List Char) : Option (List Char) :=
  (ungrouped? Char.isDigit s).bind fun ds =>
    if ds.head? = some '0' && ds.length ≠ 1 then none else some ds

def inRange? (n : Int) : Option Int :=
  let bound : Int := 0x8000000000000000
  if -bound ≤ n && n < bound then some n else none

def based? (base : Nat) (isDigit : Char → Bool) (s : List Char) : Option Int :=
  (ungrouped? isDigit s).bind fun ds => inRange? (valueOfDigits base ds)

def isHexDigit (c : Char) : Bool :=
  c.isDigit || ('a' ≤ c && c ≤ 'f') || ('A' ≤ c && c ≤ 'F')

def integer? (s : List Char) : Option Int :=
  match s with
  | '0' :: 'x' :: r => based? 16 isHexDigit r
  | '0' :: 'o' :: r => based? 8 (fun c => '0' ≤ c && c ≤ '7') r
  | '0' :: 'b' :: r => based? 2 (fun c => c = '0' || c = '1') r
  | _ =>
    let (negative, r) := sign s
    (decimalDigits? r).bind fun ds =>
      let n := valueOfDigits 10 ds
      inRange? (if negative then -n else n)

def exponent? : List Char → Option Int
  | [] => some 0
  | c :: r =>
    if c = 'e' || c = 'E' then
      let (negative, r) := sign r
      (ungrouped? Char.isDigit r).map fun ds =>
        let n : Int := valueOfDigits 10 ds
        if negative then -n else n
    else none

def isGrouped (c : Char) : Bool :=
  c.isDigit || c = '_'

def fractionAndExponent? (s : List Char) : Option (List Char × Int) :=
  match s with
  | [] => none
  | '.' :: r => do
    let ds ← ungrouped? Char.isDigit (r.takeWhile isGrouped)
    let e ← exponent? (r.dropWhile isGrouped)
    return (ds, e)
  | _ => (exponent? s).map ([], ·)

/-- A number too large for its type is refused when it is positive and minus infinity otherwise. -/
def float? (s : List Char) : Option Binary64 := do
  let (negative, r) := sign s
  if r = "inf".toList then return .infinite negative
  if r = "nan".toList then return .nan
  let whole ← decimalDigits? (r.takeWhile isGrouped)
  let (fraction, e) ← fractionAndExponent? (r.dropWhile isGrouped)
  let x := Binary64.ofDecimal negative (valueOfDigits 10 (whole ++ fraction)) (e - fraction.length)
  if x = .infinite false then none else return x

def digits? (n : Nat) (s : List Char) : Option (Nat × List Char) :=
  let ds := s.take n
  if ds.length = n && ds.all Char.isDigit then some (valueOfDigits 10 ds, s.drop n) else none

def expect? (c : Char) : List Char → Option (List Char)
  | [] => none
  | x :: r => if x = c then some r else none

def daysOfMonth (year month : Nat) : Nat :=
  if month = 2 then
    if year % 4 = 0 && (year % 100 ≠ 0 || year % 400 = 0) then 29 else 28
  else if month = 4 || month = 6 || month = 9 || month = 11 then 30
  else 31

def afterDate? (s : List Char) : Option (List Char) := do
  let (year, r) ← digits? 4 s
  let r ← expect? '-' r
  let (month, r) ← digits? 2 r
  let r ← expect? '-' r
  let (day, r) ← digits? 2 r
  if 1 ≤ month && month ≤ 12 && 1 ≤ day && day ≤ daysOfMonth year month then some r else none

def afterMinutes? (s : List Char) : Option (List Char) := do
  let (hour, r) ← digits? 2 s
  let r ← expect? ':' r
  let (minute, r) ← digits? 2 r
  if hour ≤ 23 && minute ≤ 59 then some r else none

/-- What follows a time of day. A leap second is allowed, and any number of places. -/
def afterTime? (s : List Char) : Option (List Char) := do
  let r ← afterMinutes? s
  let r ← expect? ':' r
  let (second, r) ← digits? 2 r
  if second > 60 then none
  else
    match r with
    | '.' :: r =>
      if r.head?.any Char.isDigit then some (r.dropWhile Char.isDigit) else none
    | _ => some r

def isOffset : List Char → Bool
  | [] => true
  | ['Z'] => true
  | ['z'] => true
  | '+' :: r => afterMinutes? r = some []
  | '-' :: r => afterMinutes? r = some []
  | _ => false

def isMoment (s : List Char) : Bool :=
  match afterDate? s with
  | some [] => true
  | some (c :: r) => (c = 'T' || c = 't' || c = ' ') && (afterTime? r).any isOffset
  | none => afterTime? s = some []

def scalarOfToken? (t : List Char) : Option Data :=
  if t = "true".toList then some (.boolean true)
  else if t = "false".toList then some (.boolean false)
  else if isMoment t then some (.moment (String.ofList t))
  else
    match integer? t with
    | some n => some (.integer n)
    | none => (float? t).map .float

/-- The run of characters that a scalar is spelled with. A date takes the time after one space with it. -/
def token (s : List Char) : List Char :=
  let t := s.takeWhile isTokenChar
  match s.dropWhile isTokenChar with
  | ' ' :: c :: r =>
    if afterDate? t = some [] && c.isDigit then t ++ ' ' :: (c :: r).takeWhile isTokenChar else t
  | _ => t

/-- A scalar, as it is spelled and as it is meant, and the rest. -/
def scalar? (s : List Char) : Option ((List Char × Data) × List Char) :=
  (scalarOfToken? (token s)).map fun d => ((token s, d), s.drop (token s).length)

end CBuild.Toml
