import CBuild.Utility.Process

/-! Printing arguments: as they are, with escapes, or after a format that is used again until none is left. -/

namespace CBuild.Printing

def isOctal (c : Char) : Bool :=
  '0' ≤ c && c ≤ '7'

def octal (digits : List Char) : UInt8 :=
  (digits.foldl (fun n (c : Char) => n * 8 + (c.toNat - 48)) 0).toUInt8

def escape : List Char → Bytes × List Char
  | 'a' :: r => ([7], r)
  | 'b' :: r => ([8], r)
  | 'f' :: r => ([12], r)
  | 'n' :: r => ([10], r)
  | 'r' :: r => ([13], r)
  | 't' :: r => ([9], r)
  | 'v' :: r => ([11], r)
  | '\\' :: r => ([92], r)
  | r =>
    let digits := (r.take 3).takeWhile isOctal
    if digits = [] then ([92], r) else ([octal digits], r.drop digits.length)

/-- A text with its escapes undone, and whether it says that nothing more is to be printed. An octal number
has a zero in front. -/
def unescape (s : List Char) : Bytes × Bool :=
  go (s.length + 1) s
where
  go : Nat → List Char → Bytes × Bool
    | 0, _ => ([], false)
    | _, [] => ([], false)
    | _, '\\' :: 'c' :: _ => ([], true)
    | n + 1, '\\' :: '0' :: r =>
      let digits := (r.take 3).takeWhile isOctal
      let (b, stop) := go n (r.drop digits.length)
      (octal digits :: b, stop)
    | n + 1, '\\' :: r =>
      let (a, rest) := escape r
      let (b, stop) := go n rest
      (a ++ b, stop)
    | n + 1, c :: r =>
      let (b, stop) := go n r
      (Process.encode [c] ++ b, stop)

def spaced (words : List (List Char)) : List Char :=
  [' '].intercalate words

def echoed (args : List (List Char)) : Bytes :=
  let isBare := args.head? = some ['-', 'n']
  let (b, stop) := unescape (spaced (if isBare then args.drop 1 else args))
  b ++ if isBare || stop then [] else [10]

def echoedPlainly (args : List (List Char)) : Bytes :=
  let isOption (a : List Char) : Bool :=
    a.head? = some '-' && a.length > 1 && (a.drop 1).all fun c => c = 'n' || c = 'e' || c = 'E'
  let letters := (args.takeWhile isOption).flatten
  let text := spaced (args.dropWhile isOption)
  let escapes := (letters.filter fun c => c = 'e' || c = 'E').getLast? = some 'e'
  let (b, stop) := if escapes then unescape text else (Process.encode text, false)
  b ++ if letters.contains 'n' || stop then [] else [10]

structure Result where
  printed : Bytes := []
  complaints : List String := []
  stops : Bool := false
  left : List (List Char) := []

structure Layout where
  flags : List Char := []
  width : Nat := 0
  precision : Option Nat := none

def Layout.fill (l : Layout) (b : Bytes) : Bytes :=
  let blanks := List.replicate (l.width - b.length) (32 : UInt8)
  if l.flags.contains '-' then b ++ blanks else blanks ++ b

def Layout.number (l : Layout) (sign digits : List Char) : Bytes :=
  let zeros (n : Nat) (ds : List Char) : List Char := List.replicate (n - ds.length) '0' ++ ds
  match l.precision with
  | some p => l.fill (Process.encode (sign ++ zeros p digits))
  | none =>
    if l.flags.contains '0' && !l.flags.contains '-' then
      Process.encode (sign ++ zeros (l.width - sign.length) digits)
    else l.fill (Process.encode (sign ++ digits))

def digitsIn (base : Nat) (s : List Char) : List Nat :=
  (s.map fun (c : Char) =>
    if c.isDigit then c.toNat - 48
    else if c.isAlpha then c.toLower.toNat - 87
    else base).takeWhile (· < base)

def readNumber (s : List Char) : Int × List String :=
  match s with
  | '\'' :: c :: _ | '"' :: c :: _ => (((Process.encode [c]).headD 0).toNat, [])
  | _ =>
    let t := s.dropWhile fun c => c = ' ' || c = '\t' || c = '\n'
    let isNegative := t.head? = some '-'
    let r := if isNegative || t.head? = some '+' then t.drop 1 else t
    let (base, body, lead) := match r with
      | '0' :: x :: h :: rest =>
        if (x = 'x' || x = 'X') && digitsIn 16 [h] ≠ [] then (16, h :: rest, 2) else (8, r, 0)
      | '0' :: _ => (8, r, 0)
      | _ => (10, r, 0)
    let ds := digitsIn base body
    let n : Nat := ds.foldl (fun a d => a * base + d) 0
    let rest := r.drop (lead + ds.length)
    let text := String.ofList s
    if ds = [] then (0, if s = [] then [] else [text ++ ": expected numeric value"])
    else (if isNegative then -n else n, if rest = [] then [] else [text ++ ": not completely converted"])

def fixed (places : Nat) (s : List Char) : List Char × List Char :=
  let isNegative := s.head? = some '-'
  let r := if isNegative || s.head? = some '+' then s.drop 1 else s
  let whole := r.takeWhile Char.isDigit
  let fraction := match r.drop whole.length with
    | '.' :: f => f.takeWhile Char.isDigit
    | _ => []
  let value (ds : List Char) : Nat := ds.foldl (fun n (c : Char) => n * 10 + (c.toNat - 48)) 0
  let scaled := value (whole ++ fraction) * Nat.pow 10 places
  let unit := Nat.pow 10 fraction.length
  let (q, m) := (scaled / unit, scaled % unit)
  let q := if 2 * m > unit || 2 * m = unit && q % 2 = 1 then q + 1 else q
  let digits := (toString q).toList
  let digits := List.replicate (places + 1 - digits.length) '0' ++ digits
  let k := digits.length - places
  (if isNegative then ['-'] else [], digits.take k ++ if places = 0 then [] else '.' :: digits.drop k)

def convert (l : Layout) (letter : Char) (args : List (List Char)) : Option Result :=
  let a := args.headD []
  let left := args.drop 1
  let cut (b : Bytes) : Bytes := match l.precision with
    | some p => b.take p
    | none => b
  let whole (base : Nat) (signed : Bool) : Result :=
    let (n, complaints) := readNumber a
    let plus : List Char :=
      if l.flags.contains '+' then ['+'] else if l.flags.contains ' ' then [' '] else []
    let sign : List Char := if !signed then [] else if n < 0 then ['-'] else plus
    let n := if signed then n.natAbs else (n.emod 0x10000000000000000).toNat
    let mark : List Char := if !l.flags.contains '#' || n = 0 then []
      else if base = 16 then ['0', 'x'] else if base = 8 then ['0'] else []
    { printed := l.number (sign ++ mark) (Nat.toDigits base n), complaints, left }
  match letter with
  | 's' => some { printed := l.fill (cut (Process.encode a)), left }
  | 'c' => some { printed := l.fill ((Process.encode a).take 1), left }
  | 'b' =>
    let (b, stops) := unescape a
    some { printed := l.fill (cut b), stops, left }
  | 'd' | 'i' => some (whole 10 true)
  | 'u' => some (whole 10 false)
  | 'o' => some (whole 8 false)
  | 'x' => some (whole 16 false)
  | 'X' =>
    let r := whole 16 false
    some { r with printed := r.printed.map fun b => if 97 ≤ b && b ≤ 122 then b - 32 else b }
  | 'f' | 'F' | 'e' | 'E' | 'g' | 'G' =>
    let (sign, digits) := fixed (l.precision.getD 6) a
    some { printed := { l with precision := none }.number sign digits, left }
  | _ => none

def measure (s : List Char) (args : List (List Char)) : Nat × List Char × List (List Char) :=
  match s with
  | '*' :: r => ((readNumber (args.headD [])).1.toNat, r, args.drop 1)
  | _ =>
    let digits := s.takeWhile Char.isDigit
    (((String.ofList digits).toNat?).getD 0, s.drop digits.length, args)

/-- One pass over a format. -/
def once (args : List (List Char)) : (fuel : Nat) → List Char → Result
  | 0, _ => { left := args }
  | n + 1, s =>
    let andThen (a : Result) (args : List (List Char)) (r : List Char) : Result :=
      if a.stops then { a with left := args }
      else
        let b := once args n r
        { b with printed := a.printed ++ b.printed, complaints := a.complaints ++ b.complaints }
    match s with
    | [] => { left := args }
    | '\\' :: r =>
      let (b, rest) := escape r
      andThen { printed := b } args rest
    | '%' :: '%' :: r => andThen { printed := [37] } args r
    | '%' :: r =>
      let flags := r.takeWhile fun c => "#-+ 0".toList.contains c
      let (width, r, args) := measure (r.drop flags.length) args
      let (precision, r, args) := match r with
        | '.' :: r =>
          let (p, r, args) := measure r args
          (some p, r, args)
        | r => (none, r, args)
      match r with
      | [] => { complaints := ["missing format character"], stops := true, left := args }
      | c :: rest =>
        match convert ⟨flags, width, precision⟩ c args with
        | some a => andThen a a.left rest
        | none => { complaints := ["%" ++ String.singleton c ++ ": invalid directive"], stops := true
                    left := args }
    | c :: r => andThen { printed := Process.encode [c] } args r

def format (f : List Char) : (fuel : Nat) → List (List Char) → Result
  | 0, _ => {}
  | n + 1, args =>
    let a := once args (f.length + 1) f
    if a.stops || a.left = [] || a.left.length = args.length then a
    else
      let b := format f n a.left
      { b with printed := a.printed ++ b.printed, complaints := a.complaints ++ b.complaints }

def formatted (f : List Char) (args : List (List Char)) : Result :=
  format f (args.length + 1) args

def echo : Program := fun args => do
  Process.sayBytes (echoedPlainly args)
  return 0

def printf : Program
  | [] => do
    Process.complain "printf: missing operand"
    return 1
  | f :: args => do
    let r := formatted f args
    Process.sayBytes r.printed
    for c in r.complaints do Process.complain ("printf: " ++ c)
    return if r.complaints = [] then 0 else 1

end CBuild.Printing
