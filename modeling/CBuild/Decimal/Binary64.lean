/-! Binary floating point numbers of 64 bits, as exact values. `ofDecimal` rounds a decimal number to
the nearest of them, a tie going to the even mantissa. `shortest` finds the fewest digits that read back
as the same number, and among those the nearest. Both work on natural numbers alone. -/

namespace CBuild

/-- A finite number is `mantissa * 2 ^ exponent`, with a mantissa below `2 ^ 53`; it has all 53 bits unless
the exponent is the least, `-1074`. -/
inductive Binary64
  | nan
  | infinite (negative : Bool)
  | finite (negative : Bool) (mantissa : Nat) (exponent : Int)
deriving DecidableEq

namespace Binary64

def twoTo (n : Nat) : Nat :=
  Nat.pow 2 n

def tenTo (n : Nat) : Nat :=
  Nat.pow 10 n

/-- `num / den` rounded to a whole number, a tie going to the even one. -/
def roundDiv (num den : Nat) : Nat :=
  let q := num / den
  let r := num % den
  if 2 * r > den || (2 * r == den && q % 2 == 1) then q + 1 else q

def scaled (num den : Nat) (e : Int) : Nat × Nat :=
  if e < 0 then (num * twoTo (-e).toNat, den) else (num, den * twoTo e.toNat)

/-- The exponent at which `num / den` has a mantissa of 53 bits, and never less than the least one. -/
def exponentFor (num den : Nat) : Int :=
  let guess : Int := (Nat.log2 num : Int) - (Nat.log2 den : Int) - 52
  let (n, d) := scaled num den guess
  let exact := if n / d ≥ twoTo 53 then guess + 1 else if n / d < twoTo 52 then guess - 1 else guess
  max exact (-1074)

def ofFraction (negative : Bool) (num den : Nat) : Binary64 :=
  if num = 0 then .finite negative 0 (-1074)
  else
    let e := exponentFor num den
    let (n, d) := scaled num den e
    let m := roundDiv n d
    let (m, e) := if m = twoTo 53 then (twoTo 52, e + 1) else (m, e)
    if e > 971 then .infinite negative else .finite negative m e

/-- The number nearest to `digits * 10 ^ exponent`. Powers far outside the range are not computed. -/
def ofDecimal (negative : Bool) (digits : Nat) (exponent : Int) : Binary64 :=
  let size : Int := (Nat.toDigits 10 digits).length
  if digits = 0 then .finite negative 0 (-1074)
  else if size + exponent > 310 then .infinite negative
  else if size + exponent < -330 then .finite negative 0 (-1074)
  else if exponent < 0 then ofFraction negative digits (tenTo (-exponent).toNat)
  else ofFraction negative (digits * tenTo exponent.toNat) 1

/-- Four times the number, in units of `2 ^ (e - 2)`: the number and the ends of the range of reals that
round to it. Below a power of two the next number is half as far away as above it. -/
def interval (m : Nat) (e : Int) : Nat × Nat × Nat :=
  let low := if m = twoTo 52 ∧ e > -1074 then 4 * m - 1 else 4 * m - 2
  (low, 4 * m, 4 * m + 2)

def inUnits (d : Nat) (k : Int) (e : Int) : Nat × Nat :=
  let num := if k < 0 then d else d * tenTo k.toNat
  let den := if k < 0 then tenTo (-k).toNat else 1
  let s := e - 2
  if s < 0 then (num * twoTo (-s).toNat, den) else (num, den * twoTo s.toNat)

def readsBack (m : Nat) (e : Int) (d : Nat) (k : Int) : Bool :=
  let (low, _, high) := interval m e
  let (n, den) := inUnits d k e
  if m % 2 = 0 then low * den ≤ n && n ≤ high * den else low * den < n && n < high * den

def distance (m : Nat) (e : Int) (d : Nat) (k : Int) : Nat × Nat :=
  let (n, den) := inUnits d k e
  let c := 4 * m * den
  (if n ≤ c then c - n else n - c, den)

/-- The nearest point on the grid of `10 ^ k` that reads back, the upper one on a tie. -/
def onGrid? (m : Nat) (e : Int) (k : Int) : Option (Nat × Int) :=
  let (num, den) := inUnits 1 k e
  let below := 4 * m * den / num
  let ok (d : Nat) : Bool := readsBack m e d k
  match ok below, ok (below + 1) with
  | true, true =>
    let (a, b) := distance m e below k
    let (a', b') := distance m e (below + 1) k
    if a * b' < a' * b then some (below, k) else some (below + 1, k)
  | true, false => some (below, k)
  | false, true => some (below + 1, k)
  | false, false => none

/-- The position of the first decimal digit of the number: `10 ^ p ≤ m * 2 ^ e < 10 ^ (p + 1)`. -/
def magnitude (m : Nat) (e : Int) : Int :=
  if e ≥ 0 then (Nat.toDigits 10 (m * twoTo e.toNat)).length - 1
  else
    let den := twoTo (-e).toNat
    if m ≥ den then (Nat.toDigits 10 (m / den)).length - 1
    else
      let inverse := (Nat.toDigits 10 (den / m)).length
      if m * tenTo (inverse - 1) ≥ den then -(inverse - 1 : Int) else -(inverse : Int)

def shortest (m : Nat) (e : Int) : Nat × Int :=
  let p := magnitude m e
  ((List.range 19).findSome? fun i : Nat => onGrid? m e (p + 1 - (i : Int))).getD (m, 0)

def positional (digits : Nat) (power : Int) : List Char :=
  let ds := Nat.toDigits 10 digits
  if power ≥ 0 then ds ++ List.replicate power.toNat '0' ++ ['.', '0']
  else
    let places := (-power).toNat
    if ds.length > places then
      ds.take (ds.length - places) ++ '.' :: ds.drop (ds.length - places)
    else ['0', '.'] ++ List.replicate (places - ds.length) '0' ++ ds

def text : Binary64 → List Char
  | nan => "NaN".toList
  | infinite s => (if s then ['-'] else []) ++ "inf".toList
  | finite s m e =>
    (if s then ['-'] else []) ++
      if m = 0 then "0.0".toList
      else
        let (d, k) := shortest m e
        positional d k

end Binary64
end CBuild
