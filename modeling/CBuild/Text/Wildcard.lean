import CBuild.Text.Utf8

/-! Patterns of names as shells know them. They are made of bytes: a question mark stands for one byte. -/

namespace CBuild

inductive Wildcard
  | one (b : UInt8)
  | any
  | many
  | among (isNegated : Bool) (ranges : List (UInt8 × UInt8))
deriving DecidableEq

namespace Wildcard

def fits (b : UInt8) : Wildcard → Bool
  | one c => b = c
  | any => true
  | many => false
  | among isNegated ranges => isNegated ^^ ranges.any fun (x, y) => x ≤ b && b ≤ y

def byte (c : Char) : UInt8 :=
  c.toNat.toUInt8

def upper : UInt8 × UInt8 := (byte 'A', byte 'Z')

def lower : UInt8 × UInt8 := (byte 'a', byte 'z')

def digits : UInt8 × UInt8 := (byte '0', byte '9')

def class? : String → Option (List (UInt8 × UInt8))
  | "alpha" => some [upper, lower]
  | "alnum" => some [upper, lower, digits]
  | "digit" => some [digits]
  | "upper" => some [upper]
  | "lower" => some [lower]
  | "space" => some [(9, 13), (32, 32)]
  | "blank" => some [(9, 9), (32, 32)]
  | "punct" => some [(33, 47), (58, 64), (91, 96), (123, 126)]
  | "xdigit" => some [digits, (byte 'A', byte 'F'), (byte 'a', byte 'f')]
  | "cntrl" => some [(0, 31), (127, 127)]
  | "print" => some [(32, 126)]
  | "graph" => some [(33, 126)]
  | _ => none

/-- Bytes of a pattern, each with whether it may have a meaning of its own. -/
abbrev Spelling := List (UInt8 × Bool)

def namedClass? (s : Spelling) : Option (List (UInt8 × UInt8) × Spelling) :=
  match s with
  | (b, true) :: r =>
    if b ≠ byte ':' then none
    else
      let name := (r.takeWhile (·.1 ≠ byte ':')).map Prod.fst
      match r.drop name.length with
      | _ :: (c, _) :: rest =>
        if c = byte ']' then (class? (String.ofList (name.map fun b => Char.ofNat b.toNat))).map (·, rest)
        else none
      | _ => none
  | _ => none

def ranges? : (fuel : Nat) → (isFirst : Bool) → Spelling → Option (List (UInt8 × UInt8) × Spelling)
  | 0, _, _ => none
  | _, _, [] => none
  | n + 1, isFirst, (b, active) :: r =>
    if b = byte ']' && active && !isFirst then some ([], r)
    else
      match if b = byte '[' && active then namedClass? r else none with
      | some (c, rest) => (ranges? n false rest).map fun (l, x) => (c ++ l, x)
      | none =>
        match r with
        | (dash, true) :: (e, eActive) :: rest =>
          if dash = byte '-' && !(e = byte ']' && eActive) then
            (ranges? n false rest).map fun (l, x) => ((b, e) :: l, x)
          else (ranges? n false r).map fun (l, x) => ((b, b) :: l, x)
        | _ => (ranges? n false r).map fun (l, x) => ((b, b) :: l, x)

def bracket? (s : Spelling) : Option (Wildcard × Spelling) :=
  match s with
  | (b, true) :: r =>
    if b = byte '!' then (ranges? (r.length + 1) true r).map fun (l, x) => (.among true l, x)
    else (ranges? (s.length + 1) true s).map fun (l, x) => (.among false l, x)
  | _ => (ranges? (s.length + 1) true s).map fun (l, x) => (.among false l, x)

def ofSpelling : (fuel : Nat) → Spelling → List Wildcard
  | 0, _ => []
  | _, [] => []
  | n + 1, (b, active) :: r =>
    if !active then one b :: ofSpelling n r
    else if b = byte '*' then many :: ofSpelling n r
    else if b = byte '?' then any :: ofSpelling n r
    else if b = byte '[' then
      match bracket? r with
      | some (w, rest) => w :: ofSpelling n rest
      | none => one b :: ofSpelling n r
    else one b :: ofSpelling n r

def ofChars (s : List (Char × Bool)) : List Wildcard :=
  let spelling := s.flatMap fun (c, active) => (Utf8.encode (String.singleton c)).map (·, active)
  ofSpelling (spelling.length + 1) spelling

def orShorter : List Bool → List Bool
  | [] => []
  | b :: r =>
    let shorter := orShorter r
    (b || shorter.headD false) :: shorter

/-- For the bytes and each of their suffixes, the longest first, whether the pattern stands for it. -/
def suffixMatches (s : Bytes) : List Wildcard → List Bool
  | [] => s.map (fun _ => false) ++ [true]
  | many :: ws => orShorter (suffixMatches s ws)
  | w :: ws => List.zipWith (fun b m => w.fits b && m) s ((suffixMatches s ws).drop 1) ++ [false]

def matchesBytes (ws : List Wildcard) (s : Bytes) : Bool :=
  (suffixMatches s ws).headD false

def matchesText (ws : List Wildcard) (s : List Char) : Bool :=
  matchesBytes ws (Utf8.encode (String.ofList s))

def isWild (ws : List Wildcard) : Bool :=
  ws.any fun
    | one _ => false
    | _ => true

end Wildcard
end CBuild
