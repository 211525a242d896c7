/-! Glob patterns. A star stands for any characters, a question mark for one, a bracket for one of a set; two
stars that fill a whole component stand for any directories. -/

namespace CBuild.Glob

inductive Item
  | single (c : Char)
  | range (first last : Char)
deriving DecidableEq

inductive Token
  | char (c : Char)
  | any
  | star
  | among (items : List Item)
  | except (items : List Item)
  | directories
deriving DecidableEq

namespace Item

def holds (c : Char) : Item → Bool
  | single x => c = x
  | range first last => first ≤ c && c ≤ last

def ofChars : List Char → List Item
  | a :: '-' :: b :: r => .range a b :: ofChars r
  | a :: r => .single a :: ofChars r
  | [] => []

end Item

namespace Token

def fits (c : Char) : Token → Bool
  | char x => c = x
  | any => true
  | among items => items.any (Item.holds c)
  | except items => !items.any (Item.holds c)
  | star => false
  | directories => false

end Token

/-- A bracket after its opening mark: its token, and the rest after the closing mark. The first character
inside cannot close it. -/
def bracket? (s : List Char) : Option (Token × List Char) :=
  let close (negated : Bool) (first : Char) (r : List Char) : Option (Token × List Char) :=
    let inside := r.takeWhile (· ≠ ']')
    if inside.length < r.length then
      let items := Item.ofChars (first :: inside)
      some (if negated then .except items else .among items, r.drop (inside.length + 1))
    else none
  match s with
  | '!' :: first :: r => close true first r
  | first :: r => if first = '!' then none else close false first r
  | [] => none

theorem bracket?_shorter {s r : List Char} {t : Token} (h : bracket? s = some (t, r)) :
    r.length < s.length := by
  unfold bracket? at h
  split at h
  all_goals
    simp only [Option.ite_none_right_eq_some, Option.ite_none_left_eq_some, Option.some.injEq,
      Prod.mk.injEq, reduceCtorEq] at h
  · obtain ⟨_, _, rfl⟩ := h
    simp only [List.length_drop, List.length_cons]
    omega
  · obtain ⟨_, _, _, rfl⟩ := h
    simp only [List.length_drop, List.length_cons]
    omega

inductive FaultKind
  | tooManyStars
  | starsInComponent
  | openBracket
deriving DecidableEq

namespace FaultKind

def describe : FaultKind → String
  | tooManyStars => "wildcards are either regular `*` or recursive `**`"
  | starsInComponent => "recursive wildcards must form a single path component"
  | openBracket => "invalid range pattern"

end FaultKind

structure Fault where
  kind : FaultKind
  left : Nat
deriving DecidableEq

/-- The tokens of a pattern; `start` says that a component begins here. Two stars must fill a component,
and then take the slash behind them along. -/
def tokens (start : Bool) (s : List Char) : Except Fault (List Token) :=
  match s with
  | [] => .ok []
  | '?' :: r => (tokens false r).map (.any :: ·)
  | '*' :: '*' :: '*' :: r => .error ⟨.tooManyStars, r.length + 1⟩
  | '*' :: '*' :: '/' :: r =>
    if start then (tokens true r).map (.directories :: ·)
    else .error ⟨.starsInComponent, r.length + 4⟩
  | ['*', '*'] => if start then .ok [.directories] else .error ⟨.starsInComponent, 3⟩
  | '*' :: '*' :: r => .error ⟨.starsInComponent, if start then r.length else r.length + 3⟩
  | '*' :: r => (tokens false r).map (.star :: ·)
  | '[' :: r =>
    match h : bracket? r with
    | none => .error ⟨.openBracket, r.length + 1⟩
    | some (t, rest) =>
      have : rest.length < r.length := bracket?_shorter h
      (tokens false rest).map (t :: ·)
  | c :: r => (tokens (c = '/') r).map (.char c :: ·)
termination_by s.length

def literal? (ts : List Token) : Option (List Char) :=
  ts.mapM fun
    | .char c => some c
    | _ => none

def orLater : List Bool → List Bool
  | [] => []
  | b :: r =>
    let later := orLater r
    (b || later.headD false) :: later

/-- For the name and each of its suffixes, the longest first, whether the tokens stand for it. -/
def suffixMatches (s : List Char) : List Token → List Bool
  | [] => s.map (fun _ => false) ++ [true]
  | .star :: ts => orLater (suffixMatches s ts)
  | .directories :: ts => orLater (suffixMatches s ts)
  | t :: ts => List.zipWith (fun c b => t.fits c && b) s ((suffixMatches s ts).drop 1) ++ [false]

def matchesName (ts : List Token) (s : List Char) : Bool :=
  (suffixMatches s ts).headD false

def isPattern (s : List Char) : Bool :=
  s.any fun c => c = '*' || c = '?' || c = '['

/-- A pattern by its components: where it starts, and the tokens of each component. -/
structure Pattern where
  absolute : Bool
  components : List (List Token)
  wantsDirectory : Bool

/-- The components of a spelled pattern. A slash at the end opens none. -/
def splitComponents (s : List Char) : List (List Char) :=
  let parts := s.splitOn '/'
  if parts.getLast? = some [] then parts.dropLast else parts

structure Misplaced where
  kind : FaultKind
  position : Nat
deriving DecidableEq

def tokensOf (s : List Char) : Except Misplaced (List Token) :=
  (tokens true s).mapError fun f => ⟨f.kind, s.length - f.left⟩

/-- The pattern that a text spells. The text must be well formed as a whole and by component. -/
def Pattern.parse (s : List Char) : Except Misplaced Pattern := do
  let _ ← tokensOf s
  let absolute := s.head? = some '/'
  let body := if absolute then s.drop 1 else s
  let parts := if body = [] then [[]] else splitComponents body
  return ⟨absolute, ← parts.mapM tokensOf, s.getLast? = some '/'⟩

end CBuild.Glob
