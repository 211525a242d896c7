/-! Texts as lists of characters: the white-space class, and the two ways a text is cut into lines.
`lines` gives the lines a reader sees, without their ends; `pieces` keeps every line end, so that the
pieces joined are the text. -/

namespace CBuild.Text

/-- The Unicode property `White_Space`. -/
def isBlank (c : Char) : Bool :=
  let n := c.toNat
  (9 ≤ n && n ≤ 13) || n == 0x20 || n == 0x85 || n == 0xA0 || n == 0x1680 ||
    (0x2000 ≤ n && n ≤ 0x200A) || n == 0x2028 || n == 0x2029 || n == 0x202F || n == 0x205F ||
    n == 0x3000

def trimStart (s : List Char) : List Char :=
  s.dropWhile isBlank

/-- The text cut after each line feed; the last piece is what follows the last one, if anything. -/
def pieces : List Char → List (List Char)
  | [] => []
  | c :: r =>
    if c = '\n' then [c] :: pieces r
    else
      match pieces r with
      | [] => [[c]]
      | p :: ps => (c :: p) :: ps

def withoutEnd (p : List Char) : List Char :=
  match p.reverse with
  | '\n' :: '\r' :: r => r.reverse
  | '\n' :: r => r.reverse
  | _ => p

/-- The lines of a text. A carriage return that no line feed follows belongs to its line. -/
def lines (s : List Char) : List (List Char) :=
  (pieces s).map withoutEnd

def after? (p s : List Char) : Option (List Char) :=
  if p.isPrefixOf s then some (s.drop p.length) else none

def slashed (s : List Char) : List Char :=
  s.map fun c => if c = '\\' then '/' else c

theorem flatten_pieces (s : List Char) : (pieces s).flatten = s := by
  induction s with
  | nil => rfl
  | cons c r ih =>
    rw [pieces]
    split
    · simp [ih]
    · split
      · next h =>
        rw [h] at ih
        simpa using ih
      · next h =>
        rw [h] at ih
        simpa using ih

end CBuild.Text
