/-! The smallest readable parts of a TOML text: blank space, comments, line ends and strings. Every
reader takes the characters left to read and gives what it read with the rest. -/

namespace CBuild.Toml

def isSpace (c : Char) : Bool :=
  c = ' ' || c = '\t'

def isPrintable (c : Char) : Bool :=
  c = '\t' || (0x20 ≤ c.val && c.val ≠ 0x7F)

/-- Space, line ends and comments, up to the first character that belongs to none of them. Line ends
are kept as line feeds. -/
def trivia (inComment : Bool) : List Char → List Char × List Char
  | [] => ([], [])
  | '\n' :: r =>
    let (t, rest) := trivia false r
    ('\n' :: t, rest)
  | '\r' :: '\n' :: r =>
    let (t, rest) := trivia false r
    ('\n' :: t, rest)
  | c :: r =>
    if inComment && isPrintable c || isSpace c || c = '#' then
      let (t, rest) := trivia (inComment || c = '#') r
      (c :: t, rest)
    else ([], c :: r)

/-- What may follow on the line of a value or header: space and a comment. The line end is left out. -/
def lineEnd? (s : List Char) : Option (List Char × List Char) :=
  let space := s.takeWhile isSpace
  let r := s.dropWhile isSpace
  let comment := if r.head? = some '#' then r.takeWhile isPrintable else []
  match r.drop comment.length with
  | [] => some (space ++ comment, [])
  | '\n' :: r => some (space ++ comment, r)
  | '\r' :: '\n' :: r => some (space ++ comment, r)
  | _ => none

def hexValue? (c : Char) : Option Nat :=
  if '0' ≤ c && c ≤ '9' then some (c.toNat - 48)
  else if 'a' ≤ c && c ≤ 'f' then some (c.toNat - 87)
  else if 'A' ≤ c && c ≤ 'F' then some (c.toNat - 55)
  else none

def codePoint? (digits : List Char) : Option Char := do
  let n ← digits.foldlM (fun n c => (hexValue? c).map (16 * n + ·)) 0
  if h : n.isValidChar then some (Char.ofNatAux n h) else none

def escape? : List Char → Option (Char × List Char)
  | [] => none
  | c :: r =>
    if c = 'b' then some ('\x08', r)
    else if c = 't' then some ('\t', r)
    else if c = 'n' then some ('\n', r)
    else if c = 'f' then some ('\x0C', r)
    else if c = 'r' then some ('\r', r)
    else if c = '"' then some ('"', r)
    else if c = '\\' then some ('\\', r)
    else if c = 'u' && 4 ≤ r.length then (codePoint? (r.take 4)).map (·, r.drop 4)
    else if c = 'U' && 8 ≤ r.length then (codePoint? (r.take 8)).map (·, r.drop 8)
    else none

theorem escape?_shorter {s r : List Char} {c : Char} (h : escape? s = some (c, r)) :
    r.length < s.length := by
  cases s with
  | nil => simp [escape?] at h
  | cons x t =>
    simp only [escape?] at h
    split at h
    · simp_all
    repeat
      split at h
      · simp_all
    split at h
    · obtain ⟨_, _, hr⟩ := Option.map_eq_some_iff.1 h
      simp only [Prod.mk.injEq] at hr
      simp only [← hr.2, List.length_drop, List.length_cons]
      omega
    split at h
    · obtain ⟨_, _, hr⟩ := Option.map_eq_some_iff.1 h
      simp only [Prod.mk.injEq] at hr
      simp only [← hr.2, List.length_drop, List.length_cons]
      omega
    · simp at h

def basicBody? (s : List Char) : Option (List Char × List Char) :=
  match s with
  | [] => none
  | c :: r =>
    if c = '"' then some ([], r)
    else if c = '\\' then
      match h : escape? r with
      | none => none
      | some (x, r') =>
        have : r'.length < r.length := escape?_shorter h
        (basicBody? r').map fun (t, rest) => (x :: t, rest)
    else if isPrintable c then (basicBody? r).map fun (t, rest) => (c :: t, rest)
    else none
termination_by s.length

def literalBody? : List Char → Option (List Char × List Char)
  | [] => none
  | c :: r =>
    if c = '\'' then some ([], r)
    else if isPrintable c then (literalBody? r).map fun (t, rest) => (c :: t, rest)
    else none

def newline? : List Char → Option (List Char)
  | '\n' :: r => some r
  | '\r' :: '\n' :: r => some r
  | _ => none

theorem newline?_shorter {s r : List Char} (h : newline? s = some r) : r.length < s.length := by
  unfold newline? at h
  split at h
  · simp_all
  · simp only [Option.some.injEq] at h
    simp only [h, List.length_cons]
    omega
  · simp at h

def skipSpaceAndLines : List Char → List Char
  | ' ' :: r => skipSpaceAndLines r
  | '\t' :: r => skipSpaceAndLines r
  | '\n' :: r => skipSpaceAndLines r
  | '\r' :: '\n' :: r => skipSpaceAndLines r
  | s => s

theorem length_skipSpaceAndLines_le (s : List Char) : (skipSpaceAndLines s).length ≤ s.length := by
  fun_induction skipSpaceAndLines s <;> simp_all <;> omega

theorem length_dropWhile_le (p : Char → Bool) (s : List Char) :
    (s.dropWhile p).length ≤ s.length :=
  (List.dropWhile_suffix p).length_le

def continuation? (s : List Char) : Option (List Char) :=
  (newline? (s.dropWhile isSpace)).map skipSpaceAndLines

theorem continuation?_shorter {s r : List Char} (h : continuation? s = some r) :
    r.length < s.length := by
  obtain ⟨t, ht, rfl⟩ := Option.map_eq_some_iff.1 h
  have h1 := newline?_shorter ht
  have h2 := length_skipSpaceAndLines_le t
  have h3 := length_dropWhile_le isSpace s
  omega

/-- The end of a text of several lines, at its three closing marks. Of four or five marks in a row the
first or the first two belong to the text. -/
def closing? (mark : Char) (s : List Char) : Option (List Char × List Char) :=
  let run := (s.takeWhile (· = mark)).length
  if run < 3 then none
  else
    let kept := min (run - 3) 2
    some (List.replicate kept mark, s.drop (kept + 3))

def basicLinesBody? (s : List Char) : Option (List Char × List Char) :=
  match closing? '"' s with
  | some done => some done
  | none =>
    match s with
    | [] => none
    | c :: r =>
      if c = '\\' then
        match h : continuation? r with
        | some r' =>
          have : r'.length < r.length := continuation?_shorter h
          basicLinesBody? r'
        | none =>
          match h : escape? r with
          | none => none
          | some (x, r') =>
            have : r'.length < r.length := escape?_shorter h
            (basicLinesBody? r').map fun (t, rest) => (x :: t, rest)
      else
        match h : newline? (c :: r) with
        | some r' =>
          have : r'.length ≤ r.length := Nat.le_of_lt_succ (newline?_shorter h)
          (basicLinesBody? r').map fun (t, rest) => ('\n' :: t, rest)
        | none =>
          if isPrintable c then (basicLinesBody? r).map fun (t, rest) => (c :: t, rest)
          else none
termination_by s.length

def literalLinesBody? (s : List Char) : Option (List Char × List Char) :=
  match closing? '\'' s with
  | some done => some done
  | none =>
    match s with
    | [] => none
    | c :: r =>
      match h : newline? (c :: r) with
      | some r' =>
        have : r'.length ≤ r.length := Nat.le_of_lt_succ (newline?_shorter h)
        (literalLinesBody? r').map fun (t, rest) => ('\n' :: t, rest)
      | none =>
        if isPrintable c then (literalLinesBody? r).map fun (t, rest) => (c :: t, rest)
        else none
termination_by s.length

/-- A text of several lines does not begin with the line end that follows its opening marks. -/
def withoutFirstBreak (s : List Char) : List Char :=
  (newline? s).getD s

/-- A string of any of the four forms: its text and the rest. -/
def string? : List Char → Option (List Char × List Char)
  | '"' :: '"' :: '"' :: r => basicLinesBody? (withoutFirstBreak r)
  | '"' :: r => basicBody? r
  | '\'' :: '\'' :: '\'' :: r => literalLinesBody? (withoutFirstBreak r)
  | '\'' :: r => literalBody? r
  | _ => none

def consumed (s rest : List Char) : List Char :=
  s.take (s.length - rest.length)

theorem consumed_append (a rest : List Char) : consumed (a ++ rest) rest = a := by
  simp [consumed]

end CBuild.Toml
