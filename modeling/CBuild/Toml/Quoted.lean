/-! How a text is quoted. Of the four forms the plainest that can hold the text is taken: one line
between quotation marks, one line between apostrophes, then the two forms of several lines; a text that
needs escapes is written between quotation marks. -/

namespace CBuild.Toml

def longestRun (c : Char) (s : List Char) : Nat :=
  (s.foldl (fun (run, best) x => if x = c then (run + 1, max best (run + 1)) else (0, best)) (0, 0)).2

def isControl (c : Char) : Bool :=
  (c.val < 0x20 && c ≠ '\t' && c ≠ '\n') || c.val == 0x7F

def isBareKeyChar (c : Char) : Bool :=
  c.isAlphanum || c = '-' || c = '_'

inductive Quoting
  | basic
  | literal
  | basicLines
  | literalLines
deriving DecidableEq

namespace Quoting

/-- The form a value is written in. -/
def ofValue (s : List Char) : Quoting :=
  let controls := s.any isControl
  let backslash := s.contains '\\'
  let lineFeed := s.contains '\n'
  if !controls && !backslash && longestRun '"' s = 0 && !lineFeed then basic
  else if !controls && longestRun '\'' s = 0 && !lineFeed then literal
  else if !controls && !backslash && longestRun '"' s ≤ 2 then basicLines
  else if !controls && longestRun '\'' s ≤ 2 then literalLines
  else if lineFeed then basicLines
  else basic

def ofKey (s : List Char) : Quoting :=
  let controls := s.any fun c => isControl c || c = '\n'
  if !controls && !s.contains '\\' && !s.contains '"' then basic
  else if !controls && !s.contains '\'' then literal
  else basic

def delimiter : Quoting → List Char
  | basic => ['"']
  | literal => ['\'']
  | basicLines => ['"', '"', '"']
  | literalLines => ['\'', '\'', '\'']

end Quoting

def hexDigit (n : Nat) : Char :=
  if n < 10 then Char.ofNat (n + 48) else Char.ofNat (n + 55)

def escapeCode (c : Char) : List Char :=
  let n := c.toNat
  ['\\', 'u', hexDigit (n / 4096 % 16), hexDigit (n / 256 % 16), hexDigit (n / 16 % 16), hexDigit (n % 16)]

def escapeChar (lines : Bool) (c : Char) : List Char :=
  if c = '\x08' then ['\\', 'b']
  else if c = '\t' then ['\\', 't']
  else if c = '\n' then if lines then [c] else ['\\', 'n']
  else if c = '\x0C' then ['\\', 'f']
  else if c = '\r' then ['\\', 'r']
  else if c = '\\' then ['\\', '\\']
  else if isControl c then escapeCode c
  else [c]

/-- The text between quotation marks. In the form of several lines up to two quotation marks in a row
stand as they are; `run` counts those just written. -/
def escaped (lines : Bool) (run : Nat) : List Char → List Char
  | [] => []
  | c :: r =>
    if c = '"' then
      if lines && run < 2 then '"' :: escaped lines (run + 1) r
      else '\\' :: '"' :: escaped lines 0 r
    else escapeChar lines c ++ escaped lines 0 r

def quoteAs (form : Quoting) (s : List Char) : List Char :=
  let lead := if s.contains '\n' then ['\n'] else []
  match form with
  | .basic => form.delimiter ++ escaped false 0 s ++ form.delimiter
  | .literal => form.delimiter ++ s ++ form.delimiter
  | .basicLines => form.delimiter ++ lead ++ escaped true 0 s ++ form.delimiter
  | .literalLines => form.delimiter ++ lead ++ s ++ form.delimiter

def quote (s : List Char) : List Char :=
  quoteAs (Quoting.ofValue s) s

def quoteKey (s : List Char) : List Char :=
  if s ≠ [] && s.all isBareKeyChar then s else quoteAs (Quoting.ofKey s) s

end CBuild.Toml
