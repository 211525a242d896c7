import CBuild.Text.Unseen

/-! Texts quoted in messages: quotation marks, backslashes and what cannot be seen are written as escapes. -/

namespace CBuild.Text

def hexText (n : Nat) : List Char :=
  Nat.toDigits 16 n

def escapedChar (c : Char) : List Char :=
  if c = '\x00' then ['\\', '0']
  else if c = '\t' then ['\\', 't']
  else if c = '\n' then ['\\', 'n']
  else if c = '\r' then ['\\', 'r']
  else if c = '"' then ['\\', '"']
  else if c = '\\' then ['\\', '\\']
  else if isUnseen c then "\\u\x7b".toList ++ hexText c.toNat ++ ['}']
  else [c]

def inQuotes (s : List Char) : List Char :=
  '"' :: s.flatMap escapedChar ++ ['"']

end CBuild.Text
