import CBuild.Toml.Edit

/-! Replacing lists in the text of a configuration. All that is not replaced stays as it is written; a list
that is missing takes the line of its commented example, if one stands above all tables. -/

namespace CBuild

/-- Whether a line, less the space it starts with, is a commented assignment to the key. -/
def isExampleOf (line key : List Char) : Bool :=
  match line with
  | '#' :: r =>
    (Text.after? key (Text.trimStart r)).any fun rest => (Text.trimStart rest).head? = some '='
  | _ => false

/-- Turns the first example of each key into an empty list, up to the first line that opens a table. -/
def fillExamplesIn (keys : List (List Char)) : List (List Char) → List (List Char)
  | [] => []
  | line :: rest =>
    let start := Text.trimStart line
    if start.head? = some '[' then line :: rest
    else
      match keys.find? (isExampleOf start) with
      | some key => (key ++ " = []\n".toList) :: fillExamplesIn (keys.erase key) rest
      | none => line :: fillExamplesIn keys rest

def fillExamples (text : List Char) (keys : List (List Char)) : List Char :=
  (fillExamplesIn keys (Text.pieces text)).flatten

/-- The text with each listed key of the top table given its values, unless the text is no document. -/
def replaceLists? (text : List Char) (lists : Toml.Lists) : Option (List Char) := do
  let before ← Toml.Document.parse? text
  let missing := (lists.map Prod.fst).filter fun key => (before.top.child? key).isNone
  return ((← Toml.Document.parse? (fillExamples text missing)).putArrays lists).text

end CBuild
