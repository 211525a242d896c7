import CBuild.Toml.Scalar
import CBuild.Toml.Tree

/-! Values as they are written. A value keeps its spelling; the readers here leave out the carriage returns
of line ends between the parts of an array, and write the pairs of an inline table with equal dotted keys
side by side. -/

namespace CBuild.Toml

namespace Entry

def defineAll? (cs : Children) (es : List Entry) : Option Children :=
  es.foldlM (fun cs e => cs.define? true (.value e.gap e.value e.after) e.path) cs

end Entry

def plain? (s : List Char) : Option (Value × List Char) :=
  match s with
  | '"' :: _ => (string? s).map fun (t, rest) => (⟨.text (String.ofList t), consumed s rest⟩, rest)
  | '\'' :: _ => (string? s).map fun (t, rest) => (⟨.text (String.ofList t), consumed s rest⟩, rest)
  | _ => (scalar? s).map fun ((t, d), rest) => (⟨d, t⟩, rest)

def items? (value? : List Char → Option (Value × List Char)) (s : List Char) :
    Option ((List Data × List Char) × List Char) :=
  let (before, r) := trivia false s
  match r with
  | ']' :: rest => some (([], before ++ [']']), rest)
  | _ =>
    match value? r with
    | none => none
    | some (v, r) =>
      let (behind, r) := trivia false r
      match r with
      | ']' :: rest => some (([v.data], before ++ v.spelling ++ behind ++ [']']), rest)
      | ',' :: r =>
        if r.length < s.length then
          (items? value? r).map fun ((ds, text), rest) =>
            ((v.data :: ds, before ++ v.spelling ++ behind ++ ',' :: text), rest)
        else none
      | _ => none
termination_by s.length

def pair? (value? : List Char → Option (Value × List Char)) (s : List Char) :
    Option (Entry × List Char) :=
  match keyPath? s with
  | some (path, '=' :: r) =>
    (value? (r.dropWhile isSpace)).map fun (v, rest) =>
      (⟨path, r.takeWhile isSpace, v, rest.takeWhile isSpace⟩, rest.dropWhile isSpace)
  | _ => none

def pairs? (value? : List Char → Option (Value × List Char)) (s : List Char) :
    Option (List Entry × List Char) :=
  match pair? value? s with
  | some (e, '}' :: rest) => some ([e], rest)
  | some (e, ',' :: r) =>
    if r.length < s.length then (pairs? value? r).map fun (es, rest) => (e :: es, rest) else none
  | _ => none
termination_by s.length

def inlineText (cs : Children) : List Char :=
  '{' :: [','].intercalate ((entriesUnder [] cs).map (Entry.text ([' '], [' ']))) ++ ['}']

def inline? (value? : List Char → Option (Value × List Char)) (s : List Char) :
    Option (Value × List Char) :=
  match s.dropWhile isSpace with
  | '}' :: rest => some (⟨.table [], '{' :: s.takeWhile isSpace ++ ['}']⟩, rest)
  | _ => do
    let (es, rest) ← pairs? value? s
    let cs ← Entry.defineAll? [] es
    some (⟨.table (entriesData cs), inlineText cs⟩, rest)

/-- A value with at most `depth` arrays and inline tables around any part of it. -/
def value? : (depth : Nat) → List Char → Option (Value × List Char)
  | 0, s => plain? s
  | depth + 1, s =>
    match s with
    | '[' :: r =>
      (items? (value? depth) r).map fun ((ds, text), rest) => (⟨.array ds, '[' :: text⟩, rest)
    | '{' :: r => inline? (value? depth) r
    | _ => plain? s

/-- Values nest less than 80 deep. -/
def depthLimit : Nat := 79

end CBuild.Toml
