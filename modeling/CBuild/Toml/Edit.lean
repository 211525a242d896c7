import CBuild.Toml.Document

/-! Putting arrays of strings under keys of the top table. A key that has an array keeps its place and the
comment behind it; a key that has another value, or names a table, keeps its place as far as values can, in
front of all tables; a new key comes last among the values. -/

namespace CBuild.Toml

/-- The spelling of an array of strings: one item stays on the line, more take a line each. -/
def arrayText (values : List (List Char)) : List Char :=
  match values with
  | [] => ['[', ']']
  | [v] => '[' :: quote v ++ [']']
  | vs => '[' :: vs.flatMap (fun v => "\n    ".toList ++ quote v ++ [',']) ++ ['\n', ']']

def arrayValue (values : List (List Char)) : Value :=
  ⟨.array (values.map fun v => .text (String.ofList v)), arrayText values⟩

/-- What stays behind the value of a key that is given an array. -/
def Node.kept : Node → List Char
  | .value _ ⟨.array _, _⟩ after => after
  | _ => []

abbrev Lists := List (List Char × List (List Char))

def Children.putArray (cs : Children) (name : List Char) (values : List (List Char)) : Children :=
  match cs.child? name with
  | some (_, n) => cs.put name (.value [' '] (arrayValue values) n.kept)
  | none => cs ++ [(Key.fresh name, .value [' '] (arrayValue values) [])]

/-- The document with each listed key given its array, one after the other. -/
def Document.putArrays (d : Document) (lists : Lists) : Document :=
  { d with top := lists.foldl (fun cs (name, values) => cs.putArray name values) d.top }

end CBuild.Toml
