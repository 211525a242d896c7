import CBuild.Manifest
import CBuild.Text.Escaped
import CBuild.Toml.Document

/-! Which documents are configurations. Every key is optional and unknown keys mean nothing; a known key
must have a value of its type, and the first that has not, in the order of the document, is reported. -/

namespace CBuild

inductive Expected
  | text
  | list
  | hooks
deriving DecidableEq

structure Mismatch where
  found : Toml.Data
  expected : Expected

inductive ManifestError
  | notToml
  | mismatch (m : Mismatch)

namespace Expected

def describe : Expected → String
  | text => "a string"
  | list => "a sequence"
  | hooks => "struct ShellHooks"

end Expected

namespace Toml.Data

def describe : Data → String
  | text s => "string " ++ String.ofList (Text.inQuotes s.toList)
  | integer n => "integer `" ++ toString n ++ "`"
  | float x => "floating point `" ++ String.ofList x.text ++ "`"
  | boolean b => "boolean `" ++ toString b ++ "`"
  | moment _ => "map"
  | array _ => "sequence"
  | table _ => "map"

end Toml.Data

namespace Mismatch

def message (m : Mismatch) : String :=
  "invalid type: " ++ m.found.describe ++ ", expected " ++ m.expected.describe

end Mismatch

open Toml (Data)

def textOf : Data → Except Mismatch String
  | .text s => .ok s
  | d => .error ⟨d, .text⟩

def listOf : Data → Except Mismatch (List String)
  | .array items => items.mapM textOf
  | d => .error ⟨d, .list⟩

namespace ShellHooks

def set (h : ShellHooks) : String × Data → Except Mismatch ShellHooks
  | ("before", d) => (listOf d).map fun v => { h with before := v }
  | ("after", d) => (listOf d).map fun v => { h with after := v }
  | ("misc", d) => (listOf d).map fun v => { h with misc := v }
  | _ => .ok h

/-- Hooks are a table, or an array of the lists in the order before, after, misc. A date counts as a table
without any of the keys. -/
def ofData : Data → Except Mismatch ShellHooks
  | .table entries => entries.foldlM set {}
  | .array items => (["before", "after", "misc"].zip items).foldlM set {}
  | .moment _ => .ok {}
  | d => .error ⟨d, .hooks⟩

end ShellHooks

namespace Manifest

def set (m : Manifest) : String × Data → Except Mismatch Manifest
  | ("compiler", d) => (textOf d).map fun v => { m with compiler := v }
  | ("name", d) => (textOf d).map fun v => { m with name := v }
  | ("output", d) => (textOf d).map fun v => { m with output := v }
  | ("flags", d) => (listOf d).map fun v => { m with flags := v }
  | ("files", d) => (listOf d).map fun v => { m with files := v }
  | ("includes", d) => (listOf d).map fun v => { m with includes := v }
  | ("libs", d) => (listOf d).map fun v => { m with libs := v }
  | ("libraries", d) => (listOf d).map fun v => { m with libraries := v }
  | ("shell", d) => (ShellHooks.ofData d).map fun v => { m with shell := v }
  | _ => .ok m

def ofEntries (entries : List (String × Data)) : Except Mismatch Manifest :=
  entries.foldlM set {}

def parse (s : String) : Except ManifestError Manifest :=
  match Toml.read? s.toList with
  | some (.table entries) => (ofEntries entries).mapError .mismatch
  | _ => .error .notToml

end Manifest
end CBuild
