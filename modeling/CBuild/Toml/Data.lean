import CBuild.Decimal.Binary64

/-! What a TOML document says, apart from how it says it. -/

namespace CBuild.Toml

/-- A value. Tables keep the order in which their keys were first written. -/
inductive Data
  | text (s : String)
  | integer (n : Int)
  | float (x : Binary64)
  | boolean (b : Bool)
  | moment (spelling : String)
  | array (items : List Data)
  | table (entries : List (String × Data))
deriving Inhabited

namespace Data

def get? (key : String) : Data → Option Data
  | table entries => entries.lookup key
  | _ => none

end Data
end CBuild.Toml
