/-! Arguments of a command line told apart: flags, options with a value, and operands. Letters may be joined
behind one dash; a value may be joined to its option, or be the next argument unless that looks like an
option. Two dashes end the options. -/

namespace CBuild.Cli

structure Known where
  word : String
  letter : Option Char
  takesValue : Bool
deriving DecidableEq

inductive Item
  | flag (word : String)
  | value (word : String) (v : String)
  | operand (v : String)
  | trailing (v : String)
  | mistake
deriving DecidableEq

def looksLikeOption (a : String) : Bool :=
  a.toList.head? = some '-' && a ≠ "-"

/-- What joined letters mean. An option that the letters leave without a value is returned. -/
def letters (known : List Known) : List Char → List Item × Option Known
  | [] => ([], none)
  | c :: r =>
    match known.find? fun k => k.letter = some c with
    | none => ([.mistake], none)
    | some k =>
      if k.takesValue then
        match r with
        | [] => ([], some k)
        | '=' :: v => ([.value k.word (String.ofList v)], none)
        | v => ([.value k.word (String.ofList v)], none)
      else
        let (items, pending) := letters known r
        (.flag k.word :: items, pending)

def word (known : List Known) (s : List Char) : List Item × Option Known :=
  let name := s.takeWhile (· ≠ '=')
  match known.find? fun k => k.word.toList = name, s.drop name.length with
  | none, _ => ([.mistake], none)
  | some k, [] => if k.takesValue then ([], some k) else ([.flag k.word], none)
  | some k, _ :: v =>
    (if k.takesValue then [.value k.word (String.ofList v)] else [.mistake], none)

/-- What arguments mean, one after the other. `pending` is an option still without its value. -/
def itemsFrom (known : List Known) : (pending : Option Known) → List String → List Item
  | none, [] => []
  | some _, [] => [.mistake]
  | some k, a :: rest =>
    if looksLikeOption a then [.mistake] else .value k.word a :: itemsFrom known none rest
  | none, a :: rest =>
    if a = "--" then rest.map .trailing
    else if looksLikeOption a then
      let (items, pending) :=
        match a.toList with
        | '-' :: '-' :: s => word known s
        | s => letters known (s.drop 1)
      items ++ itemsFrom known pending rest
    else .operand a :: itemsFrom known none rest

def items (known : List Known) (args : List String) : List Item :=
  itemsFrom known none args

end CBuild.Cli
