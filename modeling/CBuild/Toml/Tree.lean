import CBuild.Toml.Data
import CBuild.Toml.Key

/-! The tables and values that a document defines, with the way they are written, and the rules by which its
lines may define them. A table is defined once: by its own header, by dotted keys of one table, or as the
parent of other headers, in which case its own header may still follow. Each key is kept as it was first
written, or as the header of its table writes it. -/

namespace CBuild.Toml

structure Value where
  data : Data
  spelling : List Char

/-- A header as it is written: how many headers stand before it, and the texts around its line. -/
structure Heading where
  rank : Nat
  before : List Char
  after : List Char

/-- How a table came to be: as the parent of a table with a header, through dotted keys, or by a header of
its own. -/
inductive Standing
  | implied
  | dotted
  | headed (h : Heading)

/-- What a key stands for. A value has space behind its equals sign, and may have more behind itself. -/
inductive Node
  | value (gap : List Char) (v : Value) (after : List Char)
  | table (how : Standing) (children : List (Key × Node))
  | tables (elements : List (Heading × List (Key × Node)))

abbrev Children := List (Key × Node)

namespace Children

def child? (cs : Children) (name : List Char) : Option (Key × Node) :=
  cs.find? fun (k, _) => k.name = name

def put (cs : Children) (name : List Char) (n : Node) : Children :=
  cs.map fun (k, m) => if k.name = name then (k, n) else (k, m)

def erase (cs : Children) (name : List Char) : Children :=
  cs.filter fun (k, _) => k.name ≠ name

def changeLast? (f : Children → Option Children) (elements : List (Heading × Children)) :
    Option (List (Heading × Children)) :=
  match elements.getLast? with
  | none => none
  | some (h, e) => (f e).map fun e => elements.dropLast ++ [(h, e)]

/-- Defines a node under a path of keys. `holds` says whether the table at hand may take a key: dotted keys
add to the table of their own line and to tables that dotted keys made, and to no other. They pass through
tables that have no header, and of several tables under one key through the last. -/
def define? (cs : Children) (holds : Bool) (n : Node) : List Key → Option Children
  | [] => none
  | [k] => if !holds || (cs.child? k.name).isSome then none else some (cs ++ [(k, n)])
  | k :: path =>
    match cs.child? k.name with
    | none => (define? [] true n path).map fun sub => cs ++ [(k, .table .dotted sub)]
    | some (_, .value _ _ _) => none
    | some (_, .table (.headed _) _) => none
    | some (_, .table .dotted sub) =>
      (define? sub true n path).map fun sub => cs.put k.name (.table .dotted sub)
    | some (_, .table .implied sub) =>
      (define? sub false n path).map fun sub => cs.put k.name (.table .implied sub)
    | some (_, .tables elements) =>
      (changeLast? (fun e => define? e false n path) elements).map fun es => cs.put k.name (.tables es)

/-- Changes the table at the end of a path of headers; tables on the way come to be as parents, and of
several tables under one key the last is meant. -/
def descend? (f : Children → Option Children) (cs : Children) : List Key → Option Children
  | [] => f cs
  | k :: path =>
    match cs.child? k.name with
    | none => (descend? f [] path).map fun sub => cs ++ [(k, .table .implied sub)]
    | some (_, .value _ _ _) => none
    | some (_, .table how sub) =>
      (descend? f sub path).map fun sub => cs.put k.name (.table how sub)
    | some (_, .tables elements) =>
      (changeLast? (fun e => descend? f e path) elements).map fun es => cs.put k.name (.tables es)

def headTable? (k : Key) (h : Heading) (body : Children → Option Children) (cs : Children) :
    Option Children :=
  match cs.child? k.name with
  | none => (body []).map fun b => cs ++ [(k, .table (.headed h) b)]
  | some (_, .table .implied sub) =>
    (body sub).map fun b => cs.erase k.name ++ [(k, .table (.headed h) b)]
  | _ => none

def headElement? (k : Key) (h : Heading) (body : Children → Option Children) (cs : Children) :
    Option Children :=
  match cs.child? k.name with
  | none => (body []).map fun b => cs ++ [(k, .tables [(h, b)])]
  | some (_, .tables es) => (body []).map fun b => cs.put k.name (.tables (es ++ [(h, b)]))
  | _ => none

end Children

mutual

def Node.data : Node → Data
  | .value _ v _ => v.data
  | .table _ cs => .table (entriesData cs)
  | .tables es => .array (tablesData es)

def entriesData : List (Key × Node) → List (String × Data)
  | [] => []
  | (k, n) :: r => (String.ofList k.name, n.data) :: entriesData r

def tablesData : List (Heading × List (Key × Node)) → List Data
  | [] => []
  | (_, cs) :: r => .table (entriesData cs) :: tablesData r

end

/-- A key path with its value: the space after the equals sign, and what follows the value. -/
structure Entry where
  path : List Key
  gap : List Char
  value : Value
  after : List Char

namespace Entry

def text (space : List Char × List Char) (e : Entry) : List Char :=
  pathText space e.path ++ '=' :: (e.gap ++ e.value.spelling ++ e.after)

def line (e : Entry) : List Char :=
  e.text ([], [' ']) ++ ['\n']

end Entry

mutual

def Node.entries (path : List Key) : Node → List Entry
  | .value gap v after => [⟨path, gap, v, after⟩]
  | .table .dotted cs => entriesUnder path cs
  | _ => []

def entriesUnder (path : List Key) : List (Key × Node) → List Entry
  | [] => []
  | (k, n) :: r => n.entries (path ++ [k]) ++ entriesUnder path r

end

/-- A table that may have a header line, with the entries below the line. -/
structure Block where
  heading : Option Heading
  element : Bool
  path : List Key
  entries : List Entry

mutual

def Node.blocks (path : List Key) : Node → List Block
  | .value _ _ _ => []
  | .table .dotted cs => blocksUnder path cs
  | .table .implied cs => ⟨none, false, path, entriesUnder [] cs⟩ :: blocksUnder path cs
  | .table (.headed h) cs => ⟨some h, false, path, entriesUnder [] cs⟩ :: blocksUnder path cs
  | .tables es => elementBlocks path es

def blocksUnder (path : List Key) : List (Key × Node) → List Block
  | [] => []
  | (k, n) :: r => n.blocks (path ++ [k]) ++ blocksUnder path r

def elementBlocks (path : List Key) : List (Heading × List (Key × Node)) → List Block
  | [] => []
  | (h, cs) :: r => ⟨some h, true, path, entriesUnder [] cs⟩ :: blocksUnder path cs ++ elementBlocks path r

end

namespace Block

/-- The blocks with the place of each among the headers: one without a header comes with the one before. -/
def ranked (last : Nat) : List Block → List (Nat × Block)
  | [] => []
  | b :: r =>
    let rank := (b.heading.map Heading.rank).getD last
    (rank, b) :: ranked rank r

def ordered (bs : List Block) : List Block :=
  ((ranked 0 bs).mergeSort fun a b => a.1 ≤ b.1).map Prod.snd

/-- A parent that has no values of its own needs no line. -/
def isVisible (b : Block) : Bool :=
  b.heading.isSome || !b.entries.isEmpty

def text (before : List Char) (b : Block) : List Char :=
  let path := pathText ([], []) b.path
  let line := if b.element then '[' :: '[' :: path ++ [']', ']'] else '[' :: path ++ [']']
  (b.heading.map Heading.before).getD before ++ line ++ (b.heading.map Heading.after).getD [] ++ '\n' ::
    b.entries.flatMap Entry.line

end Block

/-- The text of a table and all tables below it. A header that no text has spelled stands apart from what is
before it. -/
def Children.text (cs : Children) : List Char :=
  let top := (entriesUnder [] cs).flatMap Entry.line
  ((Block.ordered (blocksUnder [] cs)).filter Block.isVisible).foldl
    (fun done b => done ++ b.text (if done = [] then [] else ['\n'])) top

end CBuild.Toml
