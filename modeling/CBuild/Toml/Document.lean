import CBuild.Text.Lines
import CBuild.Toml.Value

/-! Documents: the tables of a text, and what trails after the last line. A document that is read keeps every
comment and every spelling. -/

namespace CBuild.Toml

/-- A header line between the texts around it. -/
structure Header where
  before : List Char
  element : Bool
  path : List Key
  after : List Char

inductive Statement
  | header (h : Header)
  | entry (e : Entry)

namespace Header

def read? (before : List Char) (element : Bool) (s : List Char) : Option (Header × List Char) := do
  let (path, r) ← keyPath? s
  let r ← Text.after? (if element then [']', ']'] else [']']) r
  let (after, rest) ← lineEnd? r
  return (⟨before, element, path, after⟩, rest)

/-- Opens the table of a header, which is the one of this rank. -/
def open? (h : Header) (rank : Nat) (body : Children → Option Children) (cs : Children) :
    Option Children :=
  match h.path.getLast? with
  | none => none
  | some k =>
    let heading : Heading := ⟨rank, h.before, h.after⟩
    let head := if h.element then Children.headElement? k heading body
      else Children.headTable? k heading body
    Children.descend? head cs h.path.dropLast

end Header

def Entry.read? (before : List Char) (s : List Char) : Option (Entry × List Char) := do
  let (path, r) ← keyPath? s
  let r ← Text.after? ['='] r
  let (v, r') ← value? depthLimit (r.dropWhile isSpace)
  let (behind, rest) ← lineEnd? r'
  return (⟨lead before path, r.takeWhile isSpace, v, behind⟩, rest)

namespace Statement

def read? (before : List Char) : List Char → Option (Statement × List Char)
  | '[' :: '[' :: r => (Header.read? before true r).map fun (h, rest) => (.header h, rest)
  | '[' :: r => (Header.read? before false r).map fun (h, rest) => (.header h, rest)
  | s => (Entry.read? before s).map fun (e, rest) => (.entry e, rest)

def readAll? (s : List Char) : Option (List Statement × List Char) :=
  let (before, r) := trivia false s
  if r = [] then some ([], before)
  else
    match read? before r with
    | none => none
    | some (st, rest) =>
      if rest.length < s.length then (readAll? rest).map fun (sts, t) => (st :: sts, t) else none
termination_by s.length

/-- The entries before the first header, and the headers with the entries below each. -/
def sections : List Statement → List Entry × List (Header × List Entry)
  | [] => ([], [])
  | .entry e :: r => (e :: (sections r).1, (sections r).2)
  | .header h :: r => ([], (h, (sections r).1) :: (sections r).2)

end Statement

structure Document where
  top : Children
  trailing : List Char

namespace Document

def openAll? (rank : Nat) (cs : Children) : List (Header × List Entry) → Option Children
  | [] => some cs
  | (h, entries) :: r => do
    openAll? (rank + 1) (← h.open? rank (Entry.defineAll? · entries) cs) r

/-- The document that a text spells, unless one of its lines defines again what another has defined. A byte
order mark in front of it is passed. -/
def parse? (s : List Char) : Option Document := do
  let (statements, trailing) ← Statement.readAll? ((Text.after? ['\uFEFF'] s).getD s)
  let (entries, sections) := Statement.sections statements
  return ⟨← openAll? 1 (← Entry.defineAll? [] entries) sections, trailing⟩

def text (d : Document) : List Char :=
  d.top.text ++ d.trailing

end Document

def read? (s : List Char) : Option Data :=
  (Document.parse? s).map fun d => .table (entriesData d.top)

end CBuild.Toml
