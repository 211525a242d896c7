import CBuild.Machine.Image

/-! Processes, and the channels that they read and write through. -/

namespace CBuild

namespace Machine

/-- What a shell does with a path: a file without an interpreter is a script of its own. -/
def State.loadForShell (m : State) (p : Path) (args : List (List Char)) :
    Except OsError (String × List (List Char)) :=
  match m.load (nesting + 1) p args with
  | .error .badFormat => .ok ("sh", args.take 1 ++ p.chars :: args.drop 1)
  | result => result

end Machine

inductive Medium
  | out
  | err
  | nothing
  | file (l : Location)
  | held (b : Bytes)
deriving DecidableEq

/-- An open channel. All who share it go on where the last one stopped. -/
structure Channel where
  medium : Medium
  position : Nat := 0
  appends : Bool := false
  reads : Bool := true
  writes : Bool := true
deriving DecidableEq

structure Machine.Wired extends Machine.State where
  channels : Array Channel := #[⟨.nothing, 0, false, true, true⟩, ⟨.out, 0, true, true, true⟩,
    ⟨.err, 0, true, true, true⟩]

namespace Machine.Wired

def overwrite (old new : Bytes) (position : Nat) : Bytes :=
  old.take position ++ List.replicate (position - old.length) 0 ++ new ++ old.drop (position + new.length)

def content (m : Wired) : Medium → Bytes
  | .file l =>
    match m.tree.get? l with
    | some (.file b _) => b
    | _ => []
  | .held b => b
  | _ => []

def moveTo (m : Wired) (k position : Nat) : Wired :=
  { m with channels := m.channels.modify k fun c => { c with position := position } }

def write? (m : Wired) (b : Bytes) (k : Nat) : Option Wired :=
  match m.channels[k]? with
  | none => none
  | some c =>
    if !c.writes then none
    else
      match c.medium with
      | .out => some { m with out := m.out ++ b }
      | .err => some { m with err := m.err ++ b }
      | .nothing => some m
      | .held a =>
        some { m with channels := m.channels.modify k fun c => { c with medium := .held (a ++ b) } }
      | .file l =>
        match m.tree.get? l with
        | some (.file a x) =>
          let start := if c.appends then a.length else c.position
          let t := (m.tree.set l (.file (overwrite a b start) x)).toOption.getD m.tree
          some ({ m with tree := t }.moveTo k (start + b.length))
        | _ => some m

def unread (m : Wired) (k : Nat) : Bytes :=
  match m.channels[k]? with
  | some c => (m.content c.medium).drop c.position
  | none => []

def skip (m : Wired) (k count : Nat) : Wired :=
  { m with channels := m.channels.modify k fun c => { c with position := c.position + count } }

def openChannel (m : Wired) (c : Channel) : Nat × Wired :=
  (m.channels.size, { m with channels := m.channels.push c })

end Machine.Wired

structure Process where
  machine : Machine.Wired
  streams : List (Nat × Nat) := [(0, 0), (1, 1), (2, 2)]
  environment : List (List Char × List Char) := []
  numbers : List Nat := []

/-- How a process ends: by itself, or by a signal to it or to one that it was started by. -/
inductive Ending
  | code (n : Nat)
  | killed (process signal : Nat)
deriving DecidableEq

abbrev Program := List (List Char) → StateM Process Nat

namespace Process

def encode (s : List Char) : Bytes :=
  Utf8.encode (String.ofList s)

def tree (p : Process) : FileTree :=
  p.machine.tree

def here (p : Process) : Location :=
  p.machine.here

def withTree (t : FileTree) (p : Process) : Process :=
  { p with machine := { p.machine with tree := t } }

def write (k : Nat) (b : Bytes) : StateM Process Bool := do
  let p ← get
  match (p.streams.lookup k).bind (p.machine.write? b) with
  | some m =>
    set { p with machine := m }
    return true
  | none => return false

def sayBytes (b : Bytes) : StateM Process Unit :=
  discard (write 1 b)

def say (s : List Char) : StateM Process Unit :=
  sayBytes (encode s)

def complain (s : String) : StateM Process Unit :=
  discard (write 2 (Utf8.encode (s ++ "\n")))

def readStream (k : Nat) : StateM Process Bytes := do
  let p ← get
  match p.streams.lookup k with
  | some c =>
    let b := p.machine.unread c
    set { p with machine := p.machine.skip c b.length }
    return b
  | none => return []

def input : StateM Process Bytes :=
  readStream 0

def device? (path : List Char) : Option Nat :=
  match String.ofList path with
  | "/dev/stdin" | "/dev/fd/0" => some 0
  | "/dev/stdout" | "/dev/fd/1" => some 1
  | "/dev/stderr" | "/dev/fd/2" => some 2
  | _ => none

def readFile (path : List Char) : StateM Process (Except OsError Bytes) := do
  match device? path with
  | some k => return .ok (← readStream k)
  | none =>
    let p ← get
    return p.tree.readFile p.here ⟨path⟩

/-- Opens a file as a channel. Nothing is ever kept of what is written nowhere. -/
def openFile (p : Process) (path : List Char) (make clear : Bool) (c : Location → Channel) :
    Except OsError (Nat × Process) := do
  match (device? path).bind fun k => p.streams.lookup k with
  | some k => return (k, p)
  | none =>
    let (t, l) ← p.tree.openFile p.here ⟨path⟩ make clear
    let channel := if l = FileTree.nowhere then { c l with medium := .nothing } else c l
    let (k, m) := p.machine.openChannel channel
    return (k, { p with machine := { m with tree := t } })

/-- Some work in a process of its own: of what it does only the changes to the machine stay. -/
def child {α : Type} (work : StateM Process α) : StateM Process α := do
  let p ← get
  let n := p.machine.nextNumber
  let (a, q) := work.run { p with
    machine := { p.machine with nextNumber := n + 1 }
    numbers := n :: p.numbers }
  set { p with machine := { q.machine with here := p.here } }
  return a

end Process
end CBuild
