import CBuild.Failure
import CBuild.Path.Relative

/-! Reading and writing text files, with directories made on the way. -/

namespace CBuild

namespace Path

def ancestors (p : Path) : List Path :=
  let rec go : Nat → Path → List Path
    | 0, p => [p]
    | n + 1, p =>
      match p.parent? with
      | some q => p :: go n q
      | none => [p]
  go p.parts.length p

end Path

namespace Files

variable {m : Type → Type} [Monad m] [Host m]

/-- Makes a directory, given with everything above it, after what is missing above it. -/
def makeAll : List Path → m (Except OsError Unit)
  | [] => return .error .wholeTree
  | p :: above => do
    if p.chars = [] then return .ok ()
    match ← Host.makeDirectory p with
    | .ok _ => return .ok ()
    | .error .notFound =>
      match ← makeAll above with
      | .error e => return .error e
      | .ok _ =>
        match ← Host.makeDirectory p with
        | .ok _ => return .ok ()
        | .error e => if ← Host.isDirectory p then return .ok () else return .error e
    | .error e => if ← Host.isDirectory p then return .ok () else return .error e

def ensureDirectory (p : Path) : Action m Unit := do
  if ← (Host.exists? p : m Bool) then return
  else Action.attempt .createDirectory p (makeAll p.ancestors)

def readText (p : Path) : Action m String :=
  Action.attempt .read p do
    match ← (Host.readBytes p : m _) with
    | .error e => return .error e
    | .ok b =>
      match Utf8.decode? b with
      | some s => return .ok s
      | none => return .error .notText

/-- Writes a text file. The directory it belongs in is made first. -/
def writeText (p : Path) (text : String) : Action m Unit := do
  match p.parent? with
  | some d => if d.chars ≠ [] then ensureDirectory d
  | none => pure ()
  Action.attempt .write p (Host.writeBytes p (Utf8.encode text))

def removeIfExists (p : Path) : Action m Unit := do
  if ← (Host.exists? p : m Bool) then Action.attempt .remove p (Host.removeFile p)

end Files
end CBuild
