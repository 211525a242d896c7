import CBuild.Proofs.Machine.Steady
import CBuild.Source.Index

/-! A process that may not look at all that is on a machine. What it asks is answered as far as it has access, and refused
where it has none. -/

namespace CBuild

/-- The paths that a process may ask about, and those that it may list when they lead to directories. -/
structure Access where
  looks : Path → Bool
  lists : Path → Bool

namespace Access

open Machine Source

def full : Access :=
  ⟨fun _ => true, fun _ => true⟩

def allow {α : Type} (allowed : Bool) (request : StateM Machine (Except OsError α)) : StateM Machine (Except OsError α) :=
  if allowed then request else return .error .permissionDenied

@[reducible]
def host (a : Access) : Host (StateM Machine) :=
  { (inferInstance : Host (StateM Machine)) with
    kind? := fun p => if a.looks p then Host.kind? p else return none
    namesIn := fun p => allow (a.lists p) (Host.namesIn p)
    entriesIn := fun p => allow (a.lists p) (Host.entriesIn p)
    readBytes := fun p => allow (a.looks p) (Host.readBytes p)
    writeBytes := fun p b => allow (a.looks p) (Host.writeBytes p b)
    makeDirectory := fun p => allow (a.looks p) (Host.makeDirectory p)
    removeFile := fun p => allow (a.looks p) (Host.removeFile p)
    isExecutable := fun p => if a.looks p then Host.isExecutable p else return false }

theorem host_full : full.host = (inferInstance : Host (StateM Machine)) := rfl

def build (a : Access) (root : Path) : Action (StateM Machine) Index :=
  @Index.build _ _ a.host root

def filesBelow (a : Access) (root : Path) (depth : Nat) (relative : List (List Char)) : StateM Machine (List Path) :=
  @Index.filesBelow _ _ a.host root depth relative

def kind? (a : Access) (p : Path) : StateM Machine (Option FileKind) :=
  @Host.kind? _ a.host p

def isFile (a : Access) (p : Path) : StateM Machine Bool :=
  @Host.isFile _ _ a.host p

def isDirectory (a : Access) (p : Path) : StateM Machine Bool :=
  @Host.isDirectory _ _ a.host p

def entriesIn (a : Access) (p : Path) : StateM Machine (Except OsError (List (List Char × EntryKind))) :=
  @Host.entriesIn _ a.host p

theorem build_full (root : Path) : full.build root = Index.build root := rfl

variable {a : Access} {m : Machine} {p : Path}

theorem steady_kind? (a : Access) (p : Path) : Steady (a.kind? p) := by
  intro m
  change ((if a.looks p then Host.kind? p else return none : StateM Machine _).run m).2 = m
  split
  · rfl
  · rfl

theorem answer_kind? : m.answer (a.kind? p) = if a.looks p then m.kind p else none := by
  change m.answer (if a.looks p then Host.kind? p else return none) = _
  split
  · rfl
  · rfl

theorem steady_isFile (a : Access) (p : Path) : Steady (a.isFile p) :=
  (steady_kind? a p).bind fun _ => steady_pure _

theorem answer_isFile : m.answer (a.isFile p) = decide (a.looks p ∧ m.kind p = some .file) := by
  change m.answer (a.kind? p >>= fun kind => return decide (kind = some .file)) = _
  rw [answer_bind (steady_kind? a p), answer_kind?, answer_pure]
  cases a.looks p with
  | false => simp
  | true => simp

theorem steady_isDirectory (a : Access) (p : Path) : Steady (a.isDirectory p) :=
  (steady_kind? a p).bind fun _ => steady_pure _

theorem answer_isDirectory : m.answer (a.isDirectory p) = decide (a.looks p ∧ m.kind p = some .directory) := by
  change m.answer (a.kind? p >>= fun kind => return decide (kind = some .directory)) = _
  rw [answer_bind (steady_kind? a p), answer_kind?, answer_pure]
  cases a.looks p with
  | false => simp
  | true => simp

theorem steady_entriesIn (a : Access) (p : Path) : Steady (a.entriesIn p) := by
  intro m
  change ((allow (a.lists p) (Host.entriesIn p)).run m).2 = m
  rw [allow]
  split
  · rfl
  · rfl

theorem answer_entriesIn : m.answer (a.entriesIn p) =
    if a.lists p then m.entriesIn p else .error .permissionDenied := by
  change m.answer (allow (a.lists p) (Host.entriesIn p)) = _
  rw [allow]
  split
  · rfl
  · rfl

end Access

end CBuild
