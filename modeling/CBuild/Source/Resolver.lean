import CBuild.Source.Include
import CBuild.Source.Index
import Std.Data.HashSet

/-! Following quoted includes through an index. Each file that an include leads to is visited once; when it
is a header its companion is recorded, and read before the header. A file counts as visited before anything
it leads to is read, which ends cycles. The reader may answer as it likes each time it is asked, so nothing
here depends on files staying as they are. -/

namespace CBuild.Source

def Holds (paths : Std.HashSet Path) (records : List Record) : Prop :=
  ∀ p, p ∈ paths ↔ p ∈ records.map Record.relative

theorem holds_empty : Holds ∅ [] := by
  simp [Holds]

theorem Holds.insert {paths : Std.HashSet Path} {records : List Record} (h : Holds paths records)
    (r : Record) : Holds (paths.insert r.relative) (records ++ [r]) := by
  intro p
  rw [Std.HashSet.mem_insert, beq_iff_eq, h p, List.map_append, List.mem_append, List.map_singleton,
    List.mem_singleton, or_comm, eq_comm]

/-- The files reached so far, in the order in which they were reached, and the sets of their paths by which
a file is known again. -/
structure Resolution where
  visited : List Record := []
  companions : List Record := []
  visitedPaths : Std.HashSet Path := ∅
  companionPaths : Std.HashSet Path := ∅
  visitedPaths_holds : Holds visitedPaths visited := by exact holds_empty
  companionPaths_holds : Holds companionPaths companions := by exact holds_empty

namespace Resolution

def hasVisited (s : Resolution) (r : Record) : Bool :=
  s.visitedPaths.contains r.relative

def hasCompanion (s : Resolution) (r : Record) : Bool :=
  s.companionPaths.contains r.relative

def visit (s : Resolution) (r : Record) : Resolution :=
  { s with
    visited := s.visited ++ [r]
    visitedPaths := s.visitedPaths.insert r.relative
    visitedPaths_holds := s.visitedPaths_holds.insert r }

def addCompanion (s : Resolution) (r : Record) : Resolution :=
  { s with
    companions := s.companions ++ [r]
    companionPaths := s.companionPaths.insert r.relative
    companionPaths_holds := s.companionPaths_holds.insert r }

/-- The directory of a file as an include path; the root is a dot. -/
def directoryOf [PathText] (relative : Path) : List Char :=
  match relative.parent? with
  | some p => if p.chars = [] then ['.'] else p.slashed
  | none => ['.']

def headerDirectories [PathText] (s : Resolution) : List (List Char) :=
  (s.visited.reverse.map fun r => directoryOf r.relative).eraseDups

def implementationFiles [PathText] (s : Resolution) : List (List Char) :=
  s.companions.reverse.map fun r => r.relative.slashed

end Resolution

/-- What may be worth telling on the way. -/
inductive Note
  /-- A file includes something that is not in the project. -/
  | stranger (target : List Char) (file : Path)
  | pair (header companion : Record)
deriving DecidableEq

abbrev Index.Member (ix : Index) :=
  { r : Record // r ∈ ix.records }

/-- What is still to be done: a file to read, or the files that the rest of one's includes mean. -/
inductive Task (ix : Index)
  | scan (p : Path)
  | follow (rest : List ix.Member)

namespace Index

theorem mem_of_resolve? [PathText] {ix : Index} {name : List Char} {r : Record} (h : ix.resolve? name = some r) :
    r ∈ ix.records :=
  List.mem_of_find?_eq_some h

def included [PathText] (ix : Index) (b : Bytes) : List ix.Member :=
  (targetsIn b).filterMap fun t =>
    match h : ix.resolve? t with
    | some r => some ⟨r, mem_of_resolve? h⟩
    | none => none

def strangers [PathText] (ix : Index) (b : Bytes) : List (List Char) :=
  (targetsIn b).filter fun t => (ix.resolve? t).isNone

def unvisited (ix : Index) (s : Resolution) : Nat :=
  ix.records.countP fun r => !s.hasVisited r

theorem unvisited_addCompanion (ix : Index) (s : Resolution) (c : Record) :
    ix.unvisited (s.addCompanion c) = ix.unvisited s := rfl

theorem countP_lt {p q : α → Bool} {l : List α} {a : α} (ha : a ∈ l) (hq : q a = true)
    (hp : p a = false) (h : ∀ x ∈ l, p x = true → q x = true) : l.countP p < l.countP q := by
  induction l with
  | nil => simp at ha
  | cons x l ih =>
    have hle : l.countP p ≤ l.countP q :=
      List.countP_mono_left fun y hy => h y (List.mem_cons_of_mem x hy)
    simp only [List.countP_cons]
    rcases List.mem_cons.1 ha with rfl | ha
    · simp only [hp, hq, Bool.false_eq_true, if_false, if_true]
      omega
    · have := ih ha fun y hy => h y (List.mem_cons_of_mem x hy)
      have hx := h x List.mem_cons_self
      by_cases hpx : p x
      · simp only [hpx, hx hpx, if_true]
        omega
      · simp only [hpx, Bool.false_eq_true, if_false]
        omega

theorem unvisited_visit_lt {ix : Index} {s : Resolution} (r : ix.Member)
    (h : s.hasVisited r.val = false) : ix.unvisited (s.visit r.val) < ix.unvisited s := by
  refine countP_lt r.property (by simp [h]) ?_ ?_
  · simp [Resolution.hasVisited, Resolution.visit]
  · intro x _ hx
    simp_all [Resolution.hasVisited, Resolution.visit]

end Index

namespace Task

variable {ix : Index}

def isScan : Task ix → Bool
  | scan _ => true
  | follow _ => false

def size : List (Task ix) → Nat
  | [] => 0
  | scan _ :: stack => size stack
  | follow rest :: stack => rest.length + 1 + size stack

end Task

namespace Resolution

variable {m : Type → Type} [Monad m] {ix : Index}

/-- Works off a stack of tasks, the top one first. A file that cannot be read ends the work, and is named. -/
def run [PathText] (read : Path → m (Except OsError Bytes)) (note : Note → m Unit) (s : Resolution) :
    List (Task ix) → m (Except (Path × OsError) Resolution)
  | [] => pure (.ok s)
  | .scan p :: stack => do
    match ← read p with
    | .error e => pure (.error (p, e))
    | .ok b =>
      (ix.strangers b).forM fun t => note (.stranger t p)
      run read note s (.follow (ix.included b) :: stack)
  | .follow [] :: stack => run read note s stack
  | .follow (r :: rest) :: stack =>
    if _ : s.hasVisited r.val then run read note s (.follow rest :: stack)
    else
      match ix.companion? r.val with
      | some c =>
        if s.hasCompanion c then
          run read note (s.visit r.val) (.scan r.val.path :: .follow rest :: stack)
        else do
          note (.pair r.val c)
          run read note ((s.visit r.val).addCompanion c)
            (.scan c.path :: .scan r.val.path :: .follow rest :: stack)
      | none => run read note (s.visit r.val) (.scan r.val.path :: .follow rest :: stack)
termination_by stack => (ix.unvisited s, stack.countP Task.isScan, Task.size stack)
decreasing_by
  · simp only [List.countP_cons, Task.isScan]
    exact Prod.Lex.right _ (Prod.Lex.left _ _ (by simp))
  · simp only [List.countP_cons, Task.isScan, Task.size]
    exact Prod.Lex.right _ (Prod.Lex.right _ (by simp))
  · simp only [List.countP_cons, Task.isScan, Task.size, List.length_cons]
    exact Prod.Lex.right _ (Prod.Lex.right _ (by simp))
  · exact Prod.Lex.left _ _ (Index.unvisited_visit_lt r (by simp_all))
  · rw [Index.unvisited_addCompanion]
    exact Prod.Lex.left _ _ (Index.unvisited_visit_lt r (by simp_all))
  · exact Prod.Lex.left _ _ (Index.unvisited_visit_lt r (by simp_all))

end Resolution

/-- Every file that the includes of an entry point lead to, and their companions. -/
def Index.trace [PathText] [Monad m] (ix : Index) (read : Path → m (Except OsError Bytes)) (note : Note → m Unit)
    (entry : Path) : m (Except (Path × OsError) Resolution) :=
  Resolution.run read note {} [(.scan entry : Task ix)]

end CBuild.Source
