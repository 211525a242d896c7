import CBuild.Proofs.Source.Following

/-! The traversal as a recursive procedure on two plain lists: reading a file visits the records that its
includes mean one by one, and a visit reads the record's companion, when that is new, and then the record
itself. A stack of tasks stands for the calls that have not returned, so the traversal gives what the
procedure gives. -/

namespace CBuild.Source

/-- The files that were found, in the order in which they were found. -/
structure Listing where
  headers : List Record := []
  implementations : List Record := []

/-- What a call of the procedure returns, if it returns. -/
abbrev Answer := ExceptT (Path × OsError) Option Listing

namespace Index

/-- Reads a file and all that it leads to. Nothing in the definition bounds the recursion. -/
def process (ix : Index) (files : Contents) (l : Listing) (p : Path) : Answer :=
  match files p with
  | .error e => throw (p, e)
  | .ok b =>
    (targetsIn b).foldlM (fun l t =>
      match ix.resolve? t with
      | none => pure l
      | some h =>
        if h.relative ∈ l.headers.map Record.relative then pure l
        else do
          let l := { l with headers := l.headers ++ [h] }
          let l ← match ix.companion? h with
            | none => pure l
            | some c =>
              if c.relative ∈ l.implementations.map Record.relative then pure l
              else (ix |>.process files { l with implementations := l.implementations ++ [c] } c.path)
          ix |>.process files l h.path) l
partial_fixpoint

def enter (ix : Index) (files : Contents) (l : Listing) (h : Record) : Answer :=
  if h.relative ∈ l.headers.map Record.relative then pure l
  else do
    let l := { l with headers := l.headers ++ [h] }
    let l ← match ix.companion? h with
      | none => pure l
      | some c =>
        if c.relative ∈ l.implementations.map Record.relative then pure l
        else ix.process files { l with implementations := l.implementations ++ [c] } c.path
    ix.process files l h.path

theorem foldlM_targets (ix : Index) (f : Listing → Record → Answer) (ts : List (List Char))
    (l : Listing) :
    ts.foldlM (fun l t => match ix.resolve? t with | none => pure l | some h => f l h) l =
      (ts.filterMap ix.resolve?).foldlM f l := by
  induction ts generalizing l with
  | nil => rfl
  | cons t ts ih =>
    rw [List.foldlM_cons]
    cases h : ix.resolve? t with
    | none => rw [List.filterMap_cons_none h, pure_bind, ih]
    | some r => simp only [List.filterMap_cons_some h, List.foldlM_cons, ih]

theorem filterMap_resolve?_eq (ix : Index) (b : Bytes) :
    (targetsIn b).filterMap ix.resolve? = (ix.included b).map Subtype.val := by
  rw [included, List.map_filterMap]
  refine congrArg (List.filterMap · _) ?_
  funext t
  split <;> simp [*]

theorem process_unreadable {ix : Index} {files : Contents} {p : Path} {e : OsError}
    (h : files p = .error e) (l : Listing) : ix.process files l p = throw (p, e) := by
  rw [process, h]

theorem process_readable {ix : Index} {files : Contents} {p : Path} {b : Bytes}
    (h : files p = .ok b) (l : Listing) :
    ix.process files l p = (ix.included b).foldlM (fun l r => ix.enter files l r.val) l := by
  rw [process, h]
  calc _ = ((targetsIn b).filterMap ix.resolve?).foldlM (ix.enter files) l :=
        foldlM_targets ix (ix.enter files) (targetsIn b) l
    _ = _ := by rw [filterMap_resolve?_eq, List.foldlM_map]

end Index

namespace Resolution

def listing (s : Resolution) : Listing := ⟨s.visited, s.companions⟩

theorem hasVisited_iff_mem {s : Resolution} {r : Record} :
    s.hasVisited r ↔ r.relative ∈ s.listing.headers.map Record.relative := by
  simp [hasVisited_iff, listing]

theorem hasCompanion_iff_mem {s : Resolution} {r : Record} :
    s.hasCompanion r ↔ r.relative ∈ s.listing.implementations.map Record.relative := by
  simp [hasCompanion_iff, listing]

theorem listing_visit (s : Resolution) (r : Record) :
    (s.visit r).listing = { s.listing with headers := s.listing.headers ++ [r] } := rfl

theorem listing_addCompanion (s : Resolution) (r : Record) :
    (s.addCompanion r).listing =
      { s.listing with implementations := s.listing.implementations ++ [r] } := rfl

end Resolution

namespace Task

variable {ix : Index} {files : Contents}

def perform (files : Contents) (l : Listing) : Task ix → Answer
  | .scan p => ix.process files l p
  | .follow rest => rest.foldlM (fun l r => ix.enter files l r.val) l

/-- The calls that a stack stands for, the top one first. -/
def performAll (files : Contents) (l : Listing) (stack : List (Task ix)) : Answer :=
  stack.foldlM (perform files) l

theorem performAll_cons (l : Listing) (t : Task ix) (stack : List (Task ix)) :
    performAll files l (t :: stack) = perform files l t >>= fun l => performAll files l stack :=
  List.foldlM_cons

theorem performAll_follow_cons (l : Listing) (r : ix.Member) (rest : List ix.Member)
    (stack : List (Task ix)) :
    performAll files l (.follow (r :: rest) :: stack) =
      ix.enter files l r.val >>= fun l => performAll files l (.follow rest :: stack) := by
  simp only [performAll_cons, perform, List.foldlM_cons, bind_assoc]

theorem enter_known {s : Resolution} {r : ix.Member} (h : s.hasVisited r.val) :
    ix.enter files s.listing r.val = pure s.listing := by
  rw [Index.enter, if_pos (Resolution.hasVisited_iff_mem.1 h)]

theorem enter_new {s : Resolution} {r : ix.Member} (h : ¬s.hasVisited r.val) :
    ix.enter files s.listing r.val = performAll files (s.meet r).1.listing (s.meet r).2 := by
  rw [Index.enter, if_neg (mt Resolution.hasVisited_iff_mem.2 h), ← Resolution.listing_visit,
    Resolution.meet]
  cases ix.companion? r.val with
  | none => simp [performAll, perform]
  | some c =>
    have hs : (s.visit r.val).hasCompanion c = s.hasCompanion c := rfl
    simp only [← Resolution.hasCompanion_iff_mem, ← Resolution.listing_addCompanion, hs]
    cases s.hasCompanion c <;> simp [performAll, perform]

theorem performAll_eq_runOn (files : Contents) (s : Resolution) (stack : List (Task ix)) :
    (performAll files s.listing stack).run =
      some ((Resolution.runOn files s stack).map Resolution.listing) := by
  refine Resolution.runOn_rule files
    (P := fun s' stack' =>
      performAll files s.listing stack = performAll files s'.listing stack')
    (Q := fun a => (performAll files s.listing stack).run = some (a.map Resolution.listing))
    ?_ ?_ ?_ ?_ ?_ ?_ s stack rfl
  · intro s h
    rw [h]
    rfl
  · intro s p e stack he h
    rw [h, performAll_cons, perform, Index.process_unreadable he]
    rfl
  · intro s p b stack hb h
    rw [h, performAll_cons, performAll_cons, perform, perform, Index.process_readable hb]
  · intro s stack h
    rw [h, performAll_cons, perform, List.foldlM_nil, pure_bind]
  · intro s r rest stack hv h
    rw [h, performAll_follow_cons, enter_known hv, pure_bind]
  · intro s r rest stack hv h
    rw [h, performAll_follow_cons, enter_new hv, performAll, performAll, List.foldlM_append]
    rfl

end Task

/-- The stack and the recursion agree on both lists, in their order, and on the first failure; in
particular the recursion ends. -/
theorem process_eq_traceOn (ix : Index) (files : Contents) (entry : Path) :
    (ix.process files {} entry).run =
      some ((ix.traceOn files entry).map fun s => ⟨s.visited, s.companions⟩) := by
  have h := Task.performAll_eq_runOn files {} [(.scan entry : Task ix)]
  rw [Task.performAll_cons] at h
  refine Eq.trans ?_ h
  simp [Task.performAll, Task.perform, Resolution.listing]

end CBuild.Source
