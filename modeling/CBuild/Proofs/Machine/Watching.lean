import CBuild.Proofs.Machine.Asking
import CBuild.Proofs.Machine.Lockstep
import CBuild.Proofs.Source.Following

/-! Work that is watched: the paths of the files that it reads are noted. Watching changes nothing of what the work
does, and an answer that depends on the files alone depends on those that have been read. -/

namespace CBuild

open Source

section Traversing

variable {m n : Type → Type} [Monad m] [Monad n] {R : (α : Type) → m α → n α → Prop}

theorem Lockstep.run (hR : Lockstep R) {ix : Index} {read : Path → m (Except OsError Bytes)} {note : Note → m Unit}
    {read' : Path → n (Except OsError Bytes)} {note' : Note → n Unit} (hread : ∀ p, R _ (read p) (read' p))
    (hnote : ∀ x, R _ (note x) (note' x)) (s : Resolution) (stack : List (Task ix)) :
    R _ (Resolution.run read note s stack) (Resolution.run read' note' s stack) := by
  fun_induction Resolution.run read note s stack with
  | case1 s =>
    conv => enter [3]; rw [Resolution.run]
    exact hR.pure _
  | case2 s p stack ih =>
    conv => enter [3]; rw [Resolution.run]
    refine hR.bind (hread p) fun content => ?_
    cases content with
    | error e => exact hR.pure _
    | ok b => exact hR.bind (hR.forM fun _ => hnote _) fun _ => ih b
  | case3 s stack ih =>
    conv => enter [3]; rw [Resolution.run]
    exact ih
  | case4 s r rest stack h ih =>
    conv => enter [3]; rw [Resolution.run, dif_pos h]
    exact ih
  | case5 s r rest stack h c hc hknown ih =>
    conv => enter [3]; rw [Resolution.run, dif_neg h, hc]
    dsimp only
    rw [if_pos hknown]
    exact ih
  | case6 s r rest stack h c hc hnew ih =>
    conv => enter [3]; rw [Resolution.run, dif_neg h, hc]
    dsimp only
    rw [if_neg hnew]
    exact hR.bind (hnote _) fun _ => ih
  | case7 s r rest stack h hc ih =>
    conv => enter [3]; rw [Resolution.run, dif_neg h, hc]
    exact ih

end Traversing

def Machine.contents (m : Machine) : Contents :=
  fun p => m.tree.readFile m.here p

theorem Machine.contents_eq {m n : Machine} (htree : n.tree = m.tree) (hhere : n.here = m.here) :
    n.contents = m.contents := by
  funext p
  rw [contents, contents, htree, hhere]

/-- A machine, and the paths of the files that have been read on it. -/
structure Watched where
  machine : Machine
  reads : List Path := []

namespace Watched

variable {α β : Type}

def through (x : StateM Machine α) : StateM Watched α :=
  modifyGet fun w => ((x.run w.machine).1, { w with machine := (x.run w.machine).2 })

instance : Host (StateM Watched) where
  kind? p := through (Host.kind? p)
  namesIn p := through (Host.namesIn p)
  entriesIn p := through (Host.entriesIn p)
  deepest := through Host.deepest
  readBytes p := do
    modify fun w => { w with reads := w.reads ++ [p] }
    through (Host.readBytes p)
  writeBytes p b := through (Host.writeBytes p b)
  makeDirectory p := through (Host.makeDirectory p)
  removeFile p := through (Host.removeFile p)
  isExecutable p := through (Host.isExecutable p)
  programDirectories := through Host.programDirectories
  start i := through (Host.start i)
  log level s := through (Host.log level s)
  workingDirectory := through Host.workingDirectory
  print s := through (Host.print s)
  tell s := through (Host.tell s)

/-- The paths of the files that some work reads on a machine. -/
def readsOf (a : Action (StateM Watched) α) (m : Machine) : List Path :=
  (a.run.run { machine := m }).2.reads

theorem run_bind_ok {a : Action (StateM Watched) α} {f : α → Action (StateM Watched) β} {x : α} {w : Watched}
    (h : (a.run.run w).1 = .ok x) : (a >>= f).run.run w = (f x).run.run (a.run.run w).2 := by
  rw [ExceptT.run_bind, StateT.run_bind]
  rcases hr : a.run.run w with ⟨r, k⟩
  rw [hr] at h
  cases h
  rfl

section Mirroring

def Mirrors (x : StateM Watched α) (y : StateM Machine α) : Prop :=
  ∀ w, (x.run w).1 = (y.run w.machine).1 ∧ (x.run w).2.machine = (y.run w.machine).2

theorem mirrors_through (x : StateM Machine α) : Mirrors (through x) x :=
  fun _ => ⟨rfl, rfl⟩

theorem mirrors_readBytes (p : Path) : Mirrors (Host.readBytes p) (Host.readBytes p) :=
  fun _ => ⟨rfl, rfl⟩

theorem lockstep_mirrors : Lockstep fun α => Mirrors (α := α) :=
  lockstep_projects machine

theorem Mirrors.lift {x : StateM Watched α} {y : StateM Machine α} (h : Mirrors x y) :
    Mirrors (liftM x : Action (StateM Watched) α).run (liftM y : Action (StateM Machine) α).run :=
  lockstep_mirrors.bind h fun _ => lockstep_mirrors.pure _

theorem mirrors_isDirectory (p : Path) : Mirrors (Host.isDirectory p) (Host.isDirectory p) :=
  lockstep_mirrors.bind (mirrors_through _) fun _ => lockstep_mirrors.pure _

theorem mirrors_isFile (p : Path) : Mirrors (Host.isFile p) (Host.isFile p) :=
  lockstep_mirrors.bind (mirrors_through _) fun _ => lockstep_mirrors.pure _

theorem mirrors_filesBelow (root : Path) (depth : Nat) (relative : List (List Char)) :
    Mirrors (Index.filesBelow root depth relative) (Index.filesBelow root depth relative) := by
  induction depth generalizing relative with
  | zero => exact lockstep_mirrors.pure _
  | succ depth ih =>
    rw [Index.filesBelow, Index.filesBelow]
    refine lockstep_mirrors.bind (mirrors_through _) fun entries => ?_
    cases entries with
    | error e => exact lockstep_mirrors.pure _
    | ok entries =>
      refine lockstep_mirrors.bind (lockstep_mirrors.mapM fun entry => ?_) fun _ => lockstep_mirrors.pure _
      obtain ⟨n, kind⟩ := entry
      cases kind with
      | file => exact lockstep_mirrors.pure _
      | directory => exact ih _
      | link =>
        refine lockstep_mirrors.bind (mirrors_isFile _) fun leads => ?_
        cases leads with
        | false => exact lockstep_mirrors.pure _
        | true => exact lockstep_mirrors.pure _
      | other => exact lockstep_mirrors.pure _

theorem mirrors_build (root : Path) :
    Mirrors (Index.build root : Action (StateM Watched) Index).run
      (Index.build root : Action (StateM Machine) Index).run := by
  refine lockstep_mirrors.action_bind (mirrors_isDirectory root).lift fun directory => ?_
  cases directory with
  | false => exact lockstep_mirrors.pure _
  | true =>
    refine lockstep_mirrors.action_bind (mirrors_through _).lift fun depth => ?_
    refine lockstep_mirrors.action_bind (mirrors_filesBelow root _ _).lift fun files => ?_
    exact lockstep_mirrors.action_bind (mirrors_through _).lift fun _ => lockstep_mirrors.pure _

theorem mirrors_follow (ix : Index) (entry : Path) :
    Mirrors (ix.follow entry : Action (StateM Watched) Resolution).run
      (ix.follow entry : Action (StateM Machine) Resolution).run := by
  have htrace := lockstep_mirrors.run mirrors_readBytes
    (fun x => mirrors_through (Host.log .debug x.message)) {} [(.scan entry : Task ix)]
  refine lockstep_mirrors.action_bind (Mirrors.lift htrace) fun found => ?_
  cases found with
  | error e => exact lockstep_mirrors.pure _
  | ok s => exact lockstep_mirrors.pure _

theorem mirrors_discover (root entry : Path) :
    Mirrors (discover root entry : Action (StateM Watched) Discovery).run
      (discover root entry : Action (StateM Machine) Discovery).run := by
  refine lockstep_mirrors.action_bind (mirrors_build root) fun ix => ?_
  refine lockstep_mirrors.action_bind (mirrors_follow ix _) fun found => ?_
  exact lockstep_mirrors.action_bind (mirrors_through _).lift fun _ => lockstep_mirrors.pure _

end Mirroring

section Telling

variable {files : Contents}

/-- The work leaves the files as they are, and when they have what `files` has wherever it reads, `files` tells what
it gives. -/
def Tells (files : Contents) (x : StateM Watched α) (y : Id α) : Prop :=
  ∀ w, (x.run w).2.machine.contents = w.machine.contents ∧ w.reads ⊆ (x.run w).2.reads ∧
    ((∀ p ∈ (x.run w).2.reads, files p = w.machine.contents p) → (x.run w).1 = y.run)

theorem lockstep_tells (files : Contents) : Lockstep fun α => Tells (α := α) files where
  pure _ _ := ⟨rfl, List.Subset.refl _, fun _ => rfl⟩
  bind {α β x y f g} hx hf w := by
    obtain ⟨hsame, hreads, htells⟩ := hx w
    obtain ⟨hsame', hreads', htells'⟩ := hf (x.run w).1 (x.run w).2
    refine ⟨hsame'.trans hsame, fun p hp => hreads' (hreads hp), fun h => ?_⟩
    have hfirst : (x.run w).1 = y.run := htells fun p hp => h p (hreads' hp)
    have hsecond := htells' (hsame ▸ h)
    change ((f (x.run w).1).run (x.run w).2).1 = (g y.run).run
    rw [hsecond, hfirst]

theorem tells_readBytes (p : Path) : Tells files (Host.readBytes p) (pure (files p)) := by
  intro w
  refine ⟨rfl, List.subset_append_left _ _, fun h => ?_⟩
  have hp : files p = w.machine.contents p := h p (List.mem_append_right _ List.mem_cons_self)
  exact hp.symm

theorem tells_log (level : Level) (s : String) : Tells files (Host.log level s) (pure ()) := by
  intro w
  refine ⟨?_, List.Subset.refl _, fun _ => rfl⟩
  exact Machine.contents_eq (Machine.tree_log level s w.machine) (Machine.here_log level s w.machine)

theorem Tells.lift {x : StateM Watched α} {a : α} (h : Tells files x (pure a)) :
    Tells files (liftM x : Action (StateM Watched) α).run (pure (.ok a)) :=
  (lockstep_tells files).bind h fun a => (lockstep_tells files).pure (Except.ok a)

theorem Tells.action_bind {a : Action (StateM Watched) α} {f : α → Action (StateM Watched) β} {r : Except Failure α}
    {k : α → Except Failure β} (ha : Tells files a.run (pure r)) (hf : ∀ x, Tells files (f x).run (pure (k x))) :
    Tells files (a >>= f).run (pure (r >>= k)) := by
  rw [ExceptT.run_bind]
  refine (lockstep_tells files).bind (y := pure r) (g := fun r => pure (r >>= k)) ha fun r => ?_
  cases r with
  | error e => exact (lockstep_tells files).pure _
  | ok x => exact hf x

/-- The traversal tells of the files that it reads, and of no others. -/
theorem tells_trace (ix : Index) (note : Note → String) (entry : Path) :
    Tells files (ix.trace Host.readBytes (fun x => Host.log .debug (note x)) entry) (pure (ix.traceOn files entry)) :=
  (lockstep_tells files).run tells_readBytes (fun x => tells_log .debug (note x)) {} [.scan entry]

end Telling

end Watched
end CBuild
