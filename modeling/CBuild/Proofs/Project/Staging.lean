import CBuild.Project
import CBuild.Proofs.Machine.Steady
import CBuild.Proofs.Project.Telling
import Mathlib

/-! The processes that a build starts. What a process gives, and what it makes of the machine, may be anything; the
order in which they are started, and whether, is the build's. -/

namespace CBuild

/-- A process that has been started, or was refused. -/
structure Begun where
  invocation : Invocation
  result : Except OsError ExitStatus

/-- What becomes of processes: the result of each, and the machine that it leaves. It may depend on those before. -/
abbrev Behaviour := List Begun → Invocation → Machine → Except OsError ExitStatus × Machine

/-- A machine on which processes do as they are told to, and those that have been started. -/
structure Stage (e : Behaviour) where
  machine : Machine
  begun : List Begun := []

namespace Project

section Parts

variable {μ : Type → Type} [Monad μ] [Host μ] {α : Type}

def compileThen (pr : Project) (c : Manifest) (next : Command → Action μ α) :
    Action μ α := do
  let command ← Command.compose c pr.root
  if !(← (Host.findsProgram c.compiler : μ Bool)) then throw (.compilerMissing c.compiler)
  (Host.log .info ("Building " ++ c.name) : μ Unit)
  (Host.log .debug command.pretty : μ Unit)
  let i := command.invocation pr.root
  let status ← Action.attempt .execute i.program (Host.start i)
  if !status.success then throw (.buildFailed command.display status)
  next command

def before (c : Manifest) (withHooks : Bool) : List String :=
  if withHooks then c.shell.before else []

def after (c : Manifest) (withHooks : Bool) : List String :=
  if withHooks then c.shell.after else []

def finish (pr : Project) (c : Manifest) (withHooks : Bool) (command : Command) :
    Action μ (Command × Path) := do
  let _ ← Hooks.run pr.root (after c withHooks)
  return (command, pr.resolve (Path.ofString c.output))

theorem build_eq [LawfulMonad μ] (pr : Project) (c : Manifest) (withHooks : Bool) :
    (pr.build c withHooks : Action μ _) = (do
      let _ ← Hooks.run pr.root (before c withHooks)
      pr.compileThen c (pr.finish c withHooks)) := by
  cases withHooks with
  | true => rfl
  | false =>
    have hafter (command : Command) : pr.finish c false command =
        (pure (command, pr.resolve (Path.ofString c.output)) : Action μ _) := pure_bind _ _
    have hbefore : pr.build c false = (pr.compileThen c fun command =>
        pure (command, pr.resolve (Path.ofString c.output)) : Action μ _) := rfl
    have hnone : (Hooks.run pr.root (before c false) : Action μ Nat) = pure 0 := rfl
    rw [hbefore, ← funext hafter, hnone, pure_bind]

end Parts

end Project

section Alike

variable {m n : Type → Type} [Monad m] [Monad n] [LawfulMonad m] [LawfulMonad n] [Host m] [Host n]
  {R : (α : Type) → m α → n α → Prop}

theorem alike_start (hR : AskedAlike R) (hstart : ∀ i, R _ (Host.start i) (Host.start i)) (i : Invocation) :
    R _ (Action.attempt .execute i.program (Host.start i) : Action m ExitStatus).run
      (Action.attempt .execute i.program (Host.start i) : Action n ExitStatus).run := by
  refine hR.action_bind (hR.action_lift (hstart i)) fun result => ?_
  cases result with
  | error cause => exact hR.pure _
  | ok status => exact hR.action_pure _

theorem alike_hooks (hR : AskedAlike R) (hlog : ∀ level s, R _ (Host.log level s) (Host.log level s))
    (hstart : ∀ i, R _ (Host.start i) (Host.start i)) (d : Path) (lines : List String) :
    R _ (Hooks.run d lines : Action m Nat).run (Hooks.run d lines : Action n Nat).run := by
  induction lines with
  | nil => exact hR.action_pure 0
  | cons line lines ih =>
    rw [Hooks.run, Hooks.run]
    refine hR.action_bind (hR.action_lift (hlog _ _)) fun _ => ?_
    refine hR.action_bind (alike_start hR hstart _) fun status => ?_
    dsimp only
    split
    · exact hR.action_bind (hR.action_lift (hlog _ _)) fun _ => hR.action_bind ih fun _ => hR.action_pure _
    · exact hR.action_bind ih fun _ => hR.action_pure _

theorem alike_compileThen {α : Type} (hR : AskedAlike R)
    (hlog : ∀ level s, R _ (Host.log level s) (Host.log level s)) (hstart : ∀ i, R _ (Host.start i) (Host.start i))
    (pr : Project) (c : Manifest) {next : Command → Action m α} {next' : Command → Action n α}
    (hnext : ∀ command, R _ (next command).run (next' command).run) :
    R _ (pr.compileThen c next).run (pr.compileThen c next').run := by
  refine hR.action_bind (Command.alike_compose hR hlog c pr.root) fun command => ?_
  refine hR.action_bind (hR.action_lift (hR.findsProgram _)) fun found => ?_
  dsimp only
  split
  · exact hR.action_throw _ _ _
  · refine hR.action_bind (hR.action_lift (hlog _ _)) fun _ => ?_
    refine hR.action_bind (hR.action_lift (hlog _ _)) fun _ => ?_
    refine hR.action_bind (alike_start hR hstart _) fun status => ?_
    split
    · exact hR.action_throw _ _ _
    · exact hnext command

theorem alike_build (hR : AskedAlike R) (hlog : ∀ level s, R _ (Host.log level s) (Host.log level s))
    (hstart : ∀ i, R _ (Host.start i) (Host.start i)) (pr : Project) (c : Manifest) (withHooks : Bool) :
    R _ (pr.build c withHooks : Action m _).run (pr.build c withHooks : Action n _).run := by
  rw [Project.build_eq, Project.build_eq]
  refine hR.action_bind (alike_hooks hR hlog hstart _ _) fun _ => ?_
  refine alike_compileThen hR hlog hstart pr c fun command => ?_
  exact hR.action_bind (alike_hooks hR hlog hstart _ _) fun _ => hR.action_pure _

end Alike

namespace Stage

variable {e : Behaviour} {α β : Type} {w v x : Stage e} {i : Invocation} {is js : List Invocation}

def begin (w : Stage e) (i : Invocation) : Stage e where
  machine := (e w.begun i w.machine).2
  begun := w.begun ++ [⟨i, (e w.begun i w.machine).1⟩]

def through (x : StateM Machine α) : StateM (Stage e) α :=
  modifyGet fun w => ((x.run w.machine).1, { w with machine := (x.run w.machine).2 })

instance : Host (StateM (Stage e)) where
  kind? p := through (Host.kind? p)
  namesIn p := through (Host.namesIn p)
  entriesIn p := through (Host.entriesIn p)
  deepest := through Host.deepest
  readBytes p := through (Host.readBytes p)
  writeBytes p b := through (Host.writeBytes p b)
  makeDirectory p := through (Host.makeDirectory p)
  removeFile p := through (Host.removeFile p)
  isExecutable p := through (Host.isExecutable p)
  programDirectories := through Host.programDirectories
  start i := modifyGet fun w => ((e w.begun i w.machine).1, w.begin i)
  log level s := through (Host.log level s)
  workingDirectory := through Host.workingDirectory
  print s := through (Host.print s)
  tell s := through (Host.tell s)

def perform (w : Stage e) (a : Action (StateM (Stage e)) α) : Except Failure α × Stage e :=
  a.run.run w

/-- The work does to the machine on a stage what it does to the machine alone, and starts nothing. -/
def Forwards (x : StateM (Stage e) α) (y : StateM Machine α) : Prop :=
  ∀ w, x.run w = ((y.run w.machine).1, { w with machine := (y.run w.machine).2 })

theorem forwards_through (x : StateM Machine α) : Forwards (e := e) (through x) x :=
  fun _ => rfl

theorem askedAlike_forwards (e : Behaviour) : AskedAlike fun α => Forwards (e := e) (α := α) where
  pure _ _ := rfl
  bind {α β x y f g} hx hf w := by
    rw [StateT.run_bind, hx w]
    exact hf _ _
  kind p := forwards_through _
  names p := forwards_through _
  deepest := forwards_through _
  executable p := forwards_through _
  directories := forwards_through _

/-- Nothing has been started, and nothing has happened on the machine but that something was told. -/
structure Idle (w v : Stage e) : Prop where
  begun : v.begun = w.begun
  machine : v.machine.untold = w.machine.untold

theorem Idle.refl (w : Stage e) : w.Idle w :=
  ⟨rfl, rfl⟩

theorem Idle.trans (h : w.Idle v) (h' : v.Idle x) : w.Idle x :=
  ⟨h'.begun.trans h.begun, h'.machine.trans h.machine⟩

/-- Processes have been started in their order, each one once, and nothing else has happened. -/
inductive Begins : Stage e → List Invocation → Stage e → Prop
  | idle {w v : Stage e} : w.Idle v → Begins w [] v
  | next {w v x : Stage e} {i : Invocation} {is : List Invocation} :
      w.Idle v → Begins (v.begin i) is x → Begins w (i :: is) x

theorem Idle.begins (h : w.Idle v) (h' : Begins v is x) : Begins w is x := by
  cases h' with
  | idle h' => exact .idle (h.trans h')
  | next h' hrest => exact .next (h.trans h') hrest

theorem Begins.map_invocation (h : Begins w is v) :
    v.begun.map Begun.invocation = w.begun.map Begun.invocation ++ is := by
  induction h with
  | idle h => rw [h.begun, List.append_nil]
  | next h _ ih => rw [ih, begin, List.map_append, h.begun, List.map_singleton, List.append_assoc, List.singleton_append]

section Performing

variable {a : Action (StateM (Stage e)) α} {f : α → Action (StateM (Stage e)) β} {y : α} {c : Failure}

theorem perform_bind_ok (h : w.perform a = (.ok y, v)) : w.perform (a >>= f) = v.perform (f y) := by
  unfold perform at h ⊢
  rw [ExceptT.run_bind, StateT.run_bind, h]
  rfl

theorem perform_bind_error (h : w.perform a = (.error c, v)) : w.perform (a >>= f) = (.error c, v) := by
  unfold perform at h ⊢
  rw [ExceptT.run_bind, StateT.run_bind, h]
  rfl

theorem idle_log (w : Stage e) (level : Level) (s : String) :
    ∃ v, w.perform (liftM (Host.log level s : StateM (Stage e) Unit)) = (.ok (), v) ∧ w.Idle v :=
  ⟨_, rfl, rfl, Machine.untold_log level s w.machine⟩

theorem perform_start (w : Stage e) (i : Invocation) :
    w.perform (Action.attempt .execute i.program (Host.start i)) =
      ((e w.begun i w.machine).1.mapError (.refused .execute i.program), w.begin i) := by
  have hstart : w.perform (liftM (Host.start i : StateM (Stage e) _)) = (.ok (e w.begun i w.machine).1, w.begin i) := rfl
  rw [Action.attempt, perform_bind_ok hstart]
  cases (e w.begun i w.machine).1 with
  | error c => rfl
  | ok status => rfl

end Performing

abbrev shellIn (d : Path) (line : String) : Invocation :=
  (Command.shell line).invocation d

/-- The shell can always be started. -/
def Shells (e : Behaviour) : Prop :=
  ∀ begun d line m, ∃ status, (e begun (shellIn d line) m).1 = .ok status

/-- All of the commands are started, whatever becomes of them. -/
theorem begins_hooks (he : Shells e) (d : Path) (lines : List String) (w : Stage e) :
    ∃ k v, w.perform (Hooks.run d lines) = (.ok k, v) ∧ Begins w (lines.map (shellIn d)) v := by
  induction lines generalizing w with
  | nil => exact ⟨0, w, rfl, .idle (.refl w)⟩
  | cons line lines ih =>
    obtain ⟨v, hlog, hidle⟩ := idle_log w .info ("$ " ++ line)
    obtain ⟨status, hstatus⟩ := he v.begun d line v.machine
    have hstart : v.perform (Action.attempt .execute (shellIn d line).program (Host.start (shellIn d line))) =
        (.ok status, v.begin (shellIn d line)) := by
      rw [perform_start, hstatus]
      rfl
    rw [Hooks.run, perform_bind_ok hlog]
    dsimp only
    rw [perform_bind_ok hstart]
    split
    · obtain ⟨x, hwarn, hquiet⟩ := idle_log (v.begin (shellIn d line)) .warn
        ("`" ++ line ++ "` exited with " ++ status.describe)
      obtain ⟨k, y, hrest, hbegins⟩ := ih x
      rw [perform_bind_ok hwarn, perform_bind_ok hrest]
      exact ⟨_, y, rfl, .next hidle (hquiet.begins hbegins)⟩
    · obtain ⟨k, y, hrest, hbegins⟩ := ih (v.begin (shellIn d line))
      rw [perform_bind_ok hrest]
      exact ⟨_, y, rfl, .next hidle hbegins⟩

end Stage

namespace Project

open Stage

variable {e : Behaviour} {α : Type} {pr : Project} {c : Manifest} {w v : Stage e}

/-- The command can be composed, and its program found, on a machine. -/
def Ready (pr : Project) (c : Manifest) (m : Machine) (command : Command) : Prop :=
  ((Command.compose c pr.root).on m).1 = .ok command ∧ m.answer (Host.findsProgram c.compiler) = true

theorem perform_compose (pr : Project) (c : Manifest) (w : Stage e) :
    ∃ v, w.perform (Command.compose c pr.root) = (((Command.compose c pr.root).on w.machine).1, v) ∧ w.Idle v := by
  have hforwards := Command.alike_compose (askedAlike_forwards e) (fun _ _ => forwards_through _) c pr.root w
  have htell := Command.alike_compose Machine.askedAlike_onlyTell Machine.onlyTell_log c pr.root w.machine w.machine rfl
  exact ⟨_, hforwards, rfl, htell.2.1⟩

theorem perform_findsProgram (name : String) (h : w.Idle v) :
    ∃ x, v.perform (liftM (Host.findsProgram name : StateM (Stage e) Bool)) =
      (.ok (w.machine.answer (Host.findsProgram name)), x) ∧ w.Idle x := by
  have hforwards := (askedAlike_forwards e).findsProgram name v
  obtain ⟨hanswer, hsame, -⟩ := Machine.askedAlike_onlyTell.findsProgram name w.machine v.machine h.machine
  refine ⟨{ v with machine := ((Host.findsProgram name : StateM Machine Bool).run v.machine).2 }, ?_, h.begun, hsame⟩
  have hlift : v.perform (liftM (Host.findsProgram name : StateM (Stage e) Bool)) =
      (.ok ((Host.findsProgram name : StateM (Stage e) Bool).run v).1,
        ((Host.findsProgram name : StateM (Stage e) Bool).run v).2) := rfl
  rw [hlift, hforwards]
  exact congrArg (fun found => (Except.ok found, _)) hanswer

theorem compileThen_unready (next : Command → Action (StateM (Stage e)) α) (h : ¬∃ command, pr.Ready c w.machine command) :
    ∃ f v, w.perform (pr.compileThen c next) = (.error f, v) ∧ w.Idle v := by
  obtain ⟨v, hcompose, hidle⟩ := perform_compose pr c w
  cases hcommand : ((Command.compose c pr.root).on w.machine).1 with
  | error f =>
    rw [hcommand] at hcompose
    exact ⟨f, v, perform_bind_error hcompose, hidle⟩
  | ok command =>
    rw [hcommand] at hcompose
    obtain ⟨x, hfound, hidle'⟩ := perform_findsProgram c.compiler hidle
    have hmissing : w.machine.answer (Host.findsProgram c.compiler) = false := by
      rw [← Bool.not_eq_true]
      exact fun hfound => h ⟨command, hcommand, hfound⟩
    rw [hmissing] at hfound
    refine ⟨.compilerMissing c.compiler, x, ?_, hidle'⟩
    rw [compileThen, perform_bind_ok hcompose, perform_bind_ok hfound]
    rfl

theorem compileThen_ready (next : Command → Action (StateM (Stage e)) α) {command : Command}
    (h : pr.Ready c w.machine command) :
    ∃ v, w.Idle v ∧
      (((e v.begun (command.invocation pr.root) v.machine).1 = .ok (.code 0) →
        w.perform (pr.compileThen c next) = (v.begin (command.invocation pr.root)).perform (next command)) ∧
      ((e v.begun (command.invocation pr.root) v.machine).1 ≠ .ok (.code 0) →
        ∃ f, w.perform (pr.compileThen c next) = (.error f, v.begin (command.invocation pr.root)))) := by
  obtain ⟨hcommand, hfinds⟩ := h
  obtain ⟨v, hcompose, hidle⟩ := perform_compose pr c w
  obtain ⟨x, hfound, hidle'⟩ := perform_findsProgram c.compiler hidle
  obtain ⟨y, hname, hquiet⟩ := idle_log x .info ("Building " ++ c.name)
  obtain ⟨z, hpretty, hquiet'⟩ := idle_log y .debug command.pretty
  have hstart := perform_start z (command.invocation pr.root)
  rw [hcommand] at hcompose
  rw [hfinds] at hfound
  have hsteps : w.perform (pr.compileThen c next) = z.perform (do
      let status ← Action.attempt .execute (command.invocation pr.root).program (Host.start (command.invocation pr.root))
      if !status.success then throw (.buildFailed command.display status)
      next command) := by
    rw [compileThen, perform_bind_ok hcompose, perform_bind_ok hfound]
    dsimp only
    rw [Bool.not_true, if_neg Bool.false_ne_true, perform_bind_ok hname, perform_bind_ok hpretty]
  refine ⟨z, hidle'.trans (hquiet.trans hquiet'), ?_, ?_⟩
  · intro hresult
    rw [hresult] at hstart
    rw [hsteps, perform_bind_ok hstart]
    rfl
  · intro hresult
    rw [hsteps]
    cases hstatus : (e z.begun (command.invocation pr.root) z.machine).1 with
    | error cause =>
      rw [hstatus] at hstart
      exact ⟨_, perform_bind_error hstart⟩
    | ok status =>
      rw [hstatus] at hstart hresult
      have hfailed : status.success = false := decide_eq_false fun hcode => hresult (congrArg Except.ok hcode)
      rw [perform_bind_ok hstart, hfailed]
      exact ⟨_, rfl⟩

theorem finish_begins (he : Shells e) (pr : Project) (c : Manifest) (withHooks : Bool) (command : Command) (w : Stage e) :
    ∃ v, w.perform (pr.finish c withHooks command) = (.ok (command, pr.resolve (Path.ofString c.output)), v) ∧
      Begins w ((after c withHooks).map (shellIn pr.root)) v := by
  obtain ⟨k, v, hrun, hbegins⟩ := begins_hooks he pr.root (after c withHooks) w
  refine ⟨v, ?_, hbegins⟩
  rw [finish, perform_bind_ok hrun]
  rfl

/-- A build starts the commands that come before the compiler, each one once. On what they leave it starts the compiler
once, exactly when the command can be composed and its program found, and then the commands that come after it, exactly
when the compiler has succeeded. That is when the build succeeds, and it gives the command that has run. -/
theorem build_begins (he : Shells e) (pr : Project) (c : Manifest) (withHooks : Bool) (w : Stage e) :
    let built := w.perform (pr.build c withHooks)
    ∃ v, Begins w ((before c withHooks).map (shellIn pr.root)) v ∧
      ((¬∃ command, pr.Ready c v.machine command) → (∃ f, built.1 = .error f) ∧ v.Idle built.2) ∧
      ∀ command, pr.Ready c v.machine command → ∃ x result,
        Begins v [command.invocation pr.root] x ∧ x.begun = v.begun ++ [⟨command.invocation pr.root, result⟩] ∧
        (result ≠ .ok (.code 0) → (∃ f, built.1 = .error f) ∧ x.Idle built.2) ∧
        (result = .ok (.code 0) → built.1 = .ok (command, pr.resolve (Path.ofString c.output)) ∧
          Begins x ((after c withHooks).map (shellIn pr.root)) built.2 ∧
          built.2.begun.map Begun.invocation = w.begun.map Begun.invocation ++
            ((before c withHooks).map (shellIn pr.root) ++ [command.invocation pr.root] ++
              (after c withHooks).map (shellIn pr.root))) := by
  intro built
  obtain ⟨k, v, hrun, hbefore⟩ := begins_hooks he pr.root (before c withHooks) w
  have hbuilt : built = v.perform (pr.compileThen c (pr.finish c withHooks)) := by
    show w.perform _ = _
    rw [build_eq, perform_bind_ok hrun]
  refine ⟨v, hbefore, fun hunready => ?_, fun command hready => ?_⟩
  · obtain ⟨f, x, hfails, hidle⟩ := compileThen_unready (pr.finish c withHooks) hunready
    rw [hbuilt, hfails]
    exact ⟨⟨f, rfl⟩, hidle⟩
  · obtain ⟨x, hidle, hgoes, hstops⟩ := compileThen_ready (pr.finish c withHooks) hready
    have hcompiler : Begins v [command.invocation pr.root] (x.begin (command.invocation pr.root)) :=
      .next hidle (.idle (.refl _))
    refine ⟨x.begin (command.invocation pr.root), (e x.begun (command.invocation pr.root) x.machine).1, hcompiler, ?_,
      fun hresult => ?_, fun hresult => ?_⟩
    · rw [begin, hidle.begun]
    · obtain ⟨f, hfails⟩ := hstops hresult
      rw [hbuilt, hfails]
      exact ⟨⟨f, rfl⟩, .refl _⟩
    · obtain ⟨y, hfinish, hafter⟩ := finish_begins he pr c withHooks command (x.begin (command.invocation pr.root))
      rw [hbuilt, hgoes hresult, hfinish]
      refine ⟨rfl, hafter, ?_⟩
      rw [hafter.map_invocation, hcompiler.map_invocation, hbefore.map_invocation, List.append_assoc, List.append_assoc,
        List.append_assoc]

section Own

def own : Behaviour := fun _ i m =>
  Machine.start i m

def Shows (x : StateM (Stage own) α) (y : StateM Machine α) : Prop :=
  ∀ w, (x.run w).1 = (y.run w.machine).1 ∧ (x.run w).2.machine = (y.run w.machine).2

theorem askedAlike_shows : AskedAlike fun α => Shows (α := α) where
  toLockstep := lockstep_projects Stage.machine
  kind _ _ := ⟨rfl, rfl⟩
  names _ _ := ⟨rfl, rfl⟩
  deepest _ := ⟨rfl, rfl⟩
  executable _ _ := ⟨rfl, rfl⟩
  directories _ := ⟨rfl, rfl⟩

/-- A build on a machine is a build on the stage with the machine's own processes. -/
theorem perform_build_own (pr : Project) (c : Manifest) (withHooks : Bool) (w : Stage own) :
    (w.perform (pr.build c withHooks)).1 = ((pr.build c withHooks).on w.machine).1 ∧
      (w.perform (pr.build c withHooks)).2.machine = ((pr.build c withHooks).on w.machine).2 :=
  alike_build askedAlike_shows (fun _ _ _ => ⟨rfl, rfl⟩) (fun _ _ => ⟨rfl, rfl⟩) pr c withHooks w

end Own

def obedient : Behaviour := fun _ i m =>
  (.ok (.code (if i.args = ["-c", "exit 3"] then 3 else 0)), m)

def stocked : Stage obedient where
  machine := {
    tree := .ofEntries [(["a.c".toList], .file [] false), (["cc".toList], .file [] true)]
    here := [] }

def hooked : Manifest where
  compiler := "/cc"
  output := "a"
  files := ["*.c"]
  shell := ⟨["exit 3", "exit 0"], ["exit 0"], ["exit 1"]⟩

theorem build_begins_stocked : Shells obedient ∧
    (stocked.perform (Project.build ⟨Path.ofString "."⟩ hooked true)).1 =
      .ok (⟨"/cc", ["-o", "a", "a.c"]⟩, Path.ofString "./a") ∧
    (stocked.perform (Project.build ⟨Path.ofString "."⟩ hooked true)).2.begun.map Begun.invocation =
      [shellIn (Path.ofString ".") "exit 3", shellIn (Path.ofString ".") "exit 0",
        ⟨Path.ofString "/cc", ["-o", "a", "a.c"], Path.ofString "."⟩, shellIn (Path.ofString ".") "exit 0"] := by
  have hshells : Shells obedient := fun _ _ _ _ => ⟨_, rfl⟩
  have hbuilt : (stocked.perform (Project.build ⟨Path.ofString "."⟩ hooked true)).1 =
      .ok (⟨"/cc", ["-o", "a", "a.c"]⟩, Path.ofString "./a") := by cbv
  refine ⟨hshells, hbuilt, ?_⟩
  obtain ⟨v, -, hunready, hready⟩ := build_begins hshells ⟨Path.ofString "."⟩ hooked true stocked
  by_cases h : ∃ command, Ready ⟨Path.ofString "."⟩ hooked v.machine command
  · obtain ⟨command, h⟩ := h
    obtain ⟨x, result, -, -, hstops, hgoes⟩ := hready command h
    by_cases hresult : result = .ok (.code 0)
    · obtain ⟨hcommand, -, hbegun⟩ := hgoes hresult
      rw [hbuilt] at hcommand
      cases hcommand
      exact hbegun
    · obtain ⟨⟨f, hfails⟩, -⟩ := hstops hresult
      rw [hbuilt] at hfails
      cases hfails
  · obtain ⟨⟨f, hfails⟩, -⟩ := hunready h
    rw [hbuilt] at hfails
    cases hfails

end Project

end CBuild
