import CBuild.Proofs.Machine.Executing
import CBuild.Proofs.Project.Staging

/-! What a project starts. The path of a program is checked from the directory that the build helper works in, and
followed once more from the root of the project, so the file is the same where the two begin alike. -/

namespace CBuild

namespace Stage

variable {e : Behaviour} {w v : Stage e} {i : Invocation}

theorem Idle.here (h : w.Idle v) : v.machine.here = w.machine.here :=
  (congrArg (·.here) h.machine : v.machine.untold.here = w.machine.untold.here)

theorem Idle.tree (h : w.Idle v) : v.machine.tree = w.machine.tree :=
  (congrArg (·.tree) h.machine : v.machine.untold.tree = w.machine.untold.tree)

theorem Idle.anchored (h : w.Idle v) (ha : w.machine.Anchored i) : v.machine.Anchored i := by
  rw [Machine.Anchored, h.here, h.tree]
  exact ha

theorem Idle.enters {d : Path} (h : w.Idle v) (hd : w.machine.Enters d) : v.machine.Enters d := by
  rw [Machine.Enters, h.here, h.tree]
  exact hd

end Stage

namespace Project

open Stage FileTree

variable {e : Behaviour}

theorem perform_exists (w : Stage e) (p : Path) : w.perform (liftM (Host.exists? p : StateM (Stage e) Bool)) =
    (.ok (w.machine.tree.find w.machine.here p).toOption.isSome, w) := by
  have hkind : w.perform (liftM (Host.exists? p : StateM (Stage e) Bool)) =
    (.ok ((w.machine.tree.find w.machine.here p).toOption.map fun x => Machine.kindOf x.1 x.2).isSome, w) := rfl
  rw [hkind, Option.isSome_map]

theorem perform_run (pr : Project) (c : Manifest) (args : List String) (w : Stage e) :
    let i : Invocation := ⟨pr.resolve (Path.ofString c.output), args, pr.root⟩
    ((∀ found, w.machine.tree.find w.machine.here i.program ≠ .ok found) →
      w.perform (pr.run c args) = (.error (.notBuilt c.output), w)) ∧
    ∀ found, w.machine.tree.find w.machine.here i.program = .ok found → ∃ x, w.Idle x ∧
      w.perform (pr.run c args) = ((e x.begun i x.machine).1.mapError (.refused .execute i.program), x.begin i) := by
  intro i
  have hexists := perform_exists w i.program
  constructor
  · intro hnone
    cases hfind : w.machine.tree.find w.machine.here i.program with
    | ok found => exact absurd hfind (hnone found)
    | error cause =>
      rw [hfind] at hexists
      rw [run, perform_bind_ok hexists]
      rfl
  · intro found hfind
    obtain ⟨x, hlog, hidle⟩ := idle_log w .info ("Running " ++ c.name)
    have hthere : w.perform (liftM (Host.exists? i.program : StateM (Stage e) Bool)) = (.ok true, w) := by
      rw [hexists, hfind]
      rfl
    refine ⟨x, hidle, ?_⟩
    rw [run, perform_bind_ok hthere]
    dsimp only
    rw [Bool.not_true, if_neg Bool.false_ne_true, perform_bind_ok hlog]
    exact perform_start x i

theorem program_of_compose {root : Path} {m : Machine} {command : Command}
    (h : ((Command.compose c root).on m).1 = .ok command) : command.program = c.compiler := by
  have hon : (Command.compose c root).on m = (.ok command, ((Command.compose c root).on m).2) := Prod.ext h rfl
  unfold Command.compose at hon
  split at hon
  · cases hon
  · obtain ⟨sources, n, -, hrest⟩ := Action.ok_of_on_bind hon
    dsimp only at hrest
    split at hrest
    · cases hrest
    · cases hrest
      rfl

theorem slash_of_anchored {m : Machine} {pr : Project} {p : Path} {args : List String}
    (ha : m.Anchored ⟨pr.resolve p, args, pr.root⟩) : '/' ∈ (pr.resolve p).chars := by
  obtain habsolute | ⟨e, he⟩ := ha
  · exact List.mem_of_head? (of_decide_eq_true habsolute)
  · exact Path.slash_mem_div (spelled_of_place (find_eq_ok_iff.1 he).1).written p

/-- A project runs the program whose path leads somewhere, and builds with the compiler that is found. The system
executes the same file when its path begins where the build helper works. -/
theorem executes_checked (pr : Project) (c : Manifest) (w : Stage e) :
    (∀ args, let i : Invocation := ⟨pr.resolve (Path.ofString c.output), args, pr.root⟩
      ((∀ found, w.machine.tree.find w.machine.here i.program ≠ .ok found) →
        w.perform (pr.run c args) = (.error (.notBuilt c.output), w)) ∧
      ∀ found, w.machine.tree.find w.machine.here i.program = .ok found → ∃ x, w.Idle x ∧
        w.perform (pr.run c args) = ((e x.begun i x.machine).1.mapError (.refused .execute i.program), x.begin i) ∧
        (x.machine.Anchored i → ∀ y, x.machine.executed i = .ok y ↔
          y = found ∧ (∃ b, found.2 = .file b true) ∧ x.machine.Enters pr.root)) ∧
    ('/' ∈ c.compiler.toList → ∀ withHooks k v, w.perform (Hooks.run pr.root (before c withHooks)) = (.ok k, v) →
      let built := w.perform (pr.build c withHooks)
      (v.machine.answer (Host.findsProgram c.compiler) = false → (∃ f, built.1 = .error f) ∧ v.Idle built.2) ∧
      ∀ command, pr.Ready c v.machine command → ∃ found x,
        let i := command.invocation pr.root
        v.machine.tree.find v.machine.here (Host.plain (Path.ofString c.compiler)) = .ok found ∧
        (∃ b, found.2 = .file b true) ∧ v.Idle x ∧
        ((e x.begun i x.machine).1 = .ok (.code 0) →
          built = (x.begin i).perform (pr.finish c withHooks command)) ∧
        ((e x.begun i x.machine).1 ≠ .ok (.code 0) → ∃ f, built = (.error f, x.begin i)) ∧
        (x.machine.Anchored i → ∀ y, x.machine.executed i = .ok y ↔
          y = found ∧ Spelled i.program ∧ ¬i.program.EndsIdle ∧ x.machine.Enters pr.root)) := by
  refine ⟨fun args => ?_, fun hslash withHooks k v hhooks => ?_⟩
  · obtain ⟨hnone, hsome⟩ := perform_run pr c args w
    refine ⟨hnone, fun found hfound => ?_⟩
    obtain ⟨x, hidle, hrun⟩ := hsome found hfound
    refine ⟨x, hidle, hrun, fun ha y => ?_⟩
    rw [ha.executed_eq_ok_iff (slash_of_anchored ha), hidle.tree, hidle.here, hfound, Except.ok.injEq]
    constructor
    · rintro ⟨henters, rfl, hfile⟩
      exact ⟨rfl, hfile, henters⟩
    · rintro ⟨rfl, hfile, henters⟩
      exact ⟨henters, rfl, hfile⟩
  · intro built
    have hbuilt : built = v.perform (pr.compileThen c (pr.finish c withHooks)) := by
      change w.perform _ = _
      rw [build_eq, perform_bind_ok hhooks]
    constructor
    · intro hmissing
      have hunready : ¬∃ command, pr.Ready c v.machine command := by
        rintro ⟨command, -, hfinds⟩
        rw [hmissing] at hfinds
        cases hfinds
      obtain ⟨f, x, hfails, hidle⟩ := compileThen_unready (pr.finish c withHooks) hunready
      rw [hbuilt, hfails]
      exact ⟨⟨f, rfl⟩, hidle⟩
    · intro command hready
      obtain ⟨x, hidle, hgoes, hstops⟩ := compileThen_ready (pr.finish c withHooks) hready
      obtain ⟨l, b, hfound⟩ := Machine.exists_of_findsProgram hslash hready.2
      have hprogram : (command.invocation pr.root).program = Path.ofString c.compiler :=
        congrArg Path.ofString (program_of_compose hready.1)
      refine ⟨(l, .file b true), x, hfound, ⟨b, rfl⟩, hidle, ?_, ?_, fun ha y => ?_⟩
      · rw [hbuilt]
        exact hgoes
      · rw [hbuilt]
        exact hstops
      · have hslash' : '/' ∈ (command.invocation pr.root).program.chars := hprogram ▸ hslash
        have hplain : x.machine.tree.find x.machine.here (Host.plain (command.invocation pr.root).program) =
            .ok (l, .file b true) := by
          rw [hidle.tree, hidle.here, hprogram, hfound]
        rw [ha.executed_eq_ok_iff hslash']
        constructor
        · rintro ⟨henters, hy, -⟩
          obtain ⟨rfl, hs, hend⟩ := (find_of_plain (ha.isDirectory henters) hplain y).1 hy
          exact ⟨rfl, hs, hend, henters⟩
        · rintro ⟨rfl, hs, hend, henters⟩
          exact ⟨henters, (find_of_plain (ha.isDirectory henters) hplain _).2 ⟨rfl, hs, hend⟩, b, rfl⟩

def beside : Manifest :=
  { hooked with compiler := "./cc", output := "cc" }

theorem executes_checked_beside :
    (∃ x : Stage obedient, (stocked.perform (Project.run ⟨Path.ofString "."⟩ beside [])).2 =
        x.begin ⟨Path.ofString "./cc", [], Path.ofString "."⟩ ∧
      x.machine.executed ⟨Path.ofString "./cc", [], Path.ofString "."⟩ = .ok (["cc".toList], .file [] true)) ∧
    ∃ x : Stage obedient, stocked.Idle x ∧
      x.machine.executed ⟨Path.ofString "./cc", ["-o", "cc", "a.c"], Path.ofString "."⟩ =
        .ok (["cc".toList], .file [] true) := by
  have hanchored (args : List String) : stocked.machine.Anchored ⟨Path.ofString "./cc", args, Path.ofString "."⟩ :=
    .inr ⟨.directory, by cbv⟩
  have henters : stocked.machine.Enters (Path.ofString ".") := ⟨[], by cbv⟩
  have hfind : stocked.machine.tree.find stocked.machine.here (Path.ofString "./cc") =
      .ok (["cc".toList], .file [] true) := by cbv
  have hready : Ready ⟨Path.ofString "."⟩ beside stocked.machine ⟨"./cc", ["-o", "cc", "a.c"]⟩ := ⟨by cbv, by cbv⟩
  obtain ⟨hrun, hbuild⟩ := executes_checked ⟨Path.ofString "."⟩ beside stocked
  constructor
  · obtain ⟨x, hidle, hbegun, hexecuted⟩ := (hrun []).2 _ hfind
    refine ⟨x, congrArg Prod.snd hbegun, ?_⟩
    exact (hexecuted (hidle.anchored (hanchored [])) _).2 ⟨rfl, ⟨[], rfl⟩, hidle.enters henters⟩
  · obtain ⟨found, x, hfound, -, hidle, -, -, hexecuted⟩ := (hbuild (by decide) false 0 stocked rfl).2 _ hready
    have hplain : stocked.machine.tree.find stocked.machine.here (Host.plain (Path.ofString "./cc")) =
        .ok (["cc".toList], .file [] true) := by cbv
    have hcc : found = (["cc".toList], .file [] true) := Except.ok.inj (hfound.symm.trans hplain)
    refine ⟨x, hidle, (hexecuted (hidle.anchored (hanchored _)) _).2 ⟨hcc.symm, ?_, ?_, hidle.enters henters⟩⟩
    · exact ⟨by decide, by decide, by decide⟩
    · exact fun hend => absurd (hend "cc".toList (by decide)) (by decide)

def nested : Machine where
  tree := .ofEntries [(["proj".toList], .directory), (["proj".toList, "demo".toList], .file [1] true),
    (["proj".toList, "proj".toList], .directory), (["proj".toList, "proj".toList, "demo".toList], .file [2] true)]
  here := []

/-- From a root that is somewhere else, the way to the root is gone twice. -/
theorem executed_elsewhere :
    let i : Invocation := ⟨Project.resolve ⟨Path.ofString "proj"⟩ (Path.ofString "demo"), [], Path.ofString "proj"⟩
    nested.tree.find nested.here i.program = .ok (["proj".toList, "demo".toList], .file [1] true) ∧
      nested.executed i = .ok (["proj".toList, "proj".toList, "demo".toList], .file [2] true) :=
  ⟨by cbv, by cbv⟩

end Project

end CBuild
