import CBuild.Proofs.Machine.Idling
import CBuild.Proofs.Machine.Steady
import Mathlib.Tactic.ByContra

/-! Which file the system executes. The path of a program is followed from the directory that its process starts in; a
program is found from the directory that the machine works in. -/

namespace CBuild

namespace Machine

open FileTree (Spelled startOf)

variable {m : Machine} {i : Invocation} {p : Path} {name : String} {found y : Location × TreeEntry} {d l : Location}
  {b : Bytes} {x : Bool}

/-- The file that the system executes for an invocation: what the path of the program leads to from the directory that
the process starts in. -/
def executed (m : Machine) (i : Invocation) : Except OsError (Location × TreeEntry) := do
  match ← m.tree.find m.here i.directory with
  | (d, .directory) =>
    let path ← { m with here := d }.locate (programDirectories.map fun l => (pathOf l).chars) i.program.chars
    m.tree.find d path
  | _ => throw .notADirectory

/-- The path of the program begins where the machine works: it is absolute, or the process starts there. -/
def Anchored (m : Machine) (i : Invocation) : Prop :=
  i.program.isAbsolute = true ∨ ∃ e, m.tree.find m.here i.directory = .ok (m.here, e)

theorem executableAt_eq_ok_iff : m.executableAt p = .ok b ↔ ∃ l, m.tree.find m.here p = .ok (l, .file b true) := by
  unfold State.executableAt
  cases h : m.tree.find m.here p with
  | error cause => simp [bind, Except.bind]
  | ok found =>
    obtain ⟨l, e⟩ := found
    cases e with
    | file c x => cases x <;> simp [bind, Except.bind, pure, Except.pure, throw, throwThe, MonadExceptOf.throw]
    | link target => simp [bind, Except.bind, throw, throwThe, MonadExceptOf.throw]
    | directory => simp [bind, Except.bind, throw, throwThe, MonadExceptOf.throw]

/-- A program with a slash is executed when its path leads to an executable file from the directory of the process. -/
theorem executed_eq_ok_iff (h : '/' ∈ i.program.chars) : m.executed i = .ok y ↔
    ∃ d, m.tree.find m.here i.directory = .ok (d, .directory) ∧ m.tree.find d i.program = .ok y ∧
      ∃ b, y.2 = .file b true := by
  have hlocate (d : Location) : { m with here := d }.locate (programDirectories.map fun l => (pathOf l).chars)
      i.program.chars = ({ m with here := d }.executableAt i.program).map fun _ => i.program :=
    if_pos (List.contains_iff_mem.2 h)
  unfold executed
  cases hroot : m.tree.find m.here i.directory with
  | error cause => simp [bind, Except.bind]
  | ok place =>
    obtain ⟨d, e⟩ := place
    cases e with
    | file c x => simp [bind, Except.bind, throw, throwThe, MonadExceptOf.throw]
    | link target => simp [bind, Except.bind, throw, throwThe, MonadExceptOf.throw]
    | directory =>
      have hfound (b : Bytes) := executableAt_eq_ok_iff (m := { m with here := d }) (p := i.program) (b := b)
      cases hbytes : { m with here := d }.executableAt i.program with
      | error cause =>
        refine iff_of_false ?_ ?_
        · simp [bind, Except.bind, hlocate, hbytes, Except.map]
        · rintro ⟨d', hd, hy, b, hb⟩
          cases hd
          obtain ⟨l, e⟩ := y
          cases hb
          have hok := (hfound b).2 ⟨l, hy⟩
          rw [hbytes] at hok
          cases hok
      | ok b =>
        obtain ⟨l, hl⟩ := (hfound b).1 hbytes
        dsimp only at hl
        simp only [bind, Except.bind, hlocate, hbytes, Except.map]
        rw [hl, Except.ok.injEq]
        constructor
        · rintro rfl
          exact ⟨d, rfl, hl, b, rfl⟩
        · rintro ⟨d', hd, hy, -⟩
          cases hd
          rw [hl] at hy
          exact Except.ok.inj hy

theorem exists_find_of_load {depth : Nat} {args : List (List Char)} {r : String × List (List Char)}
    (h : m.load depth p args = .ok r) : ∃ l b, m.tree.find m.here p = .ok (l, .file b true) := by
  cases depth with
  | zero => cases h
  | succ depth =>
    cases hbytes : m.executableAt p with
    | error cause =>
      rw [State.load, hbytes] at h
      cases h
    | ok b =>
      obtain ⟨l, hl⟩ := executableAt_eq_ok_iff.1 hbytes
      exact ⟨l, b, hl⟩

/-- No process starts but that of the file executed. -/
theorem exists_executed_of_start {status : ExitStatus} (h : (m.start i).1 = .ok status) :
    ∃ l b, m.executed i = .ok (l, .file b true) := by
  unfold start at h
  split at h
  · cases h
  · split at h
    next d hroot =>
      dsimp only at h
      split at h
      next => cases h
      next program args hloaded =>
        cases hlocate : { m with here := d }.locate (programDirectories.map fun l => (pathOf l).chars)
            i.program.chars with
        | error cause =>
          rw [hlocate] at hloaded
          cases hloaded
        | ok path =>
          rw [hlocate] at hloaded
          obtain ⟨l, b, hl⟩ := exists_find_of_load (m := { m with here := d }) hloaded
          refine ⟨l, b, ?_⟩
          unfold executed
          simp only [hroot, bind, Except.bind, hlocate]
          exact hl
    next => cases h
    next => cases h

theorem isExecutable_iff : m.isExecutable p = true ↔ ∃ l b, m.tree.find m.here p = .ok (l, .file b true) := by
  unfold isExecutable
  split
  next l b x hfind =>
    rw [hfind]
    constructor
    · rintro rfl
      exact ⟨l, b, rfl⟩
    · rintro ⟨l', b', he⟩
      cases he
      rfl
  next hother => exact iff_of_false nofun fun ⟨l, b, hfind⟩ => hother l b true hfind

theorem exists_of_anyM {α : Type} {xs : List α} {f : α → StateM Machine Bool} (hf : ∀ a, Steady (f a))
    (h : m.answer (xs.anyM f) = true) : ∃ a ∈ xs, m.answer (f a) = true := by
  induction xs with
  | nil => cases h
  | cons a xs ih =>
    rw [List.anyM, answer_bind (hf a)] at h
    cases ha : m.answer (f a) with
    | true => exact ⟨a, List.mem_cons_self, ha⟩
    | false =>
      rw [ha] at h
      obtain ⟨b, hb, hfound⟩ := ih h
      exact ⟨b, List.mem_cons_of_mem _ hb, hfound⟩

theorem not_isExecutable_of_endsIdle {d : Path} (hd : d.isAbsolute = true) (hend : p.EndsIdle) :
    m.isExecutable (d / p) = false := by
  rw [← Bool.not_eq_true, isExecutable_iff]
  rintro ⟨l, b, hfind⟩
  have hwritten : d.chars ≠ [] := by
    intro hnil
    rw [Path.isAbsolute, hnil] at hd
    cases hd
  have hsame : (d / p).EndsIdle ∧ (d / p).isAbsolute = true := by
    cases hp : p.isAbsolute with
    | true =>
      have hself : d / p = p := if_pos hp
      rw [hself]
      exact ⟨hend, hp⟩
    | false =>
      obtain ⟨pre, idle, -, -, -, hdiv⟩ := Path.parts_div hwritten
      rw [Path.isAbsolute_div hwritten hp, Path.EndsIdle, hdiv p hp,
        List.getLast?_append_of_ne_nil _ p.parts_ne_nil]
      exact ⟨hend, hd⟩
  have hstart : m.tree.IsDirectory (startOf m.here (d / p)) := by
    rw [startOf, if_pos hsame.2]
    exact FileTree.isDirectory_nil
  cases FileTree.find_of_endsIdle hsame.1 hstart hfind

theorem exists_of_findsProgram (hslash : '/' ∈ name.toList) (h : m.answer (Host.findsProgram name) = true) :
    ∃ l b, m.tree.find m.here (Host.plain (Path.ofString name)) = .ok (l, .file b true) := by
  have hname : name ≠ "" := by
    rintro rfl
    cases hslash
  unfold Host.findsProgram at h
  rw [if_neg hname] at h
  dsimp only at h
  split at h
  next => exact isExecutable_iff.1 h
  next hone =>
    have hany : m.answer ((programDirectories.map pathOf).anyM fun d => Host.isExecutable (d / Path.ofString name)) =
        true := h
    obtain ⟨d, hd, hfound⟩ := exists_of_anyM (fun _ _ => rfl) hany
    obtain ⟨l, -, rfl⟩ := List.mem_map.1 hd
    have hend : (Path.ofString name).EndsIdle := by
      by_contra hend
      exact hone (Path.one_lt_length_components hslash hend)
    have hnone : m.isExecutable (pathOf l / Path.ofString name) = false := not_isExecutable_of_endsIdle rfl hend
    exact absurd hfound (by rw [Bool.not_eq_true]; exact hnone)

def Enters (m : Machine) (directory : Path) : Prop :=
  ∃ d, m.tree.find m.here directory = .ok (d, .directory)

theorem find_of_isAbsolute {t : FileTree} (h : p.isAbsolute = true) (here there : Location) :
    t.find here p = t.find there p := by
  unfold FileTree.find FileTree.place
  rw [h, if_pos rfl, if_pos rfl]

theorem Anchored.executed_eq_ok_iff (ha : m.Anchored i) (hslash : '/' ∈ i.program.chars) : m.executed i = .ok y ↔
    m.Enters i.directory ∧ m.tree.find m.here i.program = .ok y ∧ ∃ b, y.2 = .file b true := by
  have hfind {d : Location} (hd : m.tree.find m.here i.directory = .ok (d, .directory)) :
      m.tree.find d i.program = m.tree.find m.here i.program := by
    obtain habsolute | ⟨e, he⟩ := ha
    · exact find_of_isAbsolute habsolute d m.here
    · rw [hd] at he
      cases he
      rfl
  rw [Machine.executed_eq_ok_iff hslash]
  constructor
  · rintro ⟨d, hd, hy, hfile⟩
    exact ⟨⟨d, hd⟩, hfind hd ▸ hy, hfile⟩
  · rintro ⟨⟨d, hd⟩, hy, hfile⟩
    exact ⟨d, hd, (hfind hd).symm ▸ hy, hfile⟩

theorem Anchored.isDirectory (ha : m.Anchored i) (henters : m.Enters i.directory) :
    m.tree.IsDirectory (startOf m.here i.program) := by
  unfold startOf
  split
  next => exact FileTree.isDirectory_nil
  next hrelative =>
    obtain ⟨e, he⟩ := ha.resolve_left hrelative
    obtain ⟨d, hd⟩ := henters
    rw [hd] at he
    cases he
    exact (FileTree.find_eq_ok_iff.1 hd).2

end Machine

end CBuild
