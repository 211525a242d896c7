import CBuild.Proofs.Machine.Making

/-! Work that leaves a machine as it is. Each of its steps is told by what the machine answers. -/

namespace CBuild

namespace Machine

variable {α β : Type} {x : StateM Machine α} {f : α → StateM Machine β} {g : α → β} {m : Machine} {xs : List α}

def Steady (x : StateM Machine α) : Prop :=
  ∀ m, (x.run m).2 = m

theorem steady_pure (a : α) : Steady (pure a) :=
  fun _ => rfl

theorem Steady.bind (hx : Steady x) (hf : ∀ a, Steady (f a)) : Steady (x >>= f) := by
  intro m
  rw [StateT.run_bind]
  exact (hf _ _).trans (hx m)

theorem Steady.mapM (h : ∀ a ∈ xs, Steady (f a)) : Steady (xs.mapM f) := by
  induction xs with
  | nil => exact steady_pure _
  | cons a xs ih =>
    rw [List.forall_mem_cons] at h
    rw [List.mapM_cons]
    exact h.1.bind fun _ => (ih h.2).bind fun _ => steady_pure _

def answer (m : Machine) (x : StateM Machine α) : α :=
  (x.run m).1

@[simp]
theorem answer_pure (a : α) : m.answer (pure a) = a := rfl

theorem answer_bind (hx : Steady x) : m.answer (x >>= f) = m.answer (f (m.answer x)) :=
  congrArg Prod.fst (Machine.run_bind (Prod.ext rfl (hx m)))

theorem answer_mapM (h : ∀ a ∈ xs, Steady (f a)) : m.answer (xs.mapM f) = xs.map fun a => m.answer (f a) := by
  induction xs with
  | nil => rfl
  | cons a xs ih =>
    rw [List.forall_mem_cons] at h
    rw [List.mapM_cons, answer_bind h.1, answer_bind (Steady.mapM h.2), ih h.2]
    rfl

theorem steady_isDirectory (p : Path) : Steady (Host.isDirectory p) :=
  fun _ => rfl

theorem steady_exists (p : Path) : Steady (Host.exists? p) :=
  fun _ => rfl

theorem steady_namesIn (p : Path) : Steady (Host.namesIn p) :=
  fun _ => rfl

theorem steady_isFile (p : Path) : Steady (Host.isFile p) :=
  fun _ => rfl

theorem steady_entriesIn (p : Path) : Steady (Host.entriesIn p) :=
  fun _ => rfl

theorem answer_isDirectory (p : Path) : m.answer (Host.isDirectory p) = decide (m.kind p = some .directory) := rfl

theorem answer_exists (p : Path) : m.answer (Host.exists? p) = (m.kind p).isSome := rfl

theorem answer_namesIn (p : Path) : m.answer (Host.namesIn p) = m.namesIn p := rfl

theorem answer_isFile (p : Path) : m.answer (Host.isFile p) = decide (m.kind p = some .file) := rfl

theorem answer_entriesIn (p : Path) : m.answer (Host.entriesIn p) = m.entriesIn p := rfl

end Machine

end CBuild
