import CBuild.Files
import CBuild.Machine.Host
import CBuild.Proofs.Machine.Leading

/-! Operations at work on a machine, and what the files they ask for become. -/

namespace CBuild

theorem Utf8.decode?_encode (s : String) : decode? (encode s) = some s := by
  rw [decode?, encode, Array.toArray_toList, String.fromUTF8?]
  exact Option.dite_none_right_eq_some.2 ⟨s.isValidUTF8, rfl⟩

namespace Action

variable {α β : Type} {a : Action (StateM Machine) α} {f : α → Action (StateM Machine) β} {m n : Machine}
  {e : Failure} {r : Except Failure β}

/-- What an operation gives on a machine, and the machine after it. -/
def on (a : Action (StateM Machine) α) (m : Machine) : Except Failure α × Machine :=
  a.run.run m

@[simp]
theorem on_pure (x : α) (m : Machine) : on (pure x) m = (.ok x, m) := rfl

@[simp]
theorem on_throw (e : Failure) (m : Machine) : on (throw e : Action (StateM Machine) α) m = (.error e, m) := rfl

@[simp]
theorem on_lift (x : StateM Machine α) (m : Machine) : on (liftM x) m = (.ok (x.run m).1, (x.run m).2) := rfl

theorem on_bind (a : Action (StateM Machine) α) (f : α → Action (StateM Machine) β) (m : Machine) :
    on (a >>= f) m =
      match a.on m with
      | (.ok x, n) => (f x).on n
      | (.error e, n) => (.error e, n) := by
  rw [on, on, ExceptT.run_bind, StateT.run_bind]
  rcases h : a.run.run m with ⟨e | x, n⟩
  · rfl
  · rfl

theorem on_bind_ok {x : α} (h : a.on m = (.ok x, n)) : on (a >>= f) m = (f x).on n := by
  rw [on_bind, h]

theorem on_bind_error (h : a.on m = (.error e, n)) : on (a >>= f) m = (.error e, n) := by
  rw [on_bind, h]

theorem cases_of_on_bind (h : on (a >>= f) m = (r, n)) :
    (∃ e, a.on m = (.error e, n) ∧ r = .error e) ∨ ∃ x k, a.on m = (.ok x, k) ∧ (f x).on k = (r, n) := by
  rw [on_bind] at h
  rcases ha : a.on m with ⟨e | x, k⟩
  · rw [ha] at h
    cases h
    exact .inl ⟨e, rfl, rfl⟩
  · rw [ha] at h
    exact .inr ⟨x, k, rfl, h⟩

theorem ok_of_on_bind {y : β} (h : on (a >>= f) m = (.ok y, n)) :
    ∃ x k, a.on m = (.ok x, k) ∧ (f x).on k = (.ok y, n) := by
  rcases cases_of_on_bind h with ⟨e, -, he⟩ | hrest
  · cases he
  · exact hrest

theorem on_attempt (action : FileAction) (p : Path) (request : StateM Machine (Except OsError α)) (m : Machine) :
    on (attempt action p request) m =
      match request.run m with
      | (.ok x, n) => (.ok x, n)
      | (.error e, n) => (.error (.refused action p e), n) := by
  rw [attempt, on_bind, on_lift]
  rcases request.run m with ⟨e | x, n⟩
  · rfl
  · rfl

def Quiet (a : Action (StateM Machine) α) : Prop :=
  ∀ m, (a.on m).2 = m

theorem Quiet.eq_of_on {x : Except Failure α} (ha : Quiet a) (h : a.on m = (x, n)) : n = m := by
  have hm := ha m
  rwa [h] at hm

theorem Quiet.bind (ha : Quiet a) (hf : ∀ x, Quiet (f x)) : Quiet (a >>= f) := by
  intro m
  have hm := ha m
  rw [on_bind]
  rcases h : a.on m with ⟨e | x, n⟩
  · rw [h] at hm
    exact hm
  · rw [h] at hm
    cases hm
    exact hf x n

end Action

namespace Machine

variable {m n : Machine} {p q : Path} {d l : Location} {b : Bytes} {text : String} {name : List Char}

open FileTree CBuild.Action

theorem run_change (f : Machine → Except OsError FileTree) (m : Machine) :
    (change f).run m =
      match f m with
      | .ok t => (.ok (), { m with tree := t })
      | .error e => (.error e, m) := by
  rw [change, StateT.run_bind]
  change (match f m with | .ok t => _ | .error e => _ : StateM Machine (Except OsError Unit)).run m = _
  rcases f m with e | t
  · rfl
  · rfl

theorem run_writeBytes (p : Path) (b : Bytes) (m : Machine) :
    (Host.writeBytes p b : StateM Machine _).run m =
      match m.tree.writeFile m.here p b with
      | .ok t => (.ok (), { m with tree := t })
      | .error e => (.error e, m) :=
  run_change _ m

theorem run_makeDirectory (p : Path) (m : Machine) :
    (Host.makeDirectory p : StateM Machine _).run m =
      match m.tree.makeDirectory m.here p with
      | .ok t => (.ok (), { m with tree := t })
      | .error e => (.error e, m) :=
  run_change _ m

theorem run_removeFile (p : Path) (m : Machine) :
    (Host.removeFile p : StateM Machine _).run m =
      match m.tree.removeFile m.here p with
      | .ok t => (.ok (), { m with tree := t })
      | .error e => (.error e, m) :=
  run_change _ m

theorem on_exists (p : Path) (m : Machine) :
    Action.on (liftM (Host.exists? p : StateM Machine Bool)) m =
      (.ok (m.tree.find m.here p).toOption.isSome, m) := by
  rw [on_lift]
  have h : (m.tree.find m.here p).toOption.isSome =
      ((m.tree.find m.here p).toOption.map fun x => kindOf x.1 x.2).isSome := Option.isSome_map.symm
  rw [h]
  rfl

@[simp]
theorem tree_log (level : Level) (s : String) (m : Machine) : (log level s m).tree = m.tree := by
  rw [log]
  split <;> rfl

@[simp]
theorem here_log (level : Level) (s : String) (m : Machine) : (log level s m).here = m.here := by
  rw [log]
  split <;> rfl

theorem on_log (level : Level) (s : String) (m : Machine) :
    Action.on (liftM (Host.log level s : StateM Machine Unit)) m = (.ok (), log level s m) := rfl

/-- The path leads to a file with this text, or nowhere. -/
def Spells (m : Machine) (p : Path) (text : String) : Prop :=
  ∃ l, m.tree.Leads m.here p l (kept l (Utf8.encode text))

theorem Spells.log (h : m.Spells p text) (level : Level) (s : String) : (m.log level s).Spells p text := by
  rw [Spells, tree_log, here_log]
  exact h

theorem exists_of_leads (hl : m.tree.Leads m.here p l b) : (m.tree.find m.here p).toOption.isSome = true := by
  obtain ⟨x, hx⟩ := hl.find
  rw [hx]
  rfl

theorem Spells.exists_find (h : m.Spells p text) : (m.tree.find m.here p).toOption.isSome = true := by
  obtain ⟨l, hl⟩ := h
  exact exists_of_leads hl

theorem find_of_isDirectory (h : m.tree.place m.here q true = .ok (.found d)) (hd : m.tree.IsDirectory d) :
    m.tree.find m.here q = .ok (d, .directory) := by
  rw [find, h]
  simp only [bind, Except.bind]
  rw [hd]
  rfl

def makeRoom (p : Path) : Action (StateM Machine) Unit :=
  match p.parent? with
  | some d => if d.chars ≠ [] then Files.ensureDirectory d else pure ()
  | none => pure ()

theorem writeText_eq (p : Path) (text : String) :
    Files.writeText p text =
      (makeRoom p >>= fun _ => Action.attempt .write p (Host.writeBytes p (Utf8.encode text))) := by
  rw [Files.writeText, makeRoom]
  rcases p.parent? with _ | d
  · rfl
  · dsimp only
    split
    · rfl
    · rfl

theorem on_makeRoom (hp : m.tree.ParentFound m.here p) : (makeRoom p).on m = (.ok (), m) := by
  rw [makeRoom]
  rcases hq : p.parent? with _ | q
  · rfl
  · dsimp only
    split
    next hne =>
      obtain ⟨d, hd, hdirectory⟩ := hp q hq hne
      rw [Files.ensureDirectory, on_bind_ok (on_exists q m), find_of_isDirectory hd hdirectory]
      rfl
    next => rfl

theorem on_writeText (hp : m.tree.ParentFound m.here p) {t : FileTree}
    (hw : m.tree.writeFile m.here p (Utf8.encode text) = .ok t) :
    (Files.writeText p text).on m = (.ok (), { m with tree := t }) := by
  rw [writeText_eq, on_bind_ok (on_makeRoom hp), on_attempt, run_writeBytes, hw]

theorem exists_room_of_writeText (h : (Files.writeText p text).on m = (.ok (), n)) :
    ∃ k t, (makeRoom p).on m = (.ok (), k) ∧ k.tree.writeFile k.here p (Utf8.encode text) = .ok t ∧
      n = { k with tree := t } := by
  rw [writeText_eq] at h
  obtain ⟨_, k, hroom, hlast⟩ := ok_of_on_bind h
  rw [on_attempt, run_writeBytes] at hlast
  rcases hw : k.tree.writeFile k.here p (Utf8.encode text) with e | t
  · rw [hw] at hlast
    cases hlast
  · rw [hw] at hlast
    cases hlast
    exact ⟨k, t, hroom, hw, rfl⟩

theorem spells_of_writeText (h : (Files.writeText p text).on m = (.ok (), n)) : n.Spells p text := by
  obtain ⟨k, t, -, hw, rfl⟩ := exists_room_of_writeText h
  obtain ⟨l, hl, -⟩ := leads_of_writeFile hw
  exact ⟨l, hl⟩

theorem Spells.on_writeText (h : m.Spells p text) (hname : p.fileName? = some name) (new : String) :
    ∃ t, (Files.writeText p new).on m = (.ok (), { m with tree := t }) := by
  obtain ⟨l, hl⟩ := h
  obtain ⟨t, ht, -⟩ := hl.exists_writeFile (Utf8.encode new)
  exact ⟨t, Machine.on_writeText (hl.parentFound hname) ht⟩

/-- Writing a file with what it holds leaves everything as it is. -/
theorem rewrite_of_leads (hl : m.tree.Leads m.here p l b) (hname : p.fileName? = some name)
    (hb : kept l (Utf8.encode text) = b) :
    ∃ t, (Files.writeText p text).on m = (.ok (), { m with tree := t }) ∧ ∀ k, t.get? k = m.tree.get? k := by
  obtain ⟨t, ht, -, hne, hself⟩ := hl.exists_writeFile (Utf8.encode text)
  refine ⟨t, Machine.on_writeText (hl.parentFound hname) ht, fun k => ?_⟩
  by_cases hk : k = l
  · obtain ⟨x, hx⟩ := hl.file
    rw [hk, hself x hx, hb, hx]
  · exact hne k hk

theorem Spells.rewrite (h : m.Spells p text) (hname : p.fileName? = some name) :
    ∃ t, (Files.writeText p text).on m = (.ok (), { m with tree := t }) ∧ ∀ l, t.get? l = m.tree.get? l := by
  obtain ⟨l, hl⟩ := h
  exact rewrite_of_leads hl hname rfl

theorem exists_removeIfExists (hl : m.tree.Leads m.here p l b) (hname : p.fileName? = some name) (new : String) :
    ∃ t u, (Files.removeIfExists p).on m = (.ok (), { m with tree := t }) ∧
      (t.find m.here p).toOption.isSome = false ∧
      (Files.writeText p new).on { m with tree := t } = (.ok (), { m with tree := u }) := by
  obtain ⟨t, d, hremove, hfree, hd, hparent⟩ := hl.exists_removeFile hname
  obtain ⟨u, hu, -⟩ := exists_writeFile_of_free hfree hd (Utf8.encode new)
  refine ⟨t, u, ?_, ?_, Machine.on_writeText (m := { m with tree := t }) hparent hu⟩
  · rw [Files.removeIfExists, on_bind_ok (on_exists p m), exists_of_leads hl, if_pos rfl, on_attempt,
      run_removeFile, hremove]
  · rw [find, hfree]
    rfl

theorem on_readText_eq (p : Path) (m : Machine) :
    (Files.readText p).on m =
      (match m.tree.readFile m.here p with
        | .error e => .error (.refused .read p e)
        | .ok b =>
          match Utf8.decode? b with
          | some s => .ok s
          | none => .error (.refused .read p .notText), m) := by
  have hrun : (Host.readBytes p : StateM Machine _).run m = (m.tree.readFile m.here p, m) := rfl
  rw [Files.readText, on_attempt, StateT.run_bind, hrun]
  rcases m.tree.readFile m.here p with e | b
  · rfl
  · dsimp only [bind]
    rcases Utf8.decode? b with _ | s
    · rfl
    · rfl

theorem quiet_readText (p : Path) : Quiet (Files.readText p) := by
  intro m
  rw [on_readText_eq]

theorem on_readText (h : m.tree.Leads m.here p l (Utf8.encode text)) :
    (Files.readText p).on m = (.ok text, m) := by
  rw [on_readText_eq, h.readFile]
  dsimp only
  rw [Utf8.decode?_encode]

theorem on_readText_congr (htree : n.tree = m.tree) (hhere : n.here = m.here)
    (h : (Files.readText p).on m = (.ok text, m)) : (Files.readText p).on n = (.ok text, n) := by
  rw [on_readText_eq, Prod.mk.injEq] at h
  rw [on_readText_eq, htree, hhere, h.1]

theorem Spells.exists_leads (h : m.Spells p text) (hreal : ∀ e, m.tree.find m.here p ≠ .ok (nowhere, e)) :
    ∃ l, m.tree.Leads m.here p l (Utf8.encode text) := by
  obtain ⟨l, hl⟩ := h
  refine ⟨l, ?_⟩
  rwa [kept, if_neg] at hl
  rintro rfl
  obtain ⟨x, hx⟩ := hl.find
  exact hreal _ hx

end Machine
end CBuild
