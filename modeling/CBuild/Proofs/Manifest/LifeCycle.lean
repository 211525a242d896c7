import CBuild.Project
import CBuild.Proofs.Machine.Acting
import CBuild.Proofs.Manifest.Rendering

/-! A configuration file through any sequence of the operations that write it. After the first that succeeds the
file holds the rendering of a configuration, that of the last success; no failure takes it away. -/

namespace CBuild.Manifest

open CBuild.Action Machine FileTree

/-- An operation that writes the configuration file. -/
inductive FileStep
  | init (name compiler : Option String)
  | save (c : Manifest)
  | update (mode : UpdateMode)

namespace FileStep

def perform (p : Path) : FileStep → Action (StateM Machine) Manifest
  | init name compiler => Manifest.init p name compiler
  | save c => do
    Manifest.save c p
    return c
  | update mode => Manifest.update p mode

/-- Does the operations one after the other, whether they succeed or not. Gives what the last success has
written. -/
def performAll (p : Path) : List FileStep → Option Manifest × Machine → Option Manifest × Machine
  | [], r => r
  | step :: steps, (last, m) =>
    match (step.perform p).on m with
    | (.ok c, n) => performAll p steps (some c, n)
    | (.error _, n) => performAll p steps (last, n)

variable {p : Path} {step : FileStep} {last : Option Manifest} {m n : Machine}

theorem performAll_ok {c : Manifest} (h : (step.perform p).on m = (.ok c, n)) (steps : List FileStep) :
    performAll p (step :: steps) (last, m) = performAll p steps (some c, n) := by
  rw [performAll, h]

theorem performAll_error {e : Failure} (h : (step.perform p).on m = (.error e, n)) (steps : List FileStep) :
    performAll p (step :: steps) (last, m) = performAll p steps (last, n) := by
  rw [performAll, h]

end FileStep

variable {m n : Machine} {p : Path} {c d : Manifest} {text : String}

section Saving

theorem on_checkExtension (h : p.extension? = some "toml".toList) :
    (checkExtension p : Action (StateM Machine) Unit).on m = (.ok (), m) := by
  rw [checkExtension, if_neg (by simpa using h)]
  rfl

theorem extension_of_checkExtension (h : (checkExtension p : Action (StateM Machine) Unit).on m = (.ok (), n)) :
    p.extension? = some "toml".toList ∧ n = m := by
  rw [checkExtension] at h
  split at h
  · cases h
  next hext =>
    cases h
    exact ⟨by simpa using hext, rfl⟩

theorem exists_fileName (h : p.extension? = some text.toList) : ∃ name, p.fileName? = some name := by
  rw [Path.extension?] at h
  rcases hname : p.fileName? with _ | name
  · rw [hname] at h
    cases h
  · exact ⟨name, rfl⟩

/-- What a configuration file is after a success: named for what it holds, and holding a rendering. -/
structure Stands (m : Machine) (p : Path) (c : Manifest) : Prop where
  extension : p.extension? = some "toml".toList
  spelled : m.Spells p c.render

theorem stands_of_save (h : (c.save p).on m = (.ok (), n)) : Stands n p c := by
  rw [save] at h
  obtain ⟨_, k, hcheck, hwrite⟩ := ok_of_on_bind h
  obtain ⟨hext, rfl⟩ := extension_of_checkExtension hcheck
  exact ⟨hext, spells_of_writeText hwrite⟩

theorem Stands.on_save (h : Stands m p d) (c : Manifest) :
    ∃ t, (c.save p).on m = (.ok (), { m with tree := t }) := by
  obtain ⟨name, hname⟩ := exists_fileName h.extension
  rw [save, on_bind_ok (on_checkExtension h.extension)]
  exact h.spelled.on_writeText hname c.render

end Saving

section Steps

theorem stands_of_init {name compiler : Option String} (h : (init p name compiler).on m = (.ok c, n)) :
    Stands n p c := by
  rw [init, on_bind_ok (on_exists p m)] at h
  dsimp only at h
  split at h
  · cases h
  · obtain ⟨_, k, hsave, hrest⟩ := ok_of_on_bind h
    obtain ⟨hext, hspelled⟩ := stands_of_save hsave
    cases hrest
    exact ⟨hext, hspelled.log _ _⟩

theorem quiet_load (p : Path) : Quiet (load p) := by
  refine Quiet.bind ?_ fun _ => Quiet.bind (fun m => by rw [on_exists]) fun found => ?_
  · intro m
    rw [checkExtension]
    split <;> rfl
  · dsimp only
    split
    · exact fun _ => rfl
    · refine (quiet_readText p).bind fun text => ?_
      split <;> exact fun _ => rfl

theorem on_restructure (p : Path) (m : Machine) :
    ∃ k : Machine, k.tree = m.tree ∧ k.here = m.here ∧ (update p .restructure).on m =
      on (load p >>= fun c => c.save p >>= fun _ => pure c) k :=
  ⟨_, tree_log .., here_log .., by rw [update, on_bind_ok (on_log ..)]⟩

theorem on_recreate (p : Path) (m : Machine) :
    ∃ k : Machine, k.tree = m.tree ∧ k.here = m.here ∧ (update p .recreate).on m =
      on (Files.removeIfExists p >>= fun _ => init p none none) k :=
  ⟨_, tree_log .., here_log .., by rw [update, on_bind_ok (on_log ..)]⟩

theorem stands_of_update {mode : UpdateMode} (h : (update p mode).on m = (.ok c, n)) : Stands n p c := by
  cases mode with
  | restructure =>
    obtain ⟨_, -, -, hon⟩ := on_restructure p m
    rw [hon] at h
    obtain ⟨d, k, -, hrest⟩ := ok_of_on_bind h
    obtain ⟨_, k', hsave, hlast⟩ := ok_of_on_bind hrest
    cases hlast
    exact stands_of_save hsave
  | recreate =>
    obtain ⟨_, -, -, hon⟩ := on_recreate p m
    rw [hon] at h
    obtain ⟨_, k, -, hinit⟩ := ok_of_on_bind h
    exact stands_of_init hinit

/-- Every operation that succeeds leaves the configuration that it gives, whatever there was. -/
theorem stands_of_perform {step : FileStep} (h : (step.perform p).on m = (.ok c, n)) : Stands n p c := by
  cases step with
  | init name compiler => exact stands_of_init h
  | save c =>
    obtain ⟨_, k, hsave, hlast⟩ := ok_of_on_bind h
    cases hlast
    exact stands_of_save hsave
  | update mode => exact stands_of_update h

theorem Stands.log (h : Stands m p c) (level : Level) (s : String) : Stands (m.log level s) p c :=
  ⟨h.extension, h.spelled.log level s⟩

theorem Stands.of_eq (h : Stands m p c) (htree : n.tree = m.tree) (hhere : n.here = m.here) : Stands n p c := by
  refine ⟨h.extension, ?_⟩
  rw [Spells, htree, hhere]
  exact h.spelled

theorem Stands.on_init (h : Stands m p c) (name compiler : Option String) :
    (Manifest.init p name compiler).on m = (.error (.configExists p), m) := by
  rw [Manifest.init, on_bind_ok (on_exists p m), h.spelled.exists_find]
  rfl

def fresh (p : Path) (name compiler : Option String) : Manifest :=
  { name := projectName name p, compiler := compiler.getD ({} : Manifest).compiler }

theorem init_of_absent {name compiler : Option String} (habsent : (m.tree.find m.here p).toOption.isSome = false)
    (hsave : ((fresh p name compiler).save p).on m = (.ok (), n)) :
    ∃ k, (Manifest.init p name compiler).on m = (.ok (fresh p name compiler), k) := by
  rw [Manifest.init, on_bind_ok (on_exists p m), habsent, if_neg Bool.false_ne_true]
  exact ⟨_, on_bind_ok hsave⟩

theorem exists_recreate {l : Location} {b : Bytes} (hext : p.extension? = some "toml".toList)
    (hl : m.tree.Leads m.here p l b) : ∃ d n, (update p .recreate).on m = (.ok d, n) := by
  obtain ⟨k, htree, hhere, hon⟩ := on_recreate p m
  rw [hon]
  rw [← htree, ← hhere] at hl
  obtain ⟨name, hname⟩ := exists_fileName hext
  obtain ⟨t, u, hremove, habsent, hwrite⟩ := exists_removeIfExists hl hname (fresh p none none).render
  have hsave : ((fresh p none none).save p).on { k with tree := t } = (.ok (), { k with tree := u }) := by
    rw [save, on_bind_ok (on_checkExtension hext)]
    exact hwrite
  obtain ⟨n, hinit⟩ := init_of_absent habsent hsave
  rw [on_bind_ok hremove]
  exact ⟨_, n, hinit⟩

/-- No failure takes away what stands. -/
theorem Stands.of_error {step : FileStep} {e : Failure} (hs : Stands m p d)
    (h : (step.perform p).on m = (.error e, n)) : Stands n p d := by
  cases step with
  | init name compiler =>
    rw [FileStep.perform, hs.on_init] at h
    cases h
    exact hs
  | save c =>
    obtain ⟨t, hsave⟩ := hs.on_save c
    rw [FileStep.perform, on_bind_ok hsave] at h
    cases h
  | update mode =>
    cases mode with
    | restructure =>
      obtain ⟨k, htree, hhere, hon⟩ := on_restructure p m
      have hlog := hs.of_eq htree hhere
      rw [FileStep.perform, hon] at h
      have hquiet := quiet_load p k
      rcases hload : (load p).on k with ⟨f | c, k'⟩
      · rw [hload] at hquiet
        rw [on_bind_error hload] at h
        cases h
        cases hquiet
        exact hlog
      · rw [hload] at hquiet
        cases hquiet
        obtain ⟨t, hsave⟩ := hlog.on_save c
        rw [on_bind_ok hload, on_bind_ok hsave] at h
        cases h
    | recreate =>
      obtain ⟨l, hl⟩ := hs.spelled
      obtain ⟨d', n', hrecreate⟩ := exists_recreate hs.extension hl
      rw [FileStep.perform, hrecreate] at h
      cases h

end Steps

section Runs

/-- What the last success has written stands, at every moment of a run. -/
theorem stands_of_performAll {steps : List FileStep} {last : Option Manifest}
    (h : FileStep.performAll p steps (last, m) = (some c, n)) (hm : ∀ d, last = some d → Stands m p d) :
    Stands n p c := by
  -- `last` is what the last success has written, and a failure takes neither it nor the file away
  induction steps generalizing last m with
  | nil =>
    cases h
    exact hm c rfl
  | cons step steps ih =>
    rcases hstep : (step.perform p).on m with ⟨e | d, k⟩
    · rw [FileStep.performAll_error hstep] at h
      exact ih h fun d hd => (hm d hd).of_error hstep
    · rw [FileStep.performAll_ok hstep] at h
      refine ih h fun d' hd => ?_
      cases hd
      exact stands_of_perform hstep

theorem on_load {l : Location} (hext : p.extension? = some "toml".toList)
    (hl : m.tree.Leads m.here p l (Utf8.encode text)) (hc : parse text = .ok c) : (load p).on m = (.ok c, m) := by
  obtain ⟨x, hx⟩ := hl.find
  have hfound : (m.tree.find m.here p).toOption.isSome = true := by
    rw [hx]
    rfl
  rw [load, on_bind_ok (on_checkExtension hext), on_bind_ok (on_exists p m), hfound, Bool.not_true,
    if_neg Bool.false_ne_true, on_bind_ok (on_readText hl), hc]
  rfl

theorem Stands.on_load (h : Stands m p c) (hreal : ∀ e, m.tree.find m.here p ≠ .ok (nowhere, e)) :
    (load p).on m = (.ok c, m) := by
  obtain ⟨l, hl⟩ := h.spelled.exists_leads hreal
  exact Manifest.on_load h.extension hl (parse_render c)

/-- Once an operation on a configuration file has succeeded, and unless nothing is kept of what is written there,
the file is read as what the last success has written, and writing it again changes nothing at all. -/
theorem load_after_performAll (p : Path) (steps : List FileStep) (m n : Machine) (c : Manifest)
    (hrun : FileStep.performAll p steps (none, m) = (some c, n))
    (hreal : ∀ e, n.tree.find n.here p ≠ .ok (nowhere, e)) :
    (load p).on n = (.ok c, n) ∧ n.tree.readFile n.here p = .ok (Utf8.encode c.render) ∧
      ∃ k, (update p .restructure).on n = (.ok c, k) ∧ ∀ l, k.tree.get? l = n.tree.get? l := by
  have hs := stands_of_performAll hrun nofun
  refine ⟨hs.on_load hreal, ?_, ?_⟩
  · obtain ⟨l, hl⟩ := hs.spelled.exists_leads hreal
    exact hl.readFile
  · have hlog := hs.log .debug ("restructuring config file " ++ p.toString)
    have htree := tree_log .debug ("restructuring config file " ++ p.toString) n
    have hhere := here_log .debug ("restructuring config file " ++ p.toString) n
    rw [update, on_bind_ok (on_log ..)]
    generalize n.log .debug ("restructuring config file " ++ p.toString) = k at hlog htree hhere
    have hload : (load p).on k = (.ok c, k) := hlog.on_load (by rw [htree, hhere]; exact hreal)
    obtain ⟨name, hname⟩ := exists_fileName hs.extension
    obtain ⟨t, hwrite, hsame⟩ := hlog.spelled.rewrite hname
    have hsave : (c.save p).on k = (.ok (), { k with tree := t }) := by
      rw [save, on_bind_ok (on_checkExtension hs.extension)]
      exact hwrite
    rw [on_bind_ok hload, on_bind_ok hsave]
    exact ⟨{ k with tree := t }, rfl, fun l => (hsame l).trans (by rw [htree])⟩

section Somewhere

def bare : Path :=
  Path.ofString "a.toml"

theorem parentFound_bare (t : FileTree) (here : Location) : t.ParentFound here bare := by
  intro q hq hne
  have hnone : bare.parent? = some ⟨[]⟩ := by decide
  rw [hnone] at hq
  cases hq
  exact absurd rfl hne

theorem isName_bare : IsName bare.chars where
  not_idle := by decide
  not_up := by decide
  fits := by decide

theorem on_save_bare {b : Bytes} {t : FileTree} {c : Manifest} (hw : m.tree.writeFile m.here bare b = .ok t)
    (hb : Utf8.encode c.render = b) : (c.save bare).on m = (.ok (), { m with tree := t }) := by
  subst hb
  rw [save, on_bind_ok (on_checkExtension (by decide))]
  exact Machine.on_writeText (parentFound_bare _ _) hw

theorem load_after_save_and_init : ∃ n,
    FileStep.performAll bare [.save { name := "mine" }, .init none none]
        (none, { tree := .empty, here := [] }) =
      (some { name := "mine" }, n) ∧
    (∀ e, n.tree.find n.here bare ≠ .ok (nowhere, e)) ∧
    (load bare).on n = (.ok { name := "mine" }, n) ∧
    n.tree.readFile n.here bare = .ok (Utf8.encode (render { name := "mine" })) ∧
    ∃ k, (update bare .restructure).on n = (.ok { name := "mine" }, k) ∧ ∀ l, k.tree.get? l = n.tree.get? l := by
  let m : Machine := { tree := .empty, here := [] }
  let c : Manifest := { name := "mine" }
  have hfree : m.tree.place m.here bare true = .ok (.free [] bare.chars false) := by
    have hs : Spelled bare := ⟨by decide, by decide, by decide⟩
    rw [place_eq_walk hs]
    exact walk_absent isName_bare rfl
  obtain ⟨t, ht, hleads⟩ := exists_writeFile_of_free hfree isDirectory_nil (Utf8.encode c.render)
  have hsave : ((FileStep.save c).perform bare).on m = (.ok c, { m with tree := t }) :=
    on_bind_ok (on_save_bare ht rfl)
  have hrun : FileStep.performAll bare [.save c, .init none none] (none, m) = (some c, { m with tree := t }) := by
    have hinit : ((FileStep.init none none).perform bare).on { m with tree := t } = _ :=
      (stands_of_perform hsave).on_init none none
    rw [FileStep.performAll_ok hsave, FileStep.performAll_error hinit]
    rfl
  have hreal (e : TreeEntry) : t.find m.here bare ≠ .ok (nowhere, e) := by
    obtain ⟨x, hx⟩ := hleads.find
    rw [hx]
    exact nofun
  exact ⟨{ m with tree := t }, hrun, hreal, load_after_performAll bare _ m _ c hrun hreal⟩

end Somewhere

section Nowhere

theorem parse_empty : parse "" = .ok {} := by
  have hall : Toml.Statement.readAll? [] = some ([], []) := Toml.Statement.readAll?_of_trivia rfl
  have hdocument : Toml.Document.parse? [] = some ⟨[], []⟩ := by
    rw [Toml.Document.parse?]
    change Option.bind (Toml.Statement.readAll? []) _ = _
    rw [hall]
    rfl
  rw [parse, Toml.read?, String.toList_empty, hdocument]
  rfl

def linked : FileTree :=
  .ofEntries [(["dev".toList], .directory), (nowhere, .file [] false),
    ([bare.chars], .link (Path.ofString "/dev/null"))]

theorem leads_linked : linked.Leads [] bare nowhere [] := by
  have hlink : linked.get? ([] ++ [bare.chars]) = some (.link (Path.ofString "/dev/null")) := by decide
  have hdirectory : linked.get? ([] ++ ["dev".toList]) = some .directory := by decide
  have hfile : linked.get? ([] ++ ["dev".toList] ++ ["null".toList]) = some (.file [] false) := by decide
  have hparts : (Path.ofString "/dev/null").parts ++ [] = [[], "dev".toList, "null".toList] := by decide
  have hbare : bare.parts = [bare.chars] := by decide
  refine ⟨?_, false, hfile⟩
  rw [place_eq_walk ⟨by decide, by decide, by decide⟩, hbare, startOf, if_neg (by decide), linkLimit,
    walk_link isName_bare hlink (.inr rfl), hparts, if_pos (by decide), walk_idle (.inl rfl),
    walk_directory ⟨by decide, by decide, by decide⟩ hdirectory,
    walk_file ⟨by decide, by decide, by decide⟩ hfile]
  rfl

/-- What is written to the null device is not read again. -/
theorem load_after_saving_nowhere : ∃ n,
    FileStep.performAll bare [.save { name := "mine" }] (none, { tree := linked, here := [] }) =
      (some { name := "mine" }, n) ∧
    (load bare).on n = (.ok {}, n) ∧ ({} : Manifest) ≠ { name := "mine" } := by
  let m : Machine := { tree := linked, here := [] }
  let c : Manifest := { name := "mine" }
  have hleads := leads_linked
  obtain ⟨t, ht, hnew, -⟩ := hleads.exists_writeFile (Utf8.encode c.render)
  have hsave : ((FileStep.save c).perform bare).on m = (.ok c, { m with tree := t }) :=
    on_bind_ok (on_save_bare ht rfl)
  refine ⟨{ m with tree := t }, FileStep.performAll_ok hsave [], ?_, ?_⟩
  · exact on_load (by decide) hnew parse_empty
  · simp

end Nowhere

end Runs

end CBuild.Manifest
