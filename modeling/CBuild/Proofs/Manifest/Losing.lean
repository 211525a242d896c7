import CBuild.Proofs.Machine.Sparing
import CBuild.Proofs.Manifest.LifeCycle
import Mathlib

/-! What a failed operation on a configuration file loses. The path is taken away before its extension is looked at,
so a file of another extension that was to be made anew is gone; no other file is ever lost. -/

namespace CBuild

open CBuild.Action Machine FileTree

variable {p : Path} {m n : Machine} {l : Location} {b : Bytes} {x : Bool} {e : Failure}

namespace Machine

theorem cases_of_removeIfExists {r : Except Failure Unit} (h : (Files.removeIfExists p).on m = (r, n)) :
    n = m ∨ r = .ok () ∧ ∃ l, m.tree.place m.here p false = .ok (.found l) ∧ Spares [l] m.tree n.tree := by
  rw [Files.removeIfExists, on_bind_ok (on_exists p m)] at h
  split at h
  · rw [on_attempt, run_removeFile] at h
    rcases hr : m.tree.removeFile m.here p with e | t
    · rw [hr] at h
      cases h
      exact .inl rfl
    · rw [hr] at h
      cases h
      obtain ⟨l, hplace, hspares⟩ := spares_removeFile hr
      exact .inr ⟨rfl, l, hplace, hspares⟩
  · cases h
    exact .inl rfl

theorem on_removeIfExists_of_names (h : m.tree.place m.here p false = .ok (.found l))
    (hl : m.tree.get? l = some (.file b x)) :
    ∃ t, (Files.removeIfExists p).on m = (.ok (), { m with tree := t }) ∧ t.get? l = none := by
  have hd : ¬m.tree.IsDirectory l := by simp [IsDirectory, hl]
  have hne : l ≠ [] := fun hnil => hd (hnil ▸ isDirectory_nil)
  have hremove : m.tree.removeFile m.here p = .ok (m.tree.remove l hd) := by
    rw [removeFile, h]
    simp [bind, Except.bind, hd, pure, Except.pure]
  refine ⟨_, ?_, get?_remove_self hne hd⟩
  rw [Files.removeIfExists, on_bind_ok (on_exists p m), exists_of_leads (leads_of_names h hl), if_pos rfl,
    on_attempt, run_removeFile, hremove]

end Machine

namespace Manifest

variable {mode : UpdateMode}

theorem on_checkExtension_ne (h : p.extension? ≠ some "toml".toList) (m : Machine) :
    (checkExtension p : Action (StateM Machine) Unit).on m = (.error (.notTomlFile p), m) := by
  rw [checkExtension, if_pos h]
  rfl

theorem spares_of_save_error {c : Manifest} (h : (c.save p).on m = (.error e, n)) : Spares [] m.tree n.tree := by
  rw [save] at h
  rcases cases_of_on_bind h with ⟨f, hcheck, -⟩ | ⟨_, k, hcheck, hwrite⟩
  · by_cases hext : p.extension? = some "toml".toList
    · rw [on_checkExtension hext] at hcheck
      cases hcheck
    · rw [on_checkExtension_ne hext] at hcheck
      cases hcheck
      exact spares_of_eq rfl
  · obtain ⟨-, rfl⟩ := extension_of_checkExtension hcheck
    rcases cases_of_writeText hwrite with ⟨-, hspared⟩ | ⟨hok, -⟩
    · exact hspared.spares
    · cases hok

theorem spares_of_init_error {name compiler : Option String} (h : (init p name compiler).on m = (.error e, n)) :
    Spares [] m.tree n.tree := by
  rw [init, on_bind_ok (on_exists p m)] at h
  dsimp only at h
  split at h
  · cases h
    exact spares_of_eq rfl
  · rcases cases_of_on_bind h with ⟨f, hsave, -⟩ | ⟨_, k, -, hlog⟩
    · exact spares_of_save_error hsave
    · cases hlog

theorem on_init_ne (h : p.extension? ≠ some "toml".toList) (name compiler : Option String) (m : Machine) :
    ∃ e, (init p name compiler).on m = (.error e, m) := by
  rw [init, on_bind_ok (on_exists p m)]
  dsimp only
  split
  · exact ⟨_, rfl⟩
  · have hsave (c : Manifest) : (c.save p).on m = (.error (.notTomlFile p), m) := by
      rw [save]
      exact on_bind_error (on_checkExtension_ne h m)
    exact ⟨_, on_bind_error (hsave _)⟩

/-- A failed update touches nothing but what was to be made anew. -/
theorem cases_of_update_error (h : (update p mode).on m = (.error e, n)) :
    Spares [] m.tree n.tree ∨ mode = .recreate ∧
      ∃ l, m.tree.place m.here p false = .ok (.found l) ∧ Spares [l] m.tree n.tree := by
  cases mode with
  | restructure =>
    obtain ⟨k, htree, -, hon⟩ := on_restructure p m
    rw [hon] at h
    rw [← htree]
    rcases cases_of_on_bind h with ⟨f, hload, -⟩ | ⟨c, k', hload, hrest⟩
    · exact .inl (spares_of_eq (by rw [(quiet_load p).eq_of_on hload]))
    · obtain rfl := (quiet_load p).eq_of_on hload
      rcases cases_of_on_bind hrest with ⟨f, hsave, -⟩ | ⟨_, k'', -, hlast⟩
      · exact .inl (spares_of_save_error hsave)
      · cases hlast
  | recreate =>
    obtain ⟨k, htree, hhere, hon⟩ := on_recreate p m
    rw [hon] at h
    rw [← htree, ← hhere]
    rcases cases_of_on_bind h with ⟨f, hremove, -⟩ | ⟨_, k', hremove, hinit⟩
    · rcases cases_of_removeIfExists hremove with rfl | ⟨hok, -⟩
      · exact .inl (spares_of_eq rfl)
      · cases hok
    · have hrest := spares_of_init_error hinit
      rcases cases_of_removeIfExists hremove with rfl | ⟨-, l, hplace, hspares⟩
      · exact .inl hrest
      · exact .inr ⟨rfl, l, hplace, hspares.trans hrest⟩

theorem gone_of_recreate (hext : p.extension? ≠ some "toml".toList)
    (hplace : m.tree.place m.here p false = .ok (.found l)) (hl : m.tree.get? l = some (.file b x)) :
    ∃ e k, (update p .recreate).on m = (.error e, k) ∧ k.tree.get? l = none := by
  obtain ⟨k, htree, hhere, hon⟩ := on_recreate p m
  rw [hon]
  rw [← htree, ← hhere] at hplace
  rw [← htree] at hl
  obtain ⟨t, hremove, hnone⟩ := on_removeIfExists_of_names hplace hl
  obtain ⟨e, hinit⟩ := on_init_ne hext none none { k with tree := t }
  rw [on_bind_ok hremove]
  exact ⟨e, _, hinit, hnone⟩

/-- After a failed update a file is what it was, except for one that was to be made anew under a name that is none
of a configuration file. -/
theorem lost_by_update_iff (h : (update p mode).on m = (.error e, n)) (hl : m.tree.get? l = some (.file b x)) :
    n.tree.get? l ≠ some (.file b x) ↔
      mode = .recreate ∧ p.extension? ≠ some "toml".toList ∧ m.tree.place m.here p false = .ok (.found l) := by
  constructor
  · intro hlost
    rcases cases_of_update_error h with hspares | ⟨rfl, k, hplace, hspares⟩
    · exact absurd (hspares.get? List.not_mem_nil hl) hlost
    · have hk : k = l := by
        by_contra hne
        have hmem : l ∉ [k] := by simpa using fun h => hne h.symm
        exact hlost (hspares.get? hmem hl)
      subst hk
      refine ⟨rfl, ?_, hplace⟩
      -- with the right extension the file would have been made anew
      intro hext
      obtain ⟨d, k', hrecreate⟩ := exists_recreate hext (leads_of_names hplace hl)
      rw [h] at hrecreate
      cases hrecreate
  · rintro ⟨rfl, hext, hplace⟩
    obtain ⟨f, k, hfails, hnone⟩ := gone_of_recreate hext hplace hl
    rw [h] at hfails
    cases hfails
    rw [hnone]
    exact nofun

def noted : FileTree :=
  .ofEntries [(["a.txt".toList], .file [0x6b] false)]

theorem lost_by_update_of_note : ∃ e n,
    (update (Path.ofString "a.txt") .recreate).on { tree := noted, here := [] } = (.error e, n) ∧
    noted.get? ["a.txt".toList] = some (.file [0x6b] false) ∧
    n.tree.get? ["a.txt".toList] ≠ some (.file [0x6b] false) := by
  let m : Machine := { tree := noted, here := [] }
  have hext : (Path.ofString "a.txt").extension? ≠ some "toml".toList := by decide
  have hplace : m.tree.place m.here (Path.ofString "a.txt") false = .ok (.found ["a.txt".toList]) := by cbv
  have hfile : m.tree.get? ["a.txt".toList] = some (.file [0x6b] false) := by decide
  obtain ⟨e, n, hrun, -⟩ := gone_of_recreate hext hplace hfile
  exact ⟨e, n, hrun, hfile, (lost_by_update_iff hrun hfile).2 ⟨rfl, hext, hplace⟩⟩

end Manifest
end CBuild
