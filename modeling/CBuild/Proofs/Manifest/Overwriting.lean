import CBuild.Proofs.Machine.Making
import CBuild.Proofs.Manifest.Losing
import Mathlib

/-! What a fresh configuration overwrites. Whether there is a file already is asked before directories are made, and a
path that goes up out of a directory that is missing leads to another file once it is made. No other path does. -/

namespace CBuild

open CBuild.Action Machine FileTree

variable {p : Path} {m n k : Machine} {l : Location} {b c : Bytes} {name : List Char}

namespace Machine

theorem exists_find_error (h : (m.tree.find m.here p).toOption.isSome = false) : ∃ e, m.tree.find m.here p = .error e := by
  cases hfind : m.tree.find m.here p with
  | error e => exact ⟨e, rfl⟩
  | ok found =>
    rw [hfind] at h
    cases h

theorem cases_of_makeRoom (h : (makeRoom p).on m = (.ok (), k)) :
    k = m ∨ ∃ d, p.parent? = some d ∧ (∃ e, m.tree.find m.here d = .error e) ∧
      (Files.makeAll d.ancestors : StateM Machine _).run m = (.ok (), k) := by
  unfold makeRoom at h
  cases hparent : p.parent? with
  | none =>
    rw [hparent] at h
    cases h
    exact .inl rfl
  | some d =>
    rw [hparent] at h
    dsimp only at h
    split at h
    next =>
      unfold Files.ensureDirectory at h
      rw [on_bind_ok (on_exists d m)] at h
      cases hthere : (m.tree.find m.here d).toOption.isSome with
      | true =>
        rw [hthere] at h
        cases h
        exact .inl rfl
      | false =>
        rw [hthere, if_neg Bool.false_ne_true, on_attempt] at h
        have hrun : (Files.makeAll d.ancestors : StateM Machine _).run m = (.ok (), k) := by
          rcases hmade : (Files.makeAll d.ancestors : StateM Machine _).run m with ⟨e | _, k'⟩
          · rw [hmade] at h
            cases h
          · rw [hmade] at h
            cases h
            rfl
        exact .inr ⟨d, rfl, exists_find_error hthere, hrun⟩
    next =>
      cases h
      exact .inl rfl

/-- A path that led nowhere leads to a file that was there, once room is made for it, only when it goes up and its
directory was missing. -/
theorem goesUp_of_makeRoom {x : Bool} {e : OsError} (hmissing : m.tree.find m.here p = .error e)
    (hname : p.fileName? = some name) (hl : m.tree.get? l = some (.file b x)) (h : (makeRoom p).on m = (.ok (), k))
    (hk : k.tree.place k.here p true = .ok (.found l)) :
    p.GoesUp ∧ ∃ d e, p.parent? = some d ∧ m.tree.find m.here d = .error e := by
  -- on a tree that has not changed the path leads nowhere still
  have hchanged : k.here = m.here → k.tree ≠ m.tree := by
    intro hhere htree
    rw [hhere, htree] at hk
    rw [find_eq_ok_iff.2 ⟨hk, hl⟩] at hmissing
    cases hmissing
  rcases cases_of_makeRoom h with rfl | ⟨d, hparent, ⟨e', he'⟩, hmade⟩
  · exact absurd rfl (hchanged rfl)
  · refine ⟨?_, d, e', hparent, he'⟩
    by_contra hup
    have hupd : ¬d.GoesUp := fun hd => hup (hd.of_parent? hname hparent)
    have hspared : Spared [] m k := (adds_makeRoom p).of_on h
    rcases made hupd (withoutEndSlashes_parent? hparent) hmade with ⟨hsame, -⟩ | hnew
    · exact hchanged hspared.here hsame
    · rw [hspared.here] at hk
      obtain ⟨hnone, -⟩ := hnew.below hspared.spares hname hparent hk
      rw [hl] at hnone
      cases hnone

theorem place_of_writeText {text : String} {x : Bool} (h : (Files.writeText p text).on m = (.ok (), n))
    (hl : m.tree.get? l = some (.file b x)) (hn : n.tree.Leads n.here p l c) :
    ∃ k, (makeRoom p).on m = (.ok (), k) ∧ k.tree.place k.here p true = .ok (.found l) := by
  obtain ⟨k, t, hroom, hw, rfl⟩ := exists_room_of_writeText h
  refine ⟨k, hroom, ?_⟩
  have hspared : Spared [] m k := (adds_makeRoom p).of_on hroom
  have hlk : k.tree.get? l = some (.file b x) := hspared.spares.get? List.not_mem_nil hl
  obtain ⟨l', hl', hsame, -⟩ := leads_of_writeFile hw
  cases hl'.place.symm.trans hn.place
  obtain ⟨y, hy⟩ := hn.file
  have hback : t.Outlines k.tree := outlines_of_get?_eq hy hlk fun j hj => (hsame j hj).symm
  exact place_of_outlines hn.place hback

end Machine

namespace Manifest

variable {projectName compiler : Option String} {e : OsError} {r : Except Failure Manifest}

theorem cases_of_init (h : (init p projectName compiler).on m = (r, n)) :
    (∃ e, r = .error e) ∧ Spares [] m.tree n.tree ∨
      ∃ c k, r = .ok c ∧ n.tree = k.tree ∧ n.here = k.here ∧ p.extension? = some "toml".toList ∧
        (∃ e, m.tree.find m.here p = .error e) ∧ (Files.writeText p c.render).on m = (.ok (), k) := by
  cases r with
  | error e => exact .inl ⟨⟨e, rfl⟩, spares_of_init_error h⟩
  | ok c =>
    right
    unfold init at h
    rw [on_bind_ok (on_exists p m)] at h
    cases hthere : (m.tree.find m.here p).toOption.isSome with
    | true =>
      rw [hthere] at h
      cases h
    | false =>
      rw [hthere] at h
      obtain ⟨_, k, hsave, hlast⟩ := ok_of_on_bind h
      obtain ⟨_, k', hcheck, hwrite⟩ := ok_of_on_bind hsave
      obtain ⟨hext, rfl⟩ := extension_of_checkExtension hcheck
      cases hlast
      exact ⟨_, k, rfl, tree_log _ _ k, here_log _ _ k, hext, exists_find_error hthere, hwrite⟩

/-- Making a configuration changes what a file holds only when its path goes up out of a directory that was missing,
and leads to that file as soon as the directory is there. -/
theorem overwritten_by_init_iff (h : (init p projectName compiler).on m = (r, n))
    (hl : ∃ x, m.tree.get? l = some (.file b x)) :
    (¬∃ x, n.tree.get? l = some (.file b x)) ↔
      (p.GoesUp ∧ ∃ d e, p.parent? = some d ∧ m.tree.find m.here d = .error e) ∧
        ∃ c, r = .ok c ∧ n.tree.place n.here p true = .ok (.found l) ∧ kept l (Utf8.encode c.render) ≠ b := by
  obtain ⟨x, hx⟩ := hl
  rcases cases_of_init h with ⟨⟨e, rfl⟩, hspares⟩ | ⟨c, k, rfl, htree, hhere, hext, ⟨e, hmissing⟩, hwrite⟩
  · have hx' : n.tree.get? l = some (.file b x) := hspares.get? List.not_mem_nil hx
    constructor
    · intro hlost
      exact absurd ⟨x, hx'⟩ hlost
    · rintro ⟨-, c, hc, -⟩
      cases hc
  · obtain ⟨name, hname⟩ := exists_fileName hext
    rw [htree, hhere]
    rcases cases_of_writeText hwrite with ⟨⟨e, he⟩, -⟩ | ⟨-, l', hl', hspared⟩
    · cases he
    · constructor
      · intro hlost
        have hsame : l' = l := by
          by_contra hne
          have hmem : l ∉ [l'] := by simpa using fun h => hne h.symm
          exact hlost ⟨x, hspared.spares.get? hmem hx⟩
        subst hsame
        obtain ⟨j, hroom, hplace⟩ := place_of_writeText hwrite hx hl'
        refine ⟨goesUp_of_makeRoom hmissing hname hx hroom hplace, c, rfl, hl'.place, fun hkept => ?_⟩
        rw [hkept] at hl'
        exact hlost hl'.file
      · rintro ⟨-, c', hc, hplace, hkept⟩ ⟨y, hy⟩
        cases hc
        cases hl'.place.symm.trans hplace
        obtain ⟨z, hz⟩ := hl'.file
        rw [hy] at hz
        cases hz
        exact hkept rfl

theorem exists_init_of_room (projectName compiler : Option String) (hext : p.extension? = some "toml".toList)
    (hmissing : m.tree.find m.here p = .error e) (hroom : (makeRoom p).on m = (.ok (), k)) (hl : k.tree.Leads k.here p l b) :
    ∃ n, (init p projectName compiler).on m = (.ok (fresh p projectName compiler), n) ∧
      n.tree.place n.here p true = .ok (.found l) := by
  obtain ⟨t, hwrite, hnew, -⟩ := hl.exists_writeFile (Utf8.encode (fresh p projectName compiler).render)
  have hsave : ((fresh p projectName compiler).save p).on m = (.ok (), { k with tree := t }) := by
    unfold save
    rw [on_bind_ok (on_checkExtension hext), writeText_eq, on_bind_ok hroom, on_attempt, run_writeBytes, hwrite]
  unfold init
  rw [on_bind_ok (on_exists p m), hmissing]
  refine ⟨_, on_bind_ok hsave, ?_⟩
  rw [tree_log, here_log]
  exact hnew.place

def garbled : Machine where
  tree := .ofEntries [(["a.toml".toList], .file [0xff] false)]
  here := []

def roundabout : Path :=
  Path.ofString "x/../a.toml"

theorem overwritten_by_init : ∃ r n, (init roundabout none none).on garbled = (r, n) ∧
    (∃ x, garbled.tree.get? ["a.toml".toList] = some (.file [0xff] x)) ∧
    ¬∃ x, n.tree.get? ["a.toml".toList] = some (.file [0xff] x) := by
  have hfile : ∃ x, garbled.tree.get? ["a.toml".toList] = some (.file [0xff] x) := ⟨false, by decide⟩
  have hup : roundabout.GoesUp := by decide
  have hext : roundabout.extension? = some "toml".toList := by decide
  have hparent : roundabout.parent? = some (Path.ofString "x/..") := by decide
  have habsent : garbled.tree.find [] (Path.ofString "x/..") = .error .notFound := by cbv
  have hmissing : garbled.tree.find [] roundabout = .error .notFound := by cbv
  have hroom : ((makeRoom roundabout).on garbled).1 = .ok () := by cbv
  have hplace : ((makeRoom roundabout).on garbled).2.tree.place [] roundabout true = .ok (.found ["a.toml".toList]) := by
    cbv
  have hthere : ((makeRoom roundabout).on garbled).2.tree.get? ["a.toml".toList] = some (.file [0xff] false) := by cbv
  have hhere : ((makeRoom roundabout).on garbled).2.here = [] := by cbv
  generalize hmade : (makeRoom roundabout).on garbled = room at *
  have hleads : room.2.tree.Leads room.2.here roundabout ["a.toml".toList] [0xff] := by
    rw [hhere]
    exact ⟨hplace, false, hthere⟩
  have hmade' : (makeRoom roundabout).on garbled = (.ok (), room.2) := hmade.trans (Prod.ext hroom rfl)
  obtain ⟨n, hrun, hn⟩ := exists_init_of_room none none hext hmissing hmade' hleads
  have hkept : kept ["a.toml".toList] (Utf8.encode (fresh roundabout none none).render) ≠ [0xff] := by
    intro h
    have hdecode : Utf8.decode? [0xff] = none := by cbv
    rw [kept, if_neg (by decide)] at h
    rw [← h, Utf8.decode?_encode] at hdecode
    cases hdecode
  refine ⟨_, n, hrun, hfile, ?_⟩
  exact (overwritten_by_init_iff hrun hfile).2 ⟨⟨hup, _, _, hparent, habsent⟩, _, rfl, hn, hkept⟩

end Manifest
end CBuild
