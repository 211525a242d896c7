import CBuild.Proofs.Machine.Sparing
import CBuild.Proofs.Path.Names

/-! Directories that are made for a path. When the path does not go up, it leads to a directory that was there, and
nothing is made, or to a new one, in which there is nothing but what is new. -/

namespace CBuild

open FileTree

namespace FileTree

variable {t u : FileTree} {here d l : Location} {links : Nat} {parts pre : List (List Char)} {p q : Path} {e : TreeEntry}
  {name n : List Char}

theorem withoutEndSlashes_eq (h : p.chars.getLast? ≠ some '/') : withoutEndSlashes p = p := by
  have hdrop : p.chars.reverse.dropWhile (· = '/') = p.chars.reverse := by
    cases hr : p.chars.reverse with
    | nil => rfl
    | cons c r =>
      have hc : c ≠ '/' := by
        rintro rfl
        rw [List.getLast?_eq_head?_reverse, hr] at h
        exact h rfl
      simp [hc]
  unfold withoutEndSlashes
  rw [hdrop]
  split
  · rfl
  · simp

theorem withoutEndSlashes_parent? (h : p.parent? = some q) : withoutEndSlashes q = q := by
  obtain ⟨idle, hparts, -, hanchor⟩ := p.anchored_cases
  unfold Path.parent? at h
  dsimp only at h
  split at h
  · split at h
    · cases h
      split
      · rfl
      next ha =>
        rcases hanchor with ⟨ha', -⟩ | ⟨-, hone | hone⟩
        · exact absurd ha' ha
        · rw [hone]
          rfl
        · rw [hone]
          rfl
    · split at h
      · cases h
        rfl
      · cases h
  next hkept =>
    cases h
    apply withoutEndSlashes_eq
    obtain ⟨kept, part, hlast⟩ := (List.eq_nil_or_concat' (Path.dropIdleEnd p.anchored.2.dropLast)).resolve_left hkept
    obtain ⟨dropped, hdropped, -⟩ := Path.dropIdleEnd_append p.anchored.2.dropLast
    have hmem : part ∈ p.anchored.2 := by
      apply List.dropLast_subset
      rw [hdropped, hlast]
      simp
    have hslash : '/' ∉ part := by
      apply Path.slash_not_mem p.chars
      rw [Path.parts] at hparts
      rw [hparts]
      simp [hmem]
    have hne : part ≠ [] := fun hnil => Path.last_dropIdleEnd hlast (.inl hnil)
    obtain ⟨front, hfront⟩ := Path.exists_chars_ofNames (p.anchored.1 ++ kept) part
    rw [hlast, ← List.append_assoc]
    rw [Path.ofNames] at hfront
    dsimp only at hfront ⊢
    rw [hfront, List.getLast?_append_of_ne_nil _ hne]
    intro hend
    exact hslash (List.mem_of_getLast? hend)

theorem get?_below_none (h : t.get? l = none) (n : List Char) : t.get? (l ++ [n]) = none := by
  rw [Option.eq_none_iff_forall_ne_some]
  intro e he
  have hd : t.IsDirectory l := isDirectory_of_get? he
  rw [IsDirectory, h] at hd
  cases hd

theorem Spares.isDirectory_of_new (h : Spares [] t u) (ht : t.get? l = none) (hu : u.get? l = some e) :
    e = .directory := by
  rcases h l List.not_mem_nil with hsame | ⟨-, hdirectory⟩
  · rw [hu, ht] at hsame
    cases hsame
  · rw [hu] at hdirectory
    exact Option.some.inj hdirectory

def LeadsToNew (t u : FileTree) (here : Location) (p : Path) : Prop :=
  ∃ d, u.place here p true = .ok (.found d) ∧ u.IsDirectory d ∧ t.get? d = none

theorem Walks.fill_directory {asDirectory : Bool} (h : Walks t false links here parts (.free d name asDirectory))
    (hg : u.get? (d ++ [name]) = some .directory) (hs : ∀ l ≠ d ++ [name], u.get? l = t.get? l) :
    Walks u true links here parts (.found (d ++ [name])) := by
  refine h.onto (fun _ => rfl) hs fun links rest hn hr _ => ?_
  have hidle : ∀ part ∈ rest, part = [] ∨ part = ['.'] := fun part hp =>
    .inl (by simpa using List.all_eq_true.1 hr part hp)
  exact .directory hn hg (.of_idle hidle)

theorem leadsToNew_of_makeDirectory (hp : withoutEndSlashes p = p) (h : t.makeDirectory here p = .ok u) :
    LeadsToNew t u here p := by
  unfold makeDirectory at h
  rw [hp] at h
  rcases hplace : t.place here p false with e | (l | ⟨d, n, asDirectory⟩)
  · rw [hplace] at h
    cases h
  · rw [hplace] at h
    cases h
  · rw [hplace] at h
    obtain ⟨hself, hne⟩ := get?_of_set h
    have hw : Walks t false linkLimit (startOf here p) p.parts (.free d n asDirectory) := walks_of_place hplace
    refine ⟨d ++ [n], ?_, hself, hw.get?_free⟩
    rw [place_eq_walk (spelled_of_place hplace)]
    exact (hw.fill_directory hself hne).eq_ok

theorem LeadsToNew.below (h : LeadsToNew t u here q) (hs : Spares [] t u) (hname : p.fileName? = some n)
    (hparent : p.parent? = some q) (hp : u.place here p true = .ok (.found l)) : t.get? l = none ∧ u.IsDirectory l := by
  obtain ⟨d, hq, hd, hnone⟩ := h
  obtain ⟨pre, idle, hparts, hidle, hn, hup, q', hq', hspelled⟩ := Path.exists_of_fileName? hname
  rw [hparent] at hq'
  cases hq'
  have hleading : q.Leading p pre := hspelled.resolve_left (spelled_of_place hq).written
  have hpre : Walks u true linkLimit (startOf here p) pre (.found d) := by
    obtain ⟨kept, old, new, rfl, hnew, hold, hidle'⟩ := hleading.spelled
    have hw := walks_of_place hq
    rw [startOf_of_leading hleading, hnew] at hw
    exact hw.idle_end hd hidle' hold
  have hw : Walks u true linkLimit (startOf here p) (pre ++ n :: idle) (.found l) := hparts ▸ walks_of_place hp
  obtain ⟨d', k, ⟨hpre', -⟩, hwalk⟩ := hw.split (u := u) (fun h => hn (.inl h)) fun _ _ => .inl rfl
  cases hpre.eq_ok.symm.trans hpre'.eq_ok
  have hlast : Walks u true k d (n :: idle) (.found l) := .of_eq_ok ((hwalk true).1.symm.trans hw.eq_ok)
  have hnew : t.get? (d ++ [n]) = none := get?_below_none hnone n
  cases hlast with
  | idle h => exact absurd h hn
  | up => exact absurd rfl hup
  | directory hm hg w =>
    have hstay : Walks u true k (d ++ [n]) idle (.found (d ++ [n])) := .of_idle hidle
    cases w.eq_ok.symm.trans hstay.eq_ok
    exact ⟨hnew, hg⟩
  | file hm hg => cases hs.isDirectory_of_new hnew hg
  | itself _ _ hf => cases hf
  | link hm hg _ _ => cases hs.isDirectory_of_new hnew hg

theorem makeDirectory_idle (hidle : ∀ part ∈ p.parts, part = [] ∨ part = ['.']) (hp : withoutEndSlashes p = p)
    (hne : p.chars ≠ []) : t.makeDirectory here p ≠ .error .notFound := by
  have hwalk : t.walk false linkLimit (startOf here p) p.parts = .ok (.found (startOf here p)) :=
    (Walks.of_idle hidle).eq_ok
  unfold startOf at hwalk
  unfold makeDirectory
  rw [hp]
  unfold place
  rw [if_neg hne]
  split
  · exact nofun
  · split
    · exact nofun
    · rw [hwalk]
      exact nofun

end FileTree

namespace Machine

open CBuild.Action

variable {m k n : Machine} {p q : Path} {above : List Path} {r : Except OsError Unit} {l : Location}

def HasDirectory (m : Machine) (p : Path) : Prop :=
  ∃ d, m.tree.find m.here p = .ok (d, .directory)

def kind (m : Machine) (p : Path) : Option FileKind :=
  (m.tree.find m.here p).toOption.map fun x => kindOf x.1 x.2

theorem kindOf_eq_directory {l : Location} {e : TreeEntry} : kindOf l e = .directory ↔ e = .directory := by
  cases e with
  | directory => exact iff_of_true rfl rfl
  | file b x => by_cases h : l = nowhere <;> simp [kindOf, h]
  | link target => by_cases h : l = nowhere <;> simp [kindOf, h]

theorem kindOf_eq_file {l : Location} {e : TreeEntry} : kindOf l e = .file ↔ e ≠ .directory ∧ l ≠ nowhere := by
  cases e with
  | directory => simp [kindOf]
  | file b x => by_cases h : l = nowhere <;> simp [kindOf, h]
  | link target => by_cases h : l = nowhere <;> simp [kindOf, h]

theorem kindOf_eq_of_ne {k l : Location} (hk : k ≠ nowhere) (hl : l ≠ nowhere) : kindOf k = kindOf l := by
  funext e
  cases e <;> simp [kindOf, hk, hl]

theorem kind_of_place {f : TreeEntry} {l : Location} (h : m.tree.place m.here p true = .ok (.found l))
    (hl : m.tree.get? l = some f) : m.kind p = some (kindOf l f) := by
  have hfind : m.tree.find m.here p = .ok (l, f) := find_eq_ok_iff.2 ⟨h, hl⟩
  unfold kind
  rw [hfind]
  rfl

theorem kind_eq_some_iff {f : FileKind} : m.kind p = some f ↔
    ∃ l e, m.tree.place m.here p true = .ok (.found l) ∧ m.tree.get? l = some e ∧ kindOf l e = f := by
  constructor
  · intro h
    unfold kind at h
    cases hfind : m.tree.find m.here p with
    | error e =>
      rw [hfind] at h
      cases h
    | ok found =>
      rw [hfind] at h
      obtain ⟨hplace, hl⟩ := find_eq_ok_iff.1 hfind
      exact ⟨found.1, found.2, hplace, hl, Option.some.inj h⟩
  · rintro ⟨l, e, hplace, hl, rfl⟩
    exact kind_of_place hplace hl

theorem kind_directory_iff : m.kind p = some .directory ↔
    ∃ l, m.tree.place m.here p true = .ok (.found l) ∧ m.tree.IsDirectory l := by
  rw [kind_eq_some_iff]
  constructor
  · rintro ⟨l, e, hplace, hl, hkind⟩
    rw [kindOf_eq_directory] at hkind
    subst hkind
    exact ⟨l, hplace, hl⟩
  · rintro ⟨l, hplace, hl⟩
    exact ⟨l, .directory, hplace, hl, rfl⟩

theorem run_isDirectory (p : Path) (m : Machine) :
    ∃ b, (Host.isDirectory p : StateM Machine Bool).run m = (b, m) ∧ (b = true → m.HasDirectory p) := by
  refine ⟨_, rfl, fun h => ?_⟩
  obtain ⟨d, hplace, hd⟩ := kind_directory_iff.1 (of_decide_eq_true h : m.kind p = some .directory)
  exact ⟨d, find_eq_ok_iff.2 ⟨hplace, hd⟩⟩

theorem run_bind {α β : Type} {x : StateM Machine α} {f : α → StateM Machine β} {a : α} (h : x.run m = (a, k)) :
    (x >>= f).run m = (f a).run k := by
  rw [StateT.run_bind, h]
  rfl

theorem hasDirectory_of_settle {e : OsError}
    (h : (do if ← Host.isDirectory p then return .ok () else return .error e : StateM Machine (Except OsError Unit)).run m =
      (.ok (), n)) : m.HasDirectory p ∧ n = m := by
  obtain ⟨b, hrun, hb⟩ := run_isDirectory p m
  rw [run_bind hrun] at h
  cases b with
  | true =>
    cases h
    exact ⟨hb rfl, rfl⟩
  | false => cases h

theorem run_makeDirectory_ok {t : FileTree} (h : m.tree.makeDirectory m.here p = .ok t) :
    (Host.makeDirectory p : StateM Machine _).run m = (.ok (), { m with tree := t }) := by
  rw [run_makeDirectory, h]

theorem run_makeDirectory_error {e : OsError} (h : m.tree.makeDirectory m.here p = .error e) :
    (Host.makeDirectory p : StateM Machine _).run m = (.error e, m) := by
  rw [run_makeDirectory, h]

theorem cases_of_makeAll (hne : p.chars ≠ [])
    (h : (Files.makeAll (p :: above) : StateM Machine _).run m = (.ok (), n)) :
    (m.HasDirectory p ∧ n = m) ∨
    (∃ t, m.tree.makeDirectory m.here p = .ok t ∧ n = { m with tree := t }) ∨
    (m.tree.makeDirectory m.here p = .error .notFound ∧
      ∃ k, (Files.makeAll above : StateM Machine _).run m = (.ok (), k) ∧
        (k.HasDirectory p ∧ n = k ∨ ∃ t, k.tree.makeDirectory k.here p = .ok t ∧ n = { k with tree := t })) := by
  rw [Files.makeAll, if_neg hne] at h
  rcases hmade : m.tree.makeDirectory m.here p with e | t
  · rw [run_bind (run_makeDirectory_error hmade)] at h
    split at h
    next hok => cases hok
    next hmissing =>
      cases hmissing
      right
      right
      refine ⟨rfl, ?_⟩
      rcases habove : (Files.makeAll above : StateM Machine _).run m with ⟨e | _, k⟩
      · rw [run_bind habove] at h
        cases h
      · rw [run_bind habove] at h
        refine ⟨k, rfl, ?_⟩
        dsimp only at h
        rcases hagain : k.tree.makeDirectory k.here p with e | t
        · rw [run_bind (run_makeDirectory_error hagain)] at h
          exact .inl (hasDirectory_of_settle h)
        · rw [run_bind (run_makeDirectory_ok hagain)] at h
          cases h
          exact .inr ⟨t, rfl, rfl⟩
    next => exact .inl (hasDirectory_of_settle h)
  · rw [run_bind (run_makeDirectory_ok hmade)] at h
    cases h
    exact .inr (.inl ⟨t, rfl, rfl⟩)

theorem exists_ancestors (k : Nat) (p : Path) : ∃ above, Path.ancestors.go k p = p :: above ∧
    (above = [] ∨ ∃ q j, p.parent? = some q ∧ above = Path.ancestors.go j q ∧ j < k) := by
  cases k with
  | zero => exact ⟨[], rfl, .inl rfl⟩
  | succ j =>
    cases hq : p.parent? with
    | none =>
      refine ⟨[], ?_, .inl rfl⟩
      rw [Path.ancestors.go, hq]
    | some q =>
      refine ⟨Path.ancestors.go j q, ?_, .inr ⟨q, j, rfl, rfl, Nat.lt_succ_self j⟩⟩
      rw [Path.ancestors.go, hq]

/-- What is made for a path that does not go up: nothing, when it leads to a directory, and else a new directory that
it leads to. -/
theorem made {j : Nat} (hup : ¬p.GoesUp) (hp : withoutEndSlashes p = p)
    (h : (Files.makeAll (Path.ancestors.go j p) : StateM Machine _).run m = (.ok (), n)) :
    (n.tree = m.tree ∧ (p.chars = [] ∨ m.HasDirectory p)) ∨ LeadsToNew m.tree n.tree m.here p := by
  induction j using Nat.strongRecOn generalizing p n with
  | ind j ih =>
    obtain ⟨above, hgo, habove⟩ := exists_ancestors j p
    rw [hgo] at h
    by_cases hne : p.chars = []
    · rw [Files.makeAll, if_pos hne] at h
      cases h
      exact .inl ⟨rfl, .inl hne⟩
    rcases cases_of_makeAll hne h with ⟨hdirectory, rfl⟩ | ⟨t, ht, rfl⟩ | ⟨hmissing, k, hk, hlast⟩
    · exact .inl ⟨rfl, .inr hdirectory⟩
    · exact .inr (leadsToNew_of_makeDirectory hp ht)
    · rcases habove with rfl | ⟨q, i, hq, rfl, hi⟩
      · cases hk
      cases hname : p.fileName? with
      | none => exact absurd hmissing (makeDirectory_idle (Path.idle_of_fileName? hname hup) hp hne)
      | some name =>
        have hupq : ¬q.GoesUp := fun h => hup (h.of_parent? hname hq)
        have hspared : Spared [] m k := by
          have hadds := adds_makeAll (Path.ancestors.go i q) m
          rwa [hk] at hadds
        rcases ih i hi hupq (withoutEndSlashes_parent? hq) hk with ⟨hsame, -⟩ | hnew
        · rcases hlast with ⟨⟨d, hd⟩, rfl⟩ | ⟨t, ht, -⟩
          · rw [hsame, hspared.here] at hd
            exact .inl ⟨hsame, .inr ⟨d, hd⟩⟩
          · rw [hsame, hspared.here, hmissing] at ht
            cases ht
        · right
          rcases hlast with ⟨⟨d, hd⟩, rfl⟩ | ⟨t, ht, rfl⟩
          · rw [hspared.here] at hd
            have hplace := (find_eq_ok_iff.1 hd).1
            obtain ⟨hnone, hdirectory⟩ := hnew.below hspared.spares hname hq hplace
            exact ⟨d, hplace, hdirectory, hnone⟩
          · rw [hspared.here] at ht
            obtain ⟨d, hplace, hdirectory, hnone⟩ := leadsToNew_of_makeDirectory hp ht
            refine ⟨d, hplace, hdirectory, ?_⟩
            rcases hspared.spares d List.not_mem_nil with hsame | ⟨hnone', -⟩
            · exact hsame.symm.trans hnone
            · exact hnone'

end Machine
end CBuild
