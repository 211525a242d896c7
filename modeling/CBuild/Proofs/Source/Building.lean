import CBuild.Proofs.Machine.Asking
import CBuild.Proofs.Path.Names
import CBuild.Proofs.Source.Reach

/-! Where the records of an index come from. The relative paths are spelled by the names on the way from the root. -/

namespace CBuild

namespace FileTree

/-- Every name in the tree is one that a file can have. -/
def WellNamed (t : FileTree) : Prop :=
  ∀ x ∈ t.entries, ∀ n ∈ x.1, Path.IsFileName n

instance (t : FileTree) : Decidable t.WellNamed :=
  inferInstanceAs (Decidable (∀ x ∈ t.entries, ∀ n ∈ x.1, Path.IsFileName n))

theorem WellNamed.of_get? {t : FileTree} {l : Location} {e : TreeEntry} (h : t.WellNamed) (hl : t.get? l = some e) :
    ∀ n ∈ l, Path.IsFileName n := by
  by_cases hnil : l = []
  · rw [hnil]
    exact List.forall_mem_nil _
  · exact h (l, e) ((get?_eq_some_iff hnil).1 hl)

theorem WellNamed.entriesIn {t : FileTree} (h : t.WellNamed) (l : Location) :
    ∀ x ∈ t.entriesIn l, Path.IsFileName x.1 := by
  rintro ⟨n, e⟩ hx
  exact h.of_get? (mem_entriesIn_iff.1 hx) n (by simp)

theorem WellNamed.namesIn {t : FileTree} (h : t.WellNamed) (l : Location) : ∀ n ∈ t.namesIn l, Path.IsFileName n :=
  List.forall_mem_map.2 (h.entriesIn l)

end FileTree

namespace Machine

open CBuild.Path Source

variable {α β : Type} {x : StateM Machine α} {f : α → StateM Machine β} {P : α → Prop} {Q : β → Prop}

def Gives (P : α → Prop) (x : StateM Machine α) : Prop :=
  ∀ m, m.tree.WellNamed → P (x.run m).1 ∧ (x.run m).2.tree = m.tree

theorem gives_pure {a : α} (h : P a) : Gives P (pure a) :=
  fun _ _ => ⟨h, rfl⟩

theorem Gives.bind (hx : Gives P x) (hf : ∀ a, P a → Gives Q (f a)) : Gives Q (x >>= f) := by
  intro m hm
  obtain ⟨ha, htree⟩ := hx m hm
  obtain ⟨hb, htree'⟩ := hf _ ha (x.run m).2 (by rwa [htree])
  rw [StateT.run_bind]
  exact ⟨hb, htree'.trans htree⟩

theorem Gives.mapM {xs : List α} (h : ∀ a ∈ xs, Gives Q (f a)) : Gives (∀ b ∈ ·, Q b) (xs.mapM f) := by
  induction xs with
  | nil => exact gives_pure (by simp)
  | cons a xs ih =>
    rw [List.forall_mem_cons] at h
    rw [List.mapM_cons]
    exact h.1.bind fun b hb => (ih h.2).bind fun bs hbs => gives_pure (List.forall_mem_cons.2 ⟨hb, hbs⟩)

theorem Asks.gives (h : Asks x) : Gives (fun _ => True) x :=
  fun m _ => ⟨trivial, (h m).1⟩

theorem gives_entriesIn (p : Path) :
    Gives (fun answer => ∀ entries, answer = .ok entries → ∀ x ∈ entries, IsFileName x.1) (Host.entriesIn p) := by
  intro m hm
  refine ⟨fun entries hentries => ?_, rfl⟩
  change m.entriesIn p = .ok entries at hentries
  rw [entriesIn] at hentries
  rcases hfind : m.tree.find m.here p with e | ⟨l, e⟩
  · rw [hfind] at hentries
    cases hentries
  · rw [hfind] at hentries
    cases e with
    | directory =>
      cases hentries
      rw [List.forall_mem_map]
      exact hm.entriesIn l
    | file b x => cases hentries
    | link target => cases hentries

theorem gives_filesBelow (root : Path) (depth : Nat) {relative : List (List Char)}
    (h : ∀ x ∈ relative, IsFileName x) : Gives (∀ p ∈ ·, Named p) (Index.filesBelow root depth relative) := by
  induction depth generalizing relative with
  | zero => exact gives_pure (by simp)
  | succ depth ih =>
    rw [Index.filesBelow]
    refine (gives_entriesIn _).bind fun entries hentries => ?_
    cases entries with
    | error e => exact gives_pure (by simp)
    | ok entries =>
      refine Gives.bind (P := fun found => ∀ l ∈ found, ∀ p ∈ l, Named p) (Gives.mapM fun entry hentry => ?_) ?_
      · obtain ⟨n, kind⟩ := entry
        have hlonger : ∀ x ∈ relative ++ [n], IsFileName x := by
          intro x hx
          rcases List.mem_append.1 hx with hx | hx
          · exact h x hx
          · rw [List.mem_singleton.1 hx]
            exact hentries entries rfl _ hentry
        have hself : ∀ p ∈ [ofNames (relative ++ [n])], Named p := by
          intro p hp
          rw [List.mem_singleton.1 hp]
          exact ⟨relative, n, rfl, hlonger⟩
        cases kind with
        | file => exact gives_pure hself
        | directory => exact ih hlonger
        | link =>
          refine (asks_isFile _).gives.bind fun leads _ => ?_
          cases leads with
          | false => exact gives_pure (by simp)
          | true => exact gives_pure hself
        | other => exact gives_pure (by simp)
      · intro found hfound
        refine gives_pure fun p hp => ?_
        obtain ⟨l, hl, hpl⟩ := List.mem_flatten.1 hp
        exact hfound l hl p hpl

theorem exists_build {root : Path} {m : Machine} {d : Location} (h : m.tree.find m.here root = .ok (d, .directory)) :
    ∃ ix n, (Index.build root).on m = (.ok ix, n) := by
  have hdirectory : (Host.isDirectory root : StateM Machine Bool).run m = (true, m) := by
    change (decide (((m.tree.find m.here root).toOption.map fun x => kindOf x.1 x.2) = some .directory), m) = _
    rw [h]
    rfl
  rw [Index.build, Action.on_bind, Action.on_lift, hdirectory]
  exact ⟨_, _, rfl⟩

theorem ofFiles_of_build {root : Path} {m n : Machine} {ix : Index} (h : (Index.build root).on m = (.ok ix, n)) :
    ix = .ofFiles root ((Index.filesBelow root (m.deepest + 1) [] : StateM Machine _).run m).1 := by
  obtain ⟨directory, k, hdirectory, hrest⟩ := Action.ok_of_on_bind h
  cases hdirectory
  split at hrest
  · obtain ⟨depth, k', hdepth, hrest⟩ := Action.ok_of_on_bind hrest
    cases hdepth
    obtain ⟨sources, k'', hsources, hrest⟩ := Action.ok_of_on_bind hrest
    obtain ⟨_, _, -, hlast⟩ := Action.ok_of_on_bind hrest
    cases hsources
    cases hlast
    rfl
  · cases hrest

theorem record?_of_build {root : Path} {m n : Machine} {ix : Index} (h : (Index.build root).on m = (.ok ix, n)) :
    ∀ r ∈ ix.records, Index.record? root r.relative = some r := by
  rw [ofFiles_of_build h]
  exact fun r => Index.record?_of_mem_ofFiles

theorem named_of_build {root : Path} {m n : Machine} {ix : Index} (hnames : m.tree.WellNamed)
    (h : (Index.build root).on m = (.ok ix, n)) : ∀ r ∈ ix.records, r.relative.Named := by
  obtain ⟨hfiles, -⟩ := gives_filesBelow root (m.deepest + 1) (List.forall_mem_nil _) m hnames
  intro r hr
  rw [ofFiles_of_build h] at hr
  exact hfiles r.relative (Index.of_mem_ofFiles hr).1

end Machine
end CBuild
