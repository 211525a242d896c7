import CBuild.Proofs.Machine.Allowing
import CBuild.Proofs.Machine.Onward
import CBuild.Proofs.Source.Companion

/-! What an index is made of. The walk below a root goes from directory to directory, and opens each by its path as far as
the process has access; what it has found is told by the entries of the tree, so the order in which directories are listed
makes no difference. -/

namespace CBuild

open Machine FileTree Source
open CBuild.Path (ofNames IsPart IsFileName)

namespace FileTree

variable {t : FileTree} {follow : Bool} {links : Nat} {here d l : Location} {ns ms parts : List (List Char)} {e : TreeEntry}
  {root : Path}

/-- Every name in the tree is one that a system lets a file have. -/
def Nameable (t : FileTree) : Prop :=
  ∀ x ∈ t.entries, ∀ n ∈ x.1, IsFileName n ∧ '\x00' ∉ n ∧ byteLength n ≤ nameLimit

instance (t : FileTree) : Decidable t.Nameable :=
  inferInstanceAs (Decidable (∀ x ∈ t.entries, ∀ n ∈ x.1, IsFileName n ∧ '\x00' ∉ n ∧ byteLength n ≤ nameLimit))

theorem Nameable.of_get? (h : t.Nameable) (hl : t.get? l = some e) :
    ∀ n ∈ l, IsFileName n ∧ '\x00' ∉ n ∧ byteLength n ≤ nameLimit := by
  by_cases hnil : l = []
  · rw [hnil]
    exact List.forall_mem_nil _
  · exact h (l, e) ((get?_eq_some_iff hnil).1 hl)

theorem Walks.down (hn : t.Nameable) (hd : t.IsDirectory (d ++ ns)) : Walks t follow links d ns (.found (d ++ ns)) := by
  induction ns generalizing d with
  | nil =>
    rw [List.append_nil]
    exact .stay _ _
  | cons n ns ih =>
    have hstep : t.IsDirectory (d ++ [n]) := by
      by_cases hns : ns = []
      · rwa [hns] at hd
      · rw [List.append_cons] at hd
        exact isDirectory_of_append hd hns
    obtain ⟨hname, -, hfits⟩ := hn.of_get? hstep n (by simp)
    rw [List.append_cons] at hd ⊢
    exact .directory ⟨hname.not_idle, hname.not_up, by omega⟩ hstep (ih hd)

theorem Walks.not_link (h : Walks t true links here parts (.found l)) (hd : t.IsDirectory here) (target : Path) :
    t.get? l ≠ some (.link target) := by
  intro hl
  rcases h.ends hd with hdirectory | ⟨b, x, hfile⟩
  · cases hl.symm.trans hdirectory
  · cases hl.symm.trans hfile

def Regular (t : FileTree) (l : Location) : Prop :=
  l ≠ nowhere ∧ ∃ b x, t.get? l = some (.file b x)

def Room (root : Path) (ns : List (List Char)) : Prop :=
  ns = [] ∨ byteLength (root / ofNames ns).chars ≤ pathLimit

instance (root : Path) (ns : List (List Char)) : Decidable (Room root ns) :=
  inferInstanceAs (Decidable (_ ∨ _))

theorem Room.of_append (h : Room root (ns ++ ms)) (hparts : ∀ x ∈ ns ++ ms, IsPart x) : Room root ns := by
  by_cases hnil : ns = []
  · exact .inl hnil
  · have hlong := h.resolve_left (by simp [hnil])
    obtain ⟨front, -, hchars⟩ := root.exists_chars_div
    have hshort : byteLength (ofNames ns).chars ≤ byteLength (ofNames (ns ++ ms)).chars :=
      byteLength_le (Path.intercalate_prefix ns ms).sublist
    rw [hchars _ (Path.isAbsolute_ofNames hparts), byteLength_append] at hlong
    have hns := Path.isAbsolute_ofNames fun x hx => hparts x (List.mem_append_left ms hx)
    refine .inr ?_
    rw [hchars _ hns, byteLength_append]
    omega

/-- A directory below a root is found by its path when there is room for this, and else no system looks for it. -/
theorem find_below (hn : t.Nameable) (hroot : t.find here root = .ok (d, .directory)) (hd : t.IsDirectory (d ++ ns)) :
    t.find here (if ns = [] then root else root / ofNames ns) =
      if Room root ns then .ok (d ++ ns, .directory) else .error .nameTooLong := by
  by_cases hnil : ns = []
  · have hroom : Room root ns := .inl hnil
    rw [if_pos hnil, if_pos hroom, hnil, List.append_nil]
    exact hroot
  · rw [if_neg hnil]
    have hnames : ∀ n ∈ ns, IsFileName n ∧ '\x00' ∉ n ∧ byteLength n ≤ nameLimit := fun n hmem =>
      hn.of_get? hd n (List.mem_append_right d hmem)
    have hparts : ∀ n ∈ ns, IsPart n := fun n hmem => (hnames n hmem).1.isPart
    have habsolute := Path.isAbsolute_ofNames hparts
    obtain ⟨hplace, hdirectory⟩ := find_eq_ok_iff.1 hroot
    have hspelled := spelled_of_place hplace
    have hclean : '\x00' ∉ (ofNames ns).chars := Path.not_mem_ofNames (by decide) fun n hmem => (hnames n hmem).2.1
    split
    next hroom =>
      have hfits : byteLength (root / ofNames ns).chars ≤ pathLimit := hroom.resolve_left hnil
      obtain ⟨k, -, hwalk⟩ := exists_place_div hplace hdirectory
      rw [find_eq_ok_iff, hwalk _ habsolute (spelled_div hspelled.written hspelled.clean habsolute hclean hfits),
        Path.parts_ofNames hparts hnil]
      exact ⟨(Walks.down hn hd).eq_ok, hd⟩
    next hroom =>
      have hlong : byteLength (root / ofNames ns).chars > pathLimit := by
        by_contra hle
        exact hroom (.inr (by omega))
      have hnul : ¬(root / ofNames ns).chars.contains '\x00' := by
        obtain ⟨front, hfront, hchars⟩ := root.exists_chars_div
        rw [hchars _ habsolute, List.contains_iff_mem, List.mem_append, not_or]
        refine ⟨?_, hclean⟩
        rcases hfront with rfl | rfl
        · exact hspelled.clean
        · simpa using hspelled.clean
      unfold find place
      rw [if_neg hnul, if_neg (Path.chars_div_ne_nil hspelled.written habsolute), if_pos hlong]
      rfl

end FileTree

theorem Machine.kind_file_iff {m : Machine} {d : Location} {root p : Path}
    (hroot : m.tree.find m.here root = .ok (d, .directory)) (hp : p.isAbsolute = false) :
    m.kind (root / p) = some .file ↔ ∃ l, m.tree.place m.here (root / p) true = .ok (.found l) ∧ m.tree.Regular l := by
  rw [kind_eq_some_iff]
  constructor
  · rintro ⟨l, e, hplace, hl, hkind⟩
    rw [kindOf_eq_file] at hkind
    cases e with
    | directory => exact absurd rfl hkind.1
    | file b x => exact ⟨l, hplace, hkind.2, b, x, hl⟩
    | link target =>
      obtain ⟨hstart, hd⟩ := find_eq_ok_iff.1 hroot
      obtain ⟨k, -, hwalk⟩ := exists_place_div hstart hd
      have hwalks : Walks m.tree true k d p.parts (.found l) :=
        .of_eq_ok ((hwalk p hp (spelled_of_place hplace)).symm.trans hplace)
      exact absurd hl (hwalks.not_link hd target)
  · rintro ⟨l, hplace, hne, b, x, hl⟩
    exact ⟨l, .file b x, hplace, hl, kindOf_eq_file.2 ⟨by simp, hne⟩⟩

theorem Machine.entriesIn_of_find {m : Machine} {p : Path} {l : Location}
    (h : m.tree.find m.here p = .ok (l, .directory)) :
    m.entriesIn p = .ok ((m.tree.entriesIn l).map fun (n, e) => (n, entryKindOf (l ++ [n]) e)) := by
  unfold Machine.entriesIn
  rw [h]
  rfl

theorem Machine.entriesIn_of_error {m : Machine} {p : Path} {e : OsError} (h : m.tree.find m.here p = .error e) :
    m.entriesIn p = .error e := by
  unfold Machine.entriesIn
  rw [h]
  rfl

namespace Access

variable {a : Access} {m k : Machine} {root p : Path} {d : Location} {ns relative : List (List Char)} {n x : List Char}
  {depth : Nat}

/-- The directory that the names lead to from the root can be listed: the process may, and there is room for its path. -/
def Lists (a : Access) (root : Path) (ns : List (List Char)) : Prop :=
  a.lists (if ns = [] then root else root / ofNames ns) ∧ Room root ns

instance (a : Access) (root : Path) (ns : List (List Char)) : Decidable (a.Lists root ns) :=
  inferInstanceAs (Decidable (_ ∧ _))

/-- The names lead from the directory of the root over directories that can be listed to the last of them, which names a
regular file, or a link whose path the process may follow to one. -/
structure HoldsFile (a : Access) (m : Machine) (root : Path) (d : Location) (ns : List (List Char)) (n : List Char) :
    Prop where
  lists : ∀ ms, ms <+: ns → a.Lists root ms
  file : m.tree.Regular (d ++ ns ++ [n]) ∨ ∃ target l, m.tree.get? (d ++ ns ++ [n]) = some (.link target) ∧
    a.looks (root / ofNames (ns ++ [n])) ∧
    m.tree.place m.here (root / ofNames (ns ++ [n])) true = .ok (.found l) ∧ m.tree.Regular l

theorem HoldsFile.exists_entry (h : a.HoldsFile m root d ns n) : ∃ e, m.tree.get? (d ++ ns ++ [n]) = some e := by
  rcases h.file with ⟨-, b, x, hentry⟩ | ⟨target, l, hentry, -⟩
  · exact ⟨_, hentry⟩
  · exact ⟨_, hentry⟩

def entryFiles (a : Access) (root : Path) (depth : Nat) (relative : List (List Char)) (x : List Char × EntryKind) :
    StateM Machine (List Path) :=
  match x.2 with
  | .file => return [ofNames (relative ++ [x.1])]
  | .directory => a.filesBelow root depth (relative ++ [x.1])
  | .link => do
    if ← a.isFile (root / ofNames (relative ++ [x.1])) then return [ofNames (relative ++ [x.1])] else return []
  | .other => return []

theorem filesBelow_succ (a : Access) (root : Path) (depth : Nat) (relative : List (List Char)) :
    a.filesBelow root (depth + 1) relative = do
      match ← a.entriesIn (if relative = [] then root else root / ofNames relative) with
      | .error _ => return []
      | .ok listed => return (← listed.mapM (a.entryFiles root depth relative)).flatten :=
  rfl

theorem steady_entryFiles {depth : Nat} (h : ∀ relative, Steady (a.filesBelow root depth relative))
    (relative : List (List Char)) (x : List Char × EntryKind) : Steady (a.entryFiles root depth relative x) := by
  obtain ⟨n, kind⟩ := x
  cases kind with
  | file => exact steady_pure _
  | directory => exact h _
  | link =>
    refine (steady_isFile a _).bind fun leads => ?_
    cases leads with
    | false => exact steady_pure _
    | true => exact steady_pure _
  | other => exact steady_pure _

theorem steady_filesBelow (a : Access) (root : Path) (depth : Nat) (relative : List (List Char)) :
    Steady (a.filesBelow root depth relative) := by
  induction depth generalizing relative with
  | zero => exact steady_pure _
  | succ depth ih =>
    rw [filesBelow_succ]
    refine (steady_entriesIn a _).bind fun listed => ?_
    cases listed with
    | error e => exact steady_pure _
    | ok listed => exact Steady.bind (Steady.mapM fun x _ => steady_entryFiles ih relative x) fun _ => steady_pure _

section Walking

theorem HoldsFile.isPart (hn : m.tree.Nameable) (h : a.HoldsFile m root d ns n) : ∀ x ∈ ns ++ [n], IsPart x := by
  obtain ⟨e, he⟩ := h.exists_entry
  intro x hx
  rw [List.append_assoc] at he
  exact (hn.of_get? he x (List.mem_append_right d hx)).1.isPart

theorem HoldsFile.isDirectory (h : a.HoldsFile m root d (relative ++ n :: ns) x) :
    m.tree.IsDirectory (d ++ relative ++ [n]) := by
  obtain ⟨e, he⟩ := h.exists_entry
  have hbehind : d ++ (relative ++ n :: ns) ++ [x] = (d ++ relative ++ [n]) ++ (ns ++ [x]) := by simp
  rw [hbehind] at he
  exact isDirectory_of_append he (by simp)

theorem HoldsFile.exists_first (h : a.HoldsFile m root d (relative ++ ns) x) :
    ∃ n e, (ns ++ [x]).head? = some n ∧ m.tree.get? (d ++ relative ++ [n]) = some e := by
  cases ns with
  | nil =>
    rw [List.append_nil] at h
    obtain ⟨e, he⟩ := h.exists_entry
    exact ⟨x, e, rfl, he⟩
  | cons n ns => exact ⟨n, .directory, rfl, h.isDirectory⟩

theorem holdsFile_first_iff {e : TreeEntry} (he : m.tree.get? (d ++ relative ++ [n]) = some e) (hno : e ≠ .directory) :
    (∃ ns x, (ns ++ [x]).head? = some n ∧ p = ofNames (relative ++ ns ++ [x]) ∧
      a.HoldsFile m root d (relative ++ ns) x) ↔ p = ofNames (relative ++ [n]) ∧ a.HoldsFile m root d relative n := by
  constructor
  · rintro ⟨ns, x, hhead, hp, h⟩
    cases ns with
    | nil =>
      cases hhead
      rw [List.append_nil] at hp h
      exact ⟨hp, h⟩
    | cons y ns =>
      cases hhead
      exact absurd (Option.some.inj (he.symm.trans h.isDirectory)) hno
  · rintro ⟨hp, h⟩
    refine ⟨[], n, rfl, ?_, ?_⟩
    · rwa [List.append_nil]
    · rwa [List.append_nil]

theorem holdsFile_within_iff (he : m.tree.IsDirectory (d ++ relative ++ [n])) :
    (∃ ns x, (ns ++ [x]).head? = some n ∧ p = ofNames (relative ++ ns ++ [x]) ∧
      a.HoldsFile m root d (relative ++ ns) x) ↔
      ∃ ns x, p = ofNames (relative ++ [n] ++ ns ++ [x]) ∧ a.HoldsFile m root d (relative ++ [n] ++ ns) x := by
  constructor
  · rintro ⟨ns, x, hhead, hp, h⟩
    cases ns with
    | nil =>
      cases hhead
      rw [List.append_nil] at h
      rcases h.file with ⟨-, b, x, hfile⟩ | ⟨target, l, hlink, -⟩
      · cases he.symm.trans hfile
      · cases he.symm.trans hlink
    | cons y ns =>
      cases hhead
      rw [List.append_cons relative n ns] at hp h
      exact ⟨ns, x, hp, h⟩
  · rintro ⟨ns, x, hp, h⟩
    rw [← List.append_cons relative n ns] at hp h
    exact ⟨n :: ns, x, rfl, hp, h⟩

theorem holdsFile_file_iff {b : Bytes} {executable : Bool}
    (he : m.tree.get? (d ++ relative ++ [n]) = some (.file b executable)) (hlists : ∀ ms, ms <+: relative → a.Lists root ms) :
    a.HoldsFile m root d relative n ↔ d ++ relative ++ [n] ≠ nowhere := by
  constructor
  · rintro ⟨-, ⟨hne, -⟩ | ⟨target, l, hlink, -⟩⟩
    · exact hne
    · cases he.symm.trans hlink
  · exact fun hne => ⟨hlists, .inl ⟨hne, b, executable, he⟩⟩

theorem holdsFile_link_iff {target : Path} (hroot : m.tree.find m.here root = .ok (d, .directory))
    (hparts : ∀ x ∈ relative ++ [n], IsPart x) (he : m.tree.get? (d ++ relative ++ [n]) = some (.link target))
    (hlists : ∀ ms, ms <+: relative → a.Lists root ms) : a.HoldsFile m root d relative n ↔
      a.looks (root / ofNames (relative ++ [n])) ∧ m.kind (root / ofNames (relative ++ [n])) = some .file := by
  rw [kind_file_iff hroot (Path.isAbsolute_ofNames hparts)]
  constructor
  · rintro ⟨-, ⟨-, b, x, hfile⟩ | ⟨target, l, -, hlooks, hl⟩⟩
    · cases he.symm.trans hfile
    · exact ⟨hlooks, l, hl⟩
  · rintro ⟨hlooks, l, hl⟩
    exact ⟨hlists, .inr ⟨target, l, he, hlooks, hl⟩⟩

theorem mem_entryFiles {e : TreeEntry} (hn : m.tree.Nameable) (hroot : m.tree.find m.here root = .ok (d, .directory))
    (he : m.tree.get? (d ++ relative ++ [n]) = some e) (hlists : ∀ ms, ms <+: relative → a.Lists root ms)
    (ih : e = .directory → (p ∈ m.answer (a.filesBelow root depth (relative ++ [n])) ↔
      ∃ ns x, p = ofNames (relative ++ [n] ++ ns ++ [x]) ∧ a.HoldsFile m root d (relative ++ [n] ++ ns) x)) :
    p ∈ m.answer (a.entryFiles root depth relative (n, entryKindOf (d ++ relative ++ [n]) e)) ↔ ∃ ns x,
      (ns ++ [x]).head? = some n ∧ p = ofNames (relative ++ ns ++ [x]) ∧ a.HoldsFile m root d (relative ++ ns) x := by
  cases e with
  | file b x =>
    rw [holdsFile_first_iff he (by simp), holdsFile_file_iff he hlists, entryKindOf]
    split
    next hnowhere => exact iff_of_false List.not_mem_nil fun h => h.2 hnowhere
    next hnowhere => exact List.mem_singleton.trans (and_iff_left hnowhere).symm
  | link target =>
    have hparts : ∀ x ∈ relative ++ [n], IsPart x := by
      intro x hx
      rw [List.append_assoc] at he
      exact (hn.of_get? he x (List.mem_append_right d hx)).1.isPart
    rw [holdsFile_first_iff he (by simp), holdsFile_link_iff hroot hparts he hlists]
    change p ∈ m.answer (do
      if ← a.isFile (root / ofNames (relative ++ [n])) then return [ofNames (relative ++ [n])] else return []) ↔ _
    rw [answer_bind (steady_isFile a _), answer_isFile]
    by_cases hkind : a.looks (root / ofNames (relative ++ [n])) ∧ m.kind (root / ofNames (relative ++ [n])) = some .file
    · simp [hkind]
    · simp [hkind]
  | directory =>
    rw [holdsFile_within_iff he]
    exact ih rfl

/-- The walk finds the files that are held below its directory, whatever the order of the entries. -/
theorem mem_filesBelow (hn : m.tree.Nameable) (hroot : m.tree.find m.here root = .ok (d, .directory))
    (hd : m.tree.IsDirectory (d ++ relative)) (hdeep : m.tree.height < (d ++ relative).length + depth)
    (hlists : ∀ ms, ms <+: relative → ms ≠ relative → a.Lists root ms) :
    p ∈ m.answer (a.filesBelow root depth relative) ↔
      ∃ ns x, p = ofNames (relative ++ ns ++ [x]) ∧ a.HoldsFile m root d (relative ++ ns) x := by
  induction depth generalizing relative with
  | zero =>
    have hheight := length_le_height hd
    omega
  | succ depth ih =>
    have hfind := find_below hn hroot hd
    rw [filesBelow_succ, answer_bind (steady_entriesIn a _), answer_entriesIn]
    by_cases hopen : a.Lists root relative
    · rw [if_pos hopen.2] at hfind
      rw [if_pos hopen.1, entriesIn_of_find hfind]
      dsimp only
      have hway : ∀ ms, ms <+: relative → a.Lists root ms := by
        intro ms hms
        by_cases he : ms = relative
        · rwa [he]
        · exact hlists ms hms he
      have hsteady : ∀ x ∈ (m.tree.entriesIn (d ++ relative)).map fun (n, e) =>
          (n, entryKindOf (d ++ relative ++ [n]) e), Steady (a.entryFiles root depth relative x) :=
        fun x _ => steady_entryFiles (steady_filesBelow a root depth) relative x
      have hentry {n : List Char} {e : TreeEntry} (he : m.tree.get? (d ++ relative ++ [n]) = some e) :
          p ∈ m.answer (a.entryFiles root depth relative (n, entryKindOf (d ++ relative ++ [n]) e)) ↔
            ∃ ns x, (ns ++ [x]).head? = some n ∧
              p = ofNames (relative ++ ns ++ [x]) ∧ a.HoldsFile m root d (relative ++ ns) x := by
        refine mem_entryFiles hn hroot he hway fun hdirectory => ?_
        have hlength : (d ++ (relative ++ [n])).length = (d ++ relative).length + 1 := by simp; omega
        rw [hdirectory, List.append_assoc] at he
        refine ih he (by omega) fun ms hms hne => ?_
        exact hway ms ((List.prefix_concat_iff.1 hms).resolve_left hne)
      rw [answer_bind (Steady.mapM hsteady), answer_pure, answer_mapM hsteady, List.mem_flatten]
      constructor
      · rintro ⟨found, hfound, hp⟩
        obtain ⟨_, hmem, rfl⟩ := List.mem_map.1 hfound
        obtain ⟨⟨n, e⟩, he, rfl⟩ := List.mem_map.1 hmem
        obtain ⟨ns, x, -, hpath, h⟩ := (hentry (mem_entriesIn_iff.1 he)).1 hp
        exact ⟨ns, x, hpath, h⟩
      · rintro ⟨ns, x, hp, h⟩
        obtain ⟨n, e, hhead, he⟩ := h.exists_first
        have hlisted := List.mem_map_of_mem (f := fun (n, e) => (n, entryKindOf (d ++ relative ++ [n]) e))
          (mem_entriesIn_iff.2 he)
        exact ⟨_, List.mem_map_of_mem hlisted, (hentry he).2 ⟨ns, x, hhead, hp, h⟩⟩
    · have hnone : ¬∃ ns x, p = ofNames (relative ++ ns ++ [x]) ∧ a.HoldsFile m root d (relative ++ ns) x := by
        rintro ⟨ns, x, -, h⟩
        exact hopen (h.lists relative (List.prefix_append _ _))
      refine iff_of_false ?_ hnone
      have herror : ∃ e, (if a.lists (if relative = [] then root else root / ofNames relative) then
          m.entriesIn (if relative = [] then root else root / ofNames relative)
          else .error .permissionDenied : Except OsError (List (List Char × EntryKind))) = .error e := by
        by_cases hmay : a.lists (if relative = [] then root else root / ofNames relative)
        · rw [if_neg fun hroom => hopen ⟨hmay, hroom⟩] at hfind
          rw [if_pos hmay]
          exact ⟨_, entriesIn_of_error hfind⟩
        · rw [if_neg hmay]
          exact ⟨_, rfl⟩
      obtain ⟨e, he⟩ := herror
      rw [he]
      exact List.not_mem_nil

end Walking

end Access

namespace Source.Index

variable {root : Path} {sources : List Path} {r : Record} {ns ms : List (List Char)}

theorem components_div_ofNames (hroot : root.chars ≠ []) (hne : ns ≠ []) (hns : ∀ n ∈ ns, IsFileName n) :
    (root / ofNames ns).components = root.components ++ ns.map .name := by
  have hparts : ∀ n ∈ ns, IsPart n := fun n hn => (hns n hn).isPart
  rw [Path.components_div hroot (Path.isAbsolute_ofNames hparts), Path.parts_ofNames hparts hne, Path.filterMap_names hns]

theorem eq_of_same (hroot : root.chars ≠ []) {p q : Path} (hp : p.Named) (hq : q.Named)
    (h : (root / p).same (root / q) = true) : p = q := by
  obtain ⟨ns, n, rfl, hns⟩ := hp
  obtain ⟨ms, x, rfl, hms⟩ := hq
  have hcomponents : (root / ofNames (ns ++ [n])).components = (root / ofNames (ms ++ [x])).components :=
    of_decide_eq_true h
  rw [components_div_ofNames hroot (by simp) hns, components_div_ofNames hroot (by simp) hms] at hcomponents
  have hnames := List.append_cancel_left hcomponents
  rw [List.map_injective_iff.2 (fun a b hab => Component.name.inj hab) hnames]

theorem mem_records_iff (hroot : root.chars ≠ []) (hnamed : ∀ p ∈ sources, p.Named) :
    r ∈ (ofFiles root sources).records ↔ ∃ p ∈ sources, record? root p = some r := by
  constructor
  · intro h
    exact ⟨r.relative, (of_mem_ofFiles h).1, record?_of_mem_ofFiles h⟩
  · rintro ⟨p, hp, hr⟩
    have hmem : r ∈ (sources.filterMap (record? root)).mergeSort fun a b => a.path.le b.path :=
      List.mem_mergeSort.2 (List.mem_filterMap.2 ⟨p, hp, hr⟩)
    obtain ⟨q, hq, hsame⟩ := Glob.exists_mem_dedup (List.mem_map_of_mem (f := Record.path) hmem)
    rw [← map_path_withoutRepeats] at hq
    obtain ⟨s, hs, rfl⟩ := List.mem_map.1 hq
    have hrecord : record? root s.relative = some s := record?_of_mem_ofFiles hs
    have hnames := hnamed s.relative (of_mem_ofFiles hs).1
    have hpath : r.path = root / p := by
      obtain ⟨t, -, rfl⟩ := Option.map_eq_some_iff.1 hr
      rfl
    rw [path_of_record? hrecord, hpath] at hsame
    rw [eq_of_same hroot hnames (hnamed p hp) hsame, hr] at hrecord
    rw [Option.some.inj hrecord]
    exact hs

end Source.Index

namespace FileTree

variable {t u : FileTree}

theorem outlines_of_eq (h : ∀ l, u.get? l = t.get? l) : t.Outlines u := by
  intro l e he
  rw [h, he]
  rfl

theorem Nameable.of_outlines (ho : u.Outlines t) (hn : t.Nameable) : u.Nameable := by
  rintro ⟨l, e⟩ hx
  have hl : l ≠ [] := by
    rintro rfl
    exact u.topless e hx
  have hshape := ho l e ((get?_eq_some_iff hl).2 hx)
  rw [Option.map_eq_some_iff] at hshape
  obtain ⟨f, hf, -⟩ := hshape
  exact hn.of_get? hf

end FileTree

theorem FileTree.Regular.of_outlines {t u : FileTree} {l : Location} (ho : t.Outlines u) (h : t.Regular l) : u.Regular l := by
  obtain ⟨hne, b, x, hl⟩ := h
  exact ⟨hne, ho.file hl⟩

namespace Source.Index

variable {root : Path} {x : List Char} {ns : List (List Char)} {ix ix' : Index}

theorem record?_ofNames (hns : ∀ y ∈ ns ++ [x], IsFileName y) : record? root (ofNames (ns ++ [x])) =
    (suffixOf? x).map fun s => ⟨root / ofNames (ns ++ [x]), ofNames (ns ++ [x]), s⟩ := by
  rw [record?, Path.fileName?_ofNames hns]
  rfl

theorem eq_of_records (hroot : ix.root = ix'.root) (h : ix.records = ix'.records) : ix = ix' := by
  obtain ⟨root, records⟩ := ix
  obtain ⟨root', records'⟩ := ix'
  dsimp only at hroot h
  rw [hroot, h]

theorem resolve?_eq_head? (ix : Index) (name : List Char) : ix.resolve? name = (ix.candidates name).head? := by
  rw [resolve?, candidates, List.head?_filter]

end Source.Index

namespace Access

variable {a : Access} {m k n : Machine} {root : Path} {d : Location} {ns : List (List Char)} {x : List Char} {ix : Index}
  {r : Record}

theorem HoldsFile.of_outlines (ho : m.tree.Outlines k.tree) (hhere : k.here = m.here) (h : a.HoldsFile m root d ns x) :
    a.HoldsFile k root d ns x := by
  refine ⟨h.lists, ?_⟩
  rcases h.file with hregular | ⟨target, l, hlink, hlooks, hplace, hregular⟩
  · exact .inl (hregular.of_outlines ho)
  · rw [hhere]
    exact .inr ⟨target, l, ho.get? rfl (by simp) hlink, hlooks, place_of_outlines hplace ho, hregular.of_outlines ho⟩

theorem build_eq (a : Access) (root : Path) : a.build root = (do
    if ← (a.isDirectory root : StateM Machine Bool) then
      let depth ← (Host.deepest : StateM Machine Nat)
      let ix := Index.ofFiles root (← (a.filesBelow root (depth + 1) [] : StateM Machine _))
      (Host.log .debug ("indexed " ++ toString ix.records.length ++ " source files under " ++ root.toString) :
        StateM Machine Unit)
      return ix
    else throw (.rootNotDirectory root)) :=
  rfl

theorem build_of_not_directory (h : ¬(a.looks root ∧ m.HasDirectory root)) :
    (a.build root).on m = (.error (.rootNotDirectory root), m) := by
  have hanswer : m.answer (a.isDirectory root) = false := by
    rw [answer_isDirectory, decide_eq_false_iff_not, kind_directory_iff]
    rintro ⟨hlooks, l, hplace, hl⟩
    exact h ⟨hlooks, l, find_eq_ok_iff.2 ⟨hplace, hl⟩⟩
  have hon : Action.on (liftM (a.isDirectory root)) m = (.ok false, m) := by
    rw [Action.on_lift, ← hanswer, steady_isDirectory]
    rfl
  rw [build_eq]
  exact Action.on_bind_ok hon

theorem exists_build (hlooks : a.looks root) (hroot : m.tree.find m.here root = .ok (d, .directory)) :
    ∃ n, (a.build root).on m = (.ok (.ofFiles root (m.answer (a.filesBelow root (m.deepest + 1) []))), n) := by
  have hanswer : m.answer (a.isDirectory root) = true := by
    obtain ⟨hplace, hd⟩ := find_eq_ok_iff.1 hroot
    rw [answer_isDirectory, decide_eq_true_iff]
    exact ⟨hlooks, kind_directory_iff.2 ⟨d, hplace, hd⟩⟩
  have hon : Action.on (liftM (a.isDirectory root)) m = (.ok true, m) := by
    rw [Action.on_lift, ← hanswer, steady_isDirectory]
    rfl
  have hfiles : Action.on (liftM (a.filesBelow root (m.deepest + 1) [])) m =
      (.ok (m.answer (a.filesBelow root (m.deepest + 1) [])), m) := by
    rw [Action.on_lift, steady_filesBelow]
    rfl
  have hdeepest : Action.on (liftM (Host.deepest : StateM Machine Nat)) m = (.ok m.deepest, m) := rfl
  rw [build_eq, Action.on_bind_ok hon, if_pos rfl, Action.on_bind_ok hdeepest, Action.on_bind_ok hfiles]
  exact ⟨_, rfl⟩

theorem mem_records_iff (hn : m.tree.Nameable) (hroot : m.tree.find m.here root = .ok (d, .directory)) :
    r ∈ (Index.ofFiles root (m.answer (a.filesBelow root (m.deepest + 1) []))).records ↔
      ∃ ns x s, a.HoldsFile m root d ns x ∧ suffixOf? x = some s ∧
        r = ⟨root / ofNames (ns ++ [x]), ofNames (ns ++ [x]), s⟩ := by
  obtain ⟨hplace, hd⟩ := find_eq_ok_iff.1 hroot
  have hnames {ns : List (List Char)} {x : List Char} (h : a.HoldsFile m root d ns x) : ∀ y ∈ ns ++ [x], IsFileName y := by
    obtain ⟨e, he⟩ := h.exists_entry
    intro y hy
    rw [List.append_assoc] at he
    exact (hn.of_get? he y (List.mem_append_right d hy)).1
  have hfiles (p : Path) : p ∈ m.answer (a.filesBelow root (m.deepest + 1) []) ↔
      ∃ ns x, p = ofNames (ns ++ [x]) ∧ a.HoldsFile m root d ns x := by
    have hdirectory : m.tree.IsDirectory (d ++ []) := by rwa [List.append_nil]
    have hdeep : m.tree.height < (d ++ []).length + (m.deepest + 1) := by
      have hmore : m.tree.height + 1 ≤ (linkLimit + 1) * (m.tree.height + 1) := Nat.le_mul_of_pos_left _ (by decide)
      unfold Machine.deepest
      omega
    have hway : ∀ ms, ms <+: [] → ms ≠ [] → a.Lists root ms := fun ms hms hne => absurd (List.prefix_nil.1 hms) hne
    simpa only [List.nil_append] using mem_filesBelow (p := p) hn hroot hdirectory hdeep hway
  have hnamed : ∀ p ∈ m.answer (a.filesBelow root (m.deepest + 1) []), p.Named := by
    intro p hp
    obtain ⟨ns, x, rfl, h⟩ := (hfiles p).1 hp
    exact ⟨ns, x, rfl, hnames h⟩
  refine (Index.mem_records_iff (spelled_of_place hplace).written hnamed).trans ?_
  constructor
  · rintro ⟨p, hp, hr⟩
    obtain ⟨ns, x, rfl, h⟩ := (hfiles p).1 hp
    rw [Index.record?_ofNames (hnames h)] at hr
    obtain ⟨s, hs, rfl⟩ := Option.map_eq_some_iff.1 hr
    exact ⟨ns, x, s, h, hs, rfl⟩
  · rintro ⟨ns, x, s, h, hs, rfl⟩
    refine ⟨ofNames (ns ++ [x]), (hfiles _).2 ⟨ns, x, rfl, h⟩, ?_⟩
    rw [Index.record?_ofNames (hnames h), hs]
    rfl

/-- An index depends on the shape of the tree alone: neither on what the files hold nor on the order of the entries. -/
theorem build_of_outlines (hn : m.tree.Nameable) (hlooks : a.looks root)
    (hroot : m.tree.find m.here root = .ok (d, .directory)) (hix : (a.build root).on m = (.ok ix, n))
    (ho : m.tree.Outlines k.tree) (hback : k.tree.Outlines m.tree) (hhere : k.here = m.here) :
    ((a.build root).on k).1 = .ok ix := by
  have hrootk : k.tree.find k.here root = .ok (d, .directory) := by
    obtain ⟨hplace, hd⟩ := find_eq_ok_iff.1 hroot
    rw [find_eq_ok_iff, hhere]
    exact ⟨place_of_outlines hplace ho, ho.get? rfl (by simp) hd⟩
  obtain ⟨_, hixm⟩ := exists_build hlooks hroot
  obtain ⟨_, hixk⟩ := exists_build hlooks hrootk
  rw [hixm] at hix
  cases hix
  rw [hixk]
  have hroots (sources : List Path) : (Index.ofFiles root sources).root = root := rfl
  refine congrArg Except.ok (Index.eq_of_records ((hroots _).trans (hroots _).symm) ?_)
  apply List.Pairwise.eq_of_mem_iff (Index.ordered_ofFiles _ _) (Index.ordered_ofFiles _ _)
  intro r
  rw [mem_records_iff hn hroot, mem_records_iff (hn.of_outlines hback) hrootk]
  exact exists₃_congr fun ns x s => and_congr_left' ⟨.of_outlines hback hhere.symm, .of_outlines ho hhere⟩

end Access

namespace Source.Index

variable {a : Access} {m k n : Machine} {root : Path} {d : Location} {ns : List (List Char)} {x : List Char} {ix : Index}
  {r : Record}

theorem build_of_not_directory (h : ¬m.HasDirectory root) :
    (build root).on m = (.error (.rootNotDirectory root), m) :=
  Access.build_of_not_directory (a := .full) fun hboth => h hboth.2

theorem build_of_outlines (hn : m.tree.Nameable) (hroot : m.tree.find m.here root = .ok (d, .directory))
    (hix : (build root).on m = (.ok ix, n)) (ho : m.tree.Outlines k.tree) (hback : k.tree.Outlines m.tree)
    (hhere : k.here = m.here) : ((build root).on k).1 = .ok ix := by
  rw [← Access.build_full] at hix ⊢
  exact Access.build_of_outlines hn rfl hroot hix ho hback hhere

/-- An index is built of every root that is a directory as far as the process can tell, and of no other. It has the sources
below the root, in the order of their paths and each of them once; a source is a regular file, or a link that the process
can follow to one, and all directories on the way to it can be listed. How the entries of the tree are ordered makes no
difference. -/
theorem build_sources (m : Machine) (a : Access) (hn : m.tree.Nameable) (root : Path) :
    (¬(a.looks root ∧ m.HasDirectory root) → (a.build root).on m = (.error (.rootNotDirectory root), m)) ∧
    ∀ d, a.looks root → m.tree.find m.here root = .ok (d, .directory) → ∃ ix n, (a.build root).on m = (.ok ix, n) ∧
      Ordered ix.records ∧
      (∀ r, r ∈ ix.records ↔ ∃ ns x s, a.HoldsFile m root d ns x ∧ suffixOf? x = some s ∧
        r = ⟨root / ofNames (ns ++ [x]), ofNames (ns ++ [x]), s⟩) ∧
      (∀ name, ix.resolve? name = (ix.candidates name).head?) ∧
      (∀ name c, ix.resolve? name = some c ↔ c ∈ ix.records ∧ Text.slashed name <:+ c.key ∧
        ∀ r ∈ ix.records, Text.slashed name <:+ r.key → r = c ∨ c.Before r) ∧
      ∀ k : Machine, (∀ l, k.tree.get? l = m.tree.get? l) → k.here = m.here → ((a.build root).on k).1 = .ok ix := by
  refine ⟨Access.build_of_not_directory, fun d hlooks hroot => ?_⟩
  obtain ⟨n, hix⟩ := Access.exists_build hlooks hroot
  have ho := ordered_ofFiles root (m.answer (a.filesBelow root (m.deepest + 1) []))
  exact ⟨_, n, hix, ho, fun r => Access.mem_records_iff hn hroot, resolve?_eq_head? _,
    fun name c => resolve?_eq_some_iff ho, fun k hsame hhere =>
      Access.build_of_outlines hn hlooks hroot hix (outlines_of_eq hsame) (outlines_of_eq fun l => (hsame l).symm) hhere⟩

def twoDown : Machine where
  tree := .ofEntries [(["proj".toList], .directory), (["proj".toList, "sub".toList], .directory),
    (["proj".toList, "sub".toList, "a.c".toList], .file [] false)]
  here := []

theorem nameable_twoDown : twoDown.tree.Nameable := by
  decide

def halfOpen : Machine where
  tree := .ofEntries [(["proj".toList], .directory), (["proj".toList, "sub".toList], .directory),
    (["proj".toList, "sub".toList, "a.c".toList], .file [] false), (["proj".toList, "no".toList], .directory),
    (["proj".toList, "no".toList, "b.c".toList], .file [] false)]
  here := []

def keptOut : Access where
  looks _ := true
  lists p := p ≠ Path.ofString "proj/no"

theorem build_sources_halfOpen : halfOpen.tree.Nameable ∧
    halfOpen.tree.get? ["proj".toList, "no".toList, "b.c".toList] = some (.file [] false) ∧
    ∃ ix n, (keptOut.build (Path.ofString "proj")).on halfOpen = (.ok ix, n) ∧
      ⟨Path.ofString "proj/sub/a.c", Path.ofString "sub/a.c", ".c".toList⟩ ∈ ix.records ∧
      ∀ r ∈ ix.records, r.relative ≠ Path.ofString "no/b.c" := by
  have hn : halfOpen.tree.Nameable := by decide
  have hroot : halfOpen.tree.find halfOpen.here (Path.ofString "proj") = .ok (["proj".toList], .directory) := by cbv
  obtain ⟨-, hbuild⟩ := build_sources halfOpen keptOut hn (Path.ofString "proj")
  obtain ⟨ix, n, hix, -, hrecords, -⟩ := hbuild _ rfl hroot
  refine ⟨hn, by decide, ix, n, hix, ?_, ?_⟩
  · have hlists : ∀ ms, ms <+: ["sub".toList] → keptOut.Lists (Path.ofString "proj") ms := by
      intro ms hms
      rcases List.prefix_cons_iff.1 hms with rfl | ⟨ns, rfl, hns⟩
      · decide
      · rw [List.prefix_nil.1 hns]
        decide
    have hregular : halfOpen.tree.Regular (["proj".toList] ++ ["sub".toList] ++ ["a.c".toList]) :=
      ⟨by decide, [], false, by decide⟩
    exact (hrecords _).2 ⟨_, _, ".c".toList, ⟨hlists, .inl hregular⟩, by decide, by decide⟩
  · intro r hr hrelative
    obtain ⟨ns, x, s, h, -, rfl⟩ := (hrecords r).1 hr
    have hparts : ns ++ [x] = ["no".toList] ++ ["b.c".toList] :=
      (Path.parts_ofNames (h.isPart hn) (by simp)).symm.trans (congrArg Path.parts hrelative)
    obtain ⟨rfl, -⟩ := List.append_inj' hparts rfl
    have hlists := h.lists _ List.prefix_rfl
    revert hlists
    decide

theorem twoDown_sub (h : a.HoldsFile twoDown root ["proj".toList] ns x) : ns = ["sub".toList] := by
  have hentries : twoDown.tree.entries = [(["proj".toList, "sub".toList, "a.c".toList], .file [] false),
    (["proj".toList, "sub".toList], .directory), (["proj".toList], .directory)] := by decide
  obtain ⟨e, he, hfile⟩ : ∃ e, twoDown.tree.get? (["proj".toList] ++ ns ++ [x]) = some e ∧ e ≠ .directory := by
    rcases h.file with ⟨-, b, executable, hentry⟩ | ⟨target, l, hentry, -⟩
    · exact ⟨_, hentry, by simp⟩
    · exact ⟨_, hentry, by simp⟩
  rw [get?_eq_some_iff (by simp), hentries] at he
  have hplace : ["proj".toList] ++ ns ++ [x] = ["proj".toList, "sub".toList] ++ ["a.c".toList] := by
    rcases List.mem_cons.1 he with hmem | hmem
    · exact congrArg Prod.fst hmem
    · have hdirectory : e = .directory := by
        rcases List.mem_cons.1 hmem with hmem | hmem
        · exact congrArg Prod.snd hmem
        · exact congrArg Prod.snd (List.mem_singleton.1 hmem)
      exact absurd hdirectory hfile
  exact (List.cons.inj (List.append_inj' hplace rfl).1).2

def dotted : Nat → Path
  | 0 => Path.ofString "proj"
  | k + 1 => dotted k / Path.ofString "."

theorem chars_dotted_succ (k : Nat) : (dotted (k + 1)).chars = (dotted k).chars ++ "/.".toList := by
  have hopen : (dotted k).endsOpen = false := by
    induction k with
    | zero => decide
    | succ k ih =>
      have hchars : (dotted (k + 1)).chars = (dotted k).chars ++ "/.".toList := by
        rw [dotted, Path.chars_div rfl, ih]
        rfl
      rw [Path.endsOpen, hchars, decide_eq_false_iff_not, List.getLast?_append_of_ne_nil _ (by simp)]
      simp
  rw [dotted, Path.chars_div rfl, hopen]
  rfl

theorem byteLength_dotted (k : Nat) : byteLength (dotted k).chars = 4 + 2 * k := by
  induction k with
  | zero => rfl
  | succ k ih =>
    have htwo : byteLength "/.".toList = 2 := rfl
    rw [chars_dotted_succ, byteLength_append, ih, htwo]
    omega

theorem find_dotted (k : Nat) (hk : 4 + 2 * k ≤ pathLimit) :
    twoDown.tree.find twoDown.here (dotted k) = .ok (["proj".toList], .directory) := by
  induction k with
  | zero => cbv
  | succ k ih =>
    obtain ⟨hplace, hd⟩ := find_eq_ok_iff.1 (ih (by omega))
    obtain ⟨links, -, hwalk⟩ := exists_place_div hplace hd
    have hspelled := spelled_of_place hplace
    have hfits : byteLength (dotted k / Path.ofString ".").chars ≤ pathLimit := by
      have hlength := byteLength_dotted (k + 1)
      rw [dotted] at hlength
      omega
    have hs : Spelled (dotted k / Path.ofString ".") :=
      spelled_div hspelled.written hspelled.clean rfl (by decide) hfits
    rw [dotted, find_eq_ok_iff, hwalk _ rfl hs]
    exact ⟨(Walks.idle (.inr rfl) (.stay _ _)).eq_ok, hd⟩

/-- A file that lies in a directory with too long a path has no record. -/
theorem build_too_long : twoDown.tree.find twoDown.here (dotted 2045) = .ok (["proj".toList], .directory) ∧
    twoDown.tree.get? ["proj".toList, "sub".toList, "a.c".toList] = some (.file [] false) ∧
    suffixOf? "a.c".toList = some ".c".toList ∧
    ∃ ix n, (build (dotted 2045)).on twoDown = (.ok ix, n) ∧ ix.records = [] := by
  have hroot := find_dotted 2045 (by decide)
  obtain ⟨n, hix⟩ := Access.exists_build (a := .full) rfl hroot
  refine ⟨hroot, by decide, by decide, _, n, hix, ?_⟩
  rw [List.eq_nil_iff_forall_not_mem]
  intro r hr
  obtain ⟨ns, x, s, h, -, -⟩ := (Access.mem_records_iff nameable_twoDown hroot).1 hr
  rw [twoDown_sub h] at h
  rcases (h.lists _ List.prefix_rfl).2 with hnil | hlong
  · cases hnil
  · have hparts : (ofNames ["sub".toList]).isAbsolute = false := by decide
    have hlength : byteLength (dotted 2045).chars + byteLength (ofNames ["sub".toList]).chars ≤
        byteLength (dotted 2045 / ofNames ["sub".toList]).chars := (byteLength_div hparts).1
    have hthree : byteLength (ofNames ["sub".toList]).chars = 3 := by decide
    have hlimit : pathLimit = 4095 := rfl
    rw [byteLength_dotted, hthree] at hlength
    omega

end Source.Index

end CBuild
