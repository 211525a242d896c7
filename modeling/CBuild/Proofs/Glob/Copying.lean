import CBuild.Proofs.Glob.Settling
import CBuild.Proofs.Source.Repeating

/-! Directories with the same entries below them. Where there are no links, names lead to the entry that they name, so
the same names lead to the same from both. -/

namespace CBuild

open FileTree Machine
open CBuild.Path (ofNames IsPart IsFileName)

namespace FileTree

variable {t : FileTree} {links : Nat} {here d l k : Location} {parts ns : List (List Char)} {e : TreeEntry}

def Writable (t : FileTree) : Prop :=
  ∀ x ∈ t.entries, ∀ n ∈ x.1, '\x00' ∉ n ∧ byteLength n ≤ nameLimit

instance (t : FileTree) : Decidable t.Writable :=
  inferInstanceAs (Decidable (∀ x ∈ t.entries, ∀ n ∈ x.1, '\x00' ∉ n ∧ byteLength n ≤ nameLimit))

theorem Writable.of_get? (h : t.Writable) (hl : t.get? l = some e) :
    ∀ n ∈ l, '\x00' ∉ n ∧ byteLength n ≤ nameLimit := by
  by_cases hnil : l = []
  · rw [hnil]
    exact List.forall_mem_nil _
  · exact h _ ((get?_eq_some_iff hnil).1 hl)

theorem mem_below_iff : (ns, e) ∈ t.below d ↔ ns ≠ [] ∧ t.get? (d ++ ns) = some e := by
  unfold below
  rw [List.mem_filterMap]
  constructor
  · rintro ⟨⟨k, f⟩, hk, hx⟩
    dsimp only at hx
    split at hx
    next hprefix =>
      rw [Bool.and_eq_true, List.isPrefixOf_iff_prefix, decide_eq_true_iff] at hprefix
      obtain ⟨⟨ms, rfl⟩, hlength⟩ := hprefix
      rw [List.drop_left] at hx
      cases hx
      have hne : ns ≠ [] := by
        rintro rfl
        simp at hlength
      exact ⟨hne, (get?_eq_some_iff (List.append_ne_nil_of_right_ne_nil _ hne)).2 hk⟩
    next => cases hx
  · rintro ⟨hne, hget⟩
    refine ⟨(d ++ ns, e), (get?_eq_some_iff (List.append_ne_nil_of_right_ne_nil _ hne)).1 hget, ?_⟩
    simpa using hne

theorem Linkless.walks (h : t.Linkless) (hw : t.Writable) (hns : ∀ n ∈ ns, IsFileName n)
    (hget : t.get? (d ++ ns) = some e) : Walks t true links d ns (.found (d ++ ns)) := by
  induction ns generalizing d with
  | nil =>
    rw [List.append_nil]
    exact .stay _ _
  | cons n ns ih =>
    rw [List.forall_mem_cons] at hns
    have hassoc : d ++ n :: ns = d ++ [n] ++ ns := by simp
    have hfits : byteLength n ≤ nameLimit := (hw.of_get? hget n (by simp)).2
    have hname : IsName n := ⟨hns.1.not_idle, hns.1.not_up, by omega⟩
    rw [hassoc] at hget ⊢
    by_cases hnil : ns = []
    · subst hnil
      rw [List.append_nil] at hget ⊢
      cases e with
      | directory => exact .directory hname hget (.stay _ _)
      | file b x => exact .file hname hget
      | link target => exact absurd hget h.get?_ne
    · exact .directory hname (isDirectory_of_append hget hnil) (ih hns.2 hget)

end FileTree

namespace Glob

variable {m m' : Machine} {base base' : Path} {d d' : Location} {pat : Pattern} {ns : List (List Char)}

theorem eq_append_of_walks {t : FileTree} {links : Nat} {l : Location} (ht : t.Linkless) (hns : ∀ n ∈ ns, IsFileName n)
    (hw : Walks t true links d ns (.found l)) : l = d ++ ns := by
  have hup : ['.', '.'] ∉ ns := fun hmem => (hns _ hmem).not_up rfl
  have hfilter : ns.filter (fun part => !Path.isIdle part) = ns := by
    rw [List.filter_eq_self]
    intro n hn
    rw [Bool.not_eq_true', ← Bool.not_eq_true, Path.isIdle_iff]
    exact (hns n hn).not_idle
  rw [hw.of_linkless ht hup, hfilter]

theorem room_of_below {spare : Nat} (ht : m.tree.Linkless) (hd : m.tree.IsDirectory d)
    (hself : byteLength (base / ofNames []).chars + spare ≤ pathLimit)
    (hbelow : ∀ x ∈ m.tree.below d, byteLength (base / ofNames x.1).chars + spare ≤ pathLimit)
    (hns : ∀ n ∈ ns, IsFileName n) {l : Location} (hl : m.tree.walk true linkLimit d ns = .ok (.found l)) :
    byteLength (base / ofNames ns).chars + spare ≤ pathLimit := by
  by_cases hnil : ns = []
  · rw [hnil]
    exact hself
  · have hw : Walks m.tree true linkLimit d ns (.found l) := .of_eq_ok hl
    obtain ⟨e, he⟩ := hw.exists_get? hd
    rw [eq_append_of_walks ht hns hw] at he
    exact hbelow (ns, e) (mem_below_iff.2 ⟨hnil, he⟩)

theorem Suits.kind_of_linkless (h : Suits m base pat d) (ht : m.tree.Linkless) (hw : m.tree.Writable)
    (hns : ∀ n ∈ ns, IsFileName n) : m.kind (base / ofNames ns) = (m.tree.get? (d ++ ns)).map (kindOf (d ++ ns)) := by
  obtain ⟨hplace, hd⟩ := find_eq_ok_iff.1 h.leads
  obtain ⟨k, -, hdiv⟩ := exists_place_div hplace hd
  have hparts : ∀ n ∈ ns, IsPart n := fun n hn => (hns n hn).isPart
  have hrelative : (ofNames ns).isAbsolute = false := Path.isAbsolute_ofNames hparts
  have hleads (hs : Spelled (base / ofNames ns)) :
      m.tree.place m.here (base / ofNames ns) true = m.tree.walk true k d ns := by
    rw [hdiv _ hrelative hs]
    by_cases hnil : ns = []
    · rw [hnil]
      exact walk_idle (.inl rfl)
    · rw [Path.parts_ofNames hparts hnil]
  have hspelled {e : TreeEntry} (he : m.tree.get? (d ++ ns) = some e) : Spelled (base / ofNames ns) := by
    have hfits := h.room ns hns _ (ht.walks hw hns he).eq_ok
    have hclean : ∀ n ∈ ns, '\x00' ∉ n := fun n hn => (hw.of_get? he n (List.mem_append_right _ hn)).1
    exact spelled_div h.spelled.written h.spelled.clean hrelative (Path.not_mem_ofNames (by decide) hclean) (by omega)
  apply Option.ext
  intro f
  rw [kind_eq_some_iff, Option.map_eq_some_iff]
  constructor
  · rintro ⟨l, e, hl, he, hf⟩
    have hwalk : Walks m.tree true k d ns (.found l) := .of_eq_ok ((hleads (spelled_of_place hl)).symm.trans hl)
    rw [eq_append_of_walks ht hns hwalk] at he hf
    exact ⟨e, he, hf⟩
  · rintro ⟨e, he, hf⟩
    exact ⟨d ++ ns, e, (hleads (hspelled he)).trans (ht.walks hw hns he).eq_ok, he, hf⟩

/-- Bases with the same entries below them hold the same, if the null device is below neither. -/
theorem Suits.same_of_below (h : Suits m base pat d) (h' : Suits m' base' pat d') (ht : m.tree.Linkless)
    (ht' : m'.tree.Linkless) (hw : m.tree.Writable) (hw' : m'.tree.Writable)
    (hfar : ¬d <+: nowhere) (hfar' : ¬d' <+: nowhere) (hbelow : ∀ x, x ∈ m.tree.below d ↔ x ∈ m'.tree.below d')
    (hns : ∀ n ∈ ns, IsFileName n) :
    m.kind (base / ofNames ns) = m'.kind (base' / ofNames ns) := by
  have hkind : kindOf (d ++ ns) = kindOf (d' ++ ns) :=
    kindOf_eq_of_ne (fun he => hfar ⟨ns, he⟩) fun he => hfar' ⟨ns, he⟩
  rw [h.kind_of_linkless ht hw hns, h'.kind_of_linkless ht' hw' hns, hkind]
  by_cases hnil : ns = []
  · rw [hnil, List.append_nil, List.append_nil, h.isDirectory, h'.isDirectory]
  · have hget : m.tree.get? (d ++ ns) = m'.tree.get? (d' ++ ns) := by
      apply Option.ext
      intro e
      have hx := hbelow (ns, e)
      rw [mem_below_iff, mem_below_iff] at hx
      exact ⟨fun he => (hx.1 ⟨hnil, he⟩).2, fun he => (hx.2 ⟨hnil, he⟩).2⟩
    rw [hget]

end Glob
end CBuild
