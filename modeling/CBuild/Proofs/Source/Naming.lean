import CBuild.Proofs.Machine.Making
import CBuild.Proofs.Machine.Onward
import CBuild.Proofs.Source.Agreement
import CBuild.Proofs.Source.Companion
import CBuild.Proofs.Text.Decoding

/-! What the lists of a discovery name. Joined to the root, the first file is the entry point, the others are files of
the index, and an include directory is the directory that a header is in. -/

namespace CBuild

open CBuild.Action Machine FileTree

namespace FileTree

variable {t : FileTree} {follow : Bool} {links : Nat} {here l : Location} {parts : List (List Char)}

/-- No name in the tree has a backslash in it. -/
def Unslashed (t : FileTree) : Prop :=
  ∀ x ∈ t.entries, ∀ n ∈ x.1, '\\' ∉ n

instance (t : FileTree) : Decidable t.Unslashed :=
  inferInstanceAs (Decidable (∀ x ∈ t.entries, ∀ n ∈ x.1, '\\' ∉ n))

theorem Unslashed.not_mem (h : t.Unslashed) (hw : Walks t follow links here parts (.found l)) :
    ∀ part ∈ parts, '\\' ∉ part := by
  intro part hpart
  rcases hw.known part hpart with (rfl | rfl) | rfl | ⟨d, e, he⟩
  · decide
  · decide
  · decide
  · exact h (d ++ [part], e) ((get?_eq_some_iff (by simp)).1 he) part (by simp)

end FileTree

namespace Source

variable {root entry : Path} {m n k : Machine} {ix : Index} {found : Discovery} {s : Resolution} {r : Record} {b : Bytes}

theorem ok_of_discover (h : (discover root entry).on m = (.ok found, n)) :
    ∃ ix k s, (Index.build root).on m = (.ok ix, k) ∧ ix.traceOn m.contents (root / entry) = .ok s ∧
      found = s.discovery root entry := by
  have hbuild := h
  rw [discover_eq] at hbuild
  obtain ⟨ix, k, hix, -⟩ := ok_of_on_bind hbuild
  have hfound : ix.discoveryOn m.contents root entry = .ok found := by
    rw [← on_discover hix fun _ _ => rfl, h]
  unfold Index.discoveryOn Index.followOn at hfound
  cases hs : ix.traceOn m.contents (root / entry) with
  | error e =>
    rw [hs] at hfound
    cases hfound
  | ok s =>
    rw [hs] at hfound
    cases hfound
    exact ⟨ix, k, s, hix, hs, rfl⟩

theorem hasDirectory_of_build (h : (Index.build root).on m = (.ok ix, k)) : m.HasDirectory root := by
  obtain ⟨b, hrun, hdirectory⟩ := run_isDirectory root m
  have hon : on (liftM (Host.isDirectory root : StateM Machine Bool)) m = (.ok b, m) := by
    rw [on_lift, hrun]
  unfold Index.build at h
  rw [on_bind_ok hon] at h
  cases b with
  | true => exact hdirectory rfl
  | false => cases h

theorem exists_leads_of_contents {p : Path} (h : m.contents p = .ok b) : ∃ l, m.tree.Leads m.here p l b := by
  unfold contents readFile at h
  cases hfind : m.tree.find m.here p with
  | error e =>
    rw [hfind] at h
    cases h
  | ok found =>
    obtain ⟨l, e⟩ := found
    rw [hfind] at h
    cases e with
    | file c x =>
      cases h
      obtain ⟨hplace, hfile⟩ := find_eq_ok_iff.1 hfind
      exact ⟨l, hplace, x, hfile⟩
    | link target => cases h
    | directory => cases h

def Record.Read (m : Machine) (root : Path) (ix : Index) (r : Record) : Prop :=
  r ∈ ix.records ∧ r.relative.Named ∧ ∃ l b, m.tree.Leads m.here (root / r.relative) l b

/-- What is known when a search has succeeded: the root leads to a directory, and the entry point and all that has been
found have been read. -/
structure Searched (m : Machine) (root entry : Path) (ix : Index) (s : Resolution) : Prop where
  built : ((Index.build root).on m).1 = .ok ix
  traced : ix.traceOn m.contents (root / entry) = .ok s
  rooted : m.HasDirectory root
  start : ∃ l b, m.tree.Leads m.here (root / entry) l b
  visited : ∀ r ∈ s.visited, r.Read m root ix
  companions : ∀ c ∈ s.companions, c.Read m root ix

theorem searched_of_discover (hnames : m.tree.WellNamed) (h : (discover root entry).on m = (.ok found, n)) :
    ∃ ix s, Searched m root entry ix s ∧ found = s.discovery root entry := by
  obtain ⟨ix, k, s, hix, hs, hfound⟩ := ok_of_discover h
  have hkeyed : ix.Keyed := by
    rw [ofFiles_of_build hix]
    exact Index.keyed_ofFiles _ _
  have hrun := Resolution.runOn_found hkeyed
    (Resolution.Sound.init : Resolution.Sound m.contents (root / entry) {} [(.scan (root / entry) : Task ix)]) .init
  rw [← Resolution.traceOn_eq_runOn, hs] at hrun
  obtain ⟨-, hcomplete⟩ := hrun
  have hread (p : Path) (hp : s.Due (root / entry) p) : ∃ l b, m.tree.Leads m.here p l b := by
    rcases hcomplete.settled p hp with hscan | ⟨b, hb, -⟩
    · cases hscan
    · obtain ⟨l, hl⟩ := exists_leads_of_contents hb
      exact ⟨l, b, hl⟩
  have hrecord (r : Record) (hr : r ∈ ix.records) (hdue : s.Due (root / entry) r.path) : r.Read m root ix := by
    have hpath : r.path = root / r.relative := path_of_record? (record?_of_build hix r hr)
    rw [hpath] at hdue
    exact ⟨hr, named_of_build hnames hix r hr, hread _ hdue⟩
  refine ⟨ix, s, ⟨congrArg Prod.fst hix, hs, hasDirectory_of_build hix, hread _ (.inl rfl), ?_, ?_⟩, hfound⟩
  · exact fun r hr => hrecord r (hcomplete.members.1 r hr) (.inr (.inl ⟨r, hr, rfl⟩))
  · exact fun c hc => hrecord c (hcomplete.members.2 c hc) (.inr (.inr ⟨c, hc, rfl⟩))

/-- A file is directly in the directory that goes by a text as seen from the root. -/
structure Record.StandsIn (m : Machine) (root : Path) (r : Record) (d : String) : Prop where
  spelled : ∃ q, r.relative.parent? = some q ∧ d = if q.chars = [] then "." else q.toString
  holds : ∃ k, m.tree.find m.here (root / Path.ofString d) = .ok (k, .directory) ∧
    ∃ a l b, r.relative.fileName? = some a ∧ m.tree.Leads k (Path.ofName a) l b ∧ m.tree.Leads m.here (root / r.relative) l b

section Naming

variable {l d : Location} {p : Path} {ns : List (List Char)} {a : List Char}

theorem ofString_ofList (s : List Char) : Path.ofString (String.ofList s) = ⟨s⟩ := by
  simp [Path.ofString]

theorem slashed_ofNames (h : ∀ x ∈ ns, '\\' ∉ x) : (Path.ofNames ns).slashed = (Path.ofNames ns).chars := by
  apply Text.slashed_of_not_mem
  exact Path.not_mem_ofNames (by decide) h

theorem no_backslash_of_leads (hslash : m.tree.Unslashed) (hroot : m.tree.find m.here root = .ok (d, .directory))
    (hp : p.isAbsolute = false) (h : m.tree.Leads m.here (root / p) l b) : ∀ part ∈ p.parts, '\\' ∉ part := by
  obtain ⟨hplace, hd⟩ := find_eq_ok_iff.1 hroot
  obtain ⟨k, -, hdiv⟩ := exists_place_div hplace hd
  have hw : Walks m.tree true k d p.parts (.found l) :=
    .of_eq_ok ((hdiv p hp (spelled_of_place h.place)).symm.trans h.place)
  exact hslash.not_mem hw

theorem directoryOf_ofNames (hnames : ∀ x ∈ ns ++ [a], Path.IsFileName x) (hslash : ∀ x ∈ ns, '\\' ∉ x) :
    Resolution.directoryOf (Path.ofNames (ns ++ [a])) = (directoryPath ns).chars := by
  have hparts : ∀ x ∈ ns, Path.IsPart x := fun x hx => (hnames x (List.mem_append_left _ hx)).isPart
  unfold Resolution.directoryOf directoryPath
  rw [Path.parent?_ofNames hnames]
  dsimp only
  by_cases hns : ns = []
  · rw [if_pos ((Path.chars_ofNames_eq_nil_iff hparts).2 hns), if_pos hns]
  · rw [if_neg fun h => hns ((Path.chars_ofNames_eq_nil_iff hparts).1 h), if_neg hns, slashed_ofNames hslash]

theorem standsIn_directoryOf (hslash : m.tree.Unslashed) (hroot : m.tree.find m.here root = .ok (d, .directory))
    (hr : r.relative.Named) (h : m.tree.Leads m.here (root / r.relative) l b) :
    r.StandsIn m root (String.ofList (Resolution.directoryOf r.relative)) := by
  obtain ⟨ns, a, hrelative, hnames⟩ := hr
  have hparts : ∀ x ∈ ns ++ [a], Path.IsPart x := fun x hx => (hnames x hx).isPart
  have hns : ∀ x ∈ ns, Path.IsPart x := fun x hx => hparts x (List.mem_append_left _ hx)
  have hleads := h
  rw [hrelative] at hleads
  have hclean : ∀ x ∈ ns, '\\' ∉ x := by
    have hall := no_backslash_of_leads hslash hroot (Path.isAbsolute_ofNames hparts) hleads
    rw [Path.parts_ofNames hparts (by simp)] at hall
    exact fun x hx => hall x (List.mem_append_left _ hx)
  obtain ⟨hplace, hd⟩ := find_eq_ok_iff.1 hroot
  obtain ⟨k, hk, hdirectory, hfile⟩ := hleads.exists_directory hplace hd hnames
  have htext : Resolution.directoryOf r.relative = (directoryPath ns).chars := by
    rw [hrelative]
    exact directoryOf_ofNames hnames hclean
  rw [htext]
  refine ⟨⟨Path.ofNames ns, ?_, ?_⟩, k, ?_, a, l, b, ?_, hfile, h⟩
  · rw [hrelative]
    exact Path.parent?_ofNames hnames
  · unfold directoryPath
    by_cases hnil : ns = []
    · rw [if_pos hnil, if_pos ((Path.chars_ofNames_eq_nil_iff hns).2 hnil)]
    · rw [if_neg hnil, if_neg fun hempty => hnil ((Path.chars_ofNames_eq_nil_iff hns).1 hempty)]
      rfl
  · rw [ofString_ofList]
    exact find_eq_ok_iff.2 ⟨hk, hdirectory⟩
  · rw [hrelative]
    exact Path.fileName?_ofNames hnames

theorem map_ofList_filter (name : List Char) (ts : List (List Char)) :
    (ts.filter (· ≠ name)).map String.ofList = (ts.map String.ofList).filter (· ≠ String.ofList name) := by
  have hsame (t : List Char) : (decide (String.ofList t ≠ String.ofList name)) = decide (t ≠ name) := by
    simp [String.ofList_inj]
  rw [List.filter_map]
  exact congrArg (List.map String.ofList) (List.filter_congr fun t _ => (hsame t).symm)

theorem Record.Read.slashed (hslash : m.tree.Unslashed) (hroot : m.HasDirectory root) (h : r.Read m root ix) :
    r.relative.slashed = r.relative.chars := by
  obtain ⟨-, ⟨ns, a, hrelative, hnames⟩, l, b, hl⟩ := h
  obtain ⟨d, hd⟩ := hroot
  have hparts : ∀ x ∈ ns ++ [a], Path.IsPart x := fun x hx => (hnames x hx).isPart
  rw [hrelative] at hl ⊢
  have hall := no_backslash_of_leads hslash hd (Path.isAbsolute_ofNames hparts) hl
  rw [Path.parts_ofNames hparts (by simp)] at hall
  exact slashed_ofNames hall

/-- The files behind the first are the companions that have been found, by their relative paths. -/
theorem Searched.files (hslash : m.tree.Unslashed) (h : Searched m root entry ix s) :
    ∃ f fs, (s.discovery root entry).files = f :: fs ∧
      f = String.ofList ((root / entry).relativeTo root).slashed ∧
      fs = (s.companions.reverse.map fun c => c.relative.toString).filter (· ≠ f) := by
  refine ⟨_, _, rfl, rfl, ?_⟩
  have htexts : s.implementationFiles.map String.ofList = s.companions.reverse.map fun c => c.relative.toString := by
    unfold Resolution.implementationFiles
    rw [List.map_map]
    apply List.map_congr_left
    intro c hc
    have htext := (h.companions c (List.mem_reverse.1 hc)).slashed hslash h.rooted
    exact congrArg String.ofList htext
  rw [← htexts]
  exact map_ofList_filter _ _

theorem leads_first (hslash : m.tree.Unslashed) (hroot : m.tree.find m.here root = .ok (d, .directory))
    (hentry : entry.isAbsolute = false) (h : m.tree.Leads m.here (root / entry) l b) :
    m.tree.Leads m.here (root / Path.ofString (String.ofList ((root / entry).relativeTo root).slashed)) l b := by
  obtain ⟨hplace, hd⟩ := find_eq_ok_iff.1 hroot
  have hclean : ∀ x ∈ entry.words, '\\' ∉ x := fun x hx =>
    no_backslash_of_leads hslash hroot hentry h x (Path.mem_words.1 hx).1
  rw [Path.relativeTo_div (spelled_of_place hplace).written hentry, slashed_ofNames hclean, ofString_ofList]
  exact h.words hplace hd hentry

end Naming

/-- When sources are found on a tree whose names have no backslash, the first of the files is the one that has been read
as the entry point, and the others are the companions that have been found, the latest first, less those that are named
like the entry point; each leads from the root to a file of the index. The include directories are those that the visited
files are in. -/
theorem discover_names (hnames : m.tree.WellNamed) (hslash : m.tree.Unslashed) (hentry : entry.isAbsolute = false)
    (h : (discover root entry).on m = (.ok found, n)) :
    ∃ ix s, ((Index.build root).on m).1 = .ok ix ∧ ix.traceOn m.contents (root / entry) = .ok s ∧
      (∃ f fs, found.files = f :: fs ∧
        (∃ l b, m.tree.Leads m.here (root / entry) l b ∧ m.tree.Leads m.here (root / Path.ofString f) l b) ∧
        fs = (s.companions.reverse.map fun c => c.relative.toString).filter (· ≠ f) ∧
        ∀ g ∈ fs, ∃ c ∈ ix.records, g = c.relative.toString ∧ ∃ l b, m.tree.Leads m.here (root / Path.ofString g) l b) ∧
      (∀ d ∈ found.includes, ∃ r ∈ s.visited, r ∈ ix.records ∧ r.StandsIn m root d) ∧
      ∀ r ∈ s.visited, ∃ d ∈ found.includes, r.StandsIn m root d := by
  obtain ⟨ix, s, hs, rfl⟩ := searched_of_discover hnames h
  obtain ⟨d, hroot⟩ := hs.rooted
  obtain ⟨f, fs, hfiles, hf, hfs⟩ := hs.files hslash
  have hstands : ∀ r ∈ s.visited, r.StandsIn m root (String.ofList (Resolution.directoryOf r.relative)) := by
    intro r hr
    obtain ⟨-, hnamed, l, b, hl⟩ := hs.visited r hr
    exact standsIn_directoryOf hslash hroot hnamed hl
  have hincludes (d : String) : d ∈ (s.discovery root entry).includes ↔
      ∃ r ∈ s.visited, String.ofList (Resolution.directoryOf r.relative) = d := by
    unfold Resolution.discovery Resolution.headerDirectories
    simp [List.mem_eraseDups]
  refine ⟨ix, s, hs.built, hs.traced, ⟨f, fs, hfiles, ?_, hfs, ?_⟩, ?_, ?_⟩
  · obtain ⟨l, b, hl⟩ := hs.start
    rw [hf]
    exact ⟨l, b, hl, leads_first hslash hroot hentry hl⟩
  · intro g hg
    rw [hfs] at hg
    obtain ⟨c, hc, rfl⟩ := List.mem_map.1 (List.mem_of_mem_filter hg)
    obtain ⟨hmem, -, l, b, hl⟩ := hs.companions c (List.mem_reverse.1 hc)
    refine ⟨c, hmem, rfl, l, b, ?_⟩
    unfold Path.toString
    rw [ofString_ofList]
    exact hl
  · intro d hd
    obtain ⟨r, hr, rfl⟩ := (hincludes d).1 hd
    exact ⟨r, hr, (hs.visited r hr).1, hstands r hr⟩
  · intro r hr
    exact ⟨_, (hincludes _).2 ⟨r, hr, rfl⟩, hstands r hr⟩

def layered : Machine where
  tree := .ofEntries [(["p".toList], .directory), (["p".toList, "lib".toList], .directory),
    (["p".toList, "lib".toList, "a.c".toList], .file [] false), (["p".toList, "lib".toList, "a.h".toList], .file [] false),
    (["p".toList, "m.c".toList], .file (Utf8.encode "#include \"a.h\"") false)]
  here := []

theorem discover_names_layered : ∃ n, layered.tree.WellNamed ∧ layered.tree.Unslashed ∧
    (Path.ofString "./m.c").isAbsolute = false ∧
    (discover (Path.ofString "p/") (Path.ofString "./m.c")).on layered = (.ok ⟨["lib"], ["m.c", "lib/a.c"]⟩, n) ∧
    ∃ ix s, ((Index.build (Path.ofString "p/")).on layered).1 = .ok ix ∧
      ix.traceOn layered.contents (Path.ofString "p/./m.c") = .ok s ∧
      (∃ c ∈ ix.records, c.relative.toString = "lib/a.c") ∧
      ∃ r ∈ s.visited, r.StandsIn layered (Path.ofString "p/") "lib" := by
  have hnames : layered.tree.WellNamed := by decide
  have hslash : layered.tree.Unslashed := by decide
  have hentry : (Path.ofString "./m.c").isAbsolute = false := by decide
  have hrun : ((discover (Path.ofString "p/") (Path.ofString "./m.c")).on layered).1 =
      .ok ⟨["lib"], ["m.c", "lib/a.c"]⟩ := by cbv
  obtain ⟨ix, s, hix, hs, ⟨f, fs, hfiles, -, -, hrest⟩, hincludes, -⟩ :=
    discover_names hnames hslash hentry (Prod.ext hrun rfl)
  cases hfiles
  obtain ⟨c, hc, hname, -⟩ := hrest "lib/a.c" (by decide)
  obtain ⟨r, hr, -, hstands⟩ := hincludes "lib" (by decide)
  exact ⟨_, hnames, hslash, hentry, Prod.ext hrun rfl, ix, s, hix, hs, ⟨c, hc, hname.symm⟩, r, hr, hstands⟩

end Source

/-- The name of bytes that a text is. -/
def PathText.bytewise (s : List Char) : List Char :=
  (Utf8.encode (String.ofList s)).map fun b => Char.ofNat b.toNat

theorem PathText.text_bytewise (s : List Char) : PathText.ofBytes.text (bytewise s) = s := by
  have hsame (b : UInt8) : UInt8.ofNat (Char.ofNat b.toNat).toNat = b := by
    have hbyte : b.toNat < 256 := b.toNat_lt
    have hvalid : b.toNat.isValidChar := .inl (by omega)
    rw [Char.toNat_ofNat, if_pos hvalid, UInt8.ofNat_toNat]
  have hbytes : (bytewise s).map (fun c => UInt8.ofNat c.toNat) = Utf8.encode (String.ofList s) := by
    rw [bytewise, List.map_map]
    exact (List.map_congr_left fun b _ => hsame b).trans (List.map_id _)
  exact (congrArg Utf8.decodeLossy hbytes).trans (Utf8.decodeLossy_encode s)

namespace Source

def garbledName : Machine where
  tree := .ofEntries [(["p".toList], .directory), (["p".toList, "caf\xe9".toList], .directory),
    (["p".toList, "caf\xe9".toList, "a.c".toList], .file [] false),
    (["p".toList, "caf\xe9".toList, "a.h".toList], .file [] false),
    (["p".toList, "m.c".toList], .file (Utf8.encode "#include \"a.h\"") false)]
  here := []

/-- Where names are bytes, what is listed need not be there. -/
theorem discover_garbled : garbledName.tree.WellNamed ∧ garbledName.tree.Unslashed ∧
    (Path.ofString "m.c").isAbsolute = false ∧
    ((@discover _ _ _ .ofBytes (Path.ofString "p") (Path.ofString "m.c")).on garbledName).1 =
      .ok ⟨["caf\uFFFD"], ["m.c", "caf\uFFFD/a.c"]⟩ ∧
    garbledName.tree.find garbledName.here (Path.ofString "p" / ⟨PathText.bytewise "caf\uFFFD".toList⟩) =
      .error .notFound ∧
    garbledName.tree.find garbledName.here (Path.ofString "p" / ⟨PathText.bytewise "caf\uFFFD/a.c".toList⟩) =
      .error .notFound := by
  refine ⟨by decide, by decide, by decide, by cbv, by cbv, by cbv⟩

end Source
end CBuild
