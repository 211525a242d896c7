import CBuild.Proofs.Path.Joining
import CBuild.Proofs.Source.Building
import CBuild.Proofs.Source.Order
import Mathlib

/-! The companion of a header. It is looked up by the text of the header's path with another suffix, so it is the file
beside the header as long as no other path ends in such a text. -/

namespace CBuild

open Source

theorem Text.not_mem_slashed (s : List Char) : '\\' ∉ slashed s := by
  rw [slashed, List.mem_map]
  rintro ⟨c, -, hc⟩
  split at hc
  · cases hc
  next hne => exact hne hc

theorem Text.slashed_of_not_mem {s : List Char} (h : '\\' ∉ s) : slashed s = s := by
  have hid : ∀ c ∈ s, (if c = '\\' then '/' else c) = id c := by
    rintro c hc
    refine if_neg ?_
    rintro rfl
    exact h hc
  rw [slashed, List.map_congr_left hid, List.map_id]

theorem Text.slashed_append (s r : List Char) : slashed (s ++ r) = slashed s ++ slashed r :=
  List.map_append

namespace Source

variable {ix : Index} {h c r : Record} {s name : List Char}

/-- A file in the directory of another, under the name of that with another suffix. -/
structure Record.Beside (h : Record) (s : List Char) (c : Record) : Prop where
  directory : c.relative.parent? = h.relative.parent?
  name : ∃ stem, h.relative.fileName? = some (stem ++ h.suffix) ∧ c.relative.fileName? = some (stem ++ s)

/-- A file whose path, as it is compared, ends in that of another with another suffix. -/
def Record.EndsLike (h : Record) (s : List Char) (c : Record) : Prop :=
  h.stem ++ s <:+ c.key

instance (h : Record) (s : List Char) (c : Record) : Decidable (h.EndsLike s c) :=
  inferInstanceAs (Decidable (h.stem ++ s <:+ c.key))

/-- The first suffix of an implementation file by which there is a record of a kind. -/
def Index.First (ix : Index) (kind : List Char → Record → Prop) (s : List Char) : Prop :=
  (∃ r ∈ ix.records, kind s r) ∧
    ∃ before after, implementationSuffixes = before ++ s :: after ∧ ∀ s' ∈ before, ∀ r ∈ ix.records, ¬kind s' r

theorem Index.First.mem {kind : List Char → Record → Prop} (hf : ix.First kind s) : s ∈ implementationSuffixes := by
  obtain ⟨-, before, after, hl, -⟩ := hf
  simp [hl]

theorem Index.First.congr {kind kind' : List Char → Record → Prop} (hf : ix.First kind s)
    (hk : ∀ s ∈ implementationSuffixes, ∀ r ∈ ix.records, kind s r ↔ kind' s r) : ix.First kind' s := by
  obtain ⟨⟨r, hr, hkind⟩, before, after, hl, hbefore⟩ := hf
  refine ⟨⟨r, hr, (hk s (by simp [hl]) r hr).1 hkind⟩, before, after, hl, fun s' hs' r hr hkind' => ?_⟩
  exact hbefore s' hs' r hr ((hk s' (by simp [hl, hs']) r hr).2 hkind')

section Looking

theorem find?_eq_some_iff_of_pairwise {α : Type} {R : α → α → Prop} [Std.Antisymm R] {l : List α} {p : α → Bool} {a : α}
    (hl : l.Pairwise R) : l.find? p = some a ↔ a ∈ l ∧ p a = true ∧ ∀ b ∈ l, p b = true → b = a ∨ R a b := by
  have first {a : α} (hfind : l.find? p = some a) : ∀ b ∈ l, p b = true → b = a ∨ R a b := by
    obtain ⟨-, before, after, rfl, hbefore⟩ := List.find?_eq_some_iff_append.1 hfind
    intro b hb hpb
    rcases List.mem_append.1 hb with hb | hb
    · have hnot := hbefore b hb
      rw [hpb] at hnot
      cases hnot
    · rcases List.mem_cons.1 hb with rfl | hb
      · exact .inl rfl
      · exact .inr ((List.pairwise_cons.1 (List.pairwise_append.1 hl).2.1).1 b hb)
  constructor
  · intro hfind
    exact ⟨List.mem_of_find?_eq_some hfind, List.find?_some hfind, first hfind⟩
  · rintro ⟨ha, hpa, hleast⟩
    obtain ⟨b, hb⟩ := Option.isSome_iff_exists.1 (List.find?_isSome.2 ⟨a, ha, hpa⟩)
    rw [hb]
    rcases first hb a ha hpa with rfl | hba
    · rfl
    · rcases hleast b (List.mem_of_find?_eq_some hb) (List.find?_some hb) with rfl | hab
      · rfl
      · rw [Std.Antisymm.antisymm _ _ hab hba]

theorem endsWith_iff : r.endsWith name = true ↔ name <:+ r.key :=
  List.isSuffixOf_iff_suffix

/-- A name means the first record in the order of the paths that it fits. -/
theorem Index.resolve?_eq_some_iff (ho : Ordered ix.records) :
    ix.resolve? name = some c ↔ c ∈ ix.records ∧ Text.slashed name <:+ c.key ∧
      ∀ r ∈ ix.records, Text.slashed name <:+ r.key → r = c ∨ c.Before r := by
  rw [resolve?, find?_eq_some_iff_of_pairwise ho]
  simp only [endsWith_iff]

theorem Index.resolve?_eq_none_iff : ix.resolve? name = none ↔ ∀ r ∈ ix.records, ¬Text.slashed name <:+ r.key := by
  rw [resolve?, List.find?_eq_none]
  simp only [endsWith_iff]

theorem slashed_stem_append (hs : '\\' ∉ s) : Text.slashed (h.stem ++ s) = h.stem ++ s := by
  apply Text.slashed_of_not_mem
  rw [List.mem_append, not_or]
  exact ⟨fun hmem => Text.not_mem_slashed _ (List.mem_of_mem_take hmem), hs⟩

theorem no_backslash_of_mem (hs : s ∈ implementationSuffixes) : '\\' ∉ s := by
  have hall : ∀ s ∈ implementationSuffixes, '\\' ∉ s := by decide
  exact hall s hs

theorem Index.resolve?_stem_eq_some_iff (ho : Ordered ix.records) (hs : s ∈ implementationSuffixes) :
    ix.resolve? (h.stem ++ s) = some c ↔ c ∈ ix.records ∧ h.EndsLike s c ∧
      ∀ r ∈ ix.records, h.EndsLike s r → r = c ∨ c.Before r := by
  rw [resolve?_eq_some_iff ho, slashed_stem_append (no_backslash_of_mem hs)]
  rfl

theorem Index.resolve?_stem_eq_none_iff (hs : s ∈ implementationSuffixes) :
    ix.resolve? (h.stem ++ s) = none ↔ ∀ r ∈ ix.records, ¬h.EndsLike s r := by
  rw [resolve?_eq_none_iff, slashed_stem_append (no_backslash_of_mem hs)]
  rfl

theorem Index.companion?_eq_none_iff (hheader : h.isHeader = true) :
    ix.companion? h = none ↔ ∀ s ∈ implementationSuffixes, ∀ r ∈ ix.records, ¬h.EndsLike s r := by
  rw [companion?, if_pos hheader, List.findSome?_eq_none_iff]
  exact forall₂_congr fun s hs => resolve?_stem_eq_none_iff hs

theorem Index.companion?_eq_some_iff (ho : Ordered ix.records) (hheader : h.isHeader = true) :
    ix.companion? h = some c ↔ ∃ s, ix.First h.EndsLike s ∧ c ∈ ix.records ∧ h.EndsLike s c ∧
      ∀ r ∈ ix.records, h.EndsLike s r → r = c ∨ c.Before r := by
  rw [companion?, if_pos hheader, List.findSome?_eq_some_iff]
  constructor
  · rintro ⟨before, s, after, hl, hc, hbefore⟩
    have hs : s ∈ implementationSuffixes := by simp [hl]
    obtain ⟨hmem, hends, hleast⟩ := (resolve?_stem_eq_some_iff ho hs).1 hc
    refine ⟨s, ⟨⟨c, hmem, hends⟩, before, after, hl, fun s' hs' => ?_⟩, hmem, hends, hleast⟩
    have hmem' : s' ∈ implementationSuffixes := by simp [hl, hs']
    exact (resolve?_stem_eq_none_iff hmem').1 (hbefore s' hs')
  · rintro ⟨s, ⟨-, before, after, hl, hbefore⟩, hc⟩
    have hs : s ∈ implementationSuffixes := by simp [hl]
    refine ⟨before, s, after, hl, (resolve?_stem_eq_some_iff ho hs).2 hc, fun s' hs' => ?_⟩
    have hmem' : s' ∈ implementationSuffixes := by simp [hl, hs']
    exact (resolve?_stem_eq_none_iff hmem').2 (hbefore s' hs')

end Looking

section Beside

variable {root : Path}

theorem path_of_record? {p : Path} (hr : Index.record? root p = some r) : r.path = root / r.relative := by
  obtain ⟨s, -, rfl⟩ := Option.map_eq_some_iff.1 hr
  rfl

theorem mem_suffixes_of_record? {p : Path} (hr : Index.record? root p = some r) : r.suffix ∈ suffixes := by
  obtain ⟨s, hs, rfl⟩ := Option.map_eq_some_iff.1 hr
  obtain ⟨n, -, hsuffix⟩ := Option.bind_eq_some_iff.1 hs
  exact List.mem_of_find?_eq_some hsuffix

theorem no_backslash_of_record? {p : Path} (hr : Index.record? root p = some r) : '\\' ∉ r.suffix := by
  have hall : ∀ s ∈ suffixes, '\\' ∉ s := by decide
  exact hall _ (mem_suffixes_of_record? hr)

theorem stem_of_key {front : List Char} (hk : h.key = front ++ h.suffix) : h.stem = front := by
  rw [Record.stem, hk, List.length_append, Nat.add_sub_cancel, List.take_left]

theorem exists_key (root q : Path) : ∃ front, ∀ (r : Record) (n : List Char), Index.record? root r.relative = some r →
    r.relative = q / Path.ofName n → r.relative.isAbsolute = false → Path.IsFileName n →
    r.key = front ++ Text.slashed n := by
  obtain ⟨front, -, hfront⟩ := root.exists_chars_div
  obtain ⟨middle, -, hmiddle⟩ := q.exists_chars_div
  refine ⟨Text.slashed (front ++ middle), fun r n hr hn ha hf => ?_⟩
  rw [Record.key, Path.slashed, PathText.text_ofText, path_of_record? hr, hfront _ ha, hn, hmiddle _ hf.isPart.isAbsolute,
    ← List.append_assoc, Text.slashed_append]
  rfl

theorem Record.Beside.key_eq (hb : h.Beside s c) (hs : '\\' ∉ s) (hh : Index.record? root h.relative = some h)
    (hc : Index.record? root c.relative = some c) (hhn : h.relative.Named) (hcn : c.relative.Named) :
    c.key = h.stem ++ s := by
  obtain ⟨q, x, hq, hx, hrelative, habsolute, hname⟩ := hhn.eq_div
  obtain ⟨q', y, hq', hy, hrelative', habsolute', hname'⟩ := hcn.eq_div
  obtain ⟨hdirectory, stem, hstem, hstem'⟩ := hb
  rw [hq, hq'] at hdirectory
  rw [hx] at hstem
  rw [hy] at hstem'
  cases hdirectory
  cases hstem
  cases hstem'
  obtain ⟨front, hkey⟩ := exists_key root q
  have hheader : h.key = front ++ Text.slashed stem ++ h.suffix := by
    rw [hkey h _ hh hrelative habsolute hname, Text.slashed_append, Text.slashed_of_not_mem (no_backslash_of_record? hh),
      List.append_assoc]
  rw [stem_of_key hheader, hkey c _ hc hrelative' habsolute' hname', Text.slashed_append, Text.slashed_of_not_mem hs,
    List.append_assoc]

theorem Record.Beside.relative_eq (hr : h.Beside s r) (hc : h.Beside s c) (hrn : r.relative.Named)
    (hcn : c.relative.Named) : r.relative = c.relative := by
  obtain ⟨q, x, hq, hx, hrelative, -, -⟩ := hrn.eq_div
  obtain ⟨q', y, hq', hy, hrelative', -, -⟩ := hcn.eq_div
  obtain ⟨hdirectory, stem, hstem, hname⟩ := hr
  obtain ⟨hdirectory', stem', hstem', hname'⟩ := hc
  have hsame : q = q' := by
    rw [hq, ← hdirectory', hq'] at hdirectory
    exact Option.some.inj hdirectory
  have hstems : stem = stem' := by
    rw [hstem] at hstem'
    exact List.append_cancel_right (Option.some.inj hstem')
  have hnames : x = y := by
    rw [hx] at hname
    rw [hy] at hname'
    rw [Option.some.inj hname, Option.some.inj hname', hstems]
  rw [hrelative, hrelative', hsame, hnames]

end Beside

/-- A header has no companion exactly when no path in the index ends in its own with an implementation suffix for its
own; and otherwise, for the first suffix for which there are such paths, the least of them. A file beside the header
under such a suffix is always among them, and where no other file is, the companion is the file beside the header. -/
theorem companion?_of_build {root : Path} {m n : Machine} (hnames : m.tree.WellNamed)
    (hix : (Index.build root).on m = (.ok ix, n)) (hh : h ∈ ix.records) (hheader : h.isHeader = true) :
    (ix.companion? h = none ↔ ∀ s ∈ implementationSuffixes, ∀ r ∈ ix.records, ¬h.EndsLike s r) ∧
    (∀ c, ix.companion? h = some c ↔ ∃ s, ix.First h.EndsLike s ∧ c ∈ ix.records ∧ h.EndsLike s c ∧
      ∀ r ∈ ix.records, h.EndsLike s r → r = c ∨ c.Before r) ∧
    (∀ s ∈ implementationSuffixes, ∀ c ∈ ix.records, h.Beside s c → h.EndsLike s c) ∧
    ((∀ s ∈ implementationSuffixes, ∀ c ∈ ix.records, h.EndsLike s c → h.Beside s c) →
      (ix.companion? h = none ↔ ∀ s ∈ implementationSuffixes, ∀ r ∈ ix.records, ¬h.Beside s r) ∧
      ∀ c, ix.companion? h = some c ↔ ∃ s, ix.First h.Beside s ∧ c ∈ ix.records ∧ h.Beside s c) := by
  have hnamed := Machine.named_of_build hnames hix
  have hrecords := Machine.ofFiles_of_build hix
  have ho : Index.Ordered ix.records := by
    rw [hrecords]
    exact Index.ordered_ofFiles _ _
  have hrecord : ∀ r ∈ ix.records, Index.record? root r.relative = some r := by
    rw [hrecords]
    exact fun r => Index.record?_of_mem_ofFiles
  have hends : ∀ s ∈ implementationSuffixes, ∀ c ∈ ix.records, h.Beside s c → h.EndsLike s c := by
    intro s hs c hc hb
    have hkey := hb.key_eq (no_backslash_of_mem hs) (hrecord h hh) (hrecord c hc) (hnamed h hh) (hnamed c hc)
    exact ⟨[], hkey.symm⟩
  refine ⟨Index.companion?_eq_none_iff hheader, fun c => Index.companion?_eq_some_iff ho hheader, hends, fun hall => ?_⟩
  have hiff : ∀ s ∈ implementationSuffixes, ∀ r ∈ ix.records, h.EndsLike s r ↔ h.Beside s r :=
    fun s hs r hr => ⟨hall s hs r hr, hends s hs r hr⟩
  constructor
  · rw [Index.companion?_eq_none_iff hheader]
    exact forall₄_congr fun s hs r hr => not_congr (hiff s hs r hr)
  · intro c
    rw [Index.companion?_eq_some_iff ho hheader]
    refine exists_congr fun s => ⟨fun ⟨hfirst, hc, hends', _⟩ => ?_, fun ⟨hfirst, hc, hb⟩ => ?_⟩
    · exact ⟨hfirst.congr hiff, hc, (hiff s hfirst.mem c hc).1 hends'⟩
    · have hfirst' := hfirst.congr fun s hs r hr => (hiff s hs r hr).symm
      refine ⟨hfirst', hc, hends s hfirst.mem c hc hb, fun r hr hlike => .inl ?_⟩
      have hrelative := ((hiff s hfirst.mem r hr).1 hlike).relative_eq hb (hnamed r hr) (hnamed c hc)
      have hrecord' := hrecord r hr
      rw [hrelative, hrecord c hc] at hrecord'
      exact (Option.some.inj hrecord').symm

def paired : Machine where
  tree := .ofEntries [(["lib".toList], .directory), (["lib".toList, "codec.c".toList], .file [] false),
    (["lib".toList, "codec.cpp".toList], .file [] false), (["lib".toList, "codec.h".toList], .file [] false)]
  here := []

def codec (suffix : String) : Record :=
  ⟨Path.ofString ("./lib/codec" ++ suffix), Path.ofString ("lib/codec" ++ suffix), suffix.toList⟩

def codecs : Index :=
  ⟨Path.ofString ".", [codec ".c", codec ".cpp", codec ".h"]⟩

theorem beside_codec (hs : s ∈ implementationSuffixes) : (codec ".h").Beside s (codec (String.ofList s)) := by
  have hdirectory : ∀ s ∈ implementationSuffixes,
    (codec (String.ofList s)).relative.parent? = (codec ".h").relative.parent? := by decide
  have hname : ∀ s ∈ implementationSuffixes,
    (codec (String.ofList s)).relative.fileName? = some ("codec".toList ++ s) := by decide
  exact ⟨hdirectory s hs, "codec".toList, by decide, hname s hs⟩

theorem companion?_codec : ∃ ix n, paired.tree.WellNamed ∧
    (Index.build (Path.ofString ".")).on paired = (.ok ix, n) ∧ codec ".h" ∈ ix.records ∧
    (codec ".h").isHeader = true ∧ codec ".c" ∈ ix.records ∧ ix.companion? (codec ".h") = some (codec ".cpp") := by
  have hbuild : ((Index.build (Path.ofString ".")).on paired).1 = .ok codecs := by cbv
  have hnames : paired.tree.WellNamed := by decide
  have hmem : codec ".h" ∈ codecs.records := by decide
  have hheader : (codec ".h").isHeader = true := by decide
  obtain ⟨-, -, -, hbeside⟩ := companion?_of_build hnames (Prod.ext hbuild rfl) hmem hheader
  have hends : ∀ s ∈ implementationSuffixes, ∀ c ∈ codecs.records, (codec ".h").EndsLike s c →
    c = codec (String.ofList s) := by decide
  have hcpp : (codec ".h").Beside ".cpp".toList (codec ".cpp") := beside_codec (by decide)
  have hfirst : codecs.First (codec ".h").Beside ".cpp".toList :=
    ⟨⟨codec ".cpp", by decide, hcpp⟩, [], _, rfl, by simp⟩
  refine ⟨codecs, _, hnames, Prod.ext hbuild rfl, hmem, hheader, by decide, ?_⟩
  refine ((hbeside fun s hs c hc hl => ?_).2 _).2 ⟨".cpp".toList, hfirst, by decide, hcpp⟩
  rw [hends s hs c hc hl]
  exact beside_codec hs

def nested : Machine where
  tree := .ofEntries [(["p".toList], .directory), (["p".toList, "p".toList], .directory),
    (["p".toList, "p".toList, "x.c".toList], .file [] false), (["p".toList, "x.c".toList], .file [] false),
    (["p".toList, "x.h".toList], .file [] false)]
  here := []

def nestedRecord (relative suffix : String) : Record :=
  ⟨Path.ofString ("p/" ++ relative), Path.ofString relative, suffix.toList⟩

/-- The file further below is first in the order of the paths, and is taken for the companion. -/
theorem companion?_nested : ∃ ix n h c sibling, (Index.build (Path.ofString "p")).on nested = (.ok ix, n) ∧
    h ∈ ix.records ∧ h.isHeader = true ∧ sibling ∈ ix.records ∧ h.Beside ".c".toList sibling ∧
    ix.companion? h = some c ∧ c.relative.parent? ≠ h.relative.parent? := by
  have hbuild : ((Index.build (Path.ofString "p")).on nested).1 =
      .ok ⟨Path.ofString "p", [nestedRecord "p/x.c" ".c", nestedRecord "x.c" ".c", nestedRecord "x.h" ".h"]⟩ := by cbv
  refine ⟨_, _, nestedRecord "x.h" ".h", nestedRecord "p/x.c" ".c", nestedRecord "x.c" ".c", Prod.ext hbuild rfl,
    by decide, by decide, by decide, ⟨by decide, "x".toList, by decide, by decide⟩, by decide, by decide⟩

end Source
end CBuild
