import CBuild.Proofs.Source.Companion

/-! Suffixes of source files. A file name ends in one of them at most, its text from the last dot on, so it does not
matter in which order they are tried. The path of a record ends like its file name, so the suffix can be cut off the path,
also where the cut is counted in bytes. -/

namespace CBuild.Source

variable {name s : List Char}

/-- The text from the last dot on, when there is a dot. -/
def fromLastDot? : List Char → Option (List Char)
  | [] => none
  | c :: r => (fromLastDot? r).or (if c = '.' then some (c :: r) else none)

/-- What is left of a text when so many bytes are cut off at its end; nothing when there are fewer, or when the cut falls
inside a character. -/
def cutEnd? (s : String) (n : Nat) : Option String :=
  if h : n ≤ s.utf8ByteSize ∧ String.Pos.Raw.IsValid s ⟨s.utf8ByteSize - n⟩ then
    some (s.sliceTo (s.pos ⟨s.utf8ByteSize - n⟩ h.2)).copy
  else none

def Record.cutStem? (r : Record) : Option String :=
  cutEnd? (String.ofList r.key) (String.ofList r.suffix).utf8ByteSize

/-- The companion of a record, looked up by the cut path; nothing when a header's path cannot be cut. -/
def Index.cutCompanion? (ix : Index) (r : Record) : Option (Option Record) :=
  if r.isHeader then
    r.cutStem?.map fun stem => implementationSuffixes.findSome? fun s => ix.resolve? (stem.toList ++ s)
  else some none

section Recognizing

theorem fromLastDot?_eq_none_iff : fromLastDot? name = none ↔ '.' ∉ name := by
  induction name with
  | nil => exact iff_of_true rfl List.not_mem_nil
  | cons c r ih =>
    have hhead : (if c = '.' then some (c :: r) else none) = none ↔ '.' ≠ c := by
      rw [ite_eq_right_iff]
      exact ⟨fun h hc => Option.some_ne_none _ (h hc.symm), fun h hc => absurd hc.symm h⟩
    rw [fromLastDot?, Option.or_eq_none_iff, ih, hhead, List.mem_cons, not_or, and_comm]

theorem fromLastDot?_append {front rest : List Char} (h : '.' ∉ rest) :
    fromLastDot? (front ++ '.' :: rest) = some ('.' :: rest) := by
  induction front with
  | nil =>
    rw [List.nil_append, fromLastDot?, fromLastDot?_eq_none_iff.2 h, if_pos rfl]
    rfl
  | cons c front ih =>
    rw [List.cons_append, fromLastDot?, ih]
    rfl

theorem fromLastDot?_eq_some_iff :
    fromLastDot? name = some s ↔ s <:+ name ∧ ∃ rest, s = '.' :: rest ∧ '.' ∉ rest := by
  constructor
  · intro h
    induction name with
    | nil => cases h
    | cons c r ih =>
      rw [fromLastDot?, Option.or_eq_some_iff] at h
      rcases h with h | ⟨hnone, h⟩
      · obtain ⟨hsuffix, hdotted⟩ := ih h
        exact ⟨hsuffix.trans (List.suffix_cons c r), hdotted⟩
      · obtain ⟨rfl, hs⟩ := Option.ite_none_right_eq_some.1 h
        cases hs
        exact ⟨List.suffix_refl _, r, rfl, fromLastDot?_eq_none_iff.1 hnone⟩
  · rintro ⟨⟨front, rfl⟩, rest, rfl, hrest⟩
    exact fromLastDot?_append hrest

theorem exists_dotted (hs : s ∈ suffixes) : ∃ rest, s = '.' :: rest ∧ '.' ∉ rest := by
  have hall : ∀ s ∈ suffixes, s = '.' :: s.tail ∧ '.' ∉ s.tail := by decide
  exact ⟨s.tail, hall s hs⟩

theorem suffix_iff_of_mem (hs : s ∈ suffixes) : s <:+ name ↔ fromLastDot? name = some s := by
  rw [fromLastDot?_eq_some_iff]
  exact (and_iff_left (exists_dotted hs)).symm

theorem nodup_suffixes : suffixes.Nodup := by
  decide

theorem filter_suffixes (name : List Char) : suffixes.filter (fun s => s.isSuffixOf name) =
    ((fromLastDot? name).filter (suffixes.contains ·)).toList := by
  have hends : suffixes.filter (fun s => s.isSuffixOf name) = suffixes.filter (fun s => fromLastDot? name = some s) := by
    apply List.filter_congr
    intro s hs
    rw [Bool.eq_iff_iff, List.isSuffixOf_iff_suffix, decide_eq_true_iff]
    exact suffix_iff_of_mem hs
  rw [hends]
  cases fromLastDot? name with
  | none => simp
  | some t =>
    simp only [Option.some.injEq, eq_comm (a := t), List.filter_eq, Option.filter_some, List.contains_iff_mem]
    by_cases ht : t ∈ suffixes
    · rw [if_pos ht, List.count_eq_one_of_mem nodup_suffixes ht]
      rfl
    · rw [if_neg ht, List.count_eq_zero_of_not_mem ht]
      rfl

theorem find?_eq_of_perm {α : Type} {l l' : List α} {p : α → Bool} {o : Option α} (hl : l.filter p = o.toList)
    (h : l'.Perm l) : l'.find? p = o := by
  have hperm : (l'.filter p).Perm o.toList := by
    rw [← hl]
    exact h.filter p
  rw [← List.head?_filter]
  cases o with
  | none => rw [List.perm_nil.1 hperm, List.head?_nil]
  | some a => rw [List.perm_singleton.1 hperm, List.head?_cons]

theorem suffixOf?_eq (name : List Char) : suffixOf? name = (fromLastDot? name).filter (suffixes.contains ·) :=
  find?_eq_of_perm (filter_suffixes name) (.refl _)

theorem suffixOf?_eq_some_iff : suffixOf? name = some s ↔ s ∈ suffixes ∧ s <:+ name := by
  rw [suffixOf?_eq, Option.filter_eq_some_iff, List.contains_iff_mem, and_comm]
  exact and_congr_right fun hs => (suffix_iff_of_mem hs).symm

end Recognizing

section Cutting

theorem cutEnd?_eq_some_iff {s t : String} {n : Nat} :
    cutEnd? s n = some t ↔ ∃ u, s = t ++ u ∧ u.utf8ByteSize = n := by
  unfold cutEnd?
  constructor
  · intro h
    split at h
    next hn =>
      have hcopy := Option.some.inj h
      obtain ⟨u, hsplits⟩ := String.copy_sliceTo_eq_iff_exists_splits.1 hcopy
      refine ⟨u, hsplits.eq_append, ?_⟩
      have hoffset := hsplits.offset_eq_rawEndPos
      rw [String.offset_pos] at hoffset
      have hbytes : s.utf8ByteSize - n = t.utf8ByteSize := congrArg String.Pos.Raw.byteIdx hoffset
      have hsize : s.utf8ByteSize = t.utf8ByteSize + u.utf8ByteSize := by
        rw [hsplits.eq_append, String.utf8ByteSize_append]
      omega
    next => cases h
  · rintro ⟨u, rfl, rfl⟩
    have hcut : (t ++ u).utf8ByteSize - u.utf8ByteSize = t.utf8ByteSize := by
      rw [String.utf8ByteSize_append, Nat.add_sub_cancel]
    have hvalid : String.Pos.Raw.IsValid (t ++ u) ⟨(t ++ u).utf8ByteSize - u.utf8ByteSize⟩ := by
      rw [hcut, String.Pos.Raw.isValid_iff_exists_append]
      exact ⟨t, u, rfl, rfl⟩
    have hroom : u.utf8ByteSize ≤ (t ++ u).utf8ByteSize := by
      rw [String.utf8ByteSize_append]
      exact Nat.le_add_left _ _
    rw [dif_pos ⟨hroom, hvalid⟩, Option.some_inj]
    apply String.copy_sliceTo_eq_iff_exists_splits.2
    refine ⟨u, rfl, ?_⟩
    rw [String.offset_pos, hcut]
    rfl

end Cutting

section Records

variable {r : Record} {root : Path}

theorem bind_fileName? {p : Path} (hr : Index.record? root p = some r) :
    r.relative.fileName?.bind suffixOf? = some r.suffix := by
  obtain ⟨s, hs, rfl⟩ := Option.map_eq_some_iff.1 hr
  exact hs

theorem suffix_key (hr : Index.record? root r.relative = some r) (hn : r.relative.Named) : r.suffix <:+ r.key := by
  obtain ⟨q, n, -, hname, hrelative, habsolute, hfile⟩ := hn.eq_div
  obtain ⟨front, hkey⟩ := exists_key root q
  have hsuffix : suffixOf? n = some r.suffix := by
    have hbind := bind_fileName? hr
    rwa [hname, Option.bind_some] at hbind
  obtain ⟨stem, hstem⟩ := (suffixOf?_eq_some_iff.1 hsuffix).2
  refine ⟨front ++ Text.slashed stem, ?_⟩
  rw [hkey r n hr hrelative habsolute hfile, ← hstem, Text.slashed_append,
    Text.slashed_of_not_mem (no_backslash_of_record? hr), List.append_assoc]

theorem stem_append_suffix (h : r.suffix <:+ r.key) : r.stem ++ r.suffix = r.key := by
  obtain ⟨front, hfront⟩ := h
  rw [stem_of_key hfront.symm, hfront]

theorem cutStem?_eq (h : r.suffix <:+ r.key) : r.cutStem? = some (String.ofList r.stem) := by
  apply cutEnd?_eq_some_iff.2
  refine ⟨String.ofList r.suffix, ?_, rfl⟩
  rw [← String.ofList_append, stem_append_suffix h]

theorem cutCompanion?_eq (h : r.suffix <:+ r.key) (ix : Index) : ix.cutCompanion? r = some (ix.companion? r) := by
  unfold Index.cutCompanion? Index.companion?
  split
  · rw [cutStem?_eq h, Option.map_some, String.toList_ofList]
  · rfl

end Records

/-- A file name ends in one suffix at most, its text from the last dot on, and that one is found in whatever order the
suffixes are tried. A record has the suffix of its file name, which is that of its path too. Cut off the path in bytes, it
leaves the stem; joined, the two are the path again. So whatever record of whatever index a companion is looked up for, the
path can be cut. -/
theorem suffix_recognized_and_cut :
    (∀ name : List Char,
      suffixes.filter (fun s => s.isSuffixOf name) = ((fromLastDot? name).filter (suffixes.contains ·)).toList ∧
      ∀ table : List (List Char), table.Perm suffixes → table.find? (fun s => s.isSuffixOf name) = suffixOf? name) ∧
    ∀ (root : Path) (m n : Machine) (ix : Index), m.tree.WellNamed → (Index.build root).on m = (.ok ix, n) →
      ∀ r ∈ ix.records, r.relative.fileName?.bind suffixOf? = some r.suffix ∧ suffixOf? r.key = some r.suffix ∧
        r.cutStem? = some (String.ofList r.stem) ∧ r.stem ++ r.suffix = r.key ∧
        ∀ jx : Index, jx.cutCompanion? r = some (jx.companion? r) := by
  constructor
  · intro name
    refine ⟨filter_suffixes name, fun table htable => ?_⟩
    rw [suffixOf?_eq]
    exact find?_eq_of_perm (filter_suffixes name) htable
  · intro root m n ix hnames hix r hr
    have hrecord : Index.record? root r.relative = some r := Machine.record?_of_build hix r hr
    have hends : r.suffix <:+ r.key := suffix_key hrecord (Machine.named_of_build hnames hix r hr)
    exact ⟨bind_fileName? hrecord, suffixOf?_eq_some_iff.2 ⟨mem_suffixes_of_record? hrecord, hends⟩, cutStem?_eq hends,
      stem_append_suffix hends, cutCompanion?_eq hends⟩

def accented : Machine where
  tree := .ofEntries [(["größe".toList], .directory), (["größe".toList, "ü\\ß.h++".toList], .file [] false)]
  here := []

def accentedRecord : Record :=
  ⟨Path.ofString "./größe/ü\\ß.h++", Path.ofString "ü\\ß.h++", ".h++".toList⟩

theorem suffix_recognized_and_cut_accented : suffixes.reverse.Perm suffixes ∧
    suffixes.reverse.find? (fun s => s.isSuffixOf "main.cpp".toList) = some ".cpp".toList ∧
    ∃ ix n, accented.tree.WellNamed ∧ (Index.build (Path.ofString "./größe")).on accented = (.ok ix, n) ∧
      accentedRecord ∈ ix.records ∧ accentedRecord.cutStem? = some "./größe/ü/ß" := by
  obtain ⟨hnames, hrecords⟩ := suffix_recognized_and_cut
  have hbuild : ((Index.build (Path.ofString "./größe")).on accented).1 =
      .ok ⟨Path.ofString "./größe", [accentedRecord]⟩ := by cbv
  have hwell : accented.tree.WellNamed := by decide
  have hmem : accentedRecord ∈ [accentedRecord] := List.mem_singleton.2 rfl
  obtain ⟨-, -, hcut, -⟩ := hrecords _ _ _ _ hwell (Prod.ext hbuild rfl) _ hmem
  have hperm : suffixes.reverse.Perm suffixes := List.reverse_perm _
  refine ⟨hperm, ?_, _, _, hwell, Prod.ext hbuild rfl, hmem, ?_⟩
  · rw [(hnames "main.cpp".toList).2 _ hperm]
    decide
  · rw [hcut]
    decide

end CBuild.Source
