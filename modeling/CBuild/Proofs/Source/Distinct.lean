import CBuild.Proofs.Source.Companion
import CBuild.Proofs.Source.Repeating

/-! The texts that a traversal gives. Different paths may be written as one text, since a backslash in a name is written
as the slash between names. Of the files that are written as one text a name means the first only, so a text is never
listed twice for two files. -/

namespace CBuild.Source

section Dups

variable {α : Type} [BEq α] [LawfulBEq α] {l : List α} {x y : α} {p : α → Bool}

theorem idxOf_lt_of_filter (hy : p y = true) (h : (l.filter p).idxOf x < (l.filter p).idxOf y) :
    l.idxOf x < l.idxOf y := by
  induction l with
  | nil => exact absurd h (Nat.lt_irrefl _)
  | cons a l ih =>
    by_cases hax : a = x
    · have hay : a ≠ y := by
        rintro rfl
        rw [hax] at h
        exact Nat.lt_irrefl _ h
      rw [hax, List.idxOf_cons_self, ← hax, List.idxOf_cons_ne _ hay]
      exact Nat.succ_pos _
    · by_cases ha : p a = true
      · have hay : a ≠ y := by
          rintro rfl
          rw [List.filter_cons_of_pos ha, List.idxOf_cons_self] at h
          exact Nat.not_lt_zero _ h
        rw [List.filter_cons_of_pos ha, List.idxOf_cons_ne _ hax, List.idxOf_cons_ne _ hay] at h
        rw [List.idxOf_cons_ne _ hax, List.idxOf_cons_ne _ hay]
        exact Nat.succ_lt_succ (ih (Nat.lt_of_succ_lt_succ h))
      · have hay : a ≠ y := by
          rintro rfl
          exact ha hy
        rw [List.filter_cons_of_neg ha] at h
        rw [List.idxOf_cons_ne _ hax, List.idxOf_cons_ne _ hay]
        exact Nat.succ_lt_succ (ih h)

theorem pairwise_eraseDups : ∀ l : List α, l.eraseDups.Pairwise fun x y => l.idxOf x < l.idxOf y
  | [] => by simp
  | a :: l => by
    have hrest : ∀ x ∈ (l.filter fun x => !x == a).eraseDups, (!x == a) = true ∧ a ≠ x := by
      intro x hx
      have hkept := (List.mem_filter.1 (List.mem_eraseDups.1 hx)).2
      refine ⟨hkept, ?_⟩
      rintro rfl
      simp at hkept
    rw [List.eraseDups_cons, List.pairwise_cons]
    constructor
    · intro x hx
      rw [List.idxOf_cons_self, List.idxOf_cons_ne _ (hrest x hx).2]
      exact Nat.succ_pos _
    · refine (pairwise_eraseDups (l.filter fun x => !x == a)).imp_of_mem fun hx hy h => ?_
      rw [List.idxOf_cons_ne _ (hrest _ hx).2, List.idxOf_cons_ne _ (hrest _ hy).2]
      exact Nat.succ_lt_succ (idxOf_lt_of_filter (hrest _ hy).1 h)
termination_by l => l.length
decreasing_by exact Nat.lt_succ_of_le (List.length_filter_le _ _)

theorem nodup_eraseDups (l : List α) : l.eraseDups.Nodup :=
  (pairwise_eraseDups l).imp fun h => ne_of_apply_ne l.idxOf (Nat.ne_of_lt h)

theorem idxOf_eraseDups_lt_iff (hx : x ∈ l) (hy : y ∈ l) :
    l.eraseDups.idxOf x < l.eraseDups.idxOf y ↔ l.idxOf x < l.idxOf y := by
  have forward {x y : α} (hx : x ∈ l) (hy : y ∈ l) (h : l.eraseDups.idxOf x < l.eraseDups.idxOf y) :
      l.idxOf x < l.idxOf y := by
    have hpair := List.pairwise_iff_getElem.1 (pairwise_eraseDups l) _ _
      (List.idxOf_lt_length_of_mem (List.mem_eraseDups.2 hx)) (List.idxOf_lt_length_of_mem (List.mem_eraseDups.2 hy)) h
    rwa [List.getElem_idxOf, List.getElem_idxOf] at hpair
  refine ⟨forward hx hy, fun h => ?_⟩
  rcases Nat.lt_trichotomy (l.eraseDups.idxOf x) (l.eraseDups.idxOf y) with hlt | heq | hgt
  · exact hlt
  · have hsame : x = y := (List.idxOf_inj (List.mem_eraseDups.2 hx)).1 heq
    rw [hsame] at h
    exact absurd h (Nat.lt_irrefl _)
  · exact absurd (forward hy hx hgt) (Nat.lt_asymm h)

end Dups

section Texts

variable {ix : Index} {s : Resolution} {root entry : Path} {files : Contents} {m n : Machine} {c c' : Record}
  {name name' : List Char} {d d' : List Char} {i i' : Nat}

theorem Index.eq_of_resolve? (ho : Ordered ix.records) (h : ix.resolve? name = some c)
    (h' : ix.resolve? name' = some c') (hkey : c.key = c'.key) : c = c' := by
  obtain ⟨hmem, hends, hleast⟩ := (resolve?_eq_some_iff ho).1 h
  obtain ⟨hmem', hends', hleast'⟩ := (resolve?_eq_some_iff ho).1 h'
  rw [hkey] at hends
  rw [← hkey] at hends'
  rcases hleast c' hmem' hends with heq | hbefore
  · exact heq.symm
  · rcases hleast' c hmem hends' with heq | hbefore'
    · exact heq
    · exact Std.Antisymm.antisymm _ _ hbefore hbefore'

theorem Index.exists_resolve?_of_companion? {h : Record} (hc : ix.companion? h = some c) :
    ∃ name, ix.resolve? name = some c := by
  rw [companion?] at hc
  split at hc
  · obtain ⟨s, -, hs⟩ := List.exists_of_findSome?_eq_some hc
    exact ⟨_, hs⟩
  · cases hc

theorem key_eq_of_slashed (hc : Index.record? root c.relative = some c) (hc' : Index.record? root c'.relative = some c')
    (hn : c.relative.Named) (hn' : c'.relative.Named) (h : c.relative.slashed = c'.relative.slashed) :
    c.key = c'.key := by
  obtain ⟨front, -, hfront⟩ := root.exists_chars_div
  obtain ⟨-, -, -, -, -, habsolute, -⟩ := hn.eq_div
  obtain ⟨-, -, -, -, -, habsolute', -⟩ := hn'.eq_div
  unfold Path.slashed at h
  rw [PathText.text_ofText, PathText.text_ofText] at h
  rw [Record.key, Record.key, path_of_record? hc, path_of_record? hc', Path.slashed, Path.slashed, PathText.text_ofText,
    PathText.text_ofText, hfront _ habsolute, hfront _ habsolute', Text.slashed_append, Text.slashed_append, h]

namespace Resolution

def directories (s : Resolution) : List (List Char) :=
  s.visited.map fun r => directoryOf r.relative

/-- The last of the visited files that are from a directory is the one at a place. -/
def Latest (s : Resolution) (d : List Char) (i : Nat) : Prop :=
  ∃ before after, s.directories = before ++ d :: after ∧ before.length = i ∧ d ∉ after

theorem headerDirectories_eq (s : Resolution) : s.headerDirectories = s.directories.reverse.eraseDups := by
  rw [headerDirectories, directories, List.map_reverse]

theorem mem_headerDirectories_iff : d ∈ s.headerDirectories ↔ d ∈ s.directories := by
  rw [headerDirectories_eq, List.mem_eraseDups, List.mem_reverse]

theorem Latest.mem (h : s.Latest d i) : d ∈ s.directories := by
  obtain ⟨before, after, hsplit, -, -⟩ := h
  rw [hsplit]
  simp

theorem exists_latest (h : d ∈ s.directories) : ∃ i, s.Latest d i := by
  obtain ⟨after, before, hsplit, hafter⟩ := List.eq_append_cons_of_mem (List.mem_reverse.2 h)
  refine ⟨_, before.reverse, after.reverse, ?_, rfl, by simpa using hafter⟩
  rw [← List.reverse_reverse s.directories, hsplit]
  simp

theorem Latest.idxOf_reverse (h : s.Latest d i) : s.directories.reverse.idxOf d + i + 1 = s.directories.length := by
  obtain ⟨before, after, hsplit, rfl, hafter⟩ := h
  have hreverse : s.directories.reverse = after.reverse ++ d :: before.reverse := by simp [hsplit]
  rw [hreverse, List.idxOf_append_of_notMem (by simpa using hafter), List.idxOf_cons_self, hsplit,
    List.length_append, List.length_cons, List.length_reverse]
  omega

/-- The directory whose last file was reached later stands first. -/
theorem Latest.idxOf_lt_iff (h : s.Latest d i) (h' : s.Latest d' i') :
    s.headerDirectories.idxOf d < s.headerDirectories.idxOf d' ↔ i' < i := by
  have hplace := h.idxOf_reverse
  have hplace' := h'.idxOf_reverse
  rw [headerDirectories_eq, idxOf_eraseDups_lt_iff (List.mem_reverse.2 h.mem) (List.mem_reverse.2 h'.mem)]
  omega

end Resolution

/-- No text is listed twice, though paths are told apart and texts are listed. The implementation files are listed in the
order opposite to that in which they were found, and the directories of the visited files in the order opposite to that
in which their last files were reached. -/
theorem traceOn_texts (hnames : m.tree.WellNamed) (hix : (Index.build root).on m = (.ok ix, n))
    (hs : ix.traceOn files entry = .ok s) :
    s.implementationFiles = s.companions.reverse.map (fun c => c.relative.slashed) ∧ s.implementationFiles.Nodup ∧
      s.headerDirectories.Nodup ∧
      (∀ d, d ∈ s.headerDirectories ↔ ∃ r ∈ s.visited, ∃ q, r.relative.parent? = some q ∧
        d = if q.chars = [] then ['.'] else q.slashed) ∧
      (∀ d ∈ s.headerDirectories, ∃ i, s.Latest d i) ∧
      ∀ d i d' i', s.Latest d i → s.Latest d' i' →
        (s.headerDirectories.idxOf d < s.headerDirectories.idxOf d' ↔ i' < i) := by
  have hnamed := Machine.named_of_build hnames hix
  have hfiles := Machine.ofFiles_of_build hix
  have ho : Index.Ordered ix.records := by
    rw [hfiles]
    exact Index.ordered_ofFiles _ _
  have hrecord : ∀ r ∈ ix.records, Index.record? root r.relative = some r := by
    rw [hfiles]
    exact fun r => Index.record?_of_mem_ofFiles
  have hkeyed : ix.Keyed := by
    rw [hfiles]
    exact Index.keyed_ofFiles _ _
  have hfound := Resolution.runOn_found hkeyed (.init : Resolution.Sound files entry {} [(.scan entry : Task ix)]) .init
  rw [← Resolution.traceOn_eq_runOn, hs] at hfound
  obtain ⟨hsound, hcomplete⟩ := hfound
  refine ⟨rfl, ?_, ?_, fun d => ?_, fun d hd => ?_, fun d i d' i' h h' => h.idxOf_lt_iff h'⟩
  · have hdistinct : s.companions.Pairwise fun c c' => c.relative ≠ c'.relative := by
      rw [← List.pairwise_map]
      exact nodup_companions hs
    unfold Resolution.implementationFiles
    rw [List.map_reverse, List.nodup_reverse, List.Nodup, List.pairwise_map]
    refine hdistinct.imp_of_mem fun {c c'} hc hc' hne hsame => hne ?_
    obtain ⟨h, -, hcompanion⟩ := hsound.companions c hc
    obtain ⟨h', -, hcompanion'⟩ := hsound.companions c' hc'
    obtain ⟨name, hname⟩ := Index.exists_resolve?_of_companion? hcompanion
    obtain ⟨name', hname'⟩ := Index.exists_resolve?_of_companion? hcompanion'
    have hmem := Index.mem_of_resolve? hname
    have hmem' := Index.mem_of_resolve? hname'
    have hkey := key_eq_of_slashed (hrecord c hmem) (hrecord c' hmem') (hnamed c hmem) (hnamed c' hmem') hsame
    rw [Index.eq_of_resolve? ho hname hname' hkey]
  · rw [Resolution.headerDirectories_eq]
    exact nodup_eraseDups _
  · rw [Resolution.mem_headerDirectories_iff, Resolution.directories, List.mem_map]
    refine exists_congr fun r => and_congr_right fun hr => ?_
    obtain ⟨q, -, hparent, -⟩ := (hnamed r (hcomplete.members.1 r hr)).eq_div
    rw [Resolution.directoryOf, hparent]
    simp [eq_comm]
  · exact Resolution.exists_latest (Resolution.mem_headerDirectories_iff.1 hd)

def doubled : Machine where
  tree := .ofEntries [(["a".toList], .directory), (["a".toList, "b.c".toList], .file [] false),
    (["a".toList, "b.h".toList], .file [] false), (["a\\b.c".toList], .file [] false),
    (["a\\b.h".toList], .file [] false),
    (["m.c".toList], .file (Utf8.encode "#include \"a/b.h\"\n#include \"a\\b.h\"") false)]
  here := []

def doubledRecord (name : String) (suffix : String) : Record :=
  ⟨Path.ofString ("./" ++ name ++ suffix), Path.ofString (name ++ suffix), suffix.toList⟩

def doubledIndex : Index :=
  ⟨Path.ofString ".", [doubledRecord "a/b" ".c", doubledRecord "a/b" ".h", doubledRecord "a\\b" ".c",
    doubledRecord "a\\b" ".h", doubledRecord "m" ".c"]⟩

theorem traceOn_texts_doubled : ∃ n s, doubled.tree.WellNamed ∧
    (Index.build (Path.ofString ".")).on doubled = (.ok doubledIndex, n) ∧
    doubledIndex.traceOn doubled.contents (Path.ofString "./m.c") = .ok s ∧
    s.implementationFiles = ["a/b.c".toList] ∧ s.implementationFiles.Nodup ∧ s.headerDirectories = ["a".toList] := by
  have hnames : doubled.tree.WellNamed := by decide
  have hbuild : ((Index.build (Path.ofString ".")).on doubled).1 = .ok doubledIndex := by cbv
  have htexts : (doubledIndex.traceOn doubled.contents (Path.ofString "./m.c")).map
      (fun s => (s.implementationFiles, s.headerDirectories)) = .ok (["a/b.c".toList], ["a".toList]) := by cbv
  rcases hs : doubledIndex.traceOn doubled.contents (Path.ofString "./m.c") with e | s
  · rw [hs] at htexts
    cases htexts
  · rw [hs] at htexts
    obtain ⟨hlisted, hdirectories⟩ := Prod.mk.inj (Except.ok.inj htexts)
    obtain ⟨-, hnodup, -⟩ := traceOn_texts hnames (Prod.ext hbuild rfl) hs
    exact ⟨_, s, hnames, Prod.ext hbuild rfl, rfl, hlisted, hnodup, hdirectories⟩

end Texts

end CBuild.Source
