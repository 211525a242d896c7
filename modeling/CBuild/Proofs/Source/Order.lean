import CBuild.Proofs.Glob.Listing
import CBuild.Proofs.Source.Reach

/-! The order of an index. No two files of an index are at one place in the order of their paths, so an index is told by
the set of the relative paths that are in it. -/

namespace CBuild.Source

def Record.Before (a b : Record) : Prop :=
  Path.compare a.path b.path = .lt

instance : Std.Irrefl Record.Before where
  irrefl a := Path.not_before_self a.path

instance : Std.Antisymm Record.Before where
  antisymm _ _ h h' := absurd h' (Path.Before.not_before h)

namespace Index

/-- The records stand in the order of their paths, one at each place. -/
def Ordered (records : List Record) : Prop :=
  records.Pairwise Record.Before

theorem map_path_withoutRepeats (l : List Record) :
    (withoutRepeats l).map Record.path = Glob.files.dedup (l.map Record.path) := by
  fun_induction withoutRepeats l with
  | case1 a b r hab ih =>
    rw [ih, List.map_cons, List.map_cons, List.map_cons, Glob.files.dedup, if_pos hab]
  | case2 a b r hab ih =>
    have hkept : Glob.files.dedup (a.path :: b.path :: r.map Record.path) =
        a.path :: Glob.files.dedup (b.path :: r.map Record.path) := by rw [Glob.files.dedup, if_neg hab]
    rw [List.map_cons, ih]
    exact hkept.symm
  | case3 l hl =>
    rcases l with _ | ⟨a, _ | ⟨b, r⟩⟩
    · simp [Glob.files.dedup]
    · simp [Glob.files.dedup]
    · exact absurd rfl (hl a b r)

theorem ordered_withoutRepeats {l : List Record} (h : l.Pairwise fun a b => a.path.le b.path = true) :
    Ordered (withoutRepeats l) := by
  have hpaths : (l.map Record.path).Pairwise fun p q => p.le q = true := List.pairwise_map.2 h
  have hkept : ((withoutRepeats l).map Record.path).Pairwise Path.Before := by
    rw [map_path_withoutRepeats]
    exact Glob.before_dedup hpaths
  exact (List.pairwise_map (f := Record.path)).1 hkept

theorem ordered_ofFiles (root : Path) (sources : List Path) : Ordered (ofFiles root sources).records := by
  apply ordered_withoutRepeats
  apply List.pairwise_mergeSort
  · intro a b c
    exact Path.le_trans
  · intro a b
    exact Path.le_total a.path b.path

theorem mem_ofFiles_iff {root : Path} {sources : List Path} {r : Record} :
    r ∈ (ofFiles root sources).records ↔ record? root r.relative = some r ∧
      r.relative ∈ (ofFiles root sources).records.map Record.relative := by
  constructor
  · intro h
    exact ⟨record?_of_mem_ofFiles h, List.mem_map_of_mem h⟩
  · rintro ⟨hr, hmem⟩
    obtain ⟨s, hs, hrelative⟩ := List.mem_map.1 hmem
    have hsame := record?_of_mem_ofFiles hs
    rw [hrelative, hr] at hsame
    cases hsame
    exact hs

/-- The relative paths in an index tell all of it. -/
theorem ofFiles_eq_of_relatives {root : Path} {sources sources' : List Path}
    (h : ∀ p, p ∈ (ofFiles root sources).records.map Record.relative ↔
      p ∈ (ofFiles root sources').records.map Record.relative) :
    ofFiles root sources = ofFiles root sources' := by
  have hrecords : (ofFiles root sources).records = (ofFiles root sources').records := by
    apply List.Pairwise.eq_of_mem_iff (ordered_ofFiles root sources) (ordered_ofFiles root sources')
    intro r
    rw [mem_ofFiles_iff, mem_ofFiles_iff, h]
  exact congrArg (Index.mk root) hrecords

end Index

end CBuild.Source
