import CBuild.Host

/-! A tree of files as a finite map from locations to what is there. Every entry lies in a directory, which is
part of the type, so that what lies below a location is what its directories lead to. -/

namespace CBuild

/-- Names from the top directory down. -/
abbrev Location := List (List Char)

inductive TreeEntry
  | file (content : Bytes) (executable : Bool)
  | link (target : Path)
  | directory
deriving DecidableEq

structure FileTree where
  entries : List (Location × TreeEntry)
  distinct : (entries.map Prod.fst).Nodup
  /-- What has an entry lies in a directory. The top directory has none. -/
  closed : ∀ l n e, (l ++ [n], e) ∈ entries → l ≠ [] → (l, .directory) ∈ entries
  topless : ∀ e, ([], e) ∉ entries

namespace FileTree

def empty : FileTree :=
  ⟨[], .nil, by simp, by simp⟩

def get? (t : FileTree) (l : Location) : Option TreeEntry :=
  if l = [] then some .directory else t.entries.lookup l

def IsDirectory (t : FileTree) (l : Location) : Prop :=
  t.get? l = some .directory

instance (t : FileTree) (l : Location) : Decidable (t.IsDirectory l) :=
  inferInstanceAs (Decidable (_ = _))

theorem lookup_eq_of_mem {es : List (Location × TreeEntry)} {l : Location} {e : TreeEntry}
    (hd : (es.map Prod.fst).Nodup) (h : (l, e) ∈ es) : es.lookup l = some e := by
  induction es with
  | nil => simp at h
  | cons x r ih =>
    simp only [List.map_cons, List.nodup_cons, List.mem_map] at hd
    rcases List.mem_cons.1 h with h | h
    · subst h
      simp
    · have : l ≠ x.1 := fun hx => hd.1 ⟨(l, e), h, hx⟩
      rw [List.lookup_cons, beq_eq_false_iff_ne.2 this]
      exact ih hd.2 h

theorem get?_eq_some_iff {t : FileTree} {l : Location} {e : TreeEntry} (hl : l ≠ []) :
    t.get? l = some e ↔ (l, e) ∈ t.entries := by
  simp only [get?, hl, if_false]
  refine ⟨fun h => ?_, lookup_eq_of_mem t.distinct⟩
  obtain ⟨a, b, hab, -⟩ := List.lookup_eq_some_iff.1 h
  simp [hab]

theorem ne_of_mem {t : FileTree} {k l : Location} (hk : k ≠ []) (hm : (k, .directory) ∈ t.entries)
    (hl : ¬ t.IsDirectory l) : k ≠ l := by
  rintro rfl
  exact hl ((get?_eq_some_iff hk).2 hm)

def without (t : FileTree) (l : Location) : List (Location × TreeEntry) :=
  t.entries.filter fun x => x.1 ≠ l

/-- A new entry in a directory, in place of what was there, which is no directory. -/
def put (t : FileTree) (l : Location) (n : List Char) (e : TreeEntry) (hl : t.IsDirectory l)
    (hn : ¬ t.IsDirectory (l ++ [n])) : FileTree where
  entries := (l ++ [n], e) :: t.without (l ++ [n])
  distinct := by
    simp only [List.map_cons, List.nodup_cons]
    refine ⟨by simp [without], ?_⟩
    exact t.distinct.sublist (List.filter_sublist.map _)
  closed := by
    have kept : ∀ k, k ≠ [] → (k, .directory) ∈ t.entries →
        (k, TreeEntry.directory) ∈ (l ++ [n], e) :: t.without (l ++ [n]) := by
      intro k hk hm
      exact List.mem_cons_of_mem _ (List.mem_filter.2 ⟨hm, by simpa using ne_of_mem hk hm hn⟩)
    intro k x f hm hk
    rcases List.mem_cons.1 hm with h | h
    · simp only [Prod.mk.injEq] at h
      obtain ⟨rfl, -⟩ := List.append_inj' h.1 rfl
      exact kept k hk ((get?_eq_some_iff hk).1 hl)
    · exact kept k hk (t.closed k x f (List.mem_filter.1 h).1 hk)
  topless := by
    intro f hm
    rcases List.mem_cons.1 hm with h | h
    · simp at h
    · exact t.topless f (List.mem_filter.1 h).1

def remove (t : FileTree) (l : Location) (hn : ¬ t.IsDirectory l) : FileTree where
  entries := t.without l
  distinct := t.distinct.sublist (List.filter_sublist.map _)
  closed := by
    intro k x f hm hk
    have hd := t.closed k x f (List.mem_filter.1 hm).1 hk
    exact List.mem_filter.2 ⟨hd, by simpa using ne_of_mem hk hd hn⟩
  topless := fun e hm => t.topless e (List.mem_filter.1 hm).1

def prune (t : FileTree) (l : Location) : FileTree where
  entries := t.entries.filter fun x => !l.isPrefixOf x.1
  distinct := t.distinct.sublist (List.filter_sublist.map _)
  closed := by
    intro k x f hm hk
    obtain ⟨hm, hp⟩ := List.mem_filter.1 hm
    refine List.mem_filter.2 ⟨t.closed k x f hm hk, ?_⟩
    simp only [Bool.not_eq_eq_eq_not, Bool.not_true] at hp ⊢
    apply Bool.eq_false_iff.2
    intro h
    have : l.isPrefixOf (k ++ [x]) = true :=
      List.isPrefixOf_iff_prefix.2 ((List.isPrefixOf_iff_prefix.1 h).trans (List.prefix_append _ _))
    simp [this] at hp
  topless := fun e hm => t.topless e (List.mem_filter.1 hm).1

def entriesIn (t : FileTree) (l : Location) : List (List Char × TreeEntry) :=
  t.entries.filterMap fun (k, e) =>
    match k.getLast? with
    | some n => if k.dropLast = l then some (n, e) else none
    | none => none

def namesIn (t : FileTree) (l : Location) : List (List Char) :=
  (t.entriesIn l).map Prod.fst

/-- The greatest number of names of a location. -/
def height (t : FileTree) : Nat :=
  (t.entries.map fun (l, _) => l.length).foldl max 0

end FileTree
end CBuild
