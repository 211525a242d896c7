import CBuild.Proofs.Toml.Putting

/-! Entries that a table has taken up are printed again one by one. Those that share a table by dotted keys come
together, and the key of the table is written once, as the first of them has it. -/

namespace CBuild.Toml

open Children

section Paths

def Passes (path : List Key) (before : List (List Char)) (k : Key) : Prop :=
  ∃ q r, path = q ++ k :: r ∧ r ≠ [] ∧ names q = before

def pathSpace (path : List Key) : Option (List Char × List Char) :=
  path.getLast?.bind Key.outer

variable {path : List Key} {before : List (List Char)} {k l : Key}

theorem not_passes_single : ¬ Passes [l] before k := by
  rintro ⟨q, r, h, hr, -⟩
  cases q with
  | nil => exact hr (List.cons.inj h).2.symm
  | cons x q => cases q <;> cases h

theorem passes_cons : Passes (l :: path) before k ↔
    (k = l ∧ path ≠ [] ∧ before = []) ∨ ∃ rest, before = l.name :: rest ∧ Passes path rest k := by
  constructor
  · rintro ⟨q, r, h, hr, rfl⟩
    cases q with
    | nil =>
      cases h
      exact .inl ⟨rfl, hr, rfl⟩
    | cons x q =>
      cases h
      exact .inr ⟨names q, rfl, q, r, rfl, hr, rfl⟩
  · rintro (⟨rfl, hp, rfl⟩ | ⟨rest, rfl, q, r, rfl, hr, rfl⟩)
    · exact ⟨[], path, rfl, hp, rfl⟩
    · exact ⟨l :: q, r, rfl, hr, rfl⟩

end Paths

section Entries

/-- The entry again, under a path of the same names that ends in the same key. The other keys are written as
some entry of the table writes them. -/
structure Entry.Kept (es : List Entry) (e e' : Entry) : Prop where
  names : names e'.path = names e.path
  last : e'.path.getLast? = e.path.getLast?
  gap : e'.gap = e.gap
  value : e'.value = e.value
  after : e'.after = e.after
  shared : ∀ before k, Passes e'.path before k → ∃ f ∈ es, Passes f.path before k

variable {P : Leaf} {first : Bool} {m : Nat} {cs ds : Children} {gap after : List Char} {v : Value}
  {path : List Key}

theorem entriesUnder_single (k : Key) (cs : Children) :
    entriesUnder [] [(k, .table .dotted cs)] = (entriesUnder [] cs).map (Entry.under k) := by
  rw [entriesUnder, entriesUnder, Node.entries, List.append_nil, List.nil_append, entriesUnder_cons]

theorem entriesUnder_middle (l r : Children) (k : Key) (n : Node) :
    entriesUnder [] (l ++ (k, n) :: r) =
      entriesUnder [] l ++ (entriesUnder [] [(k, n)] ++ entriesUnder [] r) := by
  rw [entriesUnder_append, ← List.singleton_append, entriesUnder_append]

/-- A path of the same names that ends in the same key. Each key that it passes is one that the path passes, or one
that an entry passes there. -/
structure Retraces (es : List Entry) (path path' : List Key) : Prop where
  names : names path' = names path
  last : path'.getLast? = path.getLast?
  shared : ∀ before k, Passes path' before k → Passes path before k ∨ ∃ f ∈ es, Passes f.path before k

theorem Retraces.cons {es sub : List Entry} {k k' l : Key} {path' : List Key} (h : Retraces sub (l :: path) path')
    (hname : k'.name = k.name) (hsub : ∀ f ∈ sub, f.under k' ∈ es) (hk : k' = k ∨ ∃ f ∈ sub, f.path ≠ []) :
    Retraces es (k :: l :: path) (k' :: path') where
  names := by
    rw [Toml.names, List.map_cons, hname]
    exact congrArg (k.name :: ·) h.names
  last := by
    have hne : path' ≠ [] := by
      rintro rfl
      cases h.names
    rw [List.getLast?_cons_of_ne_nil hne, h.last, List.getLast?_cons_cons]
  shared := by
    intro before x hp
    obtain ⟨rfl, -, rfl⟩ | ⟨rest, rfl, hq⟩ := passes_cons.1 hp
    · rcases hk with rfl | ⟨f, hf, hne⟩
      · exact .inl (passes_cons.2 (.inl ⟨rfl, List.cons_ne_nil _ _, rfl⟩))
      · exact .inr ⟨_, hsub f hf, passes_cons.2 (.inl ⟨rfl, hne, rfl⟩)⟩
    · obtain hq | ⟨f, hf, hq⟩ := h.shared _ _ hq
      · exact .inl (passes_cons.2 (.inr ⟨rest, by rw [hname], hq⟩))
      · exact .inr ⟨_, hsub f hf, passes_cons.2 (.inr ⟨rest, rfl, hq⟩)⟩

theorem GrownAll.entries_of_define? (hg : GrownAll P first m cs)
    (h : cs.define? true (.value gap v after) path = some ds) :
    ∃ path', Retraces (entriesUnder [] cs) path path' ∧
      (entriesUnder [] ds).Perm (entriesUnder [] cs ++ [⟨path', gap, v, after⟩]) := by
  induction path generalizing cs first m ds with
  | nil => cases h
  | cons k path ih =>
    match path with
    | [] =>
      rw [Children.define?] at h
      split at h
      · cases h
      · cases h
        refine ⟨[k], ⟨rfl, rfl, fun _ _ hp => absurd hp not_passes_single⟩, ?_⟩
        rw [entriesUnder_append, entriesUnder, entriesUnder, Node.entries, List.append_nil]
        exact .refl _
    | l :: path =>
      rw [Children.define?] at h
      · split at h
        · next hn =>
          obtain ⟨sub, hs, rfl⟩ := Option.map_eq_some_iff.1 h
          have hnil : GrownAll P false (m - 1) [] := trivial
          obtain ⟨path', hpath, hperm⟩ := ih hnil hs
          refine ⟨k :: path', hpath.cons rfl (List.forall_mem_nil _) (.inl rfl), ?_⟩
          rw [entriesUnder_append, entriesUnder_single]
          exact (hperm.map (Entry.under k)).append_left _
        · cases h
        · cases h
        · next k' sub hc =>
          obtain ⟨sub', hs, rfl⟩ := Option.map_eq_some_iff.1 h
          obtain ⟨hm, hk'⟩ := mem_of_child? hc
          have hsub := (hg.of_mem hm).2
          rw [Node.Grown] at hsub
          obtain ⟨path', hpath, hperm⟩ := ih hsub.2.2 hs
          obtain ⟨a, b, rfl, -, ha, hb⟩ := child?_split ((grownAll_iff cs).1 hg).2 hc
          rw [put_split hk' ha hb]
          rw [entriesUnder_middle, entriesUnder_middle, entriesUnder_single, entriesUnder_single]
          refine ⟨k' :: path', hpath.cons hk' (fun f hf => ?_) (.inr ?_), ?_⟩
          · exact List.mem_append_right _ (List.mem_append_left _ (List.mem_map_of_mem hf))
          · obtain ⟨f, hf⟩ := List.exists_mem_of_ne_nil _
              (OwnAll.entriesUnder_ne_nil [] sub hsub.2.1 (GrownAll.ownAll sub hsub.2.2))
            exact ⟨f, hf, entriesUnder_path_ne_nil [] sub f hf⟩
          · have hone := (hperm.map (Entry.under k')).append_right (entriesUnder [] b)
            rw [List.map_append, List.append_assoc] at hone
            rw [List.append_assoc, List.append_assoc]
            exact (hone.trans (List.perm_append_comm.append_left _)).append_left _
        · next hc =>
          have := (hg.of_mem (mem_of_child? hc).1).2
          simp [Node.Grown] at this
        · next hc =>
          have := (hg.of_mem (mem_of_child? hc).1).2
          simp [Node.Grown] at this
      · rintro ⟨⟩

variable {es : List Entry}

theorem GrownAll.kept_of_defineAll? {all old fs : List Entry} (hg : GrownAll P first m cs)
    (hk : ∀ e ∈ es, e.Known P first m) (ha : ∀ e ∈ es, e ∈ all) (ho : List.Forall₂ (Entry.Kept all) old fs)
    (hp : (entriesUnder [] cs).Perm fs) (h : Entry.defineAll? cs es = some ds) :
    ∃ fs', List.Forall₂ (Entry.Kept all) (old ++ es) fs' ∧ (entriesUnder [] ds).Perm fs' := by
  induction es generalizing cs old fs with
  | nil =>
    cases h
    exact ⟨fs, by rwa [List.append_nil], hp⟩
  | cons e es ih =>
    rw [List.forall_mem_cons] at hk ha
    rw [Entry.defineAll?_cons] at h
    obtain ⟨cs', hd, h⟩ := Option.bind_eq_some_iff.1 h
    obtain ⟨path', hpath, hperm⟩ := hg.entries_of_define? hd
    have hkept : Entry.Kept all e ⟨path', e.gap, e.value, e.after⟩ := by
      refine ⟨hpath.names, hpath.last, rfl, rfl, rfl, fun before k hpass => ?_⟩
      obtain hpass | ⟨f, hf, hpass⟩ := hpath.shared before k hpass
      · exact ⟨e, ha.1, hpass⟩
      · obtain ⟨e₀, -, hkept⟩ := exists_of_forall₂ ho.flip (hp.subset hf)
        exact hkept.shared before k hpass
    have hone := List.rel_append ho (.cons hkept .nil)
    obtain ⟨fs', hfs, hperm'⟩ := ih (hg.of_define? hk.1.1 hk.1.2 hd).1 hk.2 ha.2 hone
      (hperm.trans (hp.append_right _)) h
    exact ⟨fs', by rwa [List.append_assoc] at hfs, hperm'⟩

/-- A table that some entries define prints these entries, in some order. -/
theorem kept_of_defineAll? (hk : ∀ e ∈ es, e.Known P first m) (h : Entry.defineAll? [] es = some cs) :
    ∃ fs, List.Forall₂ (Entry.Kept es) es fs ∧ (entriesUnder [] cs).Perm fs := by
  have hnil : GrownAll P first m [] := trivial
  exact hnil.kept_of_defineAll? hk (fun _ h => h) .nil (.refl _) h

end Entries

end CBuild.Toml
