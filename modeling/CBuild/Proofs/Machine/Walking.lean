import CBuild.Machine.Change

/-! Walks that arrive, as derivations. A derivation says which entry stood at every name on the way, so that a
walk in a tree can be followed again in another one that differs where the first never went. -/

namespace CBuild.FileTree

variable {t u : FileTree} {follow : Bool} {links : Nat} {here d l : Location} {part name : List Char}
  {rest : List (List Char)}

section Entries

theorem isDirectory_nil : t.IsDirectory [] := by
  simp [IsDirectory, get?]

theorem isDirectory_of_get? {n : List Char} {e : TreeEntry} (h : t.get? (l ++ [n]) = some e) :
    t.IsDirectory l := by
  by_cases hl : l = []
  · exact hl ▸ isDirectory_nil
  · have hm := (get?_eq_some_iff (by simp)).1 h
    exact (get?_eq_some_iff hl).2 (t.closed l n e hm hl)

theorem isDirectory_of_append {ns : List (List Char)} {e : TreeEntry} (h : t.get? (l ++ ns) = some e) (hne : ns ≠ []) :
    t.IsDirectory l := by
  induction ns generalizing l with
  | nil => exact absurd rfl hne
  | cons n ns ih =>
    rw [List.append_cons] at h
    by_cases hnil : ns = []
    · rw [hnil, List.append_nil] at h
      exact isDirectory_of_get? h
    · exact isDirectory_of_get? (ih h hnil)

theorem IsDirectory.dropLast (h : t.IsDirectory l) : t.IsDirectory l.dropLast := by
  rcases List.eq_nil_or_concat l with rfl | ⟨k, n, rfl⟩
  · exact h
  · rw [List.concat_eq_append, List.dropLast_concat]
    rw [List.concat_eq_append] at h
    exact isDirectory_of_get? h

theorem isDirectory_start {n : List Char} {e : TreeEntry} (h : t.get? (here ++ [n]) = some e) (target : Path) :
    t.IsDirectory (if target.isAbsolute then [] else here) := by
  split
  · exact isDirectory_nil
  · exact isDirectory_of_get? h

theorem mem_entriesIn_iff {n : List Char} {e : TreeEntry} : (n, e) ∈ t.entriesIn l ↔ t.get? (l ++ [n]) = some e := by
  rw [get?_eq_some_iff (by simp), entriesIn, List.mem_filterMap]
  constructor
  · rintro ⟨⟨k, f⟩, hk, hname⟩
    dsimp only at hname
    split at hname
    next a hlast =>
      split at hname
      next hdrop =>
        cases hname
        obtain ⟨k', rfl⟩ := List.getLast?_eq_some_iff.1 hlast
        rw [List.dropLast_concat] at hdrop
        exact hdrop ▸ hk
      next => cases hname
    next => cases hname
  · intro he
    refine ⟨(l ++ [n], e), he, ?_⟩
    simp

theorem mem_namesIn_iff {n : List Char} : n ∈ t.namesIn l ↔ (t.get? (l ++ [n])).isSome := by
  rw [namesIn, List.mem_map, Option.isSome_iff_exists]
  constructor
  · rintro ⟨⟨n, e⟩, he, rfl⟩
    exact ⟨e, mem_entriesIn_iff.1 he⟩
  · rintro ⟨e, he⟩
    exact ⟨(n, e), mem_entriesIn_iff.2 he, rfl⟩

theorem get?_congr {k : Location} (h : ∀ e, (k, e) ∈ u.entries ↔ (k, e) ∈ t.entries) : u.get? k = t.get? k := by
  by_cases hk : k = []
  · rw [get?, get?, if_pos hk, if_pos hk]
  · apply Option.ext
    intro e
    rw [get?_eq_some_iff hk, get?_eq_some_iff hk, h]

theorem get?_put_self {n : List Char} {e : TreeEntry} (hl : t.IsDirectory l) (hn : ¬t.IsDirectory (l ++ [n])) :
    (t.put l n e hl hn).get? (l ++ [n]) = some e :=
  (get?_eq_some_iff (by simp)).2 List.mem_cons_self

theorem get?_put_of_ne {n : List Char} {e : TreeEntry} (hl : t.IsDirectory l) (hn : ¬t.IsDirectory (l ++ [n]))
    {k : Location} (hk : k ≠ l ++ [n]) : (t.put l n e hl hn).get? k = t.get? k := by
  apply get?_congr
  intro f
  simp [put, without, hk]

theorem get?_remove_self (hl : l ≠ []) (hn : ¬t.IsDirectory l) : (t.remove l hn).get? l = none := by
  rw [Option.eq_none_iff_forall_ne_some]
  intro e h
  have hm := (get?_eq_some_iff hl).1 h
  simp [remove, without] at hm

theorem get?_remove_of_ne (hn : ¬t.IsDirectory l) {k : Location} (hk : k ≠ l) :
    (t.remove l hn).get? k = t.get? k := by
  apply get?_congr
  intro f
  simp [remove, without, hk]

theorem exists_set {n : List Char} (e : TreeEntry) (hd : t.IsDirectory d) (hn : ¬t.IsDirectory (d ++ [n])) :
    ∃ u, t.set (d ++ [n]) e = .ok u ∧ u.get? (d ++ [n]) = some e ∧
      ∀ k ≠ d ++ [n], u.get? k = t.get? k := by
  refine ⟨t.put d n e hd hn, ?_, get?_put_self hd hn, fun k hk => get?_put_of_ne hd hn hk⟩
  simp [set, hd, hn]

theorem get?_of_set {e : TreeEntry} (h : t.set l e = .ok u) :
    u.get? l = some e ∧ ∀ k ≠ l, u.get? k = t.get? k := by
  rcases List.eq_nil_or_concat l with rfl | ⟨d, n, rfl⟩
  · simp [set] at h
  · rw [List.concat_eq_append] at h ⊢
    by_cases hd : t.IsDirectory d ∧ ¬t.IsDirectory (d ++ [n])
    · obtain ⟨v, hv, hself, hne⟩ := exists_set e hd.1 hd.2
      rw [hv] at h
      cases h
      exact ⟨hself, hne⟩
    · simp [set, hd] at h

end Entries

structure IsName (part : List Char) : Prop where
  not_idle : ¬(part = [] ∨ part = ['.'])
  not_up : part ≠ ['.', '.']
  fits : ¬byteLength part > nameLimit

section Steps

theorem walk_idle (h : part = [] ∨ part = ['.']) :
    t.walk follow links here (part :: rest) = t.walk follow links here rest := by
  rw [walk, if_pos h]

theorem walk_up : t.walk follow links here (['.', '.'] :: rest) = t.walk follow links here.dropLast rest := by
  rw [walk, if_neg (by simp), if_pos rfl]

theorem walk_absent (hn : IsName part) (hg : t.get? (here ++ [part]) = none) :
    t.walk follow links here (part :: rest) =
      if rest.all (· = []) then .ok (.free here part (rest ≠ [])) else .error .notFound := by
  rw [walk, if_neg hn.not_idle, if_neg hn.not_up, if_neg hn.fits, hg]

theorem walk_directory (hn : IsName part) (hg : t.get? (here ++ [part]) = some .directory) :
    t.walk follow links here (part :: rest) = t.walk follow links (here ++ [part]) rest := by
  rw [walk, if_neg hn.not_idle, if_neg hn.not_up, if_neg hn.fits, hg]

theorem walk_file {b : Bytes} {x : Bool} (hn : IsName part) (hg : t.get? (here ++ [part]) = some (.file b x)) :
    t.walk follow links here (part :: rest) =
      if rest = [] then .ok (.found (here ++ [part])) else .error .notADirectory := by
  rw [walk, if_neg hn.not_idle, if_neg hn.not_up, if_neg hn.fits, hg]

theorem walk_itself {target : Path} (hn : IsName part) (hg : t.get? (here ++ [part]) = some (.link target)) :
    t.walk false links here [part] = .ok (.found (here ++ [part])) := by
  rw [walk, if_neg hn.not_idle, if_neg hn.not_up, if_neg hn.fits, hg]
  rfl

theorem walk_exhausted {target : Path} (hn : IsName part) (hg : t.get? (here ++ [part]) = some (.link target))
    (hr : rest ≠ [] ∨ follow = true) : t.walk follow 0 here (part :: rest) = .error .tooManyLinks := by
  rw [walk, if_neg hn.not_idle, if_neg hn.not_up, if_neg hn.fits, hg]
  rcases hr with hr | rfl <;> simp [*]

theorem walk_link {target : Path} (hn : IsName part) (hg : t.get? (here ++ [part]) = some (.link target))
    (hr : rest ≠ [] ∨ follow = true) : t.walk follow (links + 1) here (part :: rest) =
      t.walk follow links (if target.isAbsolute then [] else here) (target.parts ++ rest) := by
  rw [walk, if_neg hn.not_idle, if_neg hn.not_up, if_neg hn.fits, hg]
  rcases hr with hr | rfl <;> simp [*]

end Steps

/-- How a walk comes to its place. -/
inductive Walks (t : FileTree) (follow : Bool) : Nat → Location → List (List Char) → Place → Prop
  | stay (links : Nat) (here : Location) : Walks t follow links here [] (.found here)
  | idle {links : Nat} {here : Location} {part : List Char} {rest : List (List Char)} {q : Place}
      (h : part = [] ∨ part = ['.']) (w : Walks t follow links here rest q) :
      Walks t follow links here (part :: rest) q
  | up {links : Nat} {here : Location} {rest : List (List Char)} {q : Place}
      (w : Walks t follow links here.dropLast rest q) : Walks t follow links here (['.', '.'] :: rest) q
  | absent {links : Nat} {here : Location} {part : List Char} {rest : List (List Char)} (hn : IsName part)
      (hg : t.get? (here ++ [part]) = none) (hr : rest.all (· = [])) :
      Walks t follow links here (part :: rest) (.free here part (rest ≠ []))
  | directory {links : Nat} {here : Location} {part : List Char} {rest : List (List Char)} {q : Place}
      (hn : IsName part) (hg : t.get? (here ++ [part]) = some .directory)
      (w : Walks t follow links (here ++ [part]) rest q) : Walks t follow links here (part :: rest) q
  | file {links : Nat} {here : Location} {part : List Char} {b : Bytes} {x : Bool} (hn : IsName part)
      (hg : t.get? (here ++ [part]) = some (.file b x)) :
      Walks t follow links here [part] (.found (here ++ [part]))
  | itself {links : Nat} {here : Location} {part : List Char} {target : Path} (hn : IsName part)
      (hg : t.get? (here ++ [part]) = some (.link target)) (hf : follow = false) :
      Walks t follow links here [part] (.found (here ++ [part]))
  | link {links : Nat} {here : Location} {part : List Char} {rest : List (List Char)} {q : Place}
      {target : Path} (hn : IsName part) (hg : t.get? (here ++ [part]) = some (.link target))
      (hr : rest ≠ [] ∨ follow = true)
      (w : Walks t follow links (if target.isAbsolute then [] else here) (target.parts ++ rest) q) :
      Walks t follow (links + 1) here (part :: rest) q

variable {parts : List (List Char)} {q : Place}

theorem Walks.eq_ok (h : Walks t follow links here parts q) : t.walk follow links here parts = .ok q := by
  induction h with
  | stay => rw [walk]
  | idle h _ ih => rw [walk_idle h, ih]
  | up _ ih => rw [walk_up, ih]
  | absent hn hg hr => rw [walk_absent hn hg, if_pos hr]
  | directory hn hg _ ih => rw [walk_directory hn hg, ih]
  | file hn hg => rw [walk_file hn hg, if_pos rfl]
  | itself hn hg hf =>
    subst hf
    exact walk_itself hn hg
  | link hn hg hr _ ih => rw [walk_link hn hg hr, ih]

theorem Walks.of_eq_ok (h : t.walk follow links here parts = .ok q) : Walks t follow links here parts q := by
  fun_induction t.walk follow links here parts
  case case1 =>
    cases h
    exact .stay _ _
  case case2 hi ih => exact .idle hi (ih h)
  case case3 ih => exact .up (ih h)
  case case5 h₁ h₂ h₃ hg hr =>
    cases h
    exact .absent ⟨h₁, h₂, h₃⟩ hg hr
  case case7 h₁ h₂ h₃ hg ih => exact .directory ⟨h₁, h₂, h₃⟩ hg (ih h)
  case case8 h₁ h₂ h₃ _ _ hg =>
    cases h
    exact .file ⟨h₁, h₂, h₃⟩ hg
  case case10 h₁ h₂ h₃ _ hg hr =>
    simp only [Bool.and_eq_true, decide_eq_true_eq, Bool.not_eq_true'] at hr
    obtain ⟨rfl, hf⟩ := hr
    cases h
    exact .itself ⟨h₁, h₂, h₃⟩ hg hf
  case case12 h₁ h₂ h₃ _ hg hr n ih =>
    refine .link ⟨h₁, h₂, h₃⟩ hg ?_ (ih h)
    cases follow <;> simp_all
  all_goals cases h

section Changes

def shape : TreeEntry → TreeEntry
  | .file _ _ => .file [] false
  | e => e

/-- Nothing that one tree has is gone from the other, or has another shape there. -/
def Outlines (t u : FileTree) : Prop :=
  ∀ l e, t.get? l = some e → (u.get? l).map shape = some (shape e)

theorem Outlines.get? (h : t.Outlines u) {e : TreeEntry} (he : shape e = e) (hne : e ≠ .file [] false)
    (hg : t.get? l = some e) : u.get? l = some e := by
  have hl := h l e hg
  rw [he, Option.map_eq_some_iff] at hl
  obtain ⟨f, hf, hfe⟩ := hl
  cases f with
  | file b x => exact absurd hfe.symm hne
  | link target => exact hfe ▸ hf
  | directory => exact hfe ▸ hf

theorem Outlines.file (h : t.Outlines u) {b : Bytes} {x : Bool} (hg : t.get? l = some (.file b x)) :
    ∃ c y, u.get? l = some (.file c y) := by
  have hl := h l _ hg
  rw [Option.map_eq_some_iff] at hl
  obtain ⟨f, hf, hfe⟩ := hl
  cases f with
  | file c y => exact ⟨c, y, hf⟩
  | link target => cases hfe
  | directory => cases hfe

theorem Walks.of_outlines (h : Walks t follow links here parts (.found l)) (hs : t.Outlines u) :
    Walks u follow links here parts (.found l) := by
  generalize hq : Place.found l = q at h ⊢
  induction h with
  | stay => exact .stay _ _
  | idle h _ ih => exact .idle h (ih hq)
  | up _ ih => exact .up (ih hq)
  | absent => cases hq
  | directory hn hg _ ih => exact .directory hn (hs.get? rfl (by simp) hg) (ih hq)
  | file hn hg =>
    obtain ⟨c, y, hu⟩ := hs.file hg
    exact .file hn hu
  | itself hn hg hf => exact .itself hn (hs.get? rfl (by simp) hg) hf
  | link hn hg hr _ ih => exact .link hn (hs.get? rfl (by simp) hg) hr (ih hq)

/-- Trees of one shape are walked alike, also where a walk comes to nothing. -/
theorem walk_congr (ho : t.Outlines u) (hback : u.Outlines t) :
    u.walk follow links here parts = t.walk follow links here parts := by
  have hnone {l : Location} (hg : t.get? l = none) : u.get? l = none := by
    rcases he : u.get? l with _ | e
    · rfl
    · have hshape := hback l e he
      rw [hg] at hshape
      cases hshape
  fun_induction t.walk follow links here parts
  case case1 => rw [walk]
  case case2 hi ih => rw [walk_idle hi, ih]
  case case3 ih => rw [walk_up, ih]
  case case4 h₁ h₂ h₃ => rw [walk, if_neg h₁, if_neg h₂, if_pos h₃]
  case case5 h₁ h₂ h₃ hg hr => rw [walk_absent ⟨h₁, h₂, h₃⟩ (hnone hg), if_pos hr]
  case case6 h₁ h₂ h₃ hg hr => rw [walk_absent ⟨h₁, h₂, h₃⟩ (hnone hg), if_neg hr]
  case case7 h₁ h₂ h₃ hg ih => rw [walk_directory ⟨h₁, h₂, h₃⟩ (ho.get? rfl (by simp) hg), ih]
  case case8 h₁ h₂ h₃ b x hg =>
    obtain ⟨c, y, hu⟩ := ho.file hg
    rw [walk_file ⟨h₁, h₂, h₃⟩ hu, if_pos rfl]
  case case9 h₁ h₂ h₃ b x hg hr =>
    obtain ⟨c, y, hu⟩ := ho.file hg
    rw [walk_file ⟨h₁, h₂, h₃⟩ hu, if_neg hr]
  case case10 h₁ h₂ h₃ target hg hr =>
    rw [walk, if_neg h₁, if_neg h₂, if_neg h₃, ho.get? rfl (by simp) hg]
    exact if_pos hr
  case case11 h₁ h₂ h₃ target hg hr =>
    rw [walk, if_neg h₁, if_neg h₂, if_neg h₃, ho.get? rfl (by simp) hg]
    exact if_neg hr
  case case12 h₁ h₂ h₃ target hg hr n ih =>
    rw [walk, if_neg h₁, if_neg h₂, if_neg h₃, ho.get? rfl (by simp) hg]
    exact (if_neg hr).trans ih

theorem Walks.follows (h : Walks t false links here parts (.found l)) (hl : ∀ target, t.get? l ≠ some (.link target)) :
    Walks t true links here parts (.found l) := by
  generalize hq : Place.found l = q at h ⊢
  induction h with
  | stay => exact .stay _ _
  | idle h _ ih => exact .idle h (ih hq)
  | up _ ih => exact .up (ih hq)
  | absent => cases hq
  | directory hn hg _ ih => exact .directory hn hg (ih hq)
  | file hn hg => exact .file hn hg
  | itself _ hg _ =>
    cases hq
    exact absurd hg (hl _)
  | link hn hg _ _ ih => exact .link hn hg (.inr rfl) (ih hq)

theorem Walks.get?_free {asDirectory : Bool} (h : Walks t follow links here parts (.free d name asDirectory)) :
    t.get? (d ++ [name]) = none := by
  generalize hq : Place.free d name asDirectory = q at h
  induction h with
  | stay => cases hq
  | idle _ _ ih => exact ih hq
  | up _ ih => exact ih hq
  | absent _ hg _ =>
    cases hq
    exact hg
  | directory _ _ _ ih => exact ih hq
  | file => cases hq
  | itself => cases hq
  | link _ _ _ _ ih => exact ih hq

theorem Walks.onto {followed asDirectory : Bool} (h : Walks t follow links here parts (.free d name asDirectory))
    (hf : follow = true → followed = true) (hs : ∀ l ≠ d ++ [name], u.get? l = t.get? l)
    (hend : ∀ links rest, IsName name → rest.all (· = []) = true → decide (rest ≠ []) = asDirectory →
      Walks u followed links d (name :: rest) (.found (d ++ [name]))) :
    Walks u followed links here parts (.found (d ++ [name])) := by
  have hfree := h.get?_free
  have same {l : Location} {e : TreeEntry} (h : t.get? l = some e) : u.get? l = some e := by
    rw [hs l ?_, h]
    rintro rfl
    rw [hfree] at h
    cases h
  generalize hq : Place.free d name asDirectory = q at h
  induction h with
  | stay => cases hq
  | idle h _ ih => exact .idle h (ih hq)
  | up _ ih => exact .up (ih hq)
  | absent hn _ hr =>
    cases hq
    exact hend _ _ hn hr rfl
  | directory hn hd _ ih => exact .directory hn (same hd) (ih hq)
  | file => cases hq
  | itself => cases hq
  | link hn hl hr _ ih => exact .link hn (same hl) (hr.imp_right hf) (ih hq)

theorem Walks.fill {b : Bytes} {x : Bool} (h : Walks t follow links here parts (.free d name false))
    (hg : u.get? (d ++ [name]) = some (.file b x)) (hs : ∀ l ≠ d ++ [name], u.get? l = t.get? l) :
    Walks u follow links here parts (.found (d ++ [name])) := by
  refine h.onto id hs fun links rest hn _ hrest => ?_
  have hnil : rest = [] := by simpa using hrest
  rw [hnil]
  exact .file hn hg

end Changes

section Ends

variable {b : Bytes} {x : Bool}

theorem Walks.ne_ok_beyond (h : Walks t true links here parts (.found l)) (hd : t.IsDirectory here)
    (hl : t.get? l = some (.file b x)) (hr : rest ≠ []) (n : Nat) (q : Place) :
    t.walk true n here (parts ++ rest) ≠ .ok q := by
  -- how many links may still be followed makes no difference, so the number is free
  generalize hp : Place.found l = p at h
  induction h generalizing n with
  | stay =>
    cases hp
    rw [hd] at hl
    cases hl
  | idle h _ ih =>
    rw [List.cons_append, walk_idle h]
    exact ih hd n hp
  | up _ ih =>
    rw [List.cons_append, walk_up]
    exact ih hd.dropLast n hp
  | absent => cases hp
  | directory hn hg _ ih =>
    rw [List.cons_append, walk_directory hn hg]
    exact ih hg n hp
  | file hn hg =>
    rw [List.cons_append, walk_file hn hg, List.nil_append, if_neg hr]
    exact nofun
  | itself _ _ hf => cases hf
  | @link _ here _ rest' _ target hn hg _ _ ih =>
    have hr' : rest' ++ rest ≠ [] := by simp [hr]
    cases n with
    | zero =>
      rw [List.cons_append, walk_exhausted hn hg (.inl hr')]
      exact nofun
    | succ n =>
      rw [List.cons_append, walk_link hn hg (.inl hr'), ← List.append_assoc]
      exact ih (isDirectory_start hg target) n hp

theorem Walks.ends (h : Walks t true links here parts (.found l)) (hd : t.IsDirectory here) :
    t.IsDirectory l ∨ ∃ b x, t.get? l = some (.file b x) := by
  generalize hq : Place.found l = q at h
  induction h with
  | stay =>
    cases hq
    exact .inl hd
  | idle _ _ ih => exact ih hd hq
  | up _ ih => exact ih hd.dropLast hq
  | absent => cases hq
  | directory _ hg _ ih => exact ih hg hq
  | file _ hg =>
    cases hq
    exact .inr ⟨_, _, hg⟩
  | itself _ _ hf => cases hf
  | link _ hg _ _ ih => exact ih (isDirectory_start hg _) hq

theorem Walks.exists_get? (h : Walks t true links here parts (.found l)) (hd : t.IsDirectory here) :
    ∃ e, t.get? l = some e := by
  rcases h.ends hd with hdirectory | ⟨b, x, hfile⟩
  · exact ⟨_, hdirectory⟩
  · exact ⟨_, hfile⟩

theorem Walks.isDirectory (h : Walks t true links here parts (.found l)) (hd : t.IsDirectory here)
    (hp : ∀ part ∈ parts.getLast?, part = [] ∨ part = ['.']) : t.IsDirectory l := by
  have tail {part : List Char} {rest : List (List Char)}
      (hp : ∀ p ∈ (part :: rest).getLast?, p = [] ∨ p = ['.']) : ∀ p ∈ rest.getLast?, p = [] ∨ p = ['.'] := by
    intro p hr
    apply hp
    rw [List.getLast?_cons, Option.mem_def.1 hr]
    rfl
  generalize hq : Place.found l = q at h
  induction h with
  | stay =>
    cases hq
    exact hd
  | idle _ _ ih => exact ih hd (tail hp) hq
  | up _ ih => exact ih hd.dropLast (tail hp) hq
  | absent => cases hq
  | directory _ hg _ ih => exact ih hg (tail hp) hq
  | file hn => exact absurd (hp _ rfl) hn.not_idle
  | itself hn => exact absurd (hp _ rfl) hn.not_idle
  | @link _ here part rest _ target hn hg _ _ ih =>
    have hr : rest ≠ [] := by
      rintro rfl
      exact hn.not_idle (hp _ rfl)
    refine ih (isDirectory_start hg target) ?_ hq
    rw [List.getLast?_append, Option.or_of_isSome (by simpa using hr)]
    exact tail hp

theorem Walks.of_idle {idle : List (List Char)} (hi : ∀ part ∈ idle, part = [] ∨ part = ['.']) :
    Walks t follow links here idle (.found here) := by
  induction idle with
  | nil => exact .stay _ _
  | cons part idle ih =>
    exact .idle (hi part List.mem_cons_self) (ih fun p hp => hi p (List.mem_cons_of_mem _ hp))

theorem Walks.idle_end {kept old new : List (List Char)} (h : Walks t true links here (kept ++ old) (.found l))
    (hl : t.IsDirectory l) (ho : ∀ part ∈ old, part = [] ∨ part = ['.'])
    (hn : ∀ part ∈ new, part = [] ∨ part = ['.']) : Walks t true links here (kept ++ new) (.found l) := by
  have base {links : Nat} {here : Location} (h : Walks t true links here ([] ++ old) (.found l)) :
      Walks t true links here ([] ++ new) (.found l) := by
    have hsame := h.eq_ok.symm.trans (Walks.of_idle ho).eq_ok
    cases hsame
    exact .of_idle hn
  -- a link puts the parts of its target in front, which are then kept as well
  generalize hp : kept ++ old = parts at h
  generalize hq : Place.found l = q at h
  induction h generalizing kept with
  | stay =>
    obtain ⟨rfl, rfl⟩ := List.append_eq_nil_iff.1 hp
    cases hq
    exact .of_idle hn
  | idle h w ih =>
    cases kept with
    | nil => exact hq ▸ base (hp ▸ hq ▸ .idle h w)
    | cons _ kept =>
      cases hp
      exact .idle h (ih rfl hq)
  | up w ih =>
    cases kept with
    | nil => exact hq ▸ base (hp ▸ hq ▸ .up w)
    | cons _ kept =>
      cases hp
      exact .up (ih rfl hq)
  | absent => cases hq
  | directory hm hg w ih =>
    cases kept with
    | nil => exact hq ▸ base (hp ▸ hq ▸ .directory hm hg w)
    | cons _ kept =>
      cases hp
      exact .directory hm hg (ih rfl hq)
  | file hm hg =>
    cases hq
    rw [hl] at hg
    cases hg
  | itself _ _ hf => cases hf
  | link hm hg hr w ih =>
    cases kept with
    | nil => exact hq ▸ base (hp ▸ hq ▸ .link hm hg hr w)
    | cons _ kept =>
      obtain ⟨rfl, rfl⟩ := List.cons.inj hp
      have ih := ih (List.append_assoc ..) hq
      rw [List.append_assoc] at ih
      exact .link hm hg (.inr rfl) ih

end Ends

section LastName

/-- A name at which every walk that wants to go on fails. -/
def DeadEnd (t : FileTree) (here : Location) (part : List Char) : Prop :=
  ∀ links rest q, rest ≠ [] → t.walk true links here (part :: rest) ≠ .ok q

theorem Walks.deadEnd {b : Bytes} {x : Bool} (h : Walks t true links here [part] (.found l))
    (hd : t.IsDirectory here) (hl : t.get? l = some (.file b x)) : t.DeadEnd here part :=
  fun n _ q hr => h.ne_ok_beyond hd hl hr n q

/-- All but the end of a path is walked alike in trees that differ at dead ends only, and the rest is a walk
from the directory that this leads to. -/
theorem Walks.split {pre tail : List (List Char)} (h : Walks t true links here (pre ++ name :: tail) q)
    (hn : name ≠ [])
    (hu : ∀ here part, u.get? (here ++ [part]) = t.get? (here ++ [part]) ∨ t.DeadEnd here part) :
    ∃ d k, (Walks t true links here pre (.found d) ∧ Walks u true links here pre (.found d)) ∧
      ∀ follow, t.walk follow links here (pre ++ name :: tail) = t.walk follow k d (name :: tail) ∧
        u.walk follow links here (pre ++ name :: tail) = u.walk follow k d (name :: tail) := by
  -- a walk that goes on behind a part has not come to a dead end there, so both trees have the same entry
  have alive {links : Nat} {here : Location} {part : List Char} {rest : List (List Char)} {q : Place}
      (w : Walks t true links here (part :: (rest ++ name :: tail)) q) :
      u.get? (here ++ [part]) = t.get? (here ++ [part]) :=
    (hu here part).resolve_right fun hdead => hdead links _ q (by simp) w.eq_ok
  have base {links : Nat} {here : Location} {parts : List (List Char)} (hp : [] ++ name :: tail = parts) :
      ∃ d k, (Walks t true links here [] (.found d) ∧ Walks u true links here [] (.found d)) ∧
        ∀ follow, t.walk follow links here parts = t.walk follow k d (name :: tail) ∧
          u.walk follow links here parts = u.walk follow k d (name :: tail) :=
    ⟨here, links, ⟨.stay _ _, .stay _ _⟩, fun _ => hp ▸ ⟨rfl, rfl⟩⟩
  generalize hp : pre ++ name :: tail = parts at h
  induction h generalizing pre with
  | stay => simp at hp
  | @idle links here part rest q h w ih =>
    cases pre with
    | nil => exact base hp
    | cons part' pre =>
      obtain ⟨rfl, rfl⟩ := List.cons.inj hp
      obtain ⟨d, k, hpre, hwalk⟩ := ih rfl
      refine ⟨d, k, ⟨.idle h hpre.1, .idle h hpre.2⟩, fun follow => ?_⟩
      rw [walk_idle h, walk_idle h]
      exact hwalk follow
  | @up links here rest q w ih =>
    cases pre with
    | nil => exact base hp
    | cons part' pre =>
      obtain ⟨rfl, rfl⟩ := List.cons.inj hp
      obtain ⟨d, k, hpre, hwalk⟩ := ih rfl
      refine ⟨d, k, ⟨.up hpre.1, .up hpre.2⟩, fun follow => ?_⟩
      rw [walk_up, walk_up]
      exact hwalk follow
  | @absent links here part rest hm hg hr =>
    cases pre with
    | nil => exact base hp
    | cons part' pre =>
      obtain ⟨rfl, rfl⟩ := List.cons.inj hp
      simp [hn] at hr
  | @directory links here part rest q hm hg w ih =>
    cases pre with
    | nil => exact base hp
    | cons part' pre =>
      obtain ⟨rfl, rfl⟩ := List.cons.inj hp
      have hgu := (alive (.directory hm hg w)).trans hg
      obtain ⟨d, k, hpre, hwalk⟩ := ih rfl
      refine ⟨d, k, ⟨.directory hm hg hpre.1, .directory hm hgu hpre.2⟩, fun follow => ?_⟩
      rw [walk_directory hm hg, walk_directory hm hgu]
      exact hwalk follow
  | @file links here part b x hm hg =>
    cases pre with
    | nil => exact base hp
    | cons part' pre => simp at hp
  | itself _ _ hf => cases hf
  | @link links here part rest q target hm hg hr w ih =>
    cases pre with
    | nil => exact base hp
    | cons part' pre =>
      obtain ⟨rfl, rfl⟩ := List.cons.inj hp
      have hgu := (alive (.link hm hg hr w)).trans hg
      obtain ⟨d, k, hpre, hwalk⟩ := @ih (target.parts ++ pre) (List.append_assoc ..)
      refine ⟨d, k, ⟨.link hm hg (.inr rfl) hpre.1, .link hm hgu (.inr rfl) hpre.2⟩, fun follow => ?_⟩
      rw [walk_link hm hg (.inl (by simp)), walk_link hm hgu (.inl (by simp))]
      exact hwalk follow

end LastName

end CBuild.FileTree
