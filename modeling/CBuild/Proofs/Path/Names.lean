import CBuild.Proofs.Machine.Parent

/-! Paths that are spelled by names. What is the parent and the name of such a path can be told from its spelling. -/

namespace CBuild

def Component.isName : Component → Bool
  | .name _ => true
  | _ => false

namespace Path

variable {ns : List (List Char)} {n : List Char}

/-- A name that a file can have. -/
structure IsFileName (n : List Char) : Prop where
  not_idle : ¬(n = [] ∨ n = ['.'])
  not_up : n ≠ ['.', '.']
  no_slash : '/' ∉ n

instance (n : List Char) : Decidable (IsFileName n) :=
  decidable_of_iff (¬(n = [] ∨ n = ['.']) ∧ n ≠ ['.', '.'] ∧ '/' ∉ n)
    ⟨fun ⟨h, h', h''⟩ => ⟨h, h', h''⟩, fun ⟨h, h', h''⟩ => ⟨h, h', h''⟩⟩

structure IsPart (n : List Char) : Prop where
  written : n ≠ []
  no_slash : '/' ∉ n

theorem IsFileName.isPart (h : IsFileName n) : IsPart n :=
  ⟨fun hnil => h.not_idle (.inl hnil), h.no_slash⟩

theorem IsPart.isAbsolute (h : IsPart n) : (ofName n).isAbsolute = false := by
  rw [Bool.eq_false_iff]
  intro ha
  have hhead : n.head? = some '/' := of_decide_eq_true ha
  exact h.no_slash (List.mem_of_head? hhead)

theorem IsFileName.ofPart? (h : IsFileName n) : Component.ofPart? n = some (.name n) := by
  unfold Component.ofPart?
  rw [if_neg h.not_idle, if_neg h.not_up]

theorem filterMap_names (h : ∀ x ∈ ns, IsFileName x) : ns.filterMap Component.ofPart? = ns.map .name := by
  induction ns with
  | nil => rfl
  | cons n ns ih =>
    rw [List.forall_mem_cons] at h
    rw [List.filterMap_cons_some h.1.ofPart?, List.map_cons, ih h.2]

/-- The path that leads from name to name. -/
def ofNames (ns : List (List Char)) : Path :=
  ⟨['/'].intercalate ns⟩

theorem parts_ofNames (h : ∀ x ∈ ns, IsPart x) (hne : ns ≠ []) : (ofNames ns).parts = ns :=
  List.splitOn_intercalate _ (fun x hx => (h x hx).no_slash) hne

theorem head?_parts_of_isAbsolute {p : Path} (h : p.isAbsolute = true) : p.parts.head? = some [] := by
  obtain ⟨cs, hcs⟩ := List.head?_eq_some_iff.1 (of_decide_eq_true h)
  rw [parts, hcs, List.splitOn_cons_eq_if_modifyHead]
  rfl

theorem isAbsolute_ofNames (h : ∀ x ∈ ns, IsPart x) : (ofNames ns).isAbsolute = false := by
  cases ns with
  | nil => rfl
  | cons x ns =>
    rw [Bool.eq_false_iff]
    intro ha
    have hhead := head?_parts_of_isAbsolute ha
    rw [parts_ofNames h (by simp)] at hhead
    exact (h [] (List.mem_of_head? hhead)).written rfl

theorem components_ofNames (h : ∀ x ∈ ns, IsFileName x) : (ofNames ns).components = ns.map .name := by
  have hrelative : (ofNames ns).isAbsolute = false := isAbsolute_ofNames fun x hx => (h x hx).isPart
  by_cases hnil : ns = []
  · rw [hnil]
    rfl
  · have hparts : (ofNames ns).parts = ns := parts_ofNames (fun x hx => (h x hx).isPart) hnil
    have hstarts : (ofNames ns).startsHere = false := by
      unfold startsHere
      rw [hparts, decide_eq_false_iff_not]
      exact fun hhead => (h _ (List.mem_of_head? hhead)).not_idle (.inr rfl)
    unfold components
    dsimp only
    rw [hrelative, hstarts, hparts, filterMap_names h]
    rfl

theorem dropIdleEnd_names (h : ∀ x ∈ ns, IsFileName x) : dropIdleEnd ns = ns :=
  List.rdropWhile_eq_self_iff.2 fun hl hidle => (h _ (List.getLast_mem hl)).not_idle (isIdle_iff.1 hidle)

theorem anchored_ofNames (h : ∀ x ∈ ns, IsFileName x) (hne : ns ≠ []) : (ofNames ns).anchored = ([], ns) := by
  have hparts : (ofNames ns).parts = ns := parts_ofNames (fun x hx => (h x hx).isPart) hne
  have hopen : ¬((ofNames ns).isAbsolute ∨ (ofNames ns).startsHere) := by
    rw [isAbsolute_ofNames fun x hx => (h x hx).isPart]
    rintro (ha | hs)
    · cases ha
    · have hhead : (ofNames ns).parts.head? = some ['.'] := of_decide_eq_true hs
      rw [hparts] at hhead
      exact (h ['.'] (List.mem_of_head? hhead)).not_idle (.inr rfl)
  rw [anchored, if_neg hopen, hparts, dropIdleEnd_names h]

theorem fileName?_of_parts {p : Path} {pre : List (List Char)} (hparts : p.parts = pre ++ [n]) (hn : IsFileName n) :
    p.fileName? = some n := by
  have hend (l : List (List Char)) : dropIdleEnd (l ++ [n]) = l ++ [n] :=
    List.rdropWhile_concat_neg _ _ _ fun hidle => hn.not_idle (isIdle_iff.1 hidle)
  have hlast : p.anchored.2.getLast? = some n := by
    unfold anchored
    split
    next hopen =>
      cases pre with
      | nil =>
        rcases hopen with ha | hs
        · have hhead := head?_parts_of_isAbsolute ha
          rw [hparts] at hhead
          exact absurd (.inl (Option.some.inj hhead)) hn.not_idle
        · have hhead : p.parts.head? = some ['.'] := of_decide_eq_true hs
          rw [hparts] at hhead
          exact absurd (.inr (Option.some.inj hhead)) hn.not_idle
      | cons x pre =>
        dsimp only
        rw [hparts, List.cons_append, List.drop_one, List.tail_cons, hend, List.getLast?_concat]
    next =>
      dsimp only
      rw [hparts, hend, List.getLast?_concat]
  rw [fileName?, hlast]
  exact if_neg hn.not_up

theorem fileName?_ofNames (h : ∀ x ∈ ns ++ [n], IsFileName x) : (ofNames (ns ++ [n])).fileName? = some n :=
  fileName?_of_parts (parts_ofNames (fun x hx => (h x hx).isPart) (by simp)) (h n (by simp))

theorem parent?_ofNames (h : ∀ x ∈ ns ++ [n], IsFileName x) : (ofNames (ns ++ [n])).parent? = some (ofNames ns) := by
  have hns : ∀ x ∈ ns, IsFileName x := fun x hx => h x (List.mem_append_left _ hx)
  rw [parent?, anchored_ofNames h (by simp)]
  dsimp only
  rw [List.dropLast_concat, dropIdleEnd_names hns, isAbsolute_ofNames fun x hx => (h x hx).isPart]
  cases ns with
  | nil => rfl
  | cons x ns => rfl

theorem intercalate_concat (hne : ns ≠ []) (n : List Char) :
    ['/'].intercalate (ns ++ [n]) = ['/'].intercalate ns ++ '/' :: n := by
  induction ns with
  | nil => exact absurd rfl hne
  | cons x ns ih =>
    rcases ns with _ | ⟨y, ns⟩
    · simp
    · rw [List.cons_append, List.cons_append, List.intercalate_cons_cons, List.intercalate_cons_cons,
        ← List.cons_append, ih (by simp), List.append_assoc, List.append_assoc, List.append_assoc]

theorem exists_chars_ofNames (ns : List (List Char)) (n : List Char) :
    ∃ front, (ofNames (ns ++ [n])).chars = front ++ n := by
  cases ns with
  | nil => exact ⟨[], by simp [ofNames]⟩
  | cons x ns =>
    refine ⟨['/'].intercalate (x :: ns) ++ ['/'], ?_⟩
    rw [ofNames, intercalate_concat (by simp), List.append_assoc]
    rfl

theorem chars_ofNames_eq_nil_iff (h : ∀ x ∈ ns, IsPart x) : (ofNames ns).chars = [] ↔ ns = [] := by
  constructor
  · intro hnil
    by_contra hne
    obtain ⟨front, n, rfl⟩ := (List.eq_nil_or_concat' ns).resolve_left hne
    obtain ⟨before, hchars⟩ := exists_chars_ofNames front n
    rw [hchars] at hnil
    exact (h n (by simp)).written (List.append_eq_nil_iff.1 hnil).2
  · rintro rfl
    rfl

theorem mem_ofNames {c : Char} (h : c ∈ (ofNames ns).chars) : c = '/' ∨ ∃ n ∈ ns, c ∈ n := by
  induction ns with
  | nil => cases h
  | cons n ns ih =>
    cases ns with
    | nil =>
      have hn : c ∈ n := by simpa [ofNames] using h
      exact .inr ⟨n, List.mem_cons_self, hn⟩
    | cons n' ns =>
      unfold ofNames at h ih
      dsimp only at h ih
      rw [List.intercalate_cons_cons, List.append_assoc, List.mem_append, List.mem_append, List.mem_singleton] at h
      rcases h with h | h | h
      · exact .inr ⟨n, List.mem_cons_self, h⟩
      · exact .inl h
      · rcases ih h with hslash | ⟨x, hx, hc⟩
        · exact .inl hslash
        · exact .inr ⟨x, List.mem_cons_of_mem _ hx, hc⟩

theorem not_mem_ofNames {c : Char} (hc : c ≠ '/') (h : ∀ n ∈ ns, c ∉ n) : c ∉ (ofNames ns).chars := by
  intro hmem
  rcases mem_ofNames hmem with hslash | ⟨n, hn, hin⟩
  · exact hc hslash
  · exact h n hn hin

theorem endsOpen_ofNames (h : ∀ x ∈ ns, IsPart x) (hne : ns ≠ []) : (ofNames ns).endsOpen = false := by
  obtain ⟨ns, n, rfl⟩ := (List.eq_nil_or_concat' ns).resolve_left hne
  have hn : IsPart n := h n (by simp)
  obtain ⟨front, hchars⟩ := exists_chars_ofNames ns n
  rw [endsOpen, hchars, decide_eq_false_iff_not, List.append_eq_nil_iff, List.getLast?_append_of_ne_nil _ hn.written]
  rintro (⟨-, hempty⟩ | hlast)
  · exact hn.written hempty
  · exact hn.no_slash (List.mem_of_getLast? hlast)

def Named (p : Path) : Prop :=
  ∃ ns n, p = ofNames (ns ++ [n]) ∧ ∀ x ∈ ns ++ [n], IsFileName x

theorem ofNames_concat (h : ∀ x ∈ ns ++ [n], IsPart x) : ofNames (ns ++ [n]) = ofNames ns / ofName n := by
  have hname : IsPart n := h n (by simp)
  change _ = join (ofNames ns) (ofName n)
  rw [join, hname.isAbsolute, if_neg Bool.false_ne_true]
  cases ns with
  | nil => simp [ofNames, ofName, endsOpen]
  | cons x ns =>
    have hns : ∀ y ∈ x :: ns, IsPart y := fun y hy => h y (List.mem_append_left _ hy)
    rw [endsOpen_ofNames hns (by simp), if_neg Bool.false_ne_true, ofNames, intercalate_concat (by simp)]
    rfl

theorem Named.eq_div {p : Path} (h : p.Named) :
    ∃ q n, p.parent? = some q ∧ p.fileName? = some n ∧ p = q / ofName n ∧ p.isAbsolute = false ∧ IsFileName n := by
  obtain ⟨ns, n, rfl, hnames⟩ := h
  have hparts : ∀ x ∈ ns ++ [n], IsPart x := fun x hx => (hnames x hx).isPart
  exact ⟨ofNames ns, n, parent?_ofNames hnames, fileName?_ofNames hnames, ofNames_concat hparts,
    isAbsolute_ofNames hparts, hnames n (by simp)⟩

end Path

end CBuild
