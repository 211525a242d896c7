import CBuild.Proofs.Glob.Fitting

/-! Where the expansion of a pattern behind a base comes to after the parts of the base. They are literal components, so
it stands at the directory that the base leads to. -/

namespace CBuild.Glob

open FileTree Machine
open CBuild.Path (ofNames IsFileName)

variable {m : Machine} {base p q : Path} {d : Location} {front pattern : List Char} {pat : Pattern} {k : Nat}

section Fronts

/-- What stands before a slash and a pattern, when they are put behind a base. -/
structure Front (base : Path) (front : List Char) : Prop where
  written : base.chars ≠ []
  chars : base.chars = front ∨ base.chars = front ++ ['/']
  div : ∀ q : Path, q.isAbsolute = false → (base / q).chars = front ++ '/' :: q.chars

theorem exists_front (h : base.chars ≠ []) : ∃ front, Front base front := by
  by_cases hopen : base.endsOpen = true
  · have hlast : base.chars.getLast? = some '/' := (of_decide_eq_true hopen : _ ∨ _).resolve_left h
    obtain ⟨front, hfront⟩ := List.getLast?_eq_some_iff.1 hlast
    refine ⟨front, h, .inr hfront, fun q hq => ?_⟩
    rw [Path.chars_div hq, if_pos hopen, hfront, List.append_assoc]
    rfl
  · refine ⟨base.chars, h, .inl rfl, fun q hq => ?_⟩
    rw [Path.chars_div hq, if_neg hopen]

theorem Front.sublist (h : Front base front) : front.Sublist base.chars := by
  rcases h.chars with hchars | hchars
  · rw [hchars]
  · rw [hchars]
    exact List.sublist_append_left _ _

theorem Front.head? (h : Front base front) : (front ++ ['/']).head? = base.chars.head? := by
  rcases h.chars with hchars | hchars
  · have hne : front ≠ [] := hchars ▸ h.written
    rw [hchars, List.head?_append_of_ne_nil _ hne]
  · rw [hchars]

theorem Front.isAbsolute (h : Front base front) : base.isAbsolute = decide ((front ++ ['/']).head? = some '/') := by
  rw [h.head?]
  rfl

theorem splitOn_eq_inner (front : List Char) :
    ∃ idle, front.splitOn '/' = idle ++ inner front ∧ ∀ part ∈ idle, part = [] := by
  cases front with
  | nil => exact ⟨[[]], rfl, by simp⟩
  | cons c front =>
    by_cases hc : c = '/'
    · refine ⟨[[]], ?_, by simp⟩
      rw [inner, if_pos hc, List.splitOn_cons_eq_if_modifyHead, if_pos (by simp [hc])]
      rfl
    · refine ⟨[], ?_, List.forall_mem_nil _⟩
      rw [inner, if_neg hc]
      rfl

theorem Front.parts (h : Front base front) : ∃ idle idle', base.parts = idle ++ inner front ++ idle' ∧
    (∀ part ∈ idle, part = []) ∧ (∀ part ∈ idle', part = []) ∧
    ∀ q : Path, q.isAbsolute = false → (base / q).parts = idle ++ inner front ++ q.parts := by
  obtain ⟨idle, hinner, hidle⟩ := splitOn_eq_inner front
  have hdiv (q : Path) (hq : q.isAbsolute = false) : (base / q).parts = idle ++ inner front ++ q.parts := by
    rw [← hinner]
    unfold Path.parts
    rw [h.div q hq, List.splitOn_append_cons_self]
  rcases h.chars with hchars | hchars
  · refine ⟨idle, [], ?_, hidle, List.forall_mem_nil _, hdiv⟩
    rw [List.append_nil, ← hinner, Path.parts, hchars]
  · refine ⟨idle, [[]], ?_, hidle, by simp, hdiv⟩
    rw [← hinner, Path.parts, hchars, List.splitOn_append_cons_self]
    rfl

theorem weight_splitOn (s : List Char) : weight (s.splitOn '/') = byteLength s + 1 := by
  induction s with
  | nil => rfl
  | cons c s ih =>
    rw [List.splitOn_cons_eq_if_modifyHead]
    split
    next hc =>
      have hc : c = '/' := by simpa using hc
      have hone : Char.utf8Size '/' = 1 := by decide
      rw [weight_cons, ih, byteLength_cons, hc, hone]
      rfl
    next =>
      obtain ⟨x, xs, hcons⟩ := List.exists_cons_of_ne_nil (List.splitOn_ne_nil '/' s)
      rw [hcons, weight_cons] at ih
      rw [hcons, List.modifyHead_cons, weight_cons, byteLength_cons, byteLength_cons]
      omega

theorem weight_inner_le (front : List Char) : weight (inner front) ≤ byteLength front + 1 := by
  obtain ⟨idle, hinner, -⟩ := splitOn_eq_inner front
  have hsplit := weight_splitOn front
  rw [hinner, weight_append] at hsplit
  omega

theorem slash_not_mem_inner (front : List Char) : ∀ part ∈ inner front, '/' ∉ part := by
  obtain ⟨idle, hinner, -⟩ := splitOn_eq_inner front
  intro part hpart
  apply Path.slash_not_mem front part
  rw [hinner]
  exact List.mem_append_right _ hpart

theorem sublist_of_mem_inner {part : List Char} (h : part ∈ inner front) : part.Sublist front := by
  obtain ⟨idle, hinner, -⟩ := splitOn_eq_inner front
  apply Path.sublist_of_mem_parts (p := ⟨front⟩)
  rw [Path.parts, hinner]
  exact List.mem_append_right _ h

theorem Front.nil_mem_dropLast (h : Front base front) (hnil : [] ∈ inner front) : [] ∈ base.parts.dropLast := by
  obtain ⟨idle, hinner, -⟩ := splitOn_eq_inner front
  have hmem : [] ∈ front.splitOn '/' := by
    rw [hinner]
    exact List.mem_append_right _ hnil
  rcases h.chars with hchars | hchars
  · have hclosed : base.endsOpen = false := by
      by_contra hopen
      have hdiv := h.div ⟨[]⟩ rfl
      rw [Path.chars_div rfl, if_pos (eq_true_of_ne_false hopen), hchars] at hdiv
      simp at hdiv
    obtain ⟨init, last, hparts⟩ := (List.eq_nil_or_concat' base.parts).resolve_left (List.splitOn_ne_nil _ _)
    have hspelled : base.chars = ['/'].intercalate (init ++ [last]) := by
      rw [← hparts]
      exact (List.intercalate_splitOn _).symm
    rw [hparts, List.dropLast_concat]
    rw [← hchars, ← Path.parts, hparts] at hmem
    refine (List.mem_append.1 hmem).resolve_right fun hlast => ?_
    rw [← List.mem_singleton.1 hlast] at hspelled
    rw [Path.endsOpen, decide_eq_false_iff_not] at hclosed
    apply hclosed
    by_cases hinit : init = []
    · rw [hinit] at hspelled
      exact .inl hspelled
    · rw [hspelled, Path.intercalate_concat hinit, List.getLast?_concat]
      exact .inr rfl
  · rw [Path.parts, hchars, List.splitOn_append_cons_self]
    change [] ∈ (front.splitOn '/' ++ [[]]).dropLast
    rwa [List.dropLast_concat]

theorem Front.exists_inner (h : Front base front) (hrelative : base.isAbsolute = false) :
    ∃ x xs, inner front = x :: xs ∧ x ≠ [] ∧ (x = ['.'] ↔ base.startsHere = true) := by
  cases front with
  | nil =>
    rw [h.isAbsolute] at hrelative
    cases hrelative
  | cons c front =>
    have hc : c ≠ '/' := by
      rintro rfl
      rw [h.isAbsolute] at hrelative
      simp at hrelative
    obtain ⟨y, ys, hcons⟩ := List.exists_cons_of_ne_nil (List.splitOn_ne_nil '/' front)
    have hinner : inner (c :: front) = (c :: y) :: ys := by
      rw [inner, if_neg hc, List.splitOn_cons_eq_if_modifyHead, if_neg (by simpa using hc), hcons, List.modifyHead_cons]
    have hhead : base.parts.head? = some (c :: y) := by
      have hparts : (c :: front).splitOn '/' = (c :: y) :: ys := by
        rw [← hinner, inner, if_neg hc]
      rcases h.chars with hchars | hchars
      · rw [Path.parts, hchars, hparts]
        rfl
      · rw [Path.parts, hchars, List.splitOn_append_cons_self, hparts]
        rfl
    refine ⟨c :: y, ys, hinner, List.cons_ne_nil _ _, ?_⟩
    unfold Path.startsHere
    rw [hhead, decide_eq_true_iff, Option.some.injEq]

end Fronts

/-- A base that a pattern can be looked for from. Below a base that is spelled with a dot in front, paths would lose the
dot, unless the base is nothing else. Then an empty part behind it would lead nowhere. -/
structure Suits (m : Machine) (base : Path) (pat : Pattern) (d : Location) : Prop where
  here : m.tree.IsDirectory m.here
  leads : m.tree.find m.here base = .ok (d, .directory)
  named : m.tree.WellNamed
  plain : isPattern base.chars = false
  shown : base.startsHere = true → base.components = [.current] ∧ [] ∉ base.parts.dropLast ∧ Shown pat.components
  /-- What is below the base is not so deep that a path to it leaves no room for the pattern. -/
  room : ∀ ns : List (List Char), (∀ n ∈ ns, IsFileName n) → ∀ l, m.tree.walk true linkLimit d ns = .ok (.found l) →
    byteLength (base / ofNames ns).chars + (2 * pat.components.length + 3) ≤ pathLimit

def start (absolute : Bool) : Path :=
  if absolute then ⟨['/']⟩ else ⟨['.']⟩

section Settling

theorem rests_start (h : m.tree.IsDirectory m.here) (base : Path) :
    Rests m (start base.isAbsolute) linkLimit (startOf m.here base) := by
  unfold start startOf
  cases base.isAbsolute with
  | true => exact rests_top m
  | false => exact rests_here h

theorem lasting_start (absolute : Bool) : lasting (start absolute) = if absolute then [.root] else [] := by
  cases absolute with
  | true => rfl
  | false => rfl

theorem foldl_child_ne {xs : List (List Char)} (hp : p.chars ≠ []) (hslash : ∀ x ∈ xs, '/' ∉ x)
    (hdot : p.components ≠ [.current]) : (xs.foldl child p).components ≠ [.current] := by
  induction xs generalizing p with
  | nil => exact hdot
  | cons x xs ih =>
    rw [List.forall_mem_cons] at hslash
    exact ih (chars_child_ne_nil hp hslash.1 fun hhere => absurd hhere hdot) hslash.2
      (components_child_ne hp hslash.1 hdot)

variable (h : Suits m base pat d)
include h

theorem Suits.isDirectory : m.tree.IsDirectory d :=
  (find_eq_ok_iff.1 h.leads).2

theorem Suits.spelled : Spelled base :=
  spelled_of_place (find_eq_ok_iff.1 h.leads).1

theorem Suits.walks (hfront : Front base front) :
    Walks m.tree true linkLimit (startOf m.here base) (inner front) (.found d) := by
  obtain ⟨idle, idle', hparts, hidle, hidle', -⟩ := hfront.parts
  have hw : Walks m.tree true linkLimit (startOf m.here base) base.parts (.found d) :=
    walks_of_place (find_eq_ok_iff.1 h.leads).1
  have hend : Thinned (idle' ++ []) [] := Thinned.nil.ahead fun part hpart => .inl (hidle' part hpart)
  have hthin : Thinned base.parts (inner front) := by
    rw [hparts, List.append_assoc]
    apply Thinned.ahead _ fun part hpart => .inl (hidle part hpart)
    rw [List.append_nil] at hend
    simpa using hend.behind (inner front)
  exact hw.thin hthin

theorem Suits.inner_of_startsHere (hfront : Front base front) (hhere : base.startsHere = true) :
    ∀ part ∈ inner front, part = ['.'] := by
  obtain ⟨hcomponents, hnil, -⟩ := h.shown hhere
  obtain ⟨idle, idle', hparts, -, -, -⟩ := hfront.parts
  have hnamed : base.parts.filterMap Component.ofPart? = [] := by
    unfold Path.components at hcomponents
    dsimp only at hcomponents
    rw [hhere, if_pos rfl] at hcomponents
    split at hcomponents
    · cases hcomponents
    · exact (List.cons.inj hcomponents).2
  intro part hpart
  have hmem : part ∈ base.parts := by
    rw [hparts]
    exact List.mem_append_left _ (List.mem_append_right _ hpart)
  have hnone : Component.ofPart? part = none := List.filterMap_eq_nil_iff.1 hnamed part hmem
  have hidle : part = [] ∨ part = ['.'] := by
    by_contra hne
    rw [Component.ofPart?, if_neg hne] at hnone
    split at hnone
    · cases hnone
    · cases hnone
  refine hidle.resolve_left ?_
  rintro rfl
  exact hnil (hfront.nil_mem_dropLast hpart)

theorem Suits.open (hfront : Front base front) : Open (start base.isAbsolute) (inner front) := by
  intro hdot
  have hrelative : base.isAbsolute = false := by
    by_contra hne
    rw [Bool.not_eq_false] at hne
    rw [hne] at hdot
    exact absurd hdot (by decide)
  obtain ⟨x, xs, hinner, hx, hhere⟩ := hfront.exists_inner hrelative
  by_cases hxdot : x = ['.']
  · have hdots : (inner front).dropWhile (· = ['.']) = [] := by
      rw [List.dropWhile_eq_nil_iff]
      exact fun part hpart => decide_eq_true (h.inner_of_startsHere hfront (hhere.1 hxdot) part hpart)
    rw [hdots]
    simp
  · rw [hinner, List.dropWhile_cons_of_neg (by simpa using hxdot), List.head?_cons]
    simpa using hx

theorem Suits.lasting_eq (hfront : Front base front) :
    lasting base = lasting (start base.isAbsolute) ++ (inner front).filterMap Component.ofPart? := by
  obtain ⟨idle, idle', hparts, hidle, hidle', -⟩ := hfront.parts
  have none {ls : List (List Char)} (hls : ∀ part ∈ ls, part = []) : ls.filterMap Component.ofPart? = [] := by
    rw [List.filterMap_eq_nil_iff]
    intro part hpart
    rw [hls part hpart]
    rfl
  have hnamed : base.parts.filterMap Component.ofPart? = (inner front).filterMap Component.ofPart? := by
    rw [hparts, List.filterMap_append, List.filterMap_append, none hidle, none hidle', List.append_nil, List.nil_append]
  rw [lasting_start]
  unfold lasting Path.components
  dsimp only
  rw [hnamed]
  cases base.isAbsolute with
  | true => simp
  | false =>
    cases hhere : base.startsHere with
    | true =>
      have hdots : (inner front).filterMap Component.ofPart? = [] := by
        rw [List.filterMap_eq_nil_iff]
        intro part hpart
        rw [h.inner_of_startsHere hfront hhere part hpart]
        rfl
      rw [hdots]
      rfl
    | false =>
      have hne : (inner front).filterMap Component.ofPart? ≠ [.current] := ne_current [] _ (by simp)
      simp [hne]

theorem Suits.shown_of_here (hfront : Front base front)
    (hdot : ((inner front).foldl child (start base.isAbsolute)).components = [.current]) : Shown pat.components := by
  have hslash : ∀ x ∈ inner front, '/' ∉ x := slash_not_mem_inner front
  cases habsolute : base.isAbsolute with
  | true =>
    rw [habsolute] at hdot
    exact absurd hdot (foldl_child_ne (by decide) hslash (by decide))
  | false =>
    obtain ⟨x, xs, hinner, hx, hhere⟩ := hfront.exists_inner habsolute
    by_cases hxdot : x = ['.']
    · exact (h.shown (hhere.1 hxdot)).2.2
    · rw [hinner, List.forall_mem_cons] at hslash
      have hwritten : (start base.isAbsolute).chars ≠ [] := by
        rw [habsolute]
        decide
      rw [hinner, List.foldl_cons] at hdot
      exact absurd hdot (foldl_child_ne (chars_child_ne_nil hwritten hslash.1 fun _ => hx) hslash.2
        (components_child_word_ne hwritten hslash.1 hxdot))

theorem Suits.home (hfront : Front base front) (hk : k ≤ linkLimit)
    (hwalk : ∀ rest,
      m.tree.walk true linkLimit (startOf m.here base) (inner front ++ rest) = m.tree.walk true k d rest) :
    Home ⟨m, base, k, d⟩ (2 * pat.components.length + 3) := by
  obtain ⟨idle, idle', -, hidle, -, hdiv⟩ := hfront.parts
  have hs : Spelled base := h.spelled
  refine ⟨hs.written, hs.clean, h.named, fun q hq hsq => ?_, ?_⟩
  · show m.tree.place m.here (base / q) true = m.tree.walk true k d q.parts
    rw [place_eq_walk hsq, startOf_div hs.written hq, hdiv q hq, List.append_assoc,
      walk_ahead fun part hpart => .inl (hidle part hpart), hwalk]
  · intro ns hns l hl
    have hw : Walks m.tree true k d ns (.found l) := .of_eq_ok hl
    have hroom := h.room ns hns l (hw.of_le hk).eq_ok
    have hrelative : (ofNames ns).isAbsolute = false := Path.isAbsolute_ofNames fun n hn => (hns n hn).isPart
    have hle : byteLength base.chars + byteLength (ofNames ns).chars ≤ byteLength (base / ofNames ns).chars :=
      (byteLength_div hrelative).1
    dsimp only
    omega

theorem Suits.exists_stands (hfront : Front base front) : ∃ k ≤ linkLimit, ∃ p,
    Home ⟨m, base, k, d⟩ (2 * pat.components.length + 3) ∧ Stands ⟨m, base, k, d⟩ p [] 2 ∧
    (p.components = [.current] → Shown pat.components) ∧
    ∀ depth rest, rest ≠ [] → ∀ q,
      q ∈ found m depth ((inner front).map (List.map .char) ++ rest) (start base.isAbsolute) ↔
        q ∈ found m depth rest p := by
  have hstart : Rests m (start base.isAbsolute) linkLimit (startOf m.here base) := rests_start h.here base
  have hd : m.tree.IsDirectory d := h.isDirectory
  have hs : Spelled base := h.spelled
  have hslash : ∀ x ∈ inner front, '/' ∉ x := slash_not_mem_inner front
  have hnul : ∀ x ∈ inner front, '\x00' ∉ x := fun x hx hmem =>
    hs.clean (hfront.sublist.subset ((sublist_of_mem_inner hx).subset hmem))
  have hone : byteLength (start base.isAbsolute).chars = 1 := by
    cases base.isAbsolute <;> rfl
  have hweight : weight (inner front) ≤ byteLength front + 1 := weight_inner_le front
  have hshort : byteLength front ≤ byteLength base.chars := byteLength_le hfront.sublist
  have hroom : byteLength (start base.isAbsolute).chars + weight (inner front) ≤ pathLimit := by
    have hfits := h.room [] (List.forall_mem_nil _) d (Walks.stay linkLimit d).eq_ok
    have hle : byteLength base.chars + byteLength (ofNames []).chars ≤ byteLength (base / ofNames []).chars :=
      (byteLength_div rfl).1
    omega
  obtain ⟨k, hk, hrests, hwalk, hfound⟩ := hstart.along hslash hnul (h.open hfront) hroom (h.walks hfront) hd
  refine ⟨k, hk, _, h.home hfront hk hwalk, ⟨List.forall_mem_nil _, List.forall_mem_nil _, ?_, ?_, ?_⟩,
    h.shown_of_here hfront, hfound⟩
  · exact ⟨k, d, hrests, fun rest => rfl⟩
  · rw [lasting_foldl hslash hstart.spelled.written (h.open hfront), List.map_nil, List.append_nil]
    exact (h.lasting_eq hfront).symm
  · have hle := byteLength_foldl_le hslash (start base.isAbsolute)
    rw [weight_nil]
    show byteLength _ ≤ byteLength base.chars + 0 + 2
    omega

end Settling

end CBuild.Glob
