import CBuild.Proofs.Glob.Expanding
import CBuild.Proofs.Machine.Onward

/-! Where the paths of an expansion stand. Each is spelled from the one before it by one more part. As long as the parts
lead from directory to directory, it stands where they lead. -/

namespace CBuild.Glob

open FileTree Machine
open CBuild.Path (ofNames IsPart IsFileName)

variable {m : Machine} {p q : Path} {x : List Char} {xs : List (List Char)} {k k' : Nat} {e e' d : Location}

section Spelling

/-- A path as seen from a directory. Below `.` it stands for itself. -/
def seat (p q : Path) : Path :=
  if p.components = [.current] then q else p / q

theorem child_eq_seat (p : Path) (x : List Char) : child p x = seat p ⟨x⟩ := rfl

theorem isAbsolute_mk (hx : '/' ∉ x) : (Path.mk x).isAbsolute = false := by
  rw [Bool.eq_false_iff]
  intro ha
  have hhead : x.head? = some '/' := of_decide_eq_true ha
  exact hx (List.mem_of_head? hhead)

theorem parts_mk (hx : '/' ∉ x) : (Path.mk x).parts = [x] :=
  List.splitOn_eq_singleton hx

theorem endsOpen_div_part (hx : x ≠ []) (hslash : '/' ∉ x) : (p / ⟨x⟩).endsOpen = false := by
  obtain ⟨front, -, hchars⟩ := p.exists_chars_div
  rw [Path.endsOpen, hchars ⟨x⟩ (isAbsolute_mk hslash), decide_eq_false_iff_not, List.append_eq_nil_iff,
    List.getLast?_append_of_ne_nil _ hx]
  rintro (⟨-, hnil⟩ | hlast)
  · exact hx hnil
  · exact hslash (List.mem_of_getLast? hlast)

theorem mk_div (hx : x ≠ []) (hslash : '/' ∉ x) (hq : q.isAbsolute = false) :
    (Path.mk x / q).chars = x ++ '/' :: q.chars := by
  have hopen : (Path.mk x).endsOpen = false := by
    rw [Path.endsOpen, decide_eq_false_iff_not]
    rintro (hnil | hlast)
    · exact hx hnil
    · exact hslash (List.mem_of_getLast? hlast)
  rw [Path.chars_div hq, hopen, if_neg Bool.false_ne_true]

theorem isAbsolute_mk_div (hx : x ≠ []) (hslash : '/' ∉ x) (hq : q.isAbsolute = false) :
    (Path.mk x / q).isAbsolute = false := by
  rw [Path.isAbsolute_div hx hq, isAbsolute_mk hslash]

theorem parts_mk_div (hx : x ≠ []) (hslash : '/' ∉ x) (hq : q.isAbsolute = false) :
    (Path.mk x / q).parts = x :: q.parts := by
  unfold Path.parts
  rw [mk_div hx hslash hq, List.splitOn_append_cons_self, List.splitOn_eq_singleton hslash]
  rfl

theorem div_part_div (hx : x ≠ []) (hslash : '/' ∉ x) (hq : q.isAbsolute = false) :
    p / ⟨x⟩ / q = p / (⟨x⟩ / q) := by
  obtain ⟨front, -, hchars⟩ := p.exists_chars_div
  have hopen : (p / ⟨x⟩).endsOpen = false := endsOpen_div_part hx hslash
  have hleft : (p / ⟨x⟩ / q).chars = (p / (⟨x⟩ / q)).chars := by
    rw [Path.chars_div hq, hopen, if_neg Bool.false_ne_true, hchars ⟨x⟩ (isAbsolute_mk hslash),
      hchars _ (isAbsolute_mk_div hx hslash hq), mk_div hx hslash hq, List.append_assoc]
  exact congrArg Path.mk hleft

theorem div_nil_div (hq : q.isAbsolute = false) : p / ⟨[]⟩ / q = p / q := by
  have hnil : (Path.mk []).isAbsolute = false := rfl
  have hopen : (p / ⟨[]⟩).endsOpen = true := by
    rw [Path.endsOpen, Path.chars_div hnil, decide_eq_true_iff]
    split
    next h => simpa using (of_decide_eq_true h : p.chars = [] ∨ p.chars.getLast? = some '/')
    next => simp
  have hchars : (p / ⟨[]⟩ / q).chars = (p / q).chars := by
    rw [Path.chars_div hq, hopen, if_pos rfl, Path.chars_div hnil, Path.chars_div hq]
    split
    · simp
    · simp
  exact congrArg Path.mk hchars

def lasting (p : Path) : List Component :=
  if p.components = [.current] then [] else p.components

theorem lasting_of_ne (h : p.components ≠ [.current]) : lasting p = p.components :=
  if_neg h

theorem current_not_mem (ls : List (List Char)) : Component.current ∉ ls.filterMap Component.ofPart? := by
  intro hmem
  obtain ⟨x, -, hx⟩ := List.mem_filterMap.1 hmem
  unfold Component.ofPart? at hx
  split at hx
  · cases hx
  · split at hx
    · cases hx
    · cases hx

theorem ne_current (cs : List Component) (ls : List (List Char)) (h : cs ≠ [.current]) :
    cs ++ ls.filterMap Component.ofPart? ≠ [.current] := by
  intro hone
  rcases List.append_eq_singleton_iff.1 hone with ⟨-, hls⟩ | ⟨hcs, -⟩
  · apply current_not_mem ls
    rw [hls]
    exact List.mem_singleton_self _
  · exact h hcs

theorem components_mk (hslash : '/' ∉ x) :
    (Path.mk x).components = if x = ['.'] then [.current] else [x].filterMap Component.ofPart? := by
  have hstarts : (Path.mk x).startsHere = decide (x = ['.']) := by
    unfold Path.startsHere
    rw [parts_mk hslash]
    simp
  unfold Path.components
  rw [isAbsolute_mk hslash, if_neg Bool.false_ne_true, hstarts, parts_mk hslash]
  by_cases hdot : x = ['.']
  · rw [hdot]
    rfl
  · rw [decide_eq_false hdot, if_neg Bool.false_ne_true, if_neg hdot]

theorem components_mk_ne (hslash : '/' ∉ x) (hdot : x ≠ ['.']) : (Path.mk x).components ≠ [.current] := by
  rw [components_mk hslash, if_neg hdot]
  exact ne_current [] [x] (by simp)

theorem components_child (hp : p.chars ≠ []) (hslash : '/' ∉ x) (hdot : p.components ≠ [.current]) :
    (child p x).components = p.components ++ [x].filterMap Component.ofPart? := by
  rw [child, if_neg hdot, Path.components_div hp (isAbsolute_mk hslash), parts_mk hslash]

theorem components_child_ne (hp : p.chars ≠ []) (hslash : '/' ∉ x) (hdot : p.components ≠ [.current]) :
    (child p x).components ≠ [.current] := by
  rw [components_child hp hslash hdot]
  exact ne_current _ _ hdot

theorem components_child_word_ne (hp : p.chars ≠ []) (hslash : '/' ∉ x) (hdot : x ≠ ['.']) :
    (child p x).components ≠ [.current] := by
  by_cases hhere : p.components = [.current]
  · rw [child, if_pos hhere]
    exact components_mk_ne hslash hdot
  · exact components_child_ne hp hslash hhere

theorem lasting_child (hp : p.chars ≠ []) (hslash : '/' ∉ x) :
    lasting (child p x) = lasting p ++ [x].filterMap Component.ofPart? := by
  by_cases hhere : p.components = [.current]
  · rw [child, if_pos hhere]
    unfold lasting
    rw [if_pos hhere]
    by_cases hdot : x = ['.']
    · rw [hdot]
      rfl
    · rw [if_neg (components_mk_ne hslash hdot), components_mk hslash, if_neg hdot, List.nil_append]
  · rw [lasting_of_ne (components_child_ne hp hslash hhere), lasting_of_ne hhere, components_child hp hslash hhere]

theorem seat_child (hp : p.chars ≠ []) (hx : x ≠ []) (hslash : '/' ∉ x) (hq : q.isAbsolute = false)
    (hdot : p.components = [.current] → x ≠ ['.']) : seat (child p x) q = seat p (⟨x⟩ / q) := by
  by_cases hhere : p.components = [.current]
  · rw [child, if_pos hhere, seat, if_neg (components_mk_ne hslash (hdot hhere)), seat, if_pos hhere]
  · rw [seat, if_neg (components_child_ne hp hslash hhere), child, if_neg hhere, seat, if_neg hhere,
      div_part_div hx hslash hq]

theorem seat_child_nil (hp : p.chars ≠ []) (hdot : p.components ≠ [.current]) (hq : q.isAbsolute = false) :
    seat (child p []) q = seat p q := by
  have hslash : '/' ∉ ([] : List Char) := List.not_mem_nil
  rw [seat, if_neg (components_child_ne hp hslash hdot), child, if_neg hdot, seat, if_neg hdot, div_nil_div hq]

theorem seat_child_here (hdot : p.components = [.current]) : seat (child p ['.']) q = seat p q := by
  have hself : (Path.mk ['.']).components = [.current] := by decide
  rw [child, if_pos hdot, seat, if_pos hself, seat, if_pos hdot]

theorem byteLength_child_le (p : Path) (hslash : '/' ∉ x) :
    byteLength (child p x).chars ≤ byteLength p.chars + (byteLength x + 1) := by
  unfold child
  split
  · dsimp only
    omega
  · have hle : byteLength (p / ⟨x⟩).chars ≤ byteLength p.chars + 1 + byteLength x :=
      (byteLength_div (isAbsolute_mk hslash)).2
    omega

theorem exists_chars_child (p : Path) (hslash : '/' ∉ x) : ∃ front, (child p x).chars = front ++ x := by
  unfold child
  split
  · exact ⟨[], rfl⟩
  · obtain ⟨front, -, hchars⟩ := p.exists_chars_div
    exact ⟨front, hchars ⟨x⟩ (isAbsolute_mk hslash)⟩

theorem nul_not_mem_of_child (hslash : '/' ∉ x) (hs : Spelled (child p x)) : '\x00' ∉ x := by
  obtain ⟨front, hchars⟩ := exists_chars_child p hslash
  refine fun hmem => hs.clean ?_
  rw [hchars]
  exact List.mem_append_right _ hmem

theorem chars_child_ne_nil (hp : p.chars ≠ []) (hslash : '/' ∉ x) (hdot : p.components = [.current] → x ≠ []) :
    (child p x).chars ≠ [] := by
  unfold child
  split
  next hhere => exact hdot hhere
  next => exact Path.chars_div_ne_nil hp (isAbsolute_mk hslash)

theorem spelled_child (hp : Spelled p) (hslash : '/' ∉ x) (hdot : p.components = [.current] → x ≠ [])
    (hx : '\x00' ∉ x) (hroom : byteLength p.chars + (byteLength x + 1) ≤ pathLimit) : Spelled (child p x) := by
  have hle : byteLength (child p x).chars ≤ byteLength p.chars + (byteLength x + 1) := byteLength_child_le p hslash
  by_cases hhere : p.components = [.current]
  · rw [child, if_pos hhere] at hle ⊢
    refine ⟨fun hmem => hx (List.contains_iff_mem.1 hmem), hdot hhere, by omega⟩
  · rw [child, if_neg hhere] at hle ⊢
    exact spelled_div hp.written hp.clean (isAbsolute_mk hslash) hx (by omega)

theorem spelled_of_child (hp : p.chars ≠ []) (hslash : '/' ∉ x) (hdot : p.components ≠ [.current])
    (hs : Spelled (child p x)) : Spelled p := by
  obtain ⟨front, hfront, hchars⟩ := p.exists_chars_div
  refine hs.of_prefix ?_ hp
  rw [child, if_neg hdot, hchars ⟨x⟩ (isAbsolute_mk hslash)]
  rcases hfront with rfl | rfl
  · exact List.prefix_append _ _
  · rw [List.append_assoc]
    exact List.prefix_append _ _

end Spelling

section Resting

/-- A path that leads to a directory. What is seen from the path is walked to from there. -/
structure Rests (m : Machine) (p : Path) (k : Nat) (e : Location) : Prop where
  directory : m.tree.IsDirectory e
  place : m.tree.place m.here p true = .ok (.found e)
  onward : ∀ q : Path, q.isAbsolute = false → Spelled (seat p q) →
    m.tree.place m.here (seat p q) true = m.tree.walk true k e q.parts

theorem Rests.spelled (h : Rests m p k e) : Spelled p :=
  spelled_of_place h.place

theorem Rests.kind (h : Rests m p k e) : m.kind p = some .directory :=
  kind_of_place h.place h.directory

theorem Rests.place_child (h : Rests m p k e) (hslash : '/' ∉ x) (hs : Spelled (child p x)) :
    m.tree.place m.here (child p x) true = m.tree.walk true k e [x] := by
  rw [child_eq_seat, h.onward ⟨x⟩ (isAbsolute_mk hslash) hs, parts_mk hslash]

theorem Rests.below (h : Rests m p k e) (hslash : '/' ∉ x) (hdot : p.components = [.current] → x ≠ [])
    (hs : Spelled (child p x)) (hw : Walks m.tree true k e [x] (.found e')) (hd : m.tree.IsDirectory e') :
    ∃ k' ≤ k, Rests m (child p x) k' e' ∧ ∀ rest, m.tree.walk true k e (x :: rest) = m.tree.walk true k' e' rest := by
  have hplace : m.tree.place m.here (child p x) true = .ok (.found e') := by
    rw [h.place_child hslash hs]
    exact hw.eq_ok
  have idle (hx : x = [] ∨ x = ['.']) (hseat : ∀ q : Path, q.isAbsolute = false → seat (child p x) q = seat p q) :
      Rests m (child p x) k e' ∧ ∀ rest, m.tree.walk true k e (x :: rest) = m.tree.walk true k e' rest := by
    have hstay : Walks m.tree true k e [x] (.found e) := .idle hx (.stay _ _)
    cases hw.eq_ok.symm.trans hstay.eq_ok
    refine ⟨⟨hd, hplace, fun q hq hsq => ?_⟩, fun rest => walk_idle hx⟩
    rw [hseat q hq] at hsq ⊢
    exact h.onward q hq hsq
  by_cases hx : x = []
  · have hne : p.components ≠ [.current] := fun hhere => hdot hhere hx
    exact ⟨k, Nat.le_refl k, idle (.inl hx) fun q hq => by rw [hx, seat_child_nil h.spelled.written hne hq]⟩
  · by_cases hhere : p.components = [.current] ∧ x = ['.']
    · exact ⟨k, Nat.le_refl k, idle (.inr hhere.2) fun q _ => by rw [hhere.2, seat_child_here hhere.1]⟩
    · obtain ⟨k', hle, hwalk⟩ := hw.onward hd
      refine ⟨k', hle, ⟨hd, hplace, fun q hq hsq => ?_⟩, hwalk⟩
      have hseat : seat (child p x) q = seat p (⟨x⟩ / q) :=
        seat_child h.spelled.written hx hslash hq fun hc hxdot => hhere ⟨hc, hxdot⟩
      rw [hseat] at hsq ⊢
      rw [h.onward _ (isAbsolute_mk_div hx hslash hq) hsq, parts_mk_div hx hslash hq]
      exact hwalk q.parts

theorem rests_here (h : m.tree.IsDirectory m.here) : Rests m ⟨['.']⟩ linkLimit m.here := by
  have hdot : (Path.mk ['.']).components = [.current] := by decide
  have hs : Spelled ⟨['.']⟩ := ⟨by decide, by decide, by decide⟩
  refine ⟨h, ?_, fun q hq hsq => ?_⟩
  · rw [place_eq_walk hs]
    exact (Walks.idle (.inr rfl) (.stay _ _)).eq_ok
  · rw [seat, if_pos hdot] at hsq ⊢
    rw [place_eq_walk hsq, startOf, hq, if_neg Bool.false_ne_true]

theorem rests_top (m : Machine) : Rests m ⟨['/']⟩ linkLimit [] := by
  have hdot : (Path.mk ['/']).components ≠ [.current] := by decide
  have hs : Spelled ⟨['/']⟩ := ⟨by decide, by decide, by decide⟩
  refine ⟨isDirectory_nil, ?_, fun q hq hsq => ?_⟩
  · have hidle : ∀ part ∈ (Path.mk ['/']).parts, part = [] ∨ part = ['.'] := by decide
    rw [place_eq_walk hs]
    exact (Walks.of_idle hidle).eq_ok
  · rw [seat, if_neg hdot] at hsq ⊢
    have habsolute : (Path.mk ['/'] / q).isAbsolute = true := by
      rw [Path.isAbsolute_div (by simp) hq]
      rfl
    have hparts : (Path.mk ['/'] / q).parts = [] :: q.parts := by
      have hopen : (Path.mk ['/']).endsOpen = true := by decide
      unfold Path.parts
      rw [Path.chars_div hq, hopen, if_pos rfl]
      change ([] ++ '/' :: q.chars).splitOn '/' = _
      rw [List.splitOn_append_cons_self]
      rfl
    rw [place_eq_walk hsq, startOf, habsolute, if_pos rfl, hparts, walk_idle (.inl rfl)]

end Resting

section Looking

def weight : List (List Char) → Nat
  | [] => 0
  | x :: xs => byteLength x + 1 + weight xs

@[simp]
theorem weight_nil : weight [] = 0 := rfl

@[simp]
theorem weight_cons (x : List Char) (xs : List (List Char)) : weight (x :: xs) = byteLength x + 1 + weight xs := rfl

def Open (p : Path) (xs : List (List Char)) : Prop :=
  p.components = [.current] → (xs.dropWhile (· = ['.'])).head? ≠ some []

theorem Open.ne_nil (h : Open p (x :: xs)) (hdot : p.components = [.current]) : x ≠ [] := by
  rintro rfl
  exact h hdot rfl

theorem Open.below (h : Open p (x :: xs)) (hp : p.chars ≠ []) (hslash : '/' ∉ x) : Open (child p x) xs := by
  intro hchild
  have hdot : p.components = [.current] := by
    by_contra hne
    exact components_child_ne hp hslash hne hchild
  have hx : x = ['.'] := by
    by_contra hne
    rw [child, if_pos hdot] at hchild
    exact components_mk_ne hslash hne hchild
  have hhead := h hdot
  rwa [List.dropWhile_cons_of_pos (by simp [hx])] at hhead

theorem literal?_map_char (x : List Char) : literal? (x.map .char) = some x := by
  induction x with
  | nil => rfl
  | cons c x ih =>
    unfold literal? at ih ⊢
    rw [List.map_cons, List.mapM_cons, ih]
    rfl

theorem foundBehind_of_ne {rest : List (List Token)} (h : rest ≠ []) (depth : Nat) (q : Path) :
    foundBehind m depth rest q = found m depth rest q :=
  if_neg h

theorem Rests.along (h : Rests m p k e) (hslash : ∀ x ∈ xs, '/' ∉ x) (hnul : ∀ x ∈ xs, '\x00' ∉ x) (hopen : Open p xs)
    (hroom : byteLength p.chars + weight xs ≤ pathLimit) (hw : Walks m.tree true k e xs (.found d))
    (hd : m.tree.IsDirectory d) :
    ∃ k' ≤ k, Rests m (xs.foldl child p) k' d ∧
      (∀ rest, m.tree.walk true k e (xs ++ rest) = m.tree.walk true k' d rest) ∧
      ∀ depth rest, rest ≠ [] → ∀ q, q ∈ found m depth (xs.map (List.map .char) ++ rest) p ↔
        q ∈ found m depth rest (xs.foldl child p) := by
  induction xs generalizing p k e with
  | nil =>
    cases hw
    exact ⟨k, Nat.le_refl k, h, fun _ => rfl, fun _ _ _ _ => Iff.rfl⟩
  | cons x xs ih =>
    rw [List.forall_mem_cons] at hslash hnul
    rw [weight_cons] at hroom
    have hx : p.components = [.current] → x ≠ [] := hopen.ne_nil
    have hs : Spelled (child p x) := spelled_child h.spelled hslash.1 hx hnul.1 (by omega)
    have hle : byteLength (child p x).chars ≤ byteLength p.chars + (byteLength x + 1) := byteLength_child_le p hslash.1
    obtain ⟨e', hone, hd'⟩ : ∃ e', Walks m.tree true k e [x] (.found e') ∧ m.tree.IsDirectory e' := by
      cases xs with
      | nil => exact ⟨d, hw, hd⟩
      | cons y xs =>
        have hw' : Walks m.tree true k e ([x] ++ y :: xs) (.found d) := hw
        exact hw'.before h.directory
    obtain ⟨k', hk, hchild, hwalk⟩ := h.below hslash.1 hx hs hone hd'
    have hrest : Walks m.tree true k' e' xs (.found d) := .of_eq_ok ((hwalk xs).symm.trans hw.eq_ok)
    obtain ⟨k'', hk', hlast, hwalk', hfound⟩ :=
      ih hchild hslash.2 hnul.2 (hopen.below h.spelled.written hslash.1) (by omega) hrest
    refine ⟨k'', hk'.trans hk, hlast, fun rest => ?_, fun depth rest hne q => ?_⟩
    · rw [List.cons_append, hwalk, hwalk']
    · have hne' : xs.map (List.map .char) ++ rest ≠ [] := List.append_ne_nil_of_right_ne_nil _ hne
      rw [List.map_cons, List.cons_append, mem_found_literal (literal?_map_char x), foundBehind_of_ne hne',
        hfound _ _ hne, List.foldl_cons, and_iff_right_iff_imp]
      intro _
      split
      · exact h.kind
      · rw [hchild.kind]
        rfl

theorem lasting_foldl (hslash : ∀ x ∈ xs, '/' ∉ x) (hp : p.chars ≠ []) (hopen : Open p xs) :
    lasting (xs.foldl child p) = lasting p ++ xs.filterMap Component.ofPart? := by
  induction xs generalizing p with
  | nil => simp
  | cons x xs ih =>
    rw [List.forall_mem_cons] at hslash
    rw [List.foldl_cons, ih hslash.2 (chars_child_ne_nil hp hslash.1 hopen.ne_nil) (hopen.below hp hslash.1),
      lasting_child hp hslash.1, List.append_assoc, ← List.filterMap_append, List.singleton_append]

theorem byteLength_foldl_le (hslash : ∀ x ∈ xs, '/' ∉ x) (p : Path) :
    byteLength (xs.foldl child p).chars ≤ byteLength p.chars + weight xs := by
  induction xs generalizing p with
  | nil => exact Nat.le_refl _
  | cons x xs ih =>
    rw [List.forall_mem_cons] at hslash
    have hle : byteLength (child p x).chars ≤ byteLength p.chars + (byteLength x + 1) := byteLength_child_le p hslash.1
    have hrest := ih hslash.2 (child p x)
    rw [List.foldl_cons, weight_cons]
    omega

end Looking

end CBuild.Glob
