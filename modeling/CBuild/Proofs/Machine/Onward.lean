import CBuild.Proofs.Machine.Leading
import CBuild.Proofs.Path.Joining

/-! Walks that go on from a directory. What is seen from a directory is walked to from there, whatever the spelling that
led to it, and parts that mean nothing make no difference on the way. -/

namespace CBuild.FileTree

open CBuild.Path (ofNames ofName IsPart IsFileName isIdle isIdle_iff)

variable {t : FileTree} {follow : Bool} {links k : Nat} {here d l : Location} {root p q : Path} {b : Bytes}
  {pre kept rest parts ns : List (List Char)} {part n : List Char} {place : Place}

section Walking

theorem Walks.onward (h : Walks t true links here pre (.found d)) (hd : t.IsDirectory d) :
    ∃ k ≤ links, ∀ rest, t.walk true links here (pre ++ rest) = t.walk true k d rest := by
  generalize hq : Place.found d = q at h
  induction h with
  | stay links here =>
    cases hq
    exact ⟨links, Nat.le_refl _, fun _ => rfl⟩
  | idle h _ ih =>
    obtain ⟨k, hk, hwalk⟩ := ih hq
    refine ⟨k, hk, fun rest => ?_⟩
    rw [List.cons_append, walk_idle h, hwalk]
  | up _ ih =>
    obtain ⟨k, hk, hwalk⟩ := ih hq
    refine ⟨k, hk, fun rest => ?_⟩
    rw [List.cons_append, walk_up, hwalk]
  | absent => cases hq
  | directory hn hg _ ih =>
    obtain ⟨k, hk, hwalk⟩ := ih hq
    refine ⟨k, hk, fun rest => ?_⟩
    rw [List.cons_append, walk_directory hn hg, hwalk]
  | file hn hg =>
    cases hq
    rw [hd] at hg
    cases hg
  | itself _ _ hf => cases hf
  | link hn hg hr _ ih =>
    obtain ⟨k, hk, hwalk⟩ := ih hq
    refine ⟨k, Nat.le_succ_of_le hk, fun rest => ?_⟩
    rw [List.cons_append, walk_link hn hg (.inr rfl), ← List.append_assoc, hwalk]

theorem Walks.before (h : Walks t true links here (pre ++ part :: rest) (.found l)) (hd : t.IsDirectory here) :
    ∃ e, Walks t true links here pre (.found e) ∧ t.IsDirectory e := by
  generalize hp : pre ++ part :: rest = parts at h
  generalize hq : Place.found l = q at h
  induction h generalizing pre with
  | stay => simp at hp
  | idle h _ ih =>
    cases pre with
    | nil => exact ⟨_, .stay _ _, hd⟩
    | cons x pre =>
      cases hp
      obtain ⟨e, he, hde⟩ := ih hd rfl hq
      exact ⟨e, .idle h he, hde⟩
  | up _ ih =>
    cases pre with
    | nil => exact ⟨_, .stay _ _, hd⟩
    | cons x pre =>
      cases hp
      obtain ⟨e, he, hde⟩ := ih hd.dropLast rfl hq
      exact ⟨e, .up he, hde⟩
  | absent => cases hq
  | directory hn hg _ ih =>
    cases pre with
    | nil => exact ⟨_, .stay _ _, hd⟩
    | cons x pre =>
      cases hp
      obtain ⟨e, he, hde⟩ := ih hg rfl hq
      exact ⟨e, .directory hn hg he, hde⟩
  | file =>
    cases pre with
    | nil => exact ⟨_, .stay _ _, hd⟩
    | cons x pre => simp at hp
  | itself _ _ hf => cases hf
  | @link _ here _ _ _ target hn hg _ _ ih =>
    cases pre with
    | nil => exact ⟨_, .stay _ _, hd⟩
    | cons x pre =>
      obtain ⟨rfl, rfl⟩ := List.cons.inj hp
      obtain ⟨e, he, hde⟩ := @ih (target.parts ++ pre) (isDirectory_start hg target) (List.append_assoc ..) hq
      exact ⟨e, .link hn hg (.inr rfl) he, hde⟩

theorem length_le_height {e : TreeEntry} (h : t.get? l = some e) : l.length ≤ t.height := by
  have greatest (ks : List Nat) (a : Nat) : a ≤ ks.foldl max a ∧ ∀ k ∈ ks, k ≤ ks.foldl max a := by
    induction ks generalizing a with
    | nil => exact ⟨Nat.le_refl a, List.forall_mem_nil _⟩
    | cons k ks ih =>
      obtain ⟨hfirst, hrest⟩ := ih (max a k)
      rw [List.foldl_cons]
      exact ⟨(Nat.le_max_left a k).trans hfirst, List.forall_mem_cons.2 ⟨(Nat.le_max_right a k).trans hfirst, hrest⟩⟩
  by_cases hl : l = []
  · rw [hl]
    exact Nat.zero_le _
  · have hmem : (l, e) ∈ t.entries := (get?_eq_some_iff hl).1 h
    exact (greatest _ 0).2 l.length (List.mem_map_of_mem (f := fun x : Location × TreeEntry => x.1.length) hmem)

def descents (parts : List (List Char)) : Nat :=
  (parts.filterMap Component.ofPart?).countP Component.isName

def ascents (parts : List (List Char)) : Nat :=
  (parts.filterMap Component.ofPart?).count .parent

theorem filterMap_idle (h : part = [] ∨ part = ['.']) :
    (part :: rest).filterMap Component.ofPart? = rest.filterMap Component.ofPart? := by
  have hnone : Component.ofPart? part = none := if_pos h
  rw [List.filterMap_cons_none hnone]

theorem descents_idle (h : part = [] ∨ part = ['.']) : descents (part :: rest) = descents rest := by
  rw [descents, filterMap_idle h, ← descents]

theorem ascents_idle (h : part = [] ∨ part = ['.']) : ascents (part :: rest) = ascents rest := by
  rw [ascents, filterMap_idle h, ← ascents]

theorem descents_up : descents (['.', '.'] :: rest) = descents rest := rfl

theorem ascents_up : ascents (['.', '.'] :: rest) = ascents rest + 1 :=
  List.count_cons_self

theorem IsName.ofPart? (h : IsName part) : Component.ofPart? part = some (.name part) := by
  unfold Component.ofPart?
  rw [if_neg h.not_idle, if_neg h.not_up]

theorem descents_name (h : IsName part) : descents (part :: rest) = descents rest + 1 := by
  rw [descents, List.filterMap_cons_some h.ofPart?, List.countP_cons_of_pos rfl, ← descents]

theorem ascents_name (h : IsName part) : ascents (part :: rest) = ascents rest := by
  rw [ascents, List.filterMap_cons_some h.ofPart?, List.count_cons_of_ne (by simp), ← ascents]

/-- Each name goes down, where there is no more than the height of the tree to go and what has been gone up before, or
follows a link. -/
theorem Walks.descents_le (h : Walks t true links here (pre ++ parts) (.found l)) :
    descents parts ≤ links * (t.height + 1) + t.height + ascents parts ∧
      (pre = [] → t.IsDirectory here →
        descents parts + here.length ≤ links * (t.height + 1) + t.height + ascents parts) := by
  have hnil : descents [] = 0 := rfl
  generalize hp : pre ++ parts = walked at h
  generalize hq : Place.found l = q at h
  induction h generalizing pre parts with
  | stay =>
    obtain ⟨rfl, rfl⟩ := List.append_eq_nil_iff.1 hp
    refine ⟨by omega, fun _ hd => ?_⟩
    have hheight := length_le_height hd
    omega
  | idle hidle _ ih =>
    cases pre with
    | nil =>
      cases hp
      rw [descents_idle hidle, ascents_idle hidle]
      exact @ih [] _ rfl hq
    | cons x pre =>
      cases hp
      exact ⟨(ih rfl hq).1, fun hpre => absurd hpre (List.cons_ne_nil _ _)⟩
  | @up _ here _ _ _ ih =>
    cases pre with
    | nil =>
      cases hp
      obtain ⟨hrest, hdown⟩ := @ih [] _ rfl hq
      rw [descents_up, ascents_up]
      refine ⟨by omega, fun _ hd => ?_⟩
      have hback := hdown rfl hd.dropLast
      rw [List.length_dropLast] at hback
      omega
    | cons x pre =>
      cases hp
      exact ⟨(ih rfl hq).1, fun hpre => absurd hpre (List.cons_ne_nil _ _)⟩
  | absent => cases hq
  | directory hn hg _ ih =>
    cases pre with
    | nil =>
      cases hp
      have hrest := (@ih [] _ rfl hq).2 rfl hg
      rw [List.length_append, List.length_singleton] at hrest
      rw [descents_name hn, ascents_name hn]
      exact ⟨by omega, fun _ _ => by omega⟩
    | cons x pre =>
      cases hp
      exact ⟨(ih rfl hq).1, fun hpre => absurd hpre (List.cons_ne_nil _ _)⟩
  | file hn hg =>
    have hheight := length_le_height hg
    rw [List.length_append, List.length_singleton] at hheight
    cases pre with
    | nil =>
      cases hp
      rw [descents_name hn, hnil]
      exact ⟨by omega, fun _ _ => by omega⟩
    | cons x pre =>
      obtain ⟨-, hempty⟩ := List.cons.inj hp
      obtain ⟨-, rfl⟩ := List.append_eq_nil_iff.1 hempty
      exact ⟨by omega, fun hpre => absurd hpre (List.cons_ne_nil _ _)⟩
  | itself _ _ hf => cases hf
  | @link links here _ _ _ target hn hg _ _ ih =>
    have hheight := length_le_height hg
    rw [List.length_append, List.length_singleton] at hheight
    have hmore : (links + 1) * (t.height + 1) = links * (t.height + 1) + (t.height + 1) := Nat.succ_mul _ _
    cases pre with
    | nil =>
      cases hp
      obtain ⟨hrest, -⟩ := @ih target.parts _ rfl hq
      rw [descents_name hn, ascents_name hn]
      exact ⟨by omega, fun _ _ => by omega⟩
    | cons x pre =>
      obtain ⟨rfl, rfl⟩ := List.cons.inj hp
      obtain ⟨hrest, -⟩ := @ih (target.parts ++ pre) parts (List.append_assoc ..) hq
      exact ⟨by omega, fun hpre => absurd hpre (List.cons_ne_nil _ _)⟩

theorem Walks.length_le (h : Walks t true links here ns (.found l)) (hns : ∀ n ∈ ns, IsFileName n) :
    ns.length ≤ links * (t.height + 1) + t.height := by
  have hwalk : Walks t true links here ([] ++ ns) (.found l) := h
  obtain ⟨hle, -⟩ := hwalk.descents_le
  have hdown : descents ns = ns.length := by
    rw [descents, Path.filterMap_names hns, List.countP_map]
    exact List.countP_eq_length.2 fun n _ => rfl
  have hup : ascents ns = 0 := by
    rw [ascents, Path.filterMap_names hns, List.count_eq_zero]
    simp
  omega

theorem Walks.of_le (h : Walks t follow links here parts place) (hk : links ≤ k) :
    Walks t follow k here parts place := by
  induction h generalizing k with
  | stay => exact .stay _ _
  | idle h _ ih => exact .idle h (ih hk)
  | up _ ih => exact .up (ih hk)
  | absent hn hg hr => exact .absent hn hg hr
  | directory hn hg _ ih => exact .directory hn hg (ih hk)
  | file hn hg => exact .file hn hg
  | itself hn hg hf => exact .itself hn hg hf
  | @link links here part rest q target hn hg hr _ ih =>
    obtain ⟨k, rfl⟩ : ∃ j, k = j + 1 := Nat.exists_eq_succ_of_ne_zero (by omega)
    exact .link hn hg hr (ih (by omega))

theorem Walks.known (h : Walks t follow links here parts (.found l)) :
    ∀ part ∈ parts, (part = [] ∨ part = ['.']) ∨ part = ['.', '.'] ∨ ∃ d e, t.get? (d ++ [part]) = some e := by
  generalize hq : Place.found l = q at h
  induction h with
  | stay => exact List.forall_mem_nil _
  | idle h _ ih => exact List.forall_mem_cons.2 ⟨.inl h, ih hq⟩
  | up _ ih => exact List.forall_mem_cons.2 ⟨.inr (.inl rfl), ih hq⟩
  | absent => cases hq
  | directory _ hg _ ih => exact List.forall_mem_cons.2 ⟨.inr (.inr ⟨_, _, hg⟩), ih hq⟩
  | file _ hg => exact List.forall_mem_singleton.2 (.inr (.inr ⟨_, _, hg⟩))
  | itself _ hg _ => exact List.forall_mem_singleton.2 (.inr (.inr ⟨_, _, hg⟩))
  | link _ hg _ _ ih =>
    exact List.forall_mem_cons.2 ⟨.inr (.inr ⟨_, _, hg⟩), fun part hp => ih hq part (List.mem_append_right _ hp)⟩

theorem walk_ahead {idle : List (List Char)} (hidle : ∀ part ∈ idle, part = [] ∨ part = ['.'])
    (rest : List (List Char)) : t.walk follow links here (idle ++ rest) = t.walk follow links here rest := by
  induction idle with
  | nil => rfl
  | cons part idle ih =>
    rw [List.forall_mem_cons] at hidle
    rw [List.cons_append, walk_idle hidle.1, ih hidle.2]

/-- The second parts are the first less some that mean nothing. -/
inductive Thinned : List (List Char) → List (List Char) → Prop
  | nil : Thinned [] []
  | keep {part : List Char} {parts kept : List (List Char)} (h : Thinned parts kept) :
      Thinned (part :: parts) (part :: kept)
  | drop {part : List Char} {parts kept : List (List Char)} (hidle : part = [] ∨ part = ['.'])
      (h : Thinned parts kept) : Thinned (part :: parts) kept

theorem Thinned.behind (h : Thinned parts kept) (pre : List (List Char)) : Thinned (pre ++ parts) (pre ++ kept) := by
  induction pre with
  | nil => exact h
  | cons part pre ih => exact ih.keep

theorem Thinned.ahead (h : Thinned parts kept) {idle : List (List Char)}
    (hidle : ∀ part ∈ idle, part = [] ∨ part = ['.']) : Thinned (idle ++ parts) kept := by
  induction idle with
  | nil => exact h
  | cons part idle ih =>
    rw [List.forall_mem_cons] at hidle
    exact .drop hidle.1 (ih hidle.2)

theorem thinned_filter (parts : List (List Char)) : Thinned parts (parts.filter fun part => !isIdle part) := by
  induction parts with
  | nil => exact .nil
  | cons part parts ih =>
    by_cases hidle : isIdle part = true
    · rw [List.filter_cons_of_neg (by simp [hidle])]
      exact ih.drop (isIdle_iff.1 hidle)
    · rw [List.filter_cons_of_pos (by simp [hidle])]
      exact ih.keep

theorem Thinned.of_name (h : Thinned (part :: rest) kept) (hpart : ¬(part = [] ∨ part = ['.'])) :
    ∃ rest', kept = part :: rest' ∧ Thinned rest rest' := by
  cases h with
  | keep h => exact ⟨_, rfl, h⟩
  | drop hidle h => exact absurd hidle hpart

theorem Walks.thin (h : Walks t true links here parts (.found l)) (ht : Thinned parts kept) :
    Walks t true links here kept (.found l) := by
  generalize hq : Place.found l = q at h ⊢
  induction h generalizing kept with
  | stay =>
    cases ht
    exact .stay _ _
  | idle h _ ih =>
    cases ht with
    | keep ht => exact .idle h (ih ht hq)
    | drop _ ht => exact ih ht hq
  | up _ ih =>
    obtain ⟨rest, rfl, hrest⟩ := ht.of_name (by simp)
    exact .up (ih hrest hq)
  | absent => cases hq
  | directory hn hg _ ih =>
    obtain ⟨rest, rfl, hrest⟩ := ht.of_name hn.not_idle
    exact .directory hn hg (ih hrest hq)
  | file hn hg =>
    obtain ⟨rest, rfl, hrest⟩ := ht.of_name hn.not_idle
    cases hrest
    exact .file hn hg
  | itself _ _ hf => cases hf
  | link hn hg _ _ ih =>
    obtain ⟨rest, rfl, hrest⟩ := ht.of_name hn.not_idle
    exact .link hn hg (.inr rfl) (ih (hrest.behind _) hq)

end Walking

section Placing

theorem Spelled.clean (h : Spelled p) : '\x00' ∉ p.chars :=
  fun hmem => h.no_nul (List.contains_iff_mem.2 hmem)

theorem startOf_div (hroot : root.chars ≠ []) (hp : p.isAbsolute = false) :
    startOf here (root / p) = startOf here root := by
  unfold startOf
  rw [Path.isAbsolute_div hroot hp]

theorem spelled_div (hroot : root.chars ≠ []) (hclean : '\x00' ∉ root.chars) (hp : p.isAbsolute = false)
    (hnul : '\x00' ∉ p.chars) (hfits : byteLength (root / p).chars ≤ pathLimit) : Spelled (root / p) := by
  obtain ⟨front, hfront, hchars⟩ := root.exists_chars_div
  refine ⟨?_, Path.chars_div_ne_nil hroot hp, by omega⟩
  rw [hchars p hp, List.contains_iff_mem, List.mem_append, not_or]
  refine ⟨?_, hnul⟩
  rcases hfront with rfl | rfl
  · exact hclean
  · simpa using hclean

theorem byteLength_div (hp : p.isAbsolute = false) :
    byteLength root.chars + byteLength p.chars ≤ byteLength (root / p).chars ∧
      byteLength (root / p).chars ≤ byteLength root.chars + 1 + byteLength p.chars := by
  obtain ⟨front, hfront, hchars⟩ := root.exists_chars_div
  have hone : byteLength ['/'] = 1 := rfl
  rw [hchars p hp, byteLength_append]
  rcases hfront with rfl | rfl
  · omega
  · rw [byteLength_append, hone]
    omega

theorem Spelled.div (h : Spelled (root / p)) (hroot : root.chars ≠ []) (hp : p.isAbsolute = false)
    (hq : q.isAbsolute = false) (hnul : '\x00' ∉ q.chars) (hle : byteLength q.chars ≤ byteLength p.chars) :
    Spelled (root / q) := by
  obtain ⟨front, -, hchars⟩ := root.exists_chars_div
  have hfits : ¬byteLength (root / p).chars > pathLimit := h.fits
  have hclean : '\x00' ∉ (root / p).chars := h.clean
  rw [hchars p hp, List.mem_append, not_or] at hclean
  rw [hchars p hp, byteLength_append] at hfits
  refine ⟨?_, Path.chars_div_ne_nil hroot hq, ?_⟩
  · rw [hchars q hq, List.contains_iff_mem, List.mem_append, not_or]
    exact ⟨hclean.1, hnul⟩
  · rw [hchars q hq, byteLength_append]
    omega

theorem Spelled.nul_not_mem (h : Spelled (root / p)) (hp : p.isAbsolute = false) : '\x00' ∉ p.chars := by
  obtain ⟨front, -, hchars⟩ := root.exists_chars_div
  have hclean : '\x00' ∉ (root / p).chars := h.clean
  rw [hchars p hp, List.mem_append, not_or] at hclean
  exact hclean.2

theorem exists_place_div (hroot : t.place here root true = .ok (.found d)) (hd : t.IsDirectory d) :
    ∃ k ≤ linkLimit, ∀ p : Path, p.isAbsolute = false → Spelled (root / p) →
      t.place here (root / p) true = t.walk true k d p.parts := by
  have hwritten : root.chars ≠ [] := (spelled_of_place hroot).written
  obtain ⟨pre, idle, hparts, -, hidle, hdiv⟩ := Path.parts_div hwritten
  have hw : Walks t true linkLimit (startOf here root) (pre ++ idle) (.found d) := hparts ▸ walks_of_place hroot
  have hpre : Walks t true linkLimit (startOf here root) (pre ++ []) (.found d) :=
    hw.idle_end hd (fun part hp => .inl (hidle part hp)) (List.forall_mem_nil _)
  rw [List.append_nil] at hpre
  obtain ⟨k, hk, hwalk⟩ := hpre.onward hd
  refine ⟨k, hk, fun p hp hs => ?_⟩
  rw [place_eq_walk hs, startOf_div hwritten hp, hdiv p hp, hwalk]

end Placing

section Directories

def directoryPath (ns : List (List Char)) : Path :=
  if ns = [] then ⟨['.']⟩ else ofNames ns

theorem isAbsolute_directoryPath (hns : ∀ x ∈ ns, IsPart x) : (directoryPath ns).isAbsolute = false := by
  unfold directoryPath
  split
  · rfl
  · exact Path.isAbsolute_ofNames hns

theorem nul_not_mem_directoryPath (h : '\x00' ∉ (ofNames (ns ++ [n])).chars) : '\x00' ∉ (directoryPath ns).chars := by
  unfold directoryPath
  split
  · decide
  · exact fun hc => h ((Path.intercalate_prefix ns [n]).subset hc)

theorem byteLength_directoryPath_le (hn : n ≠ []) :
    byteLength (directoryPath ns).chars ≤ byteLength (ofNames (ns ++ [n])).chars := by
  unfold directoryPath
  split
  next hnil =>
    obtain ⟨c, s, rfl⟩ := List.exists_cons_of_ne_nil hn
    have hsingle : (ofNames [c :: s]).chars = c :: s := by simp [ofNames]
    have hc : 1 ≤ c.utf8Size := c.utf8Size_pos
    have hdot : byteLength ['.'] = 1 := rfl
    dsimp only
    rw [hnil, List.nil_append, hsingle, hdot, byteLength_cons]
    omega
  next => exact byteLength_le (Path.intercalate_prefix ns [n]).sublist

theorem Walks.directoryPath (h : Walks t true links here ns (.found d)) (hns : ∀ x ∈ ns, IsPart x) :
    t.walk true links here (directoryPath ns).parts = .ok (.found d) := by
  unfold FileTree.directoryPath
  split
  next hnil =>
    rw [hnil] at h
    cases h
    exact (Walks.idle (.inr rfl) (.stay _ _)).eq_ok
  next hne =>
    rw [Path.parts_ofNames hns hne]
    exact h.eq_ok

end Directories

section Files

variable (hroot : t.place here root true = .ok (.found d)) (hd : t.IsDirectory d)
include hroot hd

theorem Leads.words (h : t.Leads here (root / p) l b) (hp : p.isAbsolute = false) :
    t.Leads here (root / ofNames p.words) l b := by
  obtain ⟨k, -, hplace⟩ := exists_place_div hroot hd
  have hs : Spelled (root / p) := spelled_of_place h.place
  have hw : Walks t true k d p.parts (.found l) := .of_eq_ok ((hplace p hp hs).symm.trans h.place)
  have hthin : Walks t true k d p.words (.found l) := hw.thin (thinned_filter p.parts)
  have hwords : ∀ part ∈ p.words, IsPart part := fun part => Path.isPart_of_mem_words
  have hne : p.words ≠ [] := by
    intro hnil
    rw [hnil] at hthin
    cases hthin
    obtain ⟨x, hx⟩ := h.file
    rw [hd] at hx
    cases hx
  have habsolute : (ofNames p.words).isAbsolute = false := Path.isAbsolute_ofNames hwords
  have hshort : (ofNames p.words).chars.Sublist p.chars := p.chars_words_sublist
  have hs' : Spelled (root / ofNames p.words) :=
    hs.div (spelled_of_place hroot).written hp habsolute (fun hc => hs.nul_not_mem hp (hshort.subset hc))
      (byteLength_le hshort)
  refine ⟨?_, h.file⟩
  rw [hplace _ habsolute hs', Path.parts_ofNames hwords hne]
  exact hthin.eq_ok

theorem Leads.exists_directory (hnames : ∀ x ∈ ns ++ [n], IsFileName x) (h : t.Leads here (root / ofNames (ns ++ [n])) l b) :
    ∃ k, t.place here (root / directoryPath ns) true = .ok (.found k) ∧ t.IsDirectory k ∧ t.Leads k (ofName n) l b := by
  have hparts : ∀ x ∈ ns ++ [n], IsPart x := fun x hx => (hnames x hx).isPart
  have hns : ∀ x ∈ ns, IsPart x := fun x hx => hparts x (List.mem_append_left _ hx)
  have hn : IsFileName n := hnames n (by simp)
  have habsolute : (ofNames (ns ++ [n])).isAbsolute = false := Path.isAbsolute_ofNames hparts
  have hs : Spelled (root / ofNames (ns ++ [n])) := spelled_of_place h.place
  have hclean : '\x00' ∉ (ofNames (ns ++ [n])).chars := hs.nul_not_mem habsolute
  obtain ⟨links, hlinks, hplace⟩ := exists_place_div hroot hd
  have hw : Walks t true links d (ns ++ [n]) (.found l) := by
    have hwalk := (hplace _ habsolute hs).symm.trans h.place
    rw [Path.parts_ofNames hparts (by simp)] at hwalk
    exact .of_eq_ok hwalk
  obtain ⟨x, hx⟩ := h.file
  -- the names before the last lead to a directory, and the last is a name in it
  obtain ⟨k, i, ⟨hpre, -⟩, hsplit⟩ := hw.split (u := t) hn.isPart.written fun _ _ => .inl rfl
  have hlast : Walks t true i k [n] (.found l) := .of_eq_ok ((hsplit true).1.symm.trans hw.eq_ok)
  obtain ⟨-, -, hk, -⟩ := hlast.last_name hx (List.forall_mem_nil _) hn.not_idle hn.not_up
  refine ⟨k, ?_, hk, ?_, h.file⟩
  · have hdirectory : (directoryPath ns).isAbsolute = false := isAbsolute_directoryPath hns
    have hs' : Spelled (root / directoryPath ns) :=
      hs.div (spelled_of_place hroot).written habsolute hdirectory (nul_not_mem_directoryPath hclean)
        (byteLength_directoryPath_le hn.isPart.written)
    rw [hplace _ hdirectory hs']
    exact hpre.directoryPath hns
  · obtain ⟨j, hj, hrest⟩ := hpre.onward hk
    have hwalk : Walks t true j k [n] (.found l) := .of_eq_ok ((hrest [n]).symm.trans hw.eq_ok)
    have hs' : Spelled (ofName n) := by
      obtain ⟨front, -, hchars⟩ := root.exists_chars_div
      obtain ⟨front', hchars'⟩ := Path.exists_chars_ofNames ns n
      refine hs.of_sublist ?_ hn.isPart.written
      rw [hchars _ habsolute, hchars', ← List.append_assoc]
      exact List.sublist_append_right _ _
    have hstart : startOf k (ofName n) = k := by
      unfold startOf
      rw [hn.isPart.isAbsolute, if_neg Bool.false_ne_true]
    have hone : (ofName n).parts = [n] := by
      have hsingle : ∀ x ∈ [n], IsPart x := List.forall_mem_singleton.2 hn.isPart
      have hname : ofName n = ofNames [n] := by simp [ofName, ofNames]
      rw [hname, Path.parts_ofNames hsingle (by simp)]
    rw [place_eq_walk hs', hstart, hone]
    exact (hwalk.of_le (hj.trans hlinks)).eq_ok

end Files
end CBuild.FileTree
