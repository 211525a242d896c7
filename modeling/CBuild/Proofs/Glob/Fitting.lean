import CBuild.Proofs.Glob.Matching
import CBuild.Proofs.Glob.Standing
import CBuild.Proofs.Source.Building

/-! What an expansion finds below a base: the files whose names the components stand for, one after the other. Nothing
else of the machine matters. -/

namespace CBuild.Glob

open FileTree Machine
open CBuild.Path (ofNames IsPart IsFileName)

variable {m : Machine} {p q : Path} {spare used depth : Nat} {n x : List Char}
  {ns : List (List Char)} {c : List Token} {rest components : List (List Token)}

section Places

theorem namesIn_eq_ok_iff {names : List (List Char)} : m.namesIn p = .ok names ↔
    ∃ l, m.tree.find m.here p = .ok (l, .directory) ∧ m.tree.namesIn l = names := by
  unfold Machine.namesIn
  constructor
  · intro h
    cases hfind : m.tree.find m.here p with
    | error e =>
      rw [hfind] at h
      cases h
    | ok found =>
      obtain ⟨l, e⟩ := found
      rw [hfind] at h
      cases e with
      | directory =>
        cases h
        exact ⟨l, rfl, rfl⟩
      | file b x => cases h
      | link target => cases h
  · rintro ⟨l, hl, rfl⟩
    rw [hl]
    rfl

end Places

structure Site where
  machine : Machine
  base : Path
  links : Nat
  location : Location

def Site.walk (S : Site) (parts : List (List Char)) : Except OsError Place :=
  S.machine.tree.walk true S.links S.location parts

/-- A base as seen from outside: what is seen from it is walked to from one location. No path below it is so long that
there is no room for what is to spare. -/
structure Home (S : Site) (spare : Nat) : Prop where
  written : S.base.chars ≠ []
  clean : '\x00' ∉ S.base.chars
  named : S.machine.tree.WellNamed
  place : ∀ q : Path, q.isAbsolute = false → Spelled (S.base / q) →
    S.machine.tree.place S.machine.here (S.base / q) true = S.walk q.parts
  room : ∀ ns : List (List Char), (∀ n ∈ ns, IsFileName n) → ∀ l, S.walk ns = .ok (.found l) →
    byteLength S.base.chars + byteLength (ofNames ns).chars + spare ≤ pathLimit

/-- A path to a directory that names lead to from a base, written with some characters more than the names need. -/
structure Stands (S : Site) (p : Path) (ns : List (List Char))
    (used : Nat) : Prop where
  named : ∀ n ∈ ns, IsFileName n
  clean : ∀ n ∈ ns, '\x00' ∉ n
  rests : ∃ k e, Rests S.machine p k e ∧ ∀ rest, S.walk (ns ++ rest) = S.machine.tree.walk true k e rest
  lasting : lasting p = lasting S.base ++ ns.map .name
  short : byteLength p.chars ≤ byteLength S.base.chars + weight ns + used

section Standing

theorem weight_append (xs ys : List (List Char)) : weight (xs ++ ys) = weight xs + weight ys := by
  induction xs with
  | nil => simp
  | cons x xs ih =>
    rw [List.cons_append, weight_cons, weight_cons, ih]
    omega

theorem byteLength_ofNames_concat (ns : List (List Char)) (n : List Char) :
    byteLength (ofNames (ns ++ [n])).chars + 1 = weight (ns ++ [n]) := by
  induction ns with
  | nil => simp [ofNames]
  | cons x ns ih =>
    have hone : byteLength ['/'] = 1 := rfl
    have hne : ns ++ [n] ≠ [] := by simp
    obtain ⟨y, ys, hcons⟩ := List.exists_cons_of_ne_nil hne
    have hchars : (ofNames (x :: (ns ++ [n]))).chars = x ++ ['/'] ++ (ofNames (ns ++ [n])).chars := by
      unfold ofNames
      rw [hcons, List.intercalate_cons_cons]
    rw [List.cons_append, weight_cons, ← ih, hchars, byteLength_append, byteLength_append, hone]
    omega

theorem weight_le (ns : List (List Char)) : weight ns ≤ byteLength (ofNames ns).chars + 1 := by
  rcases List.eq_nil_or_concat' ns with rfl | ⟨ns, n, rfl⟩
  · simp
  · rw [byteLength_ofNames_concat]

theorem plain_of_idle (hx : x = [] ∨ x = ['.']) : '/' ∉ x ∧ '\x00' ∉ x ∧ byteLength x ≤ 1 := by
  rcases hx with rfl | rfl
  · decide
  · decide

theorem Stands.named_concat (s : Stands S p ns used) (hn : IsFileName n) : ∀ y ∈ ns ++ [n], IsFileName y :=
  List.forall_mem_append.2 ⟨s.named, List.forall_mem_singleton.2 hn⟩

variable (h : Home S spare) (s : Stands S p ns used)
include h s

theorem Stands.kind_child (hn : IsFileName n) (hused : used + 1 ≤ spare) :
    S.machine.kind (child p n) = S.machine.kind (S.base / ofNames (ns ++ [n])) := by
  obtain ⟨k, e, hrests, hwalk⟩ := s.rests
  have hnames : ∀ y ∈ ns ++ [n], IsFileName y := s.named_concat hn
  have hparts : ∀ y ∈ ns ++ [n], IsPart y := fun y hy => (hnames y hy).isPart
  have habsolute : (ofNames (ns ++ [n])).isAbsolute = false := Path.isAbsolute_ofNames hparts
  have hchild (hs : Spelled (child p n)) :
      S.machine.tree.place S.machine.here (child p n) true = S.machine.tree.walk true k e [n] :=
    hrests.place_child hn.no_slash hs
  have hbase (hs : Spelled (S.base / ofNames (ns ++ [n]))) :
      S.machine.tree.place S.machine.here (S.base / ofNames (ns ++ [n])) true = S.machine.tree.walk true k e [n] := by
    rw [h.place _ habsolute hs, Path.parts_ofNames hparts (by simp), hwalk]
  -- where the name leads anywhere, there is room for both spellings
  have hroom {l : Location} (hl : S.machine.tree.walk true k e [n] = .ok (.found l)) (hclean : '\x00' ∉ n) :
      Spelled (child p n) ∧ Spelled (S.base / ofNames (ns ++ [n])) := by
    have hfits := h.room (ns ++ [n]) hnames l ((hwalk [n]).trans hl)
    have hlength := byteLength_ofNames_concat ns n
    have hshort := s.short
    rw [weight_append, weight_cons, weight_nil] at hlength
    refine ⟨spelled_child hrests.spelled hn.no_slash (fun _ => hn.isPart.written) hclean (by omega), ?_⟩
    have hle : byteLength (S.base / ofNames (ns ++ [n])).chars ≤
        byteLength S.base.chars + 1 + byteLength (ofNames (ns ++ [n])).chars := (byteLength_div habsolute).2
    have hnone : ∀ y ∈ ns ++ [n], '\x00' ∉ y := List.forall_mem_append.2 ⟨s.clean, List.forall_mem_singleton.2 hclean⟩
    exact spelled_div h.written h.clean habsolute (Path.not_mem_ofNames (by decide) hnone) (by omega)
  apply Option.ext
  intro f
  rw [kind_eq_some_iff, kind_eq_some_iff]
  constructor
  · rintro ⟨l, g, hplace, hl, hg⟩
    have hs : Spelled (child p n) := spelled_of_place hplace
    have hclean : '\x00' ∉ n := nul_not_mem_of_child hn.no_slash hs
    have hw : S.machine.tree.walk true k e [n] = .ok (.found l) := (hchild hs).symm.trans hplace
    exact ⟨l, g, (hbase (hroom hw hclean).2).trans hw, hl, hg⟩
  · rintro ⟨l, g, hplace, hl, hg⟩
    have hs : Spelled (S.base / ofNames (ns ++ [n])) := spelled_of_place hplace
    have hclean : '\x00' ∉ n := by
      obtain ⟨front, hchars⟩ := Path.exists_chars_ofNames ns n
      intro hmem
      have hwhole : '\x00' ∈ (ofNames (ns ++ [n])).chars := by
        rw [hchars]
        exact List.mem_append_right _ hmem
      exact hs.nul_not_mem habsolute hwhole
    have hw : S.machine.tree.walk true k e [n] = .ok (.found l) := (hbase hs).symm.trans hplace
    exact ⟨l, g, (hchild (hroom hw hclean).1).trans hw, hl, hg⟩

theorem Stands.idle (hx : x = [] ∨ x = ['.']) (hdot : p.components = [.current] → x ≠ []) (hused : used + 3 ≤ spare) :
    Stands S (child p x) ns (used + 2) := by
  obtain ⟨k, e, hrests, hwalk⟩ := s.rests
  obtain ⟨hslash, hclean, hlength⟩ := plain_of_idle hx
  have hstay : S.walk ns = .ok (.found e) := by
    have hw := hwalk []
    rwa [List.append_nil, (Walks.stay k e).eq_ok] at hw
  have hfits := h.room ns s.named e hstay
  have hshort := s.short
  have hweight := weight_le ns
  have hle : byteLength (child p x).chars ≤ byteLength p.chars + (byteLength x + 1) := byteLength_child_le p hslash
  have hs : Spelled (child p x) := spelled_child hrests.spelled hslash hdot hclean (by omega)
  obtain ⟨k', -, hchild, hwalk'⟩ := hrests.below hslash hdot hs (.idle hx (.stay _ _)) hrests.directory
  refine ⟨s.named, s.clean, ⟨k', e, hchild, fun rest => ?_⟩, ?_, by omega⟩
  · rw [hwalk, ← hwalk', walk_idle hx]
  · have hnone : Component.ofPart? x = none := if_pos hx
    rw [lasting_child hrests.spelled.written hslash, List.filterMap_cons_none hnone, List.filterMap_nil,
      List.append_nil, s.lasting]

end Standing

section Looking

variable (s : Stands S p ns used)
include s

theorem Stands.below (hn : IsFileName n) (hkind : S.machine.kind (child p n) = some .directory) :
    Stands S (child p n) (ns ++ [n]) used := by
  obtain ⟨k, e, hrests, hwalk⟩ := s.rests
  obtain ⟨e', hplace, hd⟩ := kind_directory_iff.1 hkind
  have hs : Spelled (child p n) := spelled_of_place hplace
  have hw : Walks S.machine.tree true k e [n] (.found e') :=
    .of_eq_ok ((hrests.place_child hn.no_slash hs).symm.trans hplace)
  obtain ⟨k', -, hchild, hwalk'⟩ := hrests.below hn.no_slash (fun _ => hn.isPart.written) hs hw hd
  have hle : byteLength (child p n).chars ≤ byteLength p.chars + (byteLength n + 1) :=
    byteLength_child_le p hn.no_slash
  have hshort := s.short
  have hclean : ∀ y ∈ [n], '\x00' ∉ y := List.forall_mem_singleton.2 (nul_not_mem_of_child hn.no_slash hs)
  refine ⟨s.named_concat hn, List.forall_mem_append.2 ⟨s.clean, hclean⟩, ⟨k', e', hchild, fun rest => ?_⟩, ?_, ?_⟩
  · rw [List.append_assoc, List.singleton_append, hwalk, hwalk']
  · rw [lasting_child hrests.spelled.written hn.no_slash, s.lasting, List.filterMap_cons_some hn.ofPart?,
      List.map_append, List.append_assoc]
    rfl
  · rw [weight_append, weight_cons, weight_nil]
    omega

theorem Stands.kind : S.machine.kind p = some .directory := by
  obtain ⟨k, e, hrests, -⟩ := s.rests
  exact hrests.kind

theorem Stands.mem_namesIn (hn : IsFileName n) (hkind : (S.machine.kind (child p n)).isSome) :
    ∃ names, S.machine.namesIn p = .ok names ∧ n ∈ names := by
  obtain ⟨k, e, hrests, -⟩ := s.rests
  obtain ⟨f, hf⟩ := Option.isSome_iff_exists.1 hkind
  obtain ⟨l, g, hplace, -, -⟩ := kind_eq_some_iff.1 hf
  have hs : Spelled (child p n) := spelled_of_place hplace
  have hw : Walks S.machine.tree true k e [n] (.found l) :=
    .of_eq_ok ((hrests.place_child hn.no_slash hs).symm.trans hplace)
  have hget : ∃ f, S.machine.tree.get? (e ++ [n]) = some f := by
    cases hw with
    | idle hidle => exact absurd hidle hn.not_idle
    | up => exact absurd rfl hn.not_up
    | directory _ hg _ => exact ⟨_, hg⟩
    | file _ hg => exact ⟨_, hg⟩
    | itself _ hg _ => exact ⟨_, hg⟩
    | link _ hg _ _ => exact ⟨_, hg⟩
  refine ⟨S.machine.tree.namesIn e, namesIn_eq_ok_iff.2 ⟨e, find_eq_ok_iff.2 ⟨hrests.place, hrests.directory⟩, rfl⟩, ?_⟩
  rw [mem_namesIn_iff, Option.isSome_iff_exists]
  exact hget

theorem Stands.kind_of_behind (hn : IsFileName n) (hslash : '/' ∉ x)
    (hkind : (S.machine.kind (child (child p n) x)).isSome) : S.machine.kind (child p n) = some .directory := by
  obtain ⟨k, e, hrests, -⟩ := s.rests
  obtain ⟨f, hf⟩ := Option.isSome_iff_exists.1 hkind
  obtain ⟨l, g, hplace, -, -⟩ := kind_eq_some_iff.1 hf
  have hne : n ≠ ['.'] := fun hdot => hn.not_idle (.inr hdot)
  have hseat : child (child p n) x = seat p (⟨n⟩ / ⟨x⟩) :=
    seat_child hrests.spelled.written hn.isPart.written hn.no_slash (isAbsolute_mk hslash) fun _ => hne
  have hw : Walks S.machine.tree true k e ([n] ++ [x]) (.found l) := by
    apply Walks.of_eq_ok
    rw [hseat] at hplace
    rw [hrests.onward _ (isAbsolute_mk_div hn.isPart.written hn.no_slash (isAbsolute_mk hslash))
      (spelled_of_place hplace), parts_mk_div hn.isPart.written hn.no_slash (isAbsolute_mk hslash),
      parts_mk hslash] at hplace
    exact hplace
  obtain ⟨e', hone, hd⟩ := hw.before hrests.directory
  have hwritten : p.chars ≠ [] := hrests.spelled.written
  have hs : Spelled (child p n) :=
    spelled_of_child (chars_child_ne_nil hwritten hn.no_slash fun _ => hn.isPart.written) hslash
      (components_child_word_ne hwritten hn.no_slash hne) (spelled_of_place hplace)
  exact kind_directory_iff.2 ⟨e', (hrests.place_child hn.no_slash hs).trans hone.eq_ok, hd⟩

theorem Stands.directory_of_found (hn : IsFileName n) (hslash : ∀ c ∈ components, ∀ x, literal? c = some x → '/' ∉ x)
    (hq : q ∈ found S.machine depth components (child p n)) : S.machine.kind (child p n) = some .directory := by
  cases components with
  | nil =>
    rw [found_nil] at hq
    cases hq
  | cons c rest =>
    cases hliteral : literal? c with
    | some x =>
      obtain ⟨hlook, -⟩ := (mem_found_literal hliteral).1 hq
      split at hlook
      · exact hlook
      · exact s.kind_of_behind hn (hslash c List.mem_cons_self x hliteral) hlook
    | none =>
      cases depth with
      | zero =>
        rw [found_exhausted hliteral] at hq
        cases hq
      | succ depth =>
        obtain ⟨names, hnames, -⟩ := (mem_found_listing hliteral).1 hq
        obtain ⟨l, hfind, -⟩ := namesIn_eq_ok_iff.1 hnames
        exact kind_directory_iff.2 ⟨l, find_eq_ok_iff.1 hfind⟩

end Looking

theorem Home.isFileName_of_listed {names : List (List Char)} (h : Home S spare)
    (hnames : S.machine.namesIn p = .ok names) (hn : n ∈ names) : IsFileName n := by
  obtain ⟨l, -, rfl⟩ := namesIn_eq_ok_iff.1 hnames
  exact h.named.namesIn l n hn

theorem Stands.written (s : Stands S p ns used) : p.chars ≠ [] := by
  obtain ⟨k, e, hrests, -⟩ := s.rests
  exact hrests.spelled.written

theorem lasting_child_name (hp : p.chars ≠ []) (hn : IsFileName n) :
    (child p n).components = lasting p ++ [.name n] := by
  have hdot : n ≠ ['.'] := fun h => hn.not_idle (.inr h)
  rw [← lasting_of_ne (components_child_word_ne hp hn.no_slash hdot), lasting_child hp hn.no_slash,
    List.filterMap_cons_some hn.ofPart?]
  rfl

theorem fileName?_child (hp : p.chars ≠ []) (hn : IsFileName n) : (child p n).fileName? = some n := by
  unfold child
  split
  · have hparts : (Path.mk n).parts = [] ++ [n] := parts_mk hn.no_slash
    exact Path.fileName?_of_parts hparts hn
  · obtain ⟨pre, idle, -, -, -, hdiv⟩ := Path.parts_div hp
    have hparts : (p / ⟨n⟩).parts = pre ++ [n] := by
      rw [hdiv _ (isAbsolute_mk hn.no_slash), parts_mk hn.no_slash]
    exact Path.fileName?_of_parts hparts hn

/-- A path to a file that names lead to from a base. -/
structure Sees (S : Site) (q : Path) (ns : List (List Char)) : Prop where
  file : S.machine.kind q = some .file
  there : S.machine.kind (S.base / ofNames ns) = some .file
  components : q.components = lasting S.base ++ ns.map .name

section Fitting

/-- Names that components stand for, one behind the other. Those that mean nothing stand for none, but need a name behind
them. Two stars stand for any names in front of one that the next component stands for. -/
inductive Fits : List (List Token) → List (List Char) → Prop
  | nil : Fits [] []
  | idle {c : List Token} {rest : List (List Token)} {x : List Char} {ms : List (List Char)} (hc : literal? c = some x)
      (hx : x = [] ∨ x = ['.']) (hne : ms ≠ []) (h : Fits rest ms) : Fits (c :: rest) ms
  | name {c : List Token} {rest : List (List Token)} {n : List Char} {ms : List (List Char)} (hstars : c ≠ [.directories])
      (hn : matchesName c n = true) (h : Fits rest ms) : Fits (c :: rest) (n :: ms)
  | deeper {rest : List (List Token)} {n : List Char} {ms : List (List Char)} (h : Fits ([.directories] :: rest) ms) :
      Fits ([.directories] :: rest) (n :: ms)
  | behind {c : List Token} {rest next : List (List Token)} {n : List Char} {ms : List (List Char)}
      (hskip : rest.dropWhile (· = [.directories]) = c :: next) (hn : matchesName c n = true) (h : Fits next ms) :
      Fits ([.directories] :: rest) (n :: ms)

variable {ms : List (List Char)}

theorem Fits.eq_nil (hf : Fits components []) : components = [] := by
  cases hf with
  | nil => rfl
  | idle _ _ hne => exact absurd rfl hne

theorem Fits.ne_nil (hf : Fits components ms) (hne : ms ≠ []) : components ≠ [] := by
  rintro rfl
  cases hf
  exact hne rfl

/-- The first component but for dots is not empty. With nothing but dots before it, an empty part leads nowhere. -/
def Shown (components : List (List Token)) : Prop :=
  (components.dropWhile (· = [.char '.'])).head? ≠ some []

theorem Shown.ne_nil (h : Shown (c :: rest)) : c ≠ [] := by
  rintro rfl
  exact h rfl

theorem Shown.behind (h : Shown ([.char '.'] :: rest)) : Shown rest := by
  unfold Shown at h
  rwa [List.dropWhile_cons_of_pos rfl] at h

theorem Shown.idle (h : Shown (c :: rest)) (hc : literal? c = some x) (hx : x = [] ∨ x = ['.']) : x ≠ [] ∧ Shown rest := by
  rw [eq_map_of_literal? hc] at h
  have hne : x ≠ [] := by
    rintro rfl
    exact h.ne_nil rfl
  rw [hx.resolve_left hne] at h
  exact ⟨hne, h.behind⟩

theorem shown_child_idle (hp : p.chars ≠ []) (hslash : '/' ∉ x) (hshown : p.components = [.current] → Shown rest)
    (hhere : (child p x).components = [.current]) : Shown rest := by
  by_cases hc : p.components = [.current]
  · exact hshown hc
  · exact absurd hhere (components_child_ne hp hslash hc)

variable {S : Site} (h : Home S spare)
include h

theorem Stands.sees (s : Stands S p ns used) (hn : IsFileName n) (hused : used + 1 ≤ spare)
    (hfile : S.machine.kind (child p n) = some .file) : Sees S (child p n) (ns ++ [n]) := by
  refine ⟨hfile, (s.kind_child h hn hused).symm.trans hfile, ?_⟩
  rw [lasting_child_name s.written hn, s.lasting, List.append_assoc, List.map_append]
  rfl

theorem Stands.directory_of_file {y : List Char} (s : Stands S p ns used) (hused : used + 1 ≤ spare)
    (hms : ∀ z ∈ n :: y :: ms, IsFileName z)
    (hfile : S.machine.kind (S.base / ofNames (ns ++ n :: y :: ms)) = some .file) :
    S.machine.kind (child p n) = some .directory := by
  obtain ⟨k, e, hrests, hwalk⟩ := s.rests
  obtain ⟨l, g, hplace, -, -⟩ := kind_eq_some_iff.1 hfile
  have hn : IsFileName n := hms n List.mem_cons_self
  have hparts : ∀ z ∈ ns ++ n :: y :: ms, IsPart z := fun z hz => (List.forall_mem_append.2 ⟨s.named, hms⟩ z hz).isPart
  have habsolute : (ofNames (ns ++ n :: y :: ms)).isAbsolute = false := Path.isAbsolute_ofNames hparts
  have hs : Spelled (S.base / ofNames (ns ++ n :: y :: ms)) := spelled_of_place hplace
  have hnamed : (ofNames (ns ++ n :: y :: ms)).parts = ns ++ n :: y :: ms := Path.parts_ofNames hparts (by simp)
  have hw : Walks S.machine.tree true k e ([n] ++ y :: ms) (.found l) := by
    apply Walks.of_eq_ok
    rwa [h.place _ habsolute hs, hnamed, hwalk] at hplace
  obtain ⟨e', hone, hd⟩ := hw.before hrests.directory
  have hclean : '\x00' ∉ n := by
    have hsub : n.Sublist (ofNames (ns ++ n :: y :: ms)).chars := Path.sublist_of_mem_parts (by simp [hnamed])
    exact fun hnul => hs.nul_not_mem habsolute (hsub.subset hnul)
  have hfits := h.room (ns ++ [n]) (s.named_concat hn) e' ((hwalk [n]).trans hone.eq_ok)
  have hlength := byteLength_ofNames_concat ns n
  have hshort := s.short
  rw [weight_append, weight_cons, weight_nil] at hlength
  have hspelled : Spelled (child p n) :=
    spelled_child hrests.spelled hn.no_slash (fun _ => hn.isPart.written) hclean (by omega)
  exact kind_directory_iff.2 ⟨e', (hrests.place_child hn.no_slash hspelled).trans hone.eq_ok, hd⟩

end Fitting

section Finding

/-- Every file that is found below a path to a directory has names that the components stand for. -/
def Sound (S : Site) (spare depth : Nat) (components : List (List Token)) : Prop :=
  ∀ ⦃p : Path⦄ ⦃ns : List (List Char)⦄ ⦃used : Nat⦄ ⦃q : Path⦄, Stands S p ns used →
    used + 2 * components.length + 1 ≤ spare → (p.components = [.current] → Shown components) →
    q ∈ found S.machine depth components p → S.machine.kind q = some .file →
    ∃ ms ≠ [], Fits components ms ∧ (∀ n ∈ ms, IsFileName n) ∧ Sees S q (ns ++ ms)

/-- Every file whose names the components stand for is found. Each listing on the way to it goes behind one of the names,
so there need be no more listings than names. -/
def Complete (S : Site) (spare : Nat) (components : List (List Token)) (ms : List (List Char)) : Prop :=
  ∀ ⦃p : Path⦄ ⦃ns : List (List Char)⦄ ⦃used : Nat⦄, Stands S p ns used →
    used + 2 * components.length + 1 ≤ spare → (p.components = [.current] → Shown components) → ms ≠ [] →
    S.machine.kind (S.base / ofNames (ns ++ ms)) = some .file →
    ∀ depth ≥ ms.length, ∃ q ∈ found S.machine depth components p, Sees S q (ns ++ ms)

variable {S : Site} {ms : List (List Char)} (h : Home S spare)
include h

theorem Sound.behind (hsound : Sound S spare depth rest) (hproper : ∀ c ∈ rest, Proper c) (s : Stands S p ns used)
    (hused : used + 2 * rest.length + 1 ≤ spare) (hn : IsFileName n)
    (hq : q ∈ foundBehind S.machine depth rest (child p n)) (hfile : S.machine.kind q = some .file) :
    ∃ ms, Fits rest ms ∧ (∀ y ∈ n :: ms, IsFileName y) ∧ Sees S q (ns ++ n :: ms) := by
  by_cases hrest : rest = []
  · rw [foundBehind, if_pos hrest, List.mem_singleton] at hq
    rw [hrest]
    rw [hq] at hfile ⊢
    exact ⟨[], .nil, List.forall_mem_singleton.2 hn, s.sees h hn (by omega) hfile⟩
  · rw [foundBehind_of_ne hrest] at hq
    have hkind : S.machine.kind (child p n) = some .directory :=
      s.directory_of_found hn (fun c hc => (hproper c hc).no_slash) hq
    have hne : (child p n).components ≠ [.current] :=
      components_child_word_ne s.written hn.no_slash fun hdot => hn.not_idle (.inr hdot)
    obtain ⟨ms, -, hfits, hms, hsees⟩ := hsound (s.below hn hkind) hused (fun hc => absurd hc hne) hq hfile
    rw [List.append_assoc, List.singleton_append] at hsees
    exact ⟨ms, hfits, List.forall_mem_cons.2 ⟨hn, hms⟩, hsees⟩

theorem Sound.literal (hsound : Sound S spare depth rest) (hproper : ∀ c' ∈ c :: rest, Proper c')
    (hc : literal? c = some x) : Sound S spare depth (c :: rest) := by
  intro p ns used q s hused hshown hq hfile
  rw [List.forall_mem_cons] at hproper
  rw [List.length_cons] at hused
  obtain ⟨-, hbehind⟩ := (mem_found_literal hc).1 hq
  rcases hproper.1.literal hc with hidle | hname
  · obtain ⟨hslash, -, -⟩ := plain_of_idle hidle
    have hstands : Stands S (child p x) ns (used + 2) :=
      s.idle h hidle (fun hhere => ((hshown hhere).idle hc hidle).1) (by omega)
    have hrest : rest ≠ [] := by
      rintro rfl
      rw [foundBehind, if_pos rfl, List.mem_singleton] at hbehind
      rw [hbehind, hstands.kind] at hfile
      cases hfile
    rw [foundBehind_of_ne hrest] at hbehind
    obtain ⟨ms, hne, hfits, hms, hsees⟩ := hsound hstands (by omega)
      (shown_child_idle s.written hslash fun hhere => ((hshown hhere).idle hc hidle).2) hbehind hfile
    exact ⟨ms, hne, .idle hc hidle hne hfits, hms, hsees⟩
  · obtain ⟨ms, hfits, hms, hsees⟩ := hsound.behind h hproper.2 s (by omega) hname hbehind hfile
    have hstars : c ≠ [.directories] := by
      rintro rfl
      cases hc
    exact ⟨x :: ms, List.cons_ne_nil _ _, .name hstars ((matchesName_literal hc).2 rfl) hfits, hms, hsees⟩

theorem Sound.listing (hsound : ∀ components, (∀ c' ∈ components, Proper c') → Sound S spare depth components)
    (hproper : ∀ c' ∈ c :: rest, Proper c') (hc : literal? c = none) : Sound S spare (depth + 1) (c :: rest) := by
  intro p ns used q s hused _ hq hfile
  rw [List.length_cons] at hused
  have looked {c' : List Token} {next : List (List Token)} {n : List Char} (hn : IsFileName n)
      (hsub : next.Sublist rest) (hq : q ∈ looked S.machine depth (child p n) c' next) :
      matchesName c' n = true ∧ ∃ ms, Fits next ms ∧ (∀ y ∈ n :: ms, IsFileName y) ∧ Sees S q (ns ++ n :: ms) := by
    obtain ⟨n', hname, hmatches, hbehind⟩ := mem_looked.1 hq
    rw [fileName?_child s.written hn] at hname
    cases hname
    have hnext : ∀ c'' ∈ next, Proper c'' := fun c'' hc'' => hproper c'' (List.mem_cons_of_mem _ (hsub.subset hc''))
    have hlength := hsub.length_le
    exact ⟨hmatches, (hsound next hnext).behind h hnext s (by omega) hn hbehind hfile⟩
  obtain ⟨names, hnames, ⟨n, hmem, hsearched⟩ | ⟨hhead, n, hn, hmatches, -⟩⟩ := (mem_found_listing hc).1 hq
  · have hn : IsFileName n := h.isFileName_of_listed hnames hmem
    by_cases hall : c = [.directories]
    · subst hall
      rcases mem_searched_directories.1 hsearched with ⟨hkind, hdeeper | ⟨-, rfl⟩⟩ | ⟨c', next, hskip, hlooked⟩
      · rw [← foundBehind_of_ne (List.cons_ne_nil _ _)] at hdeeper
        obtain ⟨ms, hfits, hms, hsees⟩ := (hsound _ hproper).behind h hproper s hused hn hdeeper hfile
        exact ⟨n :: ms, List.cons_ne_nil _ _, .deeper hfits, hms, hsees⟩
      · rw [hkind] at hfile
        cases hfile
      · have hsub : (c' :: next).Sublist rest := hskip ▸ List.dropWhile_sublist _
        obtain ⟨hmatches, ms, hfits, hms, hsees⟩ := looked hn (List.sublist_of_cons_sublist hsub) hlooked
        exact ⟨n :: ms, List.cons_ne_nil _ _, .behind hskip hmatches hfits, hms, hsees⟩
    · rw [searched_component hall] at hsearched
      obtain ⟨hmatches, ms, hfits, hms, hsees⟩ := looked hn (List.Sublist.refl rest) hsearched
      exact ⟨n :: ms, List.cons_ne_nil _ _, .name hall hmatches hfits, hms, hsees⟩
  · have hno := (hproper c List.mem_cons_self).not_listed hc hhead hn
    rw [hmatches] at hno
    cases hno

theorem sound (depth : Nat) (components : List (List Token)) (hproper : ∀ c ∈ components, Proper c) :
    Sound S spare depth components := by
  have rest {c : List Token} {rest : List (List Token)} (hproper : ∀ c' ∈ c :: rest, Proper c') :
      ∀ c' ∈ rest, Proper c' := fun c' hc' => hproper c' (List.mem_cons_of_mem _ hc')
  induction depth, components using expansion_induction with
  | nil depth =>
    intro p ns used q _ _ _ hq _
    rw [found_nil] at hq
    cases hq
  | literal hc ih => exact (ih (rest hproper)).literal h hproper hc
  | exhausted hc =>
    intro p ns used q _ _ _ hq _
    rw [found_exhausted hc] at hq
    cases hq
  | listing hc ih => exact Sound.listing h ih hproper hc

theorem Complete.behind (hcomplete : Complete S spare rest ms) (hf : Fits rest ms) (s : Stands S p ns used)
    (hused : used + 2 * rest.length + 1 ≤ spare) (hms : ∀ y ∈ n :: ms, IsFileName y)
    (hfile : S.machine.kind (S.base / ofNames (ns ++ n :: ms)) = some .file) :
    (S.machine.kind (child p n)).isSome = true ∧
      ∀ depth ≥ ms.length, ∃ q ∈ foundBehind S.machine depth rest (child p n), Sees S q (ns ++ n :: ms) := by
  have hn : IsFileName n := hms n List.mem_cons_self
  cases ms with
  | nil =>
    have hkind : S.machine.kind (child p n) = some .file := (s.kind_child h hn (by omega)).trans hfile
    refine ⟨by rw [hkind]; rfl, fun depth _ => ⟨child p n, ?_, s.sees h hn (by omega) hkind⟩⟩
    rw [foundBehind, if_pos hf.eq_nil]
    exact List.mem_singleton_self _
  | cons y ms =>
    have hkind : S.machine.kind (child p n) = some .directory := s.directory_of_file h (by omega) hms hfile
    have hne : (child p n).components ≠ [.current] :=
      components_child_word_ne s.written hn.no_slash fun hdot => hn.not_idle (.inr hdot)
    refine ⟨by rw [hkind]; rfl, fun depth hdepth => ?_⟩
    rw [List.append_cons] at hfile ⊢
    rw [foundBehind_of_ne (hf.ne_nil (List.cons_ne_nil _ _))]
    exact hcomplete (s.below hn hkind) hused (fun hc => absurd hc hne) (List.cons_ne_nil _ _) hfile depth hdepth

theorem Fits.complete (hf : Fits components ms) (hproper : ∀ c ∈ components, Proper c) (hms : ∀ n ∈ ms, IsFileName n) :
    Complete S spare components ms := by
  induction hf with
  | nil =>
    intro p ns used _ _ _ hne
    exact absurd rfl hne
  | @idle c rest x ms hc hx _ hf ih =>
    intro p ns used s hused hshown hne hfile depth hdepth
    rw [List.forall_mem_cons] at hproper
    rw [List.length_cons] at hused
    obtain ⟨hslash, -, -⟩ := plain_of_idle hx
    have hstands : Stands S (child p x) ns (used + 2) :=
      s.idle h hx (fun hhere => ((hshown hhere).idle hc hx).1) (by omega)
    obtain ⟨q, hq, hsees⟩ := ih hproper.2 hms hstands (by omega)
      (shown_child_idle s.written hslash fun hhere => ((hshown hhere).idle hc hx).2) hne hfile depth hdepth
    refine ⟨q, (mem_found_literal hc).2 ⟨?_, ?_⟩, hsees⟩
    · split
      · exact s.kind
      · rw [hstands.kind]
        rfl
    · rwa [foundBehind_of_ne (hf.ne_nil hne)]
  | @name c rest n ms hstars hmatches hf ih =>
    intro p ns used s hused _ _ hfile depth hdepth
    rw [List.forall_mem_cons] at hproper
    rw [List.length_cons] at hused hdepth
    have hrest := ih hproper.2 fun y hy => hms y (List.mem_cons_of_mem _ hy)
    obtain ⟨hthere, hbehind⟩ := hrest.behind h hf s (by omega) hms hfile
    cases hc : literal? c with
    | some x =>
      obtain rfl : n = x := (matchesName_literal hc).1 hmatches
      obtain ⟨q, hq, hsees⟩ := hbehind depth (by omega)
      refine ⟨q, (mem_found_literal hc).2 ⟨?_, hq⟩, hsees⟩
      split
      · exact s.kind
      · exact hthere
    | none =>
      obtain ⟨e, rfl⟩ : ∃ e, depth = e + 1 := Nat.exists_eq_succ_of_ne_zero (by omega)
      have hn : IsFileName n := hms n List.mem_cons_self
      obtain ⟨names, hnames, hmem⟩ := s.mem_namesIn hn hthere
      obtain ⟨q, hq, hsees⟩ := hbehind e (by omega)
      refine ⟨q, (mem_found_listing hc).2 ⟨names, hnames, .inl ⟨n, hmem, ?_⟩⟩, hsees⟩
      rw [searched_component hstars]
      exact mem_looked.2 ⟨n, fileName?_child s.written hn, hmatches, hq⟩
  | @deeper rest n ms hf ih =>
    intro p ns used s hused _ _ hfile depth hdepth
    rw [List.length_cons] at hdepth
    have hn : IsFileName n := hms n List.mem_cons_self
    have hrest := ih hproper fun y hy => hms y (List.mem_cons_of_mem _ hy)
    obtain ⟨hthere, hbehind⟩ := hrest.behind h hf s hused hms hfile
    obtain ⟨e, rfl⟩ : ∃ e, depth = e + 1 := Nat.exists_eq_succ_of_ne_zero (by omega)
    obtain ⟨names, hnames, hmem⟩ := s.mem_namesIn hn hthere
    obtain ⟨q, hq, hsees⟩ := hbehind e (by omega)
    rw [foundBehind_of_ne (List.cons_ne_nil _ _)] at hq
    have hkind : S.machine.kind (child p n) = some .directory := by
      cases ms with
      | nil => exact absurd hf.eq_nil (List.cons_ne_nil _ _)
      | cons y ms => exact s.directory_of_file h (by omega) hms hfile
    exact ⟨q, (mem_found_listing rfl).2
      ⟨names, hnames, .inl ⟨n, hmem, mem_searched_directories.2 (.inl ⟨hkind, .inl hq⟩)⟩⟩, hsees⟩
  | @behind c rest next n ms hskip hmatches hf ih =>
    intro p ns used s hused _ _ hfile depth hdepth
    rw [List.length_cons] at hused hdepth
    have hn : IsFileName n := hms n List.mem_cons_self
    have hsub : next.Sublist rest := List.sublist_of_cons_sublist (hskip ▸ List.dropWhile_sublist _)
    have hlength := hsub.length_le
    have hrest := ih (fun c' hc' => hproper c' (List.mem_cons_of_mem _ (hsub.subset hc')))
      fun y hy => hms y (List.mem_cons_of_mem _ hy)
    obtain ⟨hthere, hbehind⟩ := hrest.behind h hf s (by omega) hms hfile
    obtain ⟨e, rfl⟩ : ∃ e, depth = e + 1 := Nat.exists_eq_succ_of_ne_zero (by omega)
    obtain ⟨names, hnames, hmem⟩ := s.mem_namesIn hn hthere
    obtain ⟨q, hq, hsees⟩ := hbehind e (by omega)
    have hlooked := mem_looked.2 ⟨n, fileName?_child s.written hn, hmatches, hq⟩
    exact ⟨q, (mem_found_listing rfl).2
      ⟨names, hnames, .inl ⟨n, hmem, mem_searched_directories.2 (.inr ⟨c, next, hskip, hlooked⟩)⟩⟩, hsees⟩

end Finding

end CBuild.Glob
