import CBuild.Proofs.Glob.Relocating

/-! What a pattern leads to. Its components are followed one by one: a literal one is looked up, any other stands for a
name that is listed, and two stars for directories, one in the other. No listing that leads to a file is left out. -/

namespace CBuild

open FileTree Machine
open CBuild.Path (ofNames IsPart IsFileName)

def Machine.Lists (m : Machine) (p : Path) (n : List Char) : Prop :=
  ∃ names, m.namesIn p = .ok names ∧ n ∈ names

theorem Machine.Lists.isFileName {m : Machine} {p : Path} {n : List Char} (hnames : m.tree.WellNamed)
    (h : m.Lists p n) : IsFileName n := by
  obtain ⟨names, hlist, hn⟩ := h
  obtain ⟨l, -, rfl⟩ := Glob.namesIn_eq_ok_iff.1 hlist
  exact hnames.namesIn l n hn

namespace Glob

/-- Components lead from a path to another. -/
inductive Trail (m : Machine) : List (List Token) → Path → Path → Prop
  | here (p : Path) : Trail m [] p p
  | literal {c : List Token} {rest : List (List Token)} {x : List Char} {p q : Path} (hc : literal? c = some x)
      (hthere : if x = ['.'] ∨ x = ['.', '.'] then m.kind p = some .directory else (m.kind (child p x)).isSome = true)
      (ht : Trail m rest (child p x) q) : Trail m (c :: rest) p q
  | listed {c : List Token} {rest : List (List Token)} {n : List Char} {p q : Path} (hc : literal? c = none)
      (hstars : c ≠ [.directories]) (hn : m.Lists p n) (hfits : matchesName c n = true)
      (ht : Trail m rest (child p n) q) : Trail m (c :: rest) p q
  /-- The dots are not listed. A component that begins with one may stand for them. -/
  | dots {c : List Token} {rest : List (List Token)} {n : List Char} {p q : Path} (hc : literal? c = none)
      (hhead : c.head? = some (.char '.')) (hd : ∃ names, m.namesIn p = .ok names) (hn : n = ['.'] ∨ n = ['.', '.'])
      (hfits : matchesName c n = true) (ht : Trail m rest (p / ⟨n⟩) q) : Trail m (c :: rest) p q
  | deeper {rest : List (List Token)} {n : List Char} {p q : Path} (hn : m.Lists p n)
      (hd : m.kind (child p n) = some .directory) (ht : Trail m ([.directories] :: rest) (child p n) q) :
      Trail m ([.directories] :: rest) p q
  | behind {c : List Token} {rest next : List (List Token)} {n : List Char} {p q : Path}
      (hskip : rest.dropWhile (· = [.directories]) = c :: next) (hn : m.Lists p n) (hfits : matchesName c n = true)
      (ht : Trail m next (child p n) q) : Trail m ([.directories] :: rest) p q

/-- A path, as seen from a base, is that of a file that a pattern leads to. -/
def Finds (m : Machine) (base : Path) (pat : Pattern) (p : Path) : Prop :=
  ∃ q, Trail m pat.components (start pat.absolute) q ∧ m.kind q = some .file ∧ p = q.relativeTo base

variable {m : Machine} {base p q : Path} {pat : Pattern} {c : List Token} {rest components : List (List Token)}
  {x n : List Char} {depth : Nat}

section Counting

theorem exists_components (p : Path) : ∃ mark, (mark = [] ∨ mark = [.root] ∨ mark = [.current]) ∧
    p.components = mark ++ p.parts.filterMap Component.ofPart? := by
  unfold Path.components
  dsimp only
  split
  · exact ⟨[.root], .inr (.inl rfl), rfl⟩
  · split
    · exact ⟨[.current], .inr (.inr rfl), rfl⟩
    · exact ⟨[], .inl rfl, rfl⟩

theorem descents_parts (p : Path) : descents p.parts = p.components.countP Component.isName := by
  obtain ⟨mark, rfl | rfl | rfl, hcomponents⟩ := exists_components p
  all_goals
    rw [hcomponents]
    rfl

theorem ascents_parts (p : Path) : ascents p.parts = p.components.count .parent := by
  obtain ⟨mark, rfl | rfl | rfl, hcomponents⟩ := exists_components p
  all_goals
    rw [hcomponents]
    rfl

theorem descents_div (hp : p.chars ≠ []) (hx : '/' ∉ x) :
    descents (p / ⟨x⟩).parts = descents p.parts + descents [x] := by
  rw [descents_parts, descents_parts, Path.components_div hp (isAbsolute_mk hx), List.countP_append, parts_mk hx, descents]

theorem ascents_div (hp : p.chars ≠ []) (hx : '/' ∉ x) :
    ascents (p / ⟨x⟩).parts = ascents p.parts + ascents [x] := by
  rw [ascents_parts, ascents_parts, Path.components_div hp (isAbsolute_mk hx), List.count_append, parts_mk hx, ascents]

theorem descents_child (hp : p.chars ≠ []) (hx : '/' ∉ x) :
    descents (child p x).parts = descents p.parts + descents [x] := by
  unfold child
  split
  next hhere =>
    rw [descents_parts p, hhere, parts_mk hx]
    exact (Nat.zero_add _).symm
  next => exact descents_div hp hx

theorem ascents_child (hp : p.chars ≠ []) (hx : '/' ∉ x) :
    ascents (child p x).parts = ascents p.parts + ascents [x] := by
  unfold child
  split
  next hhere =>
    rw [ascents_parts p, hhere, parts_mk hx]
    exact (Nat.zero_add _).symm
  next => exact ascents_div hp hx

theorem ascents_part_le (x : List Char) : ascents [x] ≤ 1 :=
  List.count_le_length.trans (List.length_filterMap_le _ _)

theorem descents_fileName (hn : IsFileName n) : descents [n] = 1 := by
  rw [descents, List.filterMap_cons_some hn.ofPart?]
  rfl

theorem ascents_fileName (hn : IsFileName n) : ascents [n] = 0 := by
  rw [ascents, List.filterMap_cons_some hn.ofPart?]
  rfl

end Counting

section Following

theorem chars_child_of_there (hp : p.chars ≠ []) (hx : '/' ∉ x)
    (hthere : if x = ['.'] ∨ x = ['.', '.'] then m.kind p = some .directory else (m.kind (child p x)).isSome = true) :
    (child p x).chars ≠ [] := by
  by_cases hdots : x = ['.'] ∨ x = ['.', '.']
  · apply chars_child_ne_nil hp hx
    rintro -
    rcases hdots with rfl | rfl
    · exact List.cons_ne_nil _ _
    · exact List.cons_ne_nil _ _
  · rw [if_neg hdots, Option.isSome_iff_exists] at hthere
    obtain ⟨k, hk⟩ := hthere
    obtain ⟨l, e, hplace, -, -⟩ := kind_eq_some_iff.1 hk
    exact (spelled_of_place hplace).written

theorem chars_child_fileName (hp : p.chars ≠ []) (hn : IsFileName n) : (child p n).chars ≠ [] :=
  chars_child_ne_nil hp hn.no_slash fun _ => hn.isPart.written

def Unslashed (components : List (List Token)) : Prop :=
  ∀ c ∈ components, ∀ x, literal? c = some x → '/' ∉ x

theorem Unslashed.tail (h : Unslashed (c :: rest)) : Unslashed rest :=
  fun c' hc' => h c' (List.mem_cons_of_mem _ hc')

theorem Unslashed.skip {next : List (List Token)} (h : Unslashed rest)
    (hskip : rest.dropWhile (· = [.directories]) = c :: next) : Unslashed next := by
  intro c' hc'
  have hsub : (c :: next).Sublist rest := hskip ▸ List.dropWhile_sublist _
  exact h c' (hsub.subset (List.mem_cons_of_mem _ hc'))

theorem Trail.of_found (hnames : m.tree.WellNamed) (hslash : Unslashed components) (hp : p.chars ≠ [])
    (hq : q ∈ found m depth components p) (hfile : m.kind q = some .file) : Trail m components p q := by
  have behind {depth : Nat} {rest : List (List Token)} {r : Path}
      (ih : q ∈ found m depth rest r → Trail m rest r q) (hq : q ∈ foundBehind m depth rest r) : Trail m rest r q := by
    unfold foundBehind at hq
    split at hq
    next hrest =>
      rw [hrest, List.mem_singleton.1 hq]
      exact .here r
    next => exact ih hq
  induction depth, components using expansion_induction generalizing p with
  | nil depth =>
    rw [found_nil] at hq
    cases hq
  | @literal depth c rest x hc ih =>
    obtain ⟨hthere, hrest⟩ := (mem_found_literal hc).1 hq
    have hwritten := chars_child_of_there hp (hslash c List.mem_cons_self x hc) hthere
    exact .literal hc hthere (behind (ih hslash.tail hwritten) hrest)
  | exhausted hc =>
    rw [found_exhausted hc] at hq
    cases hq
  | @listing depth c rest hc ih =>
    obtain ⟨names, hlist, ⟨n, hmem, hsearched⟩ | ⟨hhead, n, hn, hfits, hrest⟩⟩ := (mem_found_listing hc).1 hq
    · have hlists : m.Lists p n := ⟨names, hlist, hmem⟩
      have hname : IsFileName n := hlists.isFileName hnames
      have hwritten : (child p n).chars ≠ [] := chars_child_fileName hp hname
      have fits {c' : List Token} {next : List (List Token)} (hq : q ∈ looked m depth (child p n) c' next) :
          matchesName c' n = true ∧ q ∈ foundBehind m depth next (child p n) := by
        obtain ⟨n', hn', hfits, hnext⟩ := mem_looked.1 hq
        rw [fileName?_child hp hname] at hn'
        cases hn'
        exact ⟨hfits, hnext⟩
      by_cases hstars : c = [.directories]
      · subst hstars
        rcases mem_searched_directories.1 hsearched with ⟨hd, hdeeper | ⟨-, rfl⟩⟩ | ⟨c', next, hskip, hlooked⟩
        · exact .deeper hlists hd (ih _ hslash hwritten hdeeper)
        · rw [hd] at hfile
          cases hfile
        · obtain ⟨hfits, hnext⟩ := fits hlooked
          exact .behind hskip hlists hfits (behind (ih _ (hslash.tail.skip hskip) hwritten) hnext)
      · rw [searched_component hstars] at hsearched
        obtain ⟨hfits, hnext⟩ := fits hsearched
        exact .listed hc hstars hlists hfits (behind (ih _ hslash.tail hwritten) hnext)
    · have hone : '/' ∉ n ∧ n ≠ [] := by
        rcases hn with rfl | rfl
        · decide
        · decide
      have hwritten : (p / ⟨n⟩).chars ≠ [] := Path.chars_div_ne_nil hp (isAbsolute_mk hone.1)
      exact .dots hc hhead ⟨names, hlist⟩ hn hfits (behind (ih _ hslash.tail hwritten) hrest)

/-- What is led to is found with enough listings. Each goes down by a name, or is for a component that may lead up. -/
theorem Trail.exists_depth (h : Trail m components p q) (hnames : m.tree.WellNamed) (hslash : Unslashed components)
    (hp : p.chars ≠ []) :
    ∃ least, least + descents p.parts + ascents q.parts ≤
        descents q.parts + ascents p.parts + 2 * components.length ∧
      ∀ depth ≥ least, q ∈ foundBehind m depth components p := by
  induction h with
  | here p =>
    refine ⟨0, by omega, fun depth _ => ?_⟩
    rw [foundBehind, if_pos rfl]
    exact List.mem_singleton_self p
  | @literal c rest x p q hc hthere _ ih =>
    have hx : '/' ∉ x := hslash c List.mem_cons_self x hc
    obtain ⟨least, hleast, hfound⟩ := ih hslash.tail (chars_child_of_there hp hx hthere)
    have hup : ascents [x] ≤ 1 := ascents_part_le x
    rw [descents_child hp hx, ascents_child hp hx] at hleast
    rw [List.length_cons]
    refine ⟨least, by omega, fun depth hdepth => ?_⟩
    rw [foundBehind_of_ne (List.cons_ne_nil _ _)]
    exact (mem_found_literal hc).2 ⟨hthere, hfound depth hdepth⟩
  | @listed c rest n p q hc hstars hn hfits _ ih =>
    have hname : IsFileName n := hn.isFileName hnames
    obtain ⟨least, hleast, hfound⟩ := ih hslash.tail (chars_child_fileName hp hname)
    rw [descents_child hp hname.no_slash, ascents_child hp hname.no_slash, descents_fileName hname,
      ascents_fileName hname] at hleast
    rw [List.length_cons]
    refine ⟨least + 1, by omega, fun depth hdepth => ?_⟩
    obtain ⟨depth, rfl⟩ := Nat.exists_eq_succ_of_ne_zero (Nat.ne_zero_of_lt hdepth)
    obtain ⟨names, hlist, hmem⟩ := hn
    rw [foundBehind_of_ne (List.cons_ne_nil _ _)]
    refine (mem_found_listing hc).2 ⟨names, hlist, .inl ⟨n, hmem, ?_⟩⟩
    rw [searched_component hstars]
    exact mem_looked.2 ⟨n, fileName?_child hp hname, hfits, hfound depth (Nat.le_of_succ_le_succ hdepth)⟩
  | @dots c rest n p q hc hhead hd hn hfits _ ih =>
    obtain ⟨names, hlist⟩ := hd
    have hone : '/' ∉ n ∧ descents [n] = 0 := by
      rcases hn with rfl | rfl
      · decide
      · decide
    obtain ⟨least, hleast, hfound⟩ := ih hslash.tail (Path.chars_div_ne_nil hp (isAbsolute_mk hone.1))
    have hup : ascents [n] ≤ 1 := ascents_part_le n
    rw [descents_div hp hone.1, ascents_div hp hone.1, hone.2] at hleast
    rw [List.length_cons]
    refine ⟨least + 1, by omega, fun depth hdepth => ?_⟩
    obtain ⟨depth, rfl⟩ := Nat.exists_eq_succ_of_ne_zero (Nat.ne_zero_of_lt hdepth)
    rw [foundBehind_of_ne (List.cons_ne_nil _ _)]
    exact (mem_found_listing hc).2
      ⟨names, hlist, .inr ⟨hhead, n, hn, hfits, hfound depth (Nat.le_of_succ_le_succ hdepth)⟩⟩
  | @deeper rest n p q hn hd _ ih =>
    have hname : IsFileName n := hn.isFileName hnames
    obtain ⟨least, hleast, hfound⟩ := ih hslash (chars_child_fileName hp hname)
    rw [descents_child hp hname.no_slash, ascents_child hp hname.no_slash, descents_fileName hname,
      ascents_fileName hname] at hleast
    refine ⟨least + 1, by omega, fun depth hdepth => ?_⟩
    obtain ⟨depth, rfl⟩ := Nat.exists_eq_succ_of_ne_zero (Nat.ne_zero_of_lt hdepth)
    obtain ⟨names, hlist, hmem⟩ := hn
    have hdeeper := hfound depth (Nat.le_of_succ_le_succ hdepth)
    rw [foundBehind_of_ne (List.cons_ne_nil _ _)] at hdeeper ⊢
    exact (mem_found_listing rfl).2
      ⟨names, hlist, .inl ⟨n, hmem, mem_searched_directories.2 (.inl ⟨hd, .inl hdeeper⟩)⟩⟩
  | @behind c rest next n p q hskip hn hfits _ ih =>
    have hname : IsFileName n := hn.isFileName hnames
    obtain ⟨least, hleast, hfound⟩ := ih (hslash.tail.skip hskip) (chars_child_fileName hp hname)
    have hsub : (c :: next).Sublist rest := hskip ▸ List.dropWhile_sublist _
    have hlength := hsub.length_le
    rw [descents_child hp hname.no_slash, ascents_child hp hname.no_slash, descents_fileName hname,
      ascents_fileName hname] at hleast
    rw [List.length_cons] at hlength ⊢
    refine ⟨least + 1, by omega, fun depth hdepth => ?_⟩
    obtain ⟨depth, rfl⟩ := Nat.exists_eq_succ_of_ne_zero (Nat.ne_zero_of_lt hdepth)
    obtain ⟨names, hlist, hmem⟩ := hn
    rw [foundBehind_of_ne (List.cons_ne_nil _ _)]
    refine (mem_found_listing rfl).2 ⟨names, hlist, .inl ⟨n, hmem, mem_searched_directories.2 (.inr ⟨c, next, hskip, ?_⟩)⟩⟩
    exact mem_looked.2 ⟨n, fileName?_child hp hname, hfits, hfound depth (Nat.le_of_succ_le_succ hdepth)⟩

/-- A path that leads to a file goes down no more often than the machine is deep, but for what it has gone up. -/
theorem descents_le_of_kind {k : FileKind} (h : m.kind q = some k) : descents q.parts ≤ m.deepest + ascents q.parts := by
  obtain ⟨l, e, hplace, -, -⟩ := kind_eq_some_iff.1 h
  have hwalk : Walks m.tree true linkLimit (startOf m.here q) ([] ++ q.parts) (.found l) := walks_of_place hplace
  obtain ⟨hle, -⟩ := hwalk.descents_le
  unfold Machine.deepest
  rw [Nat.succ_mul]
  omega

theorem mem_seen_iff (hnames : m.tree.WellNamed) {pattern : List Char} (hpat : Pattern.parse pattern = .ok pat) :
    p ∈ seen m base pat ↔ Finds m base pat p := by
  have hslash : Unslashed pat.components := fun c hc x hx => slash_not_mem_literal hpat hc hx
  have hstart : (start pat.absolute).chars ≠ [] := by
    unfold start
    split
    · exact List.cons_ne_nil _ _
    · exact List.cons_ne_nil _ _
  have hsteps : descents (start pat.absolute).parts = 0 ∧ ascents (start pat.absolute).parts = 0 := by
    cases pat.absolute with
    | true => exact ⟨rfl, rfl⟩
    | false => exact ⟨rfl, rfl⟩
  unfold seen Finds
  rw [List.mem_map]
  constructor
  · rintro ⟨q, hq, rfl⟩
    rw [List.mem_filter, decide_eq_true_iff] at hq
    exact ⟨q, .of_found hnames hslash hstart hq.1 hq.2, hq.2, rfl⟩
  · rintro ⟨q, htrail, hfile, rfl⟩
    obtain ⟨least, hleast, hfound⟩ := htrail.exists_depth hnames hslash hstart
    have hdeep := descents_le_of_kind hfile
    refine ⟨q, List.mem_filter.2 ⟨?_, decide_eq_true hfile⟩, rfl⟩
    rw [← foundBehind_of_ne (components_ne_nil hpat)]
    exact hfound _ (by omega)

end Following

end Glob
end CBuild
