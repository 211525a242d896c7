import CBuild.Proofs.Glob.Copying
import CBuild.Proofs.Glob.Listing
import CBuild.Proofs.Machine.Acting

/-! What a pattern matches does not depend on where the files are. The list that comes out is told by its set, and what
is in it below one base is in it below any other that holds the same. -/

namespace CBuild

open FileTree Machine
open CBuild.Path (ofNames IsPart IsFileName)

namespace Glob

variable {m m' : Machine} {base base' p q r : Path} {d d' : Location} {pattern : List Char} {pat : Pattern}
  {ns : List (List Char)} {l : List Path} {S T : Site} {spare : Nat}

section Answers

def seen (m : Machine) (base : Path) (pat : Pattern) : List Path :=
  ((found m (m.deepest + 2 * pat.components.length) pat.components (start pat.absolute)).filter
    fun p => m.kind p = some .file).map (Path.relativeTo · base)

theorem run_filterM_isFile (l : List Path) (m : Machine) :
    (l.filterM fun p => (Host.isFile p : StateM Machine Bool)).run m =
      (l.filter fun p => m.kind p = some .file, m) := by
  have haux (kept : List Path) : (l.filterAuxM (fun p => (Host.isFile p : StateM Machine Bool)) kept).run m =
      ((l.filter fun p => m.kind p = some .file).reverse ++ kept, m) := by
    induction l generalizing kept with
    | nil => rfl
    | cons p l ih =>
      have hask : (Host.isFile p : StateM Machine Bool).run m = (decide (m.kind p = some .file), m) := rfl
      rw [List.filterAuxM, Machine.run_bind hask, ih]
      by_cases hfile : m.kind p = some .file
      · rw [List.filter_cons_of_pos (by simpa using hfile), List.reverse_cons, List.append_assoc, decide_eq_true hfile]
        rfl
      · rw [List.filter_cons_of_neg (by simpa using hfile), decide_eq_false hfile]
        rfl
  unfold List.filterM
  rw [Machine.run_bind (haux []), List.append_nil, List.reverse_reverse]
  rfl

theorem files_on (h : Pattern.parse (base / ⟨pattern⟩).chars = .ok pat) : (files base pattern).on m =
    (.ok (files.dedup ((if pat.wantsDirectory then [] else seen m base pat).mergeSort Path.le)), m) := by
  have hfound : Action.on (liftM (expandFrom (m.deepest + 2 * pat.components.length) pat.components (start pat.absolute)
      : StateM Machine (List Path))) m =
        (.ok (found m (m.deepest + 2 * pat.components.length) pat.components (start pat.absolute)), m) := by
    rw [Action.on_lift, steady_expandFrom]
    rfl
  have hkept : ∀ l : List Path, Action.on (liftM (l.filterM fun p => (Host.isFile p : StateM Machine Bool))) m =
      (.ok (l.filter fun p => m.kind p = some .file), m) := by
    intro l
    rw [Action.on_lift, run_filterM_isFile]
  unfold files
  rw [h]
  dsimp only
  refine (Action.on_bind_ok (x := m.deepest) (n := m) rfl).trans ?_
  refine (Action.on_bind_ok hfound).trans ?_
  refine (Action.on_bind_ok (hkept _)).trans ?_
  rfl

theorem files_on_directory (h : Pattern.parse (base / ⟨pattern⟩).chars = .ok pat) (hwants : pat.wantsDirectory = true) :
    (files base pattern).on m = (.ok [], m) := by
  have hnil : files.dedup [] = [] := by
    unfold files.dedup
    rfl
  rw [files_on h, if_pos hwants, List.mergeSort_nil, hnil]

theorem files_on_seen (h : Pattern.parse (base / ⟨pattern⟩).chars = .ok pat) (hwants : pat.wantsDirectory = false) :
    (files base pattern).on m = (.ok (files.dedup ((seen m base pat).mergeSort Path.le)), m) := by
  rw [files_on h, hwants, if_neg Bool.false_ne_true]

end Answers

section Relocating

theorem Sees.relativeTo (h : Sees S q ns) (hns : ∀ n ∈ ns, IsFileName n) (hne : ns ≠ []) :
    q.relativeTo S.base = ofNames ns := by
  have hroot : Component.root ∉ ns.map .name := by simp
  have hofNames : Path.ofComponents (ns.map .name) = ofNames ns := by
    have htext : (ns.map Component.name).map Component.text = ns := by
      rw [List.map_map]
      exact List.map_id ns
    rw [Path.ofComponents_eq, htext]
    intro c hc
    obtain ⟨n, hn, rfl⟩ := List.mem_map.1 hc
    exact (hns n hn).isPart
  have habsolute : q.isAbsolute = S.base.isAbsolute := by
    rw [Bool.eq_iff_iff, ← Path.root_mem_components, ← Path.root_mem_components, h.components, List.mem_append]
    unfold lasting
    split
    next hhere => simp [hhere, hroot]
    next => simp [hroot]
  have hsteps : Path.steps false q.components S.base.components = some (ns.map .name) := by
    rw [h.components]
    unfold lasting
    split
    next hhere =>
      obtain ⟨n, ns, rfl⟩ := List.exists_cons_of_ne_nil hne
      have hrest : Path.steps true (ns.map .name) [] = some (ns.map .name) := by
        cases ns with
        | nil => rfl
        | cons n ns => rfl
      rw [hhere, List.nil_append, List.map_cons]
      unfold Path.steps
      simp [hrest]
    next => exact Path.steps_append _ _
  unfold Path.relativeTo
  rw [if_pos habsolute, hsteps]
  exact hofNames

theorem Home.length_le (h : Home S spare) (hk : S.links ≤ linkLimit) (hns : ∀ n ∈ ns, IsFileName n) (hne : ns ≠ [])
    (hfile : S.machine.kind (S.base / ofNames ns) = some .file) : ns.length ≤ S.machine.deepest := by
  obtain ⟨l, e, hplace, -, -⟩ := kind_eq_some_iff.1 hfile
  have hparts : ∀ n ∈ ns, IsPart n := fun n hn => (hns n hn).isPart
  have hw : Walks S.machine.tree true S.links S.location ns (.found l) := by
    apply Walks.of_eq_ok
    have hwalk := (h.place (ofNames ns) (Path.isAbsolute_ofNames hparts) (spelled_of_place hplace)).symm.trans hplace
    rwa [Path.parts_ofNames hparts hne] at hwalk
  have hlength := hw.length_le hns
  have hmore : S.links * (S.machine.tree.height + 1) ≤ linkLimit * (S.machine.tree.height + 1) :=
    Nat.mul_le_mul_right _ hk
  unfold Machine.deepest
  rw [Nat.succ_mul]
  omega

/-- What is seen from a base are the files below it whose names the pattern stands for. -/
theorem Suits.mem_seen_iff {front : List Char} (h : Suits m base pat d) (hfront : Front base front)
    (hproper : ∀ c ∈ pat.components, Proper c) (hsome : pat.components ≠ []) :
    r ∈ seen m base (pat.behind front) ↔ ∃ ns, r = ofNames ns ∧ (∀ n ∈ ns, IsFileName n) ∧ Fits pat.components ns ∧
      m.kind (base / r) = some .file := by
  obtain ⟨k, hk, p, hhome, hstands, hdot, hfound⟩ := h.exists_stands hfront
  have hmem (q : Path) : q ∈ found m (m.deepest + 2 * (pat.behind front).components.length) (pat.behind front).components
      (start (pat.behind front).absolute) ↔
      q ∈ found m (m.deepest + 2 * (pat.behind front).components.length) pat.components p := by
    rw [Pattern.behind, ← hfront.isAbsolute]
    exact hfound _ _ hsome q
  unfold seen
  rw [List.mem_map]
  constructor
  · rintro ⟨q, hq, rfl⟩
    rw [List.mem_filter, decide_eq_true_iff, hmem] at hq
    obtain ⟨ns, hne, hfits, hns, hsees⟩ := sound hhome _ _ hproper hstands (by omega) hdot hq.1 hq.2
    have hspelled : q.relativeTo base = ofNames ns := hsees.relativeTo hns hne
    exact ⟨ns, hspelled, hns, hfits, hspelled ▸ hsees.there⟩
  · rintro ⟨ns, rfl, hns, hfits, hfile⟩
    have hne : ns ≠ [] := by
      rintro rfl
      exact hsome hfits.eq_nil
    have hlength : ns.length ≤ m.deepest := hhome.length_le hk hns hne hfile
    obtain ⟨q, hq, hsees⟩ := hfits.complete hhome hproper hns hstands (by omega) hdot hne hfile
      (m.deepest + 2 * (pat.behind front).components.length) (by omega)
    exact ⟨q, List.mem_filter.2 ⟨(hmem q).2 hq, decide_eq_true hsees.file⟩, hsees.relativeTo hns hne⟩

theorem parse_div {front : List Char} (h : Suits m base pat d) (hfront : Front base front)
    (hpat : Pattern.parse pattern = .ok pat) (hrelative : pattern.head? ≠ some '/') (hne : pattern ≠ []) :
    Pattern.parse (base / ⟨pattern⟩).chars = .ok (pat.behind front) := by
  have hplain : isPattern front = false := isPattern_of_sublist h.plain hfront.sublist
  rw [hfront.div ⟨pattern⟩ (decide_eq_false hrelative)]
  exact parse_behind hplain hpat hrelative hne

theorem files_on_nil {front : List Char} (h : Suits m base pat d) (hfront : Front base front) :
    (files base []).on m = (.ok [], m) := by
  have hplain : isPattern (front ++ ['/']) = false := by
    have hfrontplain : isPattern front = false := isPattern_of_sublist h.plain hfront.sublist
    rw [isPattern_eq_false_iff] at hfrontplain ⊢
    intro c hc
    rcases List.mem_append.1 hc with hc | hc
    · exact hfrontplain c hc
    · rw [List.mem_singleton.1 hc]
      decide
  obtain ⟨components, hparse⟩ := parse_literal hplain
  have hdiv : (base / ⟨[]⟩).chars = front ++ ['/'] := hfront.div ⟨[]⟩ rfl
  rw [← hdiv] at hparse
  apply files_on_directory hparse
  rw [hdiv, List.getLast?_concat]
  rfl

/-- Where a base leads, and how it is spelled, makes no difference to what a pattern gives behind it: from two bases
that hold the same it gives the same list of files. -/
theorem files_eq_of_copies (hpat : Pattern.parse pattern = .ok pat) (hrelative : pattern.head? ≠ some '/')
    (hup : ∀ c ∈ pat.components, c.head? = some (.char '.') → matchesName c ['.', '.'] = false)
    (h : Suits m base pat d) (h' : Suits m' base' pat d') (hsame : ∀ ns : List (List Char), (∀ n ∈ ns, IsFileName n) →
      m.kind (base / ofNames ns) = m'.kind (base' / ofNames ns)) :
    ∃ rs, (files base pattern).on m = (.ok rs, m) ∧ (files base' pattern).on m' = (.ok rs, m') ∧
      ∀ r ∈ rs, m.kind (base / r) = some .file ∧ m'.kind (base' / r) = some .file := by
  obtain ⟨front, hfront⟩ := exists_front h.spelled.written
  obtain ⟨front', hfront'⟩ := exists_front h'.spelled.written
  have hproper : ∀ c ∈ pat.components, Proper c := fun c hc =>
    ⟨fun x hx => slash_not_mem_literal hpat hc hx, hup c hc⟩
  have hsome : pat.components ≠ [] := components_ne_nil hpat
  by_cases hne : pattern = []
  · subst hne
    exact ⟨[], files_on_nil h hfront, files_on_nil h' hfront', List.forall_mem_nil _⟩
  · have hparse : Pattern.parse (base / ⟨pattern⟩).chars = .ok (pat.behind front) :=
      parse_div h hfront hpat hrelative hne
    have hparse' : Pattern.parse (base' / ⟨pattern⟩).chars = .ok (pat.behind front') :=
      parse_div h' hfront' hpat hrelative hne
    cases hwants : pat.wantsDirectory with
    | true => exact ⟨[], files_on_directory hparse hwants, files_on_directory hparse' hwants, List.forall_mem_nil _⟩
    | false =>
      have hleft {r : Path} := h.mem_seen_iff (r := r) hfront hproper hsome
      have hright {r : Path} := h'.mem_seen_iff (r := r) hfront' hproper hsome
      have hmem (r : Path) : r ∈ seen m base (pat.behind front) ↔ r ∈ seen m' base' (pat.behind front') := by
        rw [hleft, hright]
        refine exists_congr fun ns => and_congr_right fun hr => and_congr_right fun hns => ?_
        rw [hr, hsame ns hns]
      have hone : ∀ p ∈ seen m base (pat.behind front), ∀ q ∈ seen m base (pat.behind front),
          p.same q = true → p = q := by
        intro p hp q hq hpq
        obtain ⟨ns, rfl, hns, -⟩ := hleft.1 hp
        obtain ⟨ms, rfl, hms, -⟩ := hleft.1 hq
        have hcomponents : (ofNames ns).components = (ofNames ms).components := of_decide_eq_true hpq
        rw [Path.components_ofNames hns, Path.components_ofNames hms] at hcomponents
        rw [List.map_injective_iff.2 (fun _ _ => Component.name.inj) hcomponents]
      refine ⟨_, files_on_seen hparse hwants, ?_, ?_⟩
      · rw [dedup_eq_of_mem_iff hmem hone]
        exact files_on_seen hparse' hwants
      · intro r hr
        have hr : r ∈ seen m base (pat.behind front) := List.mem_mergeSort.1 (mem_of_mem_dedup hr)
        obtain ⟨ns, -, -, -, hfile⟩ := hleft.1 hr
        obtain ⟨ns', -, -, -, hfile'⟩ := hright.1 ((hmem r).1 hr)
        exact ⟨hfile, hfile'⟩

def copied : Machine where
  tree := .ofEntries [(["w".toList], .directory), (["v".toList], .directory),
    (["w".toList, "proj".toList], .directory), (["w".toList, "proj".toList, "a.c".toList], .file [] false),
    (["w".toList, "proj".toList, "src".toList], .directory),
    (["w".toList, "proj".toList, "src".toList, "b.c".toList], .file [] false),
    (["v".toList, "copy".toList], .directory), (["v".toList, "copy".toList, "a.c".toList], .file [] false),
    (["v".toList, "copy".toList, "src".toList], .directory),
    (["v".toList, "copy".toList, "src".toList, "b.c".toList], .file [] false)]
  here := ["w".toList]

theorem files_eq_of_copies_copied : ∃ pat, Pattern.parse "**/*.c".toList = .ok pat ∧
    Suits copied (Path.ofString "proj") pat ["w".toList, "proj".toList] ∧
    Suits copied (Path.ofString "/v/./copy/") pat ["v".toList, "copy".toList] ∧
    (files (Path.ofString "proj") "**/*.c".toList).on copied =
      (.ok [Path.ofString "a.c", Path.ofString "src/b.c"], copied) ∧
    (files (Path.ofString "/v/./copy/") "**/*.c".toList).on copied =
      (.ok [Path.ofString "a.c", Path.ofString "src/b.c"], copied) := by
  have hpat : Pattern.parse "**/*.c".toList =
      .ok ⟨false, [[.directories], [.star, .char '.', .char 'c']], false⟩ := by cbv
  have hfind : copied.tree.find copied.here (Path.ofString "proj") = .ok (["w".toList, "proj".toList], .directory) := by
    cbv
  have hfind' : copied.tree.find copied.here (Path.ofString "/v/./copy/") =
      .ok (["v".toList, "copy".toList], .directory) := by cbv
  have hhere : copied.tree.IsDirectory copied.here := by decide
  have hnames : copied.tree.WellNamed := by decide
  have hlinks : copied.tree.Linkless := by decide
  have hwritable : copied.tree.Writable := by decide
  have hsuits : Suits copied (Path.ofString "proj")
      ⟨false, [[.directories], [.star, .char '.', .char 'c']], false⟩ ["w".toList, "proj".toList] := by
    have hnothere : (Path.ofString "proj").startsHere ≠ true := by decide
    refine ⟨hhere, hfind, hnames, by decide, fun h => absurd h hnothere, fun ns hns l hl => ?_⟩
    exact room_of_below hlinks (find_eq_ok_iff.1 hfind).2 (by decide) (by decide) hns hl
  have hsuits' : Suits copied (Path.ofString "/v/./copy/")
      ⟨false, [[.directories], [.star, .char '.', .char 'c']], false⟩ ["v".toList, "copy".toList] := by
    have hnothere : (Path.ofString "/v/./copy/").startsHere ≠ true := by decide
    refine ⟨hhere, hfind', hnames, by decide, fun h => absurd h hnothere, fun ns hns l hl => ?_⟩
    exact room_of_below hlinks (find_eq_ok_iff.1 hfind').2 (by decide) (by decide) hns hl
  have hbelow (x : Location × TreeEntry) :
      x ∈ copied.tree.below ["w".toList, "proj".toList] ↔ x ∈ copied.tree.below ["v".toList, "copy".toList] := by
    have hsub : copied.tree.below ["w".toList, "proj".toList] ⊆ copied.tree.below ["v".toList, "copy".toList] := by
      decide
    have hsub' : copied.tree.below ["v".toList, "copy".toList] ⊆ copied.tree.below ["w".toList, "proj".toList] := by
      decide
    exact ⟨fun hx => hsub hx, fun hx => hsub' hx⟩
  have hrun : ((files (Path.ofString "proj") "**/*.c".toList).on copied).1 =
      .ok [Path.ofString "a.c", Path.ofString "src/b.c"] := by cbv
  obtain ⟨rs, hgives, hgives', -⟩ := files_eq_of_copies hpat (by decide) (by decide) hsuits hsuits' fun ns hns =>
    hsuits.same_of_below hsuits' hlinks hlinks hwritable hwritable (by decide) (by decide) hbelow hns
  have hrs : rs = [Path.ofString "a.c", Path.ofString "src/b.c"] := by
    rw [hgives] at hrun
    cases hrun
    rfl
  rw [hrs] at hgives hgives'
  exact ⟨_, hpat, hsuits, hsuits', hgives, hgives'⟩

end Relocating

end Glob
end CBuild
