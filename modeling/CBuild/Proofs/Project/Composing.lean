import CBuild.Proofs.Glob.Trails
import CBuild.Proofs.Project.Telling

/-! The compiler command: when there is one, and what its arguments are. -/

namespace CBuild

open CBuild.Action Machine

theorem Machine.OnlyTell.on_mapM {α β : Type} {g : α → Action (StateM Machine) β} {xs : List α} {m n : Machine}
    (hg : ∀ a, OnlyTell (g a).run (g a).run) (h : n.untold = m.untold) :
    ((xs.mapM g).on n).1 = xs.mapM fun a => ((g a).on m).1 := by
  induction xs generalizing n with
  | nil => rfl
  | cons a xs ih =>
    obtain ⟨hanswer, hn, -⟩ := hg a m n h
    have hfirst : ((g a).on n).1 = ((g a).on m).1 := hanswer
    rw [List.mapM_cons, List.mapM_cons, on_bind, ← hfirst]
    rcases hr : (g a).on n with ⟨e | y, k⟩
    · rfl
    · have hk : k.untold = m.untold := by
        have hsecond : ((g a).on n).2.untold = m.untold := hn
        rwa [hr] at hsecond
      dsimp only
      rw [on_bind]
      have hrest := ih hk
      rcases hrs : (xs.mapM g).on k with ⟨e | ys, l⟩
      · rw [hrs] at hrest
        rw [← hrest]
        rfl
      · rw [hrs] at hrest
        rw [← hrest]
        rfl

section Except

variable {ε α β : Type} {g : α → Except ε β} {before after : List α} {x : α} {e : ε}

theorem mapM_eq_error (hbefore : ∀ b ∈ before, ∃ y, g b = .ok y) (hx : g x = .error e) :
    (before ++ x :: after).mapM g = .error e := by
  induction before with
  | nil =>
    rw [List.nil_append, List.mapM_cons, hx]
    rfl
  | cons b before ih =>
    rw [List.forall_mem_cons] at hbefore
    obtain ⟨⟨y, hy⟩, hrest⟩ := hbefore
    rw [List.cons_append, List.mapM_cons, hy, ih hrest]
    rfl

end Except

namespace Command

variable {root p : Path} {m n : Machine} {f : String} {ss : List String} {ps : List Path} {c : Manifest}

section Sources

/-- An entry is well formed as a pattern below a root. -/
def WellFormed (root : Path) (f : String) : Prop :=
  ∃ pat, Glob.Pattern.parse (root / ⟨f.toList⟩).chars = .ok pat

/-- A path, as seen from the root, is that of a file to which an entry leads as a pattern. -/
def Matches (m : Machine) (root : Path) (f : String) (p : Path) : Prop :=
  ∃ pat, Glob.Pattern.parse (root / ⟨f.toList⟩).chars = .ok pat ∧ pat.wantsDirectory = false ∧ Glob.Finds m root pat p

/-- The files that an entry leads to, in their order, each one once. -/
structure Lists (m : Machine) (root : Path) (f : String) (ps : List Path) : Prop where
  sorted : ps.Pairwise Path.Before
  found : ∀ p ∈ ps, Matches m root f p
  all : ∀ p, Matches m root f p → ∃ q ∈ ps, q.same p = true

/-- What stands for an entry among the arguments: the entry itself, or the files that it leads to as a pattern. -/
def StandsFor (m : Machine) (root : Path) (f : String) (ss : List String) : Prop :=
  if Glob.isPattern f.toList then ∃ ps, Lists m root f ps ∧ ss = ps.map fun p => String.ofList p.slashed
  else ss = [f]

theorem exists_lists {pat : Glob.Pattern} (hnames : m.tree.WellNamed)
    (h : Glob.Pattern.parse (root / ⟨f.toList⟩).chars = .ok pat) :
    ∃ ps, (Glob.files root f.toList).on m = (.ok ps, m) ∧ Lists m root f ps := by
  cases hwants : pat.wantsDirectory with
  | true =>
    have hnone (p : Path) : ¬Matches m root f p := by
      rintro ⟨pat', h', hfile, -⟩
      rw [h] at h'
      cases h'
      rw [hwants] at hfile
      cases hfile
    exact ⟨[], Glob.files_on_directory h hwants, .nil, by simp, fun p hp => absurd hp (hnone p)⟩
  | false =>
    refine ⟨_, Glob.files_on_seen h hwants, Glob.before_dedup ?_, fun p hp => ?_, ?_⟩
    · apply List.pairwise_mergeSort
      · intro a b c
        exact Path.le_trans
      · exact Path.le_total
    · exact ⟨pat, h, hwants, (Glob.mem_seen_iff hnames h).1 (List.mem_mergeSort.1 (Glob.mem_of_mem_dedup hp))⟩
    · rintro p ⟨pat', h', -, hp⟩
      rw [h] at h'
      cases h'
      exact Glob.exists_mem_dedup (List.mem_mergeSort.2 ((Glob.mem_seen_iff hnames h).2 hp))

theorem sourcesOf_ok (hnames : m.tree.WellNamed) (h : Glob.isPattern f.toList = true → WellFormed root f) :
    ∃ ss, ((sourcesOf root f : Action (StateM Machine) _).on m).1 = .ok ss ∧ StandsFor m root f ss := by
  unfold sourcesOf
  by_cases hf : Glob.isPattern f.toList = true
  · obtain ⟨pat, hpat⟩ := h hf
    obtain ⟨ps, hfiles, hlists⟩ := exists_lists hnames hpat
    rw [if_pos hf, on_bind_ok hfiles]
    refine ⟨ps.map fun p => String.ofList p.slashed, ?_, ?_⟩
    · dsimp only
      split
      · rfl
      · rfl
    · rw [StandsFor, if_pos hf]
      exact ⟨ps, hlists, rfl⟩
  · rw [if_neg hf]
    refine ⟨[f], rfl, ?_⟩
    rw [StandsFor, if_neg hf]

theorem sourcesOf_error {fault : Glob.Misplaced} (hf : Glob.isPattern f.toList = true)
    (h : Glob.Pattern.parse (root / ⟨f.toList⟩).chars = .error fault) (m : Machine) :
    ((sourcesOf root f : Action (StateM Machine) _).on m).1 = .error (.badPattern f.toList fault) := by
  have hfiles : (Glob.files root f.toList).on m = (.error (.badPattern f.toList fault), m) := by
    unfold Glob.files
    rw [h]
    rfl
  rw [sourcesOf, if_pos hf, on_bind_error hfiles]

end Sources

section Composed

/-- The argument that a flag is turned into: itself with a dash in front, which is put there when it is missing. -/
def IsFlag (flag arg : String) : Prop :=
  arg.toList.head? = some '-' ∧ (arg = flag ∨ flag.toList.head? ≠ some '-' ∧ arg = "-" ++ flag)

theorem isFlag_flagArg (flag : String) : IsFlag flag (flagArg flag) := by
  unfold flagArg
  split
  next hdash => exact ⟨hdash, .inl rfl⟩
  next hplain =>
    refine ⟨?_, .inr ⟨hplain, rfl⟩⟩
    rw [String.toList_append]
    rfl

def AllWellFormed (root : Path) (files : List String) : Prop :=
  ∀ f ∈ files, Glob.isPattern f.toList = true → WellFormed root f

/-- An entry is plain, or leads to a file. -/
def Gives (m : Machine) (root : Path) (f : String) : Prop :=
  Glob.isPattern f.toList = false ∨ ∃ p, Matches m root f p

theorem StandsFor.eq_nil_iff (h : StandsFor m root f ss) : ss = [] ↔ ¬Gives m root f := by
  unfold StandsFor at h
  unfold Gives
  split at h
  next hf =>
    obtain ⟨ps, hlists, rfl⟩ := h
    rw [hf, List.map_eq_nil_iff]
    constructor
    · rintro rfl (hplain | ⟨p, hp⟩)
      · cases hplain
      · obtain ⟨q, hq, -⟩ := hlists.all p hp
        cases hq
    · intro hnone
      rw [List.eq_nil_iff_forall_not_mem]
      exact fun p hp => hnone (.inr ⟨p, hlists.found p hp⟩)
  next hf =>
    rw [Bool.not_eq_true] at hf
    simp [h, hf]

def ofSources (c : Manifest) (sources : List String) : Command :=
  ⟨c.compiler, ["-o", c.output] ++ sources ++ includeFlags c.includes ++ c.libs.map ("-L" ++ ·) ++
    c.libraries.map ("-l" ++ ·) ++ c.flags.map flagArg⟩

theorem composed_eq (c : Manifest) (root : Path) (m : Machine) :
    ((compose c root : Action (StateM Machine) _).on m).1 =
      if c.files = [] then .error .noSources
      else (c.files.mapM fun f => ((sourcesOf root f : Action (StateM Machine) _).on m).1).bind fun sources =>
        if sources.flatten = [] then .error .nothingMatched else .ok (ofSources c sources.flatten) := by
  have hsources : ((c.files.mapM (sourcesOf root)).on m).1 =
      c.files.mapM fun f => ((sourcesOf root f : Action (StateM Machine) _).on m).1 :=
    OnlyTell.on_mapM (alike_sourcesOf askedAlike_onlyTell onlyTell_log root) rfl
  rw [← hsources]
  by_cases hfiles : c.files = []
  · have hnone : c.hasSources = false := by simp [Manifest.hasSources, hfiles]
    rw [if_pos hfiles, compose, hnone]
    rfl
  · have hsome : c.hasSources = true := by simpa [Manifest.hasSources] using hfiles
    rw [if_neg hfiles, compose, hsome, Bool.not_true, if_neg Bool.false_ne_true, on_bind]
    rcases (c.files.mapM (sourcesOf root) : Action (StateM Machine) _).on m with ⟨e | sources, n⟩
    · rfl
    · dsimp only [Except.bind]
      split
      · rfl
      · rfl

theorem exists_sources {files : List String} (hnames : m.tree.WellNamed) (h : AllWellFormed root files) :
    ∃ sources, (files.mapM fun f => ((sourcesOf root f : Action (StateM Machine) _).on m).1) = .ok sources ∧
      List.Forall₂ (StandsFor m root) files sources := by
  induction files with
  | nil => exact ⟨[], rfl, .nil⟩
  | cons f files ih =>
    obtain ⟨hf, hfiles⟩ := List.forall_mem_cons.1 h
    obtain ⟨ss, hss, hstands⟩ := sourcesOf_ok hnames hf
    obtain ⟨sources, hsources, hall⟩ := ih hfiles
    refine ⟨ss :: sources, ?_, .cons hstands hall⟩
    rw [List.mapM_cons, hss, hsources]
    rfl

theorem exists_malformed {files : List String} (h : ¬AllWellFormed root files) :
    ∃ before f after fault, files = before ++ f :: after ∧ AllWellFormed root before ∧
      Glob.isPattern f.toList = true ∧ Glob.Pattern.parse (root / ⟨f.toList⟩).chars = .error fault := by
  induction files with
  | nil => exact absurd (List.forall_mem_nil _) h
  | cons g files ih =>
    by_cases hg : Glob.isPattern g.toList = true → WellFormed root g
    · have hrest : ¬AllWellFormed root files := fun hall => h (List.forall_mem_cons.2 ⟨hg, hall⟩)
      obtain ⟨before, f, after, fault, rfl, hbefore, hf, hfault⟩ := ih hrest
      exact ⟨g :: before, f, after, fault, rfl, List.forall_mem_cons.2 ⟨hg, hbefore⟩, hf, hfault⟩
    · rw [Classical.not_imp] at hg
      obtain ⟨hpattern, hmalformed⟩ := hg
      cases hparse : Glob.Pattern.parse (root / ⟨g.toList⟩).chars with
      | error fault => exact ⟨[], g, files, fault, rfl, List.forall_mem_nil _, hpattern, hparse⟩
      | ok pat => exact absurd ⟨pat, hparse⟩ hmalformed

theorem flatten_eq_nil_iff {files : List String} {sources : List (List String)}
    (h : List.Forall₂ (StandsFor m root) files sources) : sources.flatten = [] ↔ ∀ f ∈ files, ¬Gives m root f := by
  induction h with
  | nil => simp
  | cons hf _ ih => rw [List.flatten_cons, List.append_eq_nil_iff, hf.eq_nil_iff, ih, List.forall_mem_cons]

theorem composed_malformed (hnames : m.tree.WellNamed) (h : ¬AllWellFormed root c.files) :
    ∃ before f after fault, c.files = before ++ f :: after ∧ AllWellFormed root before ∧
      Glob.isPattern f.toList = true ∧ Glob.Pattern.parse (root / ⟨f.toList⟩).chars = .error fault ∧
      ((compose c root).on m).1 = .error (.badPattern f.toList fault) := by
  obtain ⟨before, f, after, fault, hfiles, hbefore, hf, hfault⟩ := exists_malformed h
  have hfails : (c.files.mapM fun f => ((sourcesOf root f : Action (StateM Machine) _).on m).1) =
      .error (.badPattern f.toList fault) := by
    rw [hfiles]
    refine mapM_eq_error (fun g hg => ?_) (sourcesOf_error hf hfault m)
    obtain ⟨ss, hss, -⟩ := sourcesOf_ok hnames (hbefore g hg)
    exact ⟨ss, hss⟩
  refine ⟨before, f, after, fault, hfiles, hbefore, hf, hfault, ?_⟩
  rw [composed_eq, if_neg (by simp [hfiles]), hfails]
  rfl

theorem composed_wellFormed (hnames : m.tree.WellNamed) (hne : c.files ≠ []) (h : AllWellFormed root c.files) :
    ∃ sources, List.Forall₂ (StandsFor m root) c.files sources ∧ ((compose c root).on m).1 =
      if sources.flatten = [] then .error .nothingMatched else .ok (ofSources c sources.flatten) := by
  obtain ⟨sources, hsources, hstands⟩ := exists_sources hnames h
  refine ⟨sources, hstands, ?_⟩
  rw [composed_eq, if_neg hne, hsources]
  rfl

/-- Below a root without characters that mean something in a pattern, a pattern is well formed when it is so by itself. -/
theorem wellFormed_iff (hroot : Glob.isPattern root.chars = false) (hf : Glob.isPattern f.toList = true) :
    WellFormed root f ↔ ∃ pat, Glob.Pattern.parse f.toList = .ok pat := by
  have hne : f.toList ≠ [] := by
    intro hnil
    rw [hnil] at hf
    cases hf
  have behind {front : List Char} (hfront : Glob.isPattern front = false) (hrelative : f.toList.head? ≠ some '/') :
      (∃ pat, Glob.Pattern.parse (front ++ '/' :: f.toList) = .ok pat) ↔
        ∃ pat, Glob.Pattern.parse f.toList = .ok pat := by
    constructor
    · rintro ⟨pat, hpat⟩
      exact Glob.exists_parse_of_behind hfront hpat hrelative hne
    · rintro ⟨pat, hpat⟩
      exact ⟨_, Glob.parse_behind hfront hpat hrelative hne⟩
  unfold WellFormed
  cases habsolute : (Path.mk f.toList).isAbsolute with
  | true =>
    have hdiv : root / ⟨f.toList⟩ = ⟨f.toList⟩ := if_pos habsolute
    rw [hdiv]
  | false =>
    have hrelative : f.toList.head? ≠ some '/' := of_decide_eq_false habsolute
    rw [Path.chars_div habsolute]
    split
    next hopen =>
      rcases of_decide_eq_true hopen with hempty | hslash
      · rw [hempty, List.nil_append]
      · obtain ⟨front, hfront⟩ := List.getLast?_eq_some_iff.1 hslash
        have hplain : Glob.isPattern front = false := by
          apply Glob.isPattern_of_sublist hroot
          rw [hfront]
          exact List.sublist_append_left _ _
        rw [hfront, List.append_assoc, List.singleton_append]
        exact behind hplain hrelative
    next => exact behind hroot hrelative

/-- Below a root that a pattern can be looked for from, an entry leads to the files whose names the pattern stands for. -/
theorem matches_iff {pat : Glob.Pattern} {d : Location} (hf : Glob.isPattern f.toList = true)
    (hrelative : f.toList.head? ≠ some '/') (hpat : Glob.Pattern.parse f.toList = .ok pat)
    (hup : ∀ c ∈ pat.components, c.head? = some (.char '.') → Glob.matchesName c ['.', '.'] = false)
    (hroot : Glob.Suits m root pat d) : Matches m root f p ↔ pat.wantsDirectory = false ∧
      ∃ ns, p = Path.ofNames ns ∧ (∀ n ∈ ns, Path.IsFileName n) ∧ Glob.Fits pat.components ns ∧
        m.kind (root / p) = some .file := by
  obtain ⟨front, hfront⟩ := Glob.exists_front hroot.spelled.written
  have hne : f.toList ≠ [] := by
    intro hnil
    rw [hnil] at hf
    cases hf
  have hproper : ∀ c ∈ pat.components, Glob.Proper c := fun c hc =>
    ⟨fun x hx => Glob.slash_not_mem_literal hpat hc hx, hup c hc⟩
  have hparse : Glob.Pattern.parse (root / ⟨f.toList⟩).chars = .ok (pat.behind front) :=
    Glob.parse_div hroot hfront hpat hrelative hne
  have hmatches : Matches m root f p ↔ pat.wantsDirectory = false ∧ Glob.Finds m root (pat.behind front) p := by
    constructor
    · rintro ⟨pat', hparse', hwants, hfinds⟩
      rw [hparse] at hparse'
      cases hparse'
      exact ⟨hwants, hfinds⟩
    · exact fun h => ⟨_, hparse, h⟩
  rw [hmatches, ← Glob.mem_seen_iff hroot.named hparse,
    hroot.mem_seen_iff hfront hproper (Glob.components_ne_nil hpat)]

/-- A command is composed exactly when there are entries, every one that is a pattern is well formed, and one of them at
least is plain or leads to a file. Its arguments are then the output, what stands for each entry in their order, the
directories and libraries, and the flags. A malformed pattern is reported, the first one, whatever the other entries
give. Below a root without characters that mean something in a pattern, a pattern is well formed when it is so by
itself. -/
theorem composed (c : Manifest) (root : Path) (hnames : m.tree.WellNamed) :
    let composed := ((compose c root).on m).1
    ((∃ command, composed = .ok command) ↔
      c.files ≠ [] ∧ AllWellFormed root c.files ∧ ∃ f ∈ c.files, Gives m root f) ∧
    (∀ command, composed = .ok command → command.program = c.compiler ∧ ∃ sources flags,
      List.Forall₂ (StandsFor m root) c.files sources ∧ List.Forall₂ IsFlag c.flags flags ∧
      command.args = ["-o", c.output] ++ sources.flatten ++ c.includes.map ("-I" ++ ·) ++ c.libs.map ("-L" ++ ·) ++
        c.libraries.map ("-l" ++ ·) ++ flags) ∧
    (¬AllWellFormed root c.files → ∃ before f after fault, c.files = before ++ f :: after ∧ AllWellFormed root before ∧
      Glob.isPattern f.toList = true ∧ Glob.Pattern.parse (root / ⟨f.toList⟩).chars = .error fault ∧
      composed = .error (.badPattern f.toList fault)) ∧
    (c.files = [] → composed = .error .noSources) ∧
    (c.files ≠ [] → AllWellFormed root c.files → (∀ f ∈ c.files, ¬Gives m root f) →
      composed = .error .nothingMatched) ∧
    (Glob.isPattern root.chars = false → ∀ f, Glob.isPattern f.toList = true →
      (WellFormed root f ↔ ∃ pat, Glob.Pattern.parse f.toList = .ok pat)) ∧
    (∀ f pat d, Glob.isPattern f.toList = true → f.toList.head? ≠ some '/' → Glob.Pattern.parse f.toList = .ok pat →
      (∀ c ∈ pat.components, c.head? = some (.char '.') → Glob.matchesName c ['.', '.'] = false) →
      Glob.Suits m root pat d → ∀ p, (Matches m root f p ↔ pat.wantsDirectory = false ∧
        ∃ ns, p = Path.ofNames ns ∧ (∀ n ∈ ns, Path.IsFileName n) ∧ Glob.Fits pat.components ns ∧
          m.kind (root / p) = some .file)) := by
  intro composed
  have hmalformed (h : ¬AllWellFormed root c.files) := composed_malformed hnames h
  have hnone : c.files = [] → composed = .error .noSources := by
    intro hfiles
    show ((compose c root).on m).1 = _
    rw [composed_eq, if_pos hfiles]
  have hnothing : c.files ≠ [] → AllWellFormed root c.files → (∀ f ∈ c.files, ¬Gives m root f) →
      composed = .error .nothingMatched := by
    intro hne hwell hempty
    obtain ⟨sources, hstands, hcomposed⟩ := composed_wellFormed hnames hne hwell
    rwa [if_pos ((flatten_eq_nil_iff hstands).2 hempty)] at hcomposed
  have hsome : c.files ≠ [] → AllWellFormed root c.files → (∃ f ∈ c.files, Gives m root f) →
      ∃ sources, List.Forall₂ (StandsFor m root) c.files sources ∧ composed = .ok (ofSources c sources.flatten) := by
    rintro hne hwell ⟨f, hf, hgives⟩
    obtain ⟨sources, hstands, hcomposed⟩ := composed_wellFormed hnames hne hwell
    rw [if_neg fun hempty => (flatten_eq_nil_iff hstands).1 hempty f hf hgives] at hcomposed
    exact ⟨sources, hstands, hcomposed⟩
  have hready (command : Command) (hcommand : composed = .ok command) :
      c.files ≠ [] ∧ AllWellFormed root c.files ∧ ∃ f ∈ c.files, Gives m root f := by
    have hne : c.files ≠ [] := by
      intro hfiles
      rw [hnone hfiles] at hcommand
      cases hcommand
    have hwell : AllWellFormed root c.files := by
      by_contra hill
      obtain ⟨_, f, _, fault, -, -, -, -, hfails⟩ := hmalformed hill
      have hboth := hfails.symm.trans hcommand
      cases hboth
    refine ⟨hne, hwell, ?_⟩
    by_contra hempty
    rw [hnothing hne hwell fun f hf hgives => hempty ⟨f, hf, hgives⟩] at hcommand
    cases hcommand
  refine ⟨⟨fun ⟨command, hcommand⟩ => hready command hcommand, ?_⟩, ?_, hmalformed, hnone, hnothing,
    fun hroot f => wellFormed_iff hroot, fun f pat d hf hrelative hpat hup hroot p =>
      matches_iff hf hrelative hpat hup hroot⟩
  · rintro ⟨hne, hwell, hgives⟩
    obtain ⟨sources, -, hcomposed⟩ := hsome hne hwell hgives
    exact ⟨_, hcomposed⟩
  · intro command hcommand
    obtain ⟨hne, hwell, hgives⟩ := hready command hcommand
    obtain ⟨sources, hstands, hcomposed⟩ := hsome hne hwell hgives
    rw [hcomposed] at hcommand
    cases hcommand
    refine ⟨rfl, sources, c.flags.map flagArg, hstands, ?_, rfl⟩
    exact List.forall₂_map_right_iff.2 (List.forall₂_same.2 fun flag _ => isFlag_flagArg flag)

def mixed : Manifest where
  files := ["main.c", "src/*.c", "main.c"]
  includes := ["src"]
  libraries := ["m"]
  flags := ["Wall", "-O2"]

def mixedSources : Machine where
  tree := .ofEntries [(["proj".toList], .directory), (["proj".toList, "src".toList], .directory),
    (["proj".toList, "src".toList, "b.c".toList], .file [] false),
    (["proj".toList, "src".toList, "a.c".toList], .file [] false)]
  here := []

theorem composed_mixed : mixedSources.tree.WellNamed ∧ ((compose mixed (Path.ofString "proj")).on mixedSources).1 =
      .ok ⟨"gcc", ["-o", "app.exe", "main.c", "src/a.c", "src/b.c", "main.c", "-Isrc", "-lm", "-Wall", "-O2"]⟩ ∧
    (∃ f ∈ mixed.files, Gives mixedSources (Path.ofString "proj") f) ∧
    (∃ sources flags, List.Forall₂ (StandsFor mixedSources (Path.ofString "proj")) mixed.files sources ∧
      List.Forall₂ IsFlag mixed.flags flags ∧
      sources.flatten ++ ["-Isrc", "-lm"] ++ flags =
        ["main.c", "src/a.c", "src/b.c", "main.c", "-Isrc", "-lm", "-Wall", "-O2"]) ∧
    (WellFormed (Path.ofString "proj") "src/*.c" ↔ ∃ pat, Glob.Pattern.parse "src/*.c".toList = .ok pat) ∧
    Matches mixedSources (Path.ofString "proj") "src/*.c" (Path.ofString "src/a.c") := by
  have hnames : mixedSources.tree.WellNamed := by decide
  have hrun : ((compose mixed (Path.ofString "proj")).on mixedSources).1 =
      .ok ⟨"gcc", ["-o", "app.exe", "main.c", "src/a.c", "src/b.c", "main.c", "-Isrc", "-lm", "-Wall", "-O2"]⟩ := by cbv
  obtain ⟨hexactly, hargs, -, -, -, hwell, hmatches⟩ := composed mixed (Path.ofString "proj") hnames
  obtain ⟨-, -, hgives⟩ := hexactly.1 ⟨_, hrun⟩
  obtain ⟨-, sources, flags, hsources, hflags, hlist⟩ := hargs _ hrun
  have hpat : Glob.Pattern.parse "src/*.c".toList =
      .ok ⟨false, ["src".toList.map .char, [.star, .char '.', .char 'c']], false⟩ := by cbv
  have hfind : mixedSources.tree.find mixedSources.here (Path.ofString "proj") = .ok (["proj".toList], .directory) := by
    cbv
  have hlinks : mixedSources.tree.Linkless := by decide
  have hsuits : Glob.Suits mixedSources (Path.ofString "proj")
      ⟨false, ["src".toList.map .char, [.star, .char '.', .char 'c']], false⟩ ["proj".toList] := by
    have hnothere : (Path.ofString "proj").startsHere ≠ true := by decide
    refine ⟨by decide, hfind, hnames, by decide, fun h => absurd h hnothere, fun ns hns l hl => ?_⟩
    exact Glob.room_of_below hlinks (FileTree.find_eq_ok_iff.1 hfind).2 (by decide) (by decide) hns hl
  refine ⟨hnames, hrun, hgives, ⟨sources, flags, hsources, hflags, ?_⟩, hwell (by decide) "src/*.c" (by decide), ?_⟩
  · simpa [mixed] using hlist.symm
  · rw [hmatches _ _ _ (by decide) (by decide) hpat (by decide) hsuits]
    have hns : ∀ n ∈ ["src".toList, "a.c".toList], Path.IsFileName n := by decide
    exact ⟨rfl, ["src".toList, "a.c".toList], rfl, hns, .name (by decide) (by decide) (.name (by decide) (by decide) .nil),
      by cbv⟩

def bracketed : Machine where
  tree := .ofEntries [(["proj[".toList], .directory), (["proj[".toList, "a.c".toList], .file [] false)]
  here := []

/-- The bracket is read as one of the pattern, so an entry is refused that is well formed and fits a source. -/
theorem refused_by_bracket :
    Glob.Pattern.parse "*.c".toList = .ok ⟨false, [[.star, .char '.', .char 'c']], false⟩ ∧
      Glob.matchesName [.star, .char '.', .char 'c'] "a.c".toList = true ∧
      bracketed.kind (Path.ofString "proj[" / Path.ofString "a.c") = some .file ∧
      ((compose { files := ["*.c"] } (Path.ofString "proj[")).on bracketed).1 =
        .error (.badPattern "*.c".toList ⟨.openBracket, 4⟩) := by
  refine ⟨?_, ?_, ?_, ?_⟩
  · cbv
  · cbv
  · cbv
  · cbv

end Composed

end Command

end CBuild
