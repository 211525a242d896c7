import CBuild.Command
import CBuild.Proofs.Machine.Asking
import CBuild.Proofs.Manifest.LifeCycle
import CBuild.Proofs.Manifest.Relisting
import CBuild.Proofs.Source.Building

/-! What is generated is what is built: the sources and directories that are found from an entry point reach the
compiler in the order in which they were found. -/

namespace CBuild

open CBuild.Action Machine FileTree

section Reading

variable {p : Path} {m n : Machine} {c : Manifest} {text : String}

theorem Manifest.parse_of_load (hc : (load p).on m = (.ok c, m)) (h : (Files.readText p).on m = (.ok text, m)) :
    p.extension? = some "toml".toList ∧ parse text = .ok c := by
  rw [load] at hc
  obtain ⟨_, k, hcheck, hrest⟩ := ok_of_on_bind hc
  obtain ⟨hext, rfl⟩ := extension_of_checkExtension hcheck
  rw [on_bind_ok (on_exists p k)] at hrest
  dsimp only at hrest
  split at hrest
  · cases hrest
  · rw [on_bind_ok h] at hrest
    refine ⟨hext, ?_⟩
    cases hparse : parse text with
    | error e =>
      rw [hparse] at hrest
      cases hrest
    | ok c' =>
      rw [hparse] at hrest
      cases hrest
      rfl

theorem Source.files_of_discover {root entry : Path} {found : Discovery}
    (h : (discover root entry).on m = (.ok found, n)) : found.files ≠ [] := by
  rw [discover] at h
  obtain ⟨ix, k, -, hfollow⟩ := ok_of_on_bind h
  obtain ⟨s, k', -, htell⟩ := ok_of_on_bind hfollow
  rw [on_bind_ok (on_log ..)] at htell
  cases htell
  exact List.cons_ne_nil _ _

end Reading

section Composing

variable {root : Path} {files : List String} {c : Manifest}

theorem Command.on_sources (h : ∀ f ∈ files, Glob.isPattern f.toList = false) (m : Machine) :
    (files.mapM (sourcesOf root) : Action (StateM Machine) _).on m = (.ok (files.map fun f => [f]), m) := by
  induction files with
  | nil => rfl
  | cons f files ih =>
    rw [List.forall_mem_cons] at h
    have hone : (sourcesOf root f : Action (StateM Machine) _).on m = (.ok [f], m) := by
      rw [sourcesOf, if_neg (by simp [h.1])]
      rfl
    rw [List.mapM_cons, on_bind_ok hone, on_bind_ok (ih h.2)]
    rfl

theorem Command.on_compose (h : ∀ f ∈ c.files, Glob.isPattern f.toList = false) (hne : c.files ≠ [])
    (m : Machine) : (compose c root : Action (StateM Machine) _).on m =
      (.ok ⟨c.compiler, ["-o", c.output] ++ c.files ++ includeFlags c.includes ++ c.libs.map ("-L" ++ ·) ++
        c.libraries.map ("-l" ++ ·) ++ c.flags.map flagArg⟩, m) := by
  have hsources : c.hasSources = true := by simpa [Manifest.hasSources] using hne
  have hflatten : (c.files.map fun f => [f]).flatten = c.files := by
    rw [← List.flatMap_def, List.flatMap_singleton']
  rw [compose, hsources, Bool.not_true, if_neg Bool.false_ne_true, on_bind_ok (on_sources h m)]
  dsimp only
  rw [hflatten, if_neg hne]
  rfl

end Composing

namespace Project

variable {pr : Project} {config entry target : Path} {found : Source.Discovery} {m n : Machine} {content : String}
  {d : Toml.Document}

/-- The lists that are put into the configuration. -/
def listsOf (found : Source.Discovery) : Manifest.Lists :=
  [("includes", found.includes), ("files", found.files)]

def putLists (config : Path) (found : Source.Discovery) (content : String) :
    Action (StateM Machine) (Source.Discovery × Path) :=
  match replaceLists? content.toList (listsOf found).toChars with
  | none => throw .badDocument
  | some text => do
    Files.writeText config (String.ofList text)
    return (found, config)

def outputPath (pr : Project) (config : Path) (output : Option Path) : Path :=
  (output.map pr.resolve).getD config

theorem generate_eq (pr : Project) (config entry : Path) (output : Option Path) :
    (pr.generate config entry output : Action (StateM Machine) _) = (do
      let _ ← Manifest.load config
      let found ← Source.discover pr.root entry
      let content ← Files.readText config
      putLists (pr.outputPath config output) found content) := rfl

theorem ok_of_putLists {found' : Source.Discovery}
    (h : (putLists config found content).on m = (.ok (found', target), n)) :
    found' = found ∧ ∀ text, replaceLists? content.toList (listsOf found).toChars = some text →
      (Files.writeText config (String.ofList text)).on m = (.ok (), n) := by
  rw [putLists] at h
  cases hr : replaceLists? content.toList (listsOf found).toChars with
  | none =>
    rw [hr] at h
    cases h
  | some text =>
    rw [hr] at h
    obtain ⟨_, k, hwrite, hlast⟩ := ok_of_on_bind h
    cases hlast
    refine ⟨rfl, fun text' he => ?_⟩
    cases he
    exact hwrite

theorem parse_lists {c : Manifest} (found : Source.Discovery) (hd : Toml.Document.strict? content.toList = some d)
    (hparse : Manifest.parse content = .ok c)
    (happart : examplesApart ((listsOf found).toChars.missing d) [] (Text.pieces content.toList) = true) :
    ∃ edited, replaceLists? content.toList (listsOf found).toChars = some edited ∧
      Manifest.parse (String.ofList edited) = .ok (c.withLists (listsOf found)) := by
  have hdistinct : ((listsOf found).map Prod.fst).Nodup := by
    have hnames : (listsOf found).map Prod.fst = ["includes", "files"] := rfl
    rw [hnames]
    decide
  have hkeys : ∀ p ∈ listsOf found, p.1 ∈ ["flags", "files", "includes", "libs", "libraries"] := by
    simp [listsOf]
  exact Manifest.parse_replaceLists? hd hparse hdistinct hkeys happart

/-- After the sources of an entry point have been put into a configuration that is a document with its
examples apart, it is read with these lists, and unless one of the names is a pattern, or nothing is kept of
what is written, the command has the sources and the directories in the order in which they were found. -/
theorem compose_after_generate (hgenerate : (pr.generate config entry none).on m = (.ok (found, target), n))
    (hcontent : (Files.readText config).on m = (.ok content, m))
    (hd : Toml.Document.strict? content.toList = some d)
    (happart : examplesApart ((listsOf found).toChars.missing d) [] (Text.pieces content.toList) = true)
    (hnames : ∀ f ∈ found.files, Glob.isPattern f.toList = false)
    (hreal : ∀ e, n.tree.find n.here config ≠ .ok (nowhere, e)) :
    ∃ c, (Manifest.load config).on m = (.ok c, m) ∧
      (Manifest.load config).on n = (.ok (c.withLists (listsOf found)), n) ∧
      (Command.compose (c.withLists (listsOf found)) pr.root).on n =
        (.ok ⟨c.compiler, ["-o", c.output] ++ found.files ++ Command.includeFlags found.includes ++
          c.libs.map ("-L" ++ ·) ++ c.libraries.map ("-l" ++ ·) ++ c.flags.map Command.flagArg⟩, n) := by
  rw [generate_eq] at hgenerate
  obtain ⟨c, k, hload, hrest⟩ := ok_of_on_bind hgenerate
  obtain rfl := (Manifest.quiet_load config).eq_of_on hload
  obtain ⟨hext, hparse⟩ := Manifest.parse_of_load hload hcontent
  obtain ⟨found', k', hdiscover, hput⟩ := ok_of_on_bind hrest
  -- the search has told of what it found, but the text that is read behind it is the one that was loaded
  obtain ⟨htree, hhere⟩ := (asks_discover pr.root entry).of_on hdiscover
  rw [on_bind_ok (on_readText_congr htree hhere hcontent)] at hput
  obtain ⟨rfl, hwrite⟩ := ok_of_putLists hput
  obtain ⟨edited, hedited, hnew⟩ := parse_lists found hd hparse happart
  obtain ⟨l, hl⟩ := (spells_of_writeText (hwrite edited hedited)).exists_leads hreal
  have hne : found.files ≠ [] := Source.files_of_discover hdiscover
  exact ⟨c, hload, Manifest.on_load hext hl hnew, Command.on_compose hnames hne _⟩

def dot : Path :=
  Path.ofString "."

def furnished : Machine where
  tree := .ofEntries [([Manifest.bare.chars], .file (Utf8.encode "libs = [\"l\"] # n\n# files = []\n") false),
    (["m.c".toList], .file (Utf8.encode "#include \"a.h\"\n") false), (["lib".toList], .directory),
    (["lib".toList, "a.h".toList], .file [] false), (["lib".toList, "a.c".toList], .file [] false)]
  here := []

theorem compose_after_generate_furnished : ∃ n,
    ((Project.mk dot).generate Manifest.bare (Path.ofString "m.c") none).on furnished =
      (.ok (⟨["lib"], ["m.c", "lib/a.c"]⟩, Manifest.bare), n) ∧
    ∃ c, (Manifest.load Manifest.bare).on furnished = (.ok c, furnished) ∧
      (Manifest.load Manifest.bare).on n = (.ok (c.withLists (listsOf ⟨["lib"], ["m.c", "lib/a.c"]⟩)), n) ∧
      (Command.compose (c.withLists (listsOf ⟨["lib"], ["m.c", "lib/a.c"]⟩)) dot).on n =
        (.ok ⟨c.compiler, ["-o", c.output] ++ ["m.c", "lib/a.c"] ++ Command.includeFlags ["lib"] ++
          c.libs.map ("-L" ++ ·) ++ c.libraries.map ("-l" ++ ·) ++ c.flags.map Command.flagArg⟩, n) := by
  have hrun : (((Project.mk dot).generate Manifest.bare (Path.ofString "m.c") none).on furnished).1 =
      .ok (⟨["lib"], ["m.c", "lib/a.c"]⟩, Manifest.bare) := by cbv
  have hcontent : (Files.readText Manifest.bare).on furnished = (.ok "libs = [\"l\"] # n\n# files = []\n", furnished) := by
    cbv
  have hread : ((Toml.Document.strict? "libs = [\"l\"] # n\n# files = []\n".toList).any fun d => examplesApart
      ((listsOf ⟨["lib"], ["m.c", "lib/a.c"]⟩).toChars.missing d) []
      (Text.pieces "libs = [\"l\"] # n\n# files = []\n".toList)) = true := by cbv
  obtain ⟨d, hd, happart⟩ := (Option.any_eq_true _ _).1 hread
  have hplace : ((((Project.mk dot).generate Manifest.bare (Path.ofString "m.c") none).on
      furnished).2.tree.find [] Manifest.bare).toOption.map Prod.fst = some [Manifest.bare.chars] := by cbv
  have hhere : (((Project.mk dot).generate Manifest.bare (Path.ofString "m.c") none).on
      furnished).2.here = [] := by cbv
  refine ⟨_, Prod.ext hrun rfl, compose_after_generate (Prod.ext hrun rfl) hcontent hd happart (by decide) fun e he => ?_⟩
  rw [hhere] at he
  rw [he] at hplace
  cases hplace

end Project
end CBuild
