import CBuild.Proofs.Machine.Sparing
import CBuild.Proofs.Project.Generating
import Mathlib

/-! What generating leaves as it was. Everything that can fail comes before the one file is written, and that is
the one that the path of the output leads to. -/

namespace CBuild.Project

open CBuild.Action Machine FileTree

variable {pr : Project} {config entry target : Path} {output : Option Path} {found : Source.Discovery}
  {m n : Machine} {content : String} {r : Except Failure (Source.Discovery × Path)}

theorem cases_of_putLists (h : (putLists target found content).on m = (r, n)) :
    (∃ e, r = .error e) ∧ Spared [] m n ∨
      r = .ok (found, target) ∧ ∃ after l, replaceLists? content.toList (listsOf found).toChars = some after ∧
        n.tree.Leads n.here target l (kept l (Utf8.encode (String.ofList after))) ∧ Spared [l] m n := by
  rw [putLists] at h
  cases hr : replaceLists? content.toList (listsOf found).toChars with
  | none =>
    rw [hr] at h
    cases h
    exact .inl ⟨⟨_, rfl⟩, spared_of_eq rfl rfl⟩
  | some after =>
    rw [hr] at h
    rcases cases_of_on_bind h with ⟨e, hwrite, rfl⟩ | ⟨_, k, hwrite, hlast⟩
    · rcases cases_of_writeText hwrite with ⟨-, hspared⟩ | ⟨hok, -⟩
      · exact .inl ⟨⟨e, rfl⟩, hspared⟩
      · cases hok
    · cases hlast
      rcases cases_of_writeText hwrite with ⟨⟨e, he⟩, -⟩ | ⟨-, l, hl, hspared⟩
      · cases he
      · exact .inr ⟨rfl, after, l, rfl, hl, hspared⟩

/-- Until the lists are put into the text, nothing has been touched, whatever has been asked for. -/
theorem cases_of_generate (h : (pr.generate config entry output).on m = (r, n)) :
    (∃ e, r = .error e) ∧ n.tree = m.tree ∧ n.here = m.here ∨
      ∃ c found before k, (Manifest.load config).on m = (.ok c, m) ∧
        ((Source.discover pr.root entry).on m).1 = .ok found ∧ (Files.readText config).on m = (.ok before, m) ∧
        (k.tree = m.tree ∧ k.here = m.here) ∧
        (putLists (pr.outputPath config output) found before).on k = (r, n) := by
  rw [generate_eq] at h
  rcases cases_of_on_bind h with ⟨e, hload, rfl⟩ | ⟨c, k, hload, hrest⟩
  · rw [(Manifest.quiet_load config).eq_of_on hload]
    exact .inl ⟨⟨e, rfl⟩, rfl, rfl⟩
  · obtain rfl := (Manifest.quiet_load config).eq_of_on hload
    rcases cases_of_on_bind hrest with ⟨e, hdiscover, rfl⟩ | ⟨found, k', hdiscover, hput⟩
    · exact .inl ⟨⟨e, rfl⟩, (asks_discover pr.root entry).of_on hdiscover⟩
    · obtain ⟨htree, hhere⟩ := (asks_discover pr.root entry).of_on hdiscover
      rcases cases_of_on_bind hput with ⟨e, hread, rfl⟩ | ⟨before, k'', hread, hlast⟩
      · rw [(quiet_readText config).eq_of_on hread]
        exact .inl ⟨⟨e, rfl⟩, htree, hhere⟩
      · obtain rfl := (quiet_readText config).eq_of_on hread
        have hbefore := on_readText_congr htree.symm hhere.symm hread
        exact .inr ⟨c, found, before, k'', hload, by rw [hdiscover], hbefore, ⟨htree, hhere⟩, hlast⟩

/-- When generating fails, no file has been touched. When it succeeds, what was found on the files as they were has
been put into the text as it was, this is what the file under the path of the output holds, unless nothing is kept
there, and no other file has been touched. -/
theorem generate_spares (pr : Project) (config entry : Path) (output : Option Path) (m : Machine) :
    (∀ e n, (pr.generate config entry output).on m = (.error e, n) →
      Spares [] m.tree n.tree ∧ ∀ q k b, m.tree.Leads m.here q k b → n.tree.Leads n.here q k b) ∧
    ∀ found target n, (pr.generate config entry output).on m = (.ok (found, target), n) →
      target = (output.map pr.resolve).getD config ∧
      ((Source.discover pr.root entry).on m).1 = .ok found ∧
      ∃ before after l, (Files.readText config).on m = (.ok before, m) ∧
        replaceLists? before.toList (listsOf found).toChars = some after ∧
        n.tree.Leads n.here target l (kept l (Utf8.encode (String.ofList after))) ∧
        Spares [l] m.tree n.tree ∧ ∀ q k b, k ≠ l → m.tree.Leads m.here q k b → n.tree.Leads n.here q k b := by
  constructor
  · intro e n h
    have hspared : Spared [] m n := by
      rcases cases_of_generate h with ⟨-, htree, hhere⟩ | ⟨_, found, before, k, -, -, -, ⟨htree, hhere⟩, hput⟩
      · exact spared_of_eq htree hhere
      · rcases cases_of_putLists hput with ⟨-, hspared⟩ | ⟨hok, -⟩
        · exact (spared_of_eq htree hhere).trans hspared
        · cases hok
    exact ⟨hspared.spares, fun q k b hq => hspared.leads hq List.not_mem_nil⟩
  · intro found target n h
    rcases cases_of_generate h with ⟨⟨e, he⟩, -⟩ | ⟨_, found', before, k, -, hfound, hbefore, ⟨htree, hhere⟩, hput⟩
    · cases he
    · rcases cases_of_putLists hput with ⟨⟨e, he⟩, -⟩ | ⟨hok, after, l, hafter, hl, hspared⟩
      · cases he
      · cases hok
        have hboth : Spared [l] m n := (spared_of_eq htree hhere).trans hspared
        refine ⟨rfl, hfound, before, after, l, hbefore, hafter, hl, hboth.spares, fun q j b hj hq => ?_⟩
        exact hboth.leads hq (by simpa using hj)

def muted : Machine where
  tree := .ofEntries [(["dev".toList], .directory), (nowhere, .file [] false),
    ([Manifest.bare.chars], .link (Path.ofString "/dev/null")), (["m.c".toList], .file [] false)]
  here := []

/-- Of what is written to the null device nothing is kept. -/
theorem generate_to_nowhere : ∃ n after,
    ((Project.mk dot).generate Manifest.bare (Path.ofString "m.c") none).on muted =
      (.ok (⟨[], ["m.c"]⟩, Manifest.bare), n) ∧
    (Files.readText Manifest.bare).on muted = (.ok "", muted) ∧
    replaceLists? "".toList (listsOf ⟨[], ["m.c"]⟩).toChars = some after ∧
    n.tree.readFile n.here Manifest.bare ≠ .ok (Utf8.encode (String.ofList after)) := by
  have hread : ((Files.readText Manifest.bare).on muted).1 = .ok "" := by cbv
  have hwritten : Utf8.encode (String.ofList "includes = []\nfiles = [\"m.c\"]\n".toList) ≠ [] := by
    cbv
    exact List.cons_ne_nil _ _
  have hafter : replaceLists? "".toList (listsOf ⟨[], ["m.c"]⟩).toChars =
      some "includes = []\nfiles = [\"m.c\"]\n".toList := by cbv
  have hrun : (((Project.mk dot).generate Manifest.bare (Path.ofString "m.c") none).on muted).1 =
      .ok (⟨[], ["m.c"]⟩, Manifest.bare) := by cbv
  have hkept : (((Project.mk dot).generate Manifest.bare (Path.ofString "m.c") none).on muted).2.tree.readFile []
      Manifest.bare = .ok [] := by cbv
  have hhere : (((Project.mk dot).generate Manifest.bare (Path.ofString "m.c") none).on muted).2.here = [] := by cbv
  generalize ((Project.mk dot).generate Manifest.bare (Path.ofString "m.c") none).on muted = run at *
  refine ⟨run.2, _, Prod.ext hrun rfl, Prod.ext hread (quiet_readText ..), hafter, ?_⟩
  rw [hhere, hkept]
  exact fun h => hwritten (Except.ok.inj h).symm

end CBuild.Project
