import CBuild.Proofs.Machine.Watching
import CBuild.Proofs.Source.Building
import CBuild.Proofs.Source.Order
import Mathlib

/-! What a search for sources depends on: the relative paths in the index, and the files that it reads. All else on
the machine may be as it likes. -/

namespace CBuild.Source

open CBuild.Action Machine Watched

variable {root entry : Path} {ix : Index} {files : Contents} {m n : Machine}

def Resolution.discovery (root entry : Path) (s : Resolution) : Discovery :=
  let name := ((root / entry).relativeTo root).slashed
  { includes := s.headerDirectories.map String.ofList
    files := (name :: s.implementationFiles.filter (· ≠ name)).map String.ofList }

def Index.followOn (ix : Index) (files : Contents) (entry : Path) : Except Failure Resolution :=
  (ix.traceOn files entry).mapError fun (p, e) => .refused .readSource p e

/-- What is found from an entry point when the index and the files are given. -/
def Index.discoveryOn (ix : Index) (files : Contents) (root entry : Path) : Except Failure Discovery := do
  let s ← ix.followOn files (root / entry)
  return s.discovery root entry

def discoverIn {μ : Type → Type} [Monad μ] [Host μ] (root entry : Path) (ix : Index) : Action μ Discovery := do
  let found ← ix.follow (root / entry)
  let name := ((root / entry).relativeTo root).slashed
  (Host.log .debug (String.ofList name ++ " reaches " ++ toString found.visited.length ++ " headers and " ++
    toString found.companions.length ++ " implementation files") : μ Unit)
  return found.discovery root entry

theorem discover_eq {μ : Type → Type} [Monad μ] [Host μ] (root entry : Path) :
    (discover root entry : Action μ Discovery) = Index.build root >>= discoverIn root entry := rfl

theorem tells_follow (ix : Index) (entry : Path) :
    Tells files (ix.follow entry : Action (StateM Watched) Resolution).run (pure (ix.followOn files entry)) := by
  refine Tells.action_bind (k := Except.mapError fun (p, e) => .refused .readSource p e)
    (tells_trace ix Note.message entry).lift fun found => ?_
  cases found with
  | ok s => exact (lockstep_tells files).pure _
  | error e => exact (lockstep_tells files).pure _

theorem tells_discoverIn (root entry : Path) (ix : Index) :
    Tells files (discoverIn root entry ix : Action (StateM Watched) Discovery).run
      (pure (ix.discoveryOn files root entry)) := by
  refine (tells_follow ix (root / entry)).action_bind fun s => ?_
  refine Tells.action_bind (k := fun _ => .ok (s.discovery root entry)) (tells_log .debug _).lift fun _ => ?_
  exact (lockstep_tells files).pure _

theorem on_discover (hix : (Index.build root).on m = (.ok ix, n))
    (hfiles : ∀ p ∈ readsOf (discover root entry) m, files p = m.contents p) :
    ((discover root entry).on m).1 = ix.discoveryOn files root entry := by
  let w : Watched := { machine := m }
  let k := ((Index.build root : Action (StateM Watched) Index).run.run w).2
  have hbuild : ((Index.build root : Action (StateM Watched) Index).run.run w).1 = .ok ix := by
    rw [(mirrors_build root w).1]
    exact congrArg Prod.fst hix
  have hrun : (discover root entry : Action (StateM Watched) Discovery).run.run w =
      (discoverIn root entry ix : Action (StateM Watched) Discovery).run.run k := by
    rw [discover_eq]
    exact run_bind_ok hbuild
  have hcontents : k.machine.contents = m.contents := by
    have hmachine : k.machine = n := (mirrors_build root w).2.trans (congrArg Prod.snd hix)
    obtain ⟨htree, hhere⟩ := (asks_build root).of_on hix
    rw [hmachine, contents_eq htree hhere]
  have htells : Tells files (discoverIn root entry ix : Action (StateM Watched) Discovery).run _ :=
    tells_discoverIn root entry ix
  rw [readsOf, hrun, ← hcontents] at hfiles
  calc
    ((discover root entry).on m).1 =
      ((discover root entry : Action (StateM Watched) Discovery).run.run w).1 := (mirrors_discover root entry w).1.symm
    _ = ix.discoveryOn files root entry := by rw [hrun, (htells k).2.2 hfiles]; rfl

/-- Two machines with the same relative paths in their indexes, and the same in every file that is read on the first,
have the same found from an entry point. -/
theorem discover_eq_of_reads {m m' n n' : Machine} {ix ix' : Index} (hix : (Index.build root).on m = (.ok ix, n))
    (hix' : (Index.build root).on m' = (.ok ix', n'))
    (hpaths : ∀ p, p ∈ ix'.records.map Record.relative ↔ p ∈ ix.records.map Record.relative)
    (hreads : ∀ p ∈ readsOf (discover root entry) m, m'.tree.readFile m'.here p = m.tree.readFile m.here p) :
    ((discover root entry).on m').1 = ((discover root entry).on m).1 := by
  have hsame : ix' = ix := by
    rw [ofFiles_of_build hix, ofFiles_of_build hix'] at hpaths ⊢
    exact Index.ofFiles_eq_of_relatives hpaths
  subst hsame
  calc
    ((discover root entry).on m').1 = ix'.discoveryOn m'.contents root entry := on_discover hix' fun _ _ => rfl
    _ = ((discover root entry).on m).1 := (on_discover hix hreads).symm

section Apart

def plainly : Machine where
  tree := .ofEntries [(["a.h".toList], .file [] false), (["b.c".toList], .file [] false),
    (["m.c".toList], .file (Utf8.encode "#include \"a.h\"") false)]
  here := []

def otherwise : Machine where
  tree := .ofEntries [(["a.h".toList], .file [] false), (["b.c".toList], .file [0x6b] true),
    (["m.c".toList], .file (Utf8.encode "#include \"a.h\"") false), (["notes".toList], .file [0x6b] false)]
  here := []

theorem discover_eq_otherwise : ∃ ix n n',
    (Index.build (Path.ofString ".")).on plainly = (.ok ix, n) ∧
    (Index.build (Path.ofString ".")).on otherwise = (.ok ix, n') ∧
    readsOf (discover (Path.ofString ".") (Path.ofString "m.c")) plainly = ["./m.c", "./a.h"].map Path.ofString ∧
    otherwise.contents (Path.ofString "./b.c") ≠ plainly.contents (Path.ofString "./b.c") ∧
    ((discover (Path.ofString ".") (Path.ofString "m.c")).on otherwise).1 =
      ((discover (Path.ofString ".") (Path.ofString "m.c")).on plainly).1 := by
  have hplainly : ((Index.build (Path.ofString ".")).on plainly).1 =
      .ok (.ofFiles (Path.ofString ".") (["a.h", "b.c", "m.c"].map Path.ofString)) := by cbv
  have hotherwise : ((Index.build (Path.ofString ".")).on otherwise).1 =
      .ok (.ofFiles (Path.ofString ".") (["a.h", "b.c", "m.c"].map Path.ofString)) := by cbv
  have hreads : readsOf (discover (Path.ofString ".") (Path.ofString "m.c")) plainly =
      ["./m.c", "./a.h"].map Path.ofString := by cbv
  have hsource : otherwise.contents (Path.ofString "./m.c") = plainly.contents (Path.ofString "./m.c") := by cbv
  have hheader : otherwise.contents (Path.ofString "./a.h") = plainly.contents (Path.ofString "./a.h") := by cbv
  have hapart : otherwise.contents (Path.ofString "./b.c") ≠ plainly.contents (Path.ofString "./b.c") := by
    cbv
    simp
  refine ⟨_, _, _, Prod.ext hplainly rfl, Prod.ext hotherwise rfl, hreads, hapart, ?_⟩
  refine discover_eq_of_reads (Prod.ext hplainly rfl) (Prod.ext hotherwise rfl) (fun p => Iff.rfl) ?_
  rw [hreads]
  intro p hp
  simp only [List.map_cons, List.map_nil, List.mem_cons, List.not_mem_nil, or_false] at hp
  rcases hp with rfl | rfl
  · exact hsource
  · exact hheader

end Apart

end CBuild.Source
