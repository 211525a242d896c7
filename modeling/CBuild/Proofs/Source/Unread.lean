import CBuild.Proofs.Source.Agreement
import CBuild.Proofs.Source.Following
import CBuild.Proofs.Source.Indexing
import CBuild.Proofs.Source.Naming

/-! What a search passes by. A file that is not read may hold anything, and one without the suffix of a source may as well
not be there, unless it is read all the same: as the entry point, or because a link with such a suffix leads to it. -/

namespace CBuild

open CBuild.Action Machine FileTree Source Watched

namespace Source

variable {ix : Index} {files files' : Contents} {entry : Path} {s : Resolution}

/-- Where more files can be read, a traversal that succeeds gives the same. -/
theorem Index.traceOn_mono (hmore : ∀ p b, files p = .ok b → files' p = .ok b)
    (h : ix.traceOn files entry = .ok s) : ix.traceOn files' entry = .ok s := by
  rw [Resolution.traceOn_eq_runOn] at h ⊢
  -- what is left to do gives the same all the way
  refine Resolution.runOn_rule files
    (P := fun s stack => Resolution.runOn files' s stack = Resolution.runOn files' {} [(.scan entry : Task ix)])
    (Q := fun r => ∀ s, r = .ok s → Resolution.runOn files' {} [(.scan entry : Task ix)] = .ok s)
    (fun s hs s' he => ?_) (fun _ _ _ _ _ _ s' he => nomatch he) (fun s p b stack hp hs => ?_)
    (fun s stack hs => ?_) (fun s r rest stack hv hs => ?_) (fun s r rest stack hv hs => ?_) {} _ rfl s h
  · rw [Resolution.runOn_nil] at hs
    rw [← hs, he]
  · rw [Resolution.runOn_scan, hmore p b hp] at hs
    exact hs
  · rwa [Resolution.runOn_done] at hs
  · rwa [Resolution.runOn_known hv] at hs
  · rwa [Resolution.runOn_visit hv] at hs

theorem Index.discoveryOn_mono {root : Path} {found : Discovery} (hmore : ∀ p b, files p = .ok b → files' p = .ok b)
    (h : ix.discoveryOn files root entry = .ok found) : ix.discoveryOn files' root entry = .ok found := by
  unfold discoveryOn followOn at h ⊢
  cases hs : ix.traceOn files (root / entry) with
  | error e =>
    rw [hs] at h
    cases h
  | ok s =>
    rw [hs] at h
    rw [traceOn_mono hmore hs]
    exact h

end Source

namespace FileTree

variable {t u : FileTree} {links : Nat} {here k l : Location} {parts : List (List Char)} {p : Path} {b c : Bytes} {x : Bool}

theorem Walks.of_added (h : Walks u true links here parts (.found k)) (hl : u.get? l = some (.file c x))
    (hne : ∀ j ≠ l, u.get? j = t.get? j) (hk : k ≠ l) : Walks t true links here parts (.found k) := by
  have hsame {j : Location} {e : TreeEntry} (he : u.get? j = some e) (hfile : ∀ b x, e ≠ .file b x) :
      t.get? j = some e := by
    rw [← hne j, he]
    rintro rfl
    exact hfile c x (Option.some.inj (he.symm.trans hl))
  generalize hq : Place.found k = q at h ⊢
  induction h with
  | stay => exact .stay _ _
  | idle h _ ih => exact .idle h (ih hq)
  | up _ ih => exact .up (ih hq)
  | absent => cases hq
  | directory hn hg _ ih => exact .directory hn (hsame hg (by simp)) (ih hq)
  | file hn hg =>
    cases hq
    rw [hne _ hk] at hg
    exact .file hn hg
  | itself hn hg hf => cases hf
  | link hn hg hr _ ih => exact .link hn (hsame hg (by simp)) hr (ih hq)

theorem place_of_added (h : u.place here p true = .ok (.found k)) (hl : u.get? l = some (.file c x))
    (hne : ∀ j ≠ l, u.get? j = t.get? j) (hk : k ≠ l) : t.place here p true = .ok (.found k) := by
  rw [place_eq_walk (spelled_of_place h)]
  exact ((walks_of_place h).of_added hl hne hk).eq_ok

theorem Leads.of_added (h : u.Leads here p k b) (hl : u.get? l = some (.file c x)) (hne : ∀ j ≠ l, u.get? j = t.get? j)
    (hk : k ≠ l) : t.Leads here p k b := by
  obtain ⟨y, hy⟩ := h.file
  exact ⟨place_of_added h.place hl hne hk, y, by rw [← hne k hk, hy]⟩

theorem Regular.of_ne (h : u.Regular k) (hne : ∀ j ≠ l, u.get? j = t.get? j) (hk : k ≠ l) : t.Regular k := by
  obtain ⟨hreal, b, x, hx⟩ := h
  exact ⟨hreal, b, x, by rw [← hne k hk, hx]⟩

end FileTree

namespace Source

variable {m n k : Machine} {root entry : Path} {found : Discovery} {ix : Index} {d l : Location} {b c : Bytes} {x y : Bool}

/-- What has been found is found again when a file that has not been read holds something else. -/
theorem discover_of_unread (hn : m.tree.Nameable)
    (hm : m.tree.get? l = some (.file b x)) (hl : n.tree.get? l = some (.file c y))
    (hne : ∀ k ≠ l, n.tree.get? k = m.tree.get? k) (hhere : n.here = m.here)
    (hreads : ∀ p ∈ readsOf (discover root entry) m, ¬m.tree.Leads m.here p l b)
    (h : ((discover root entry).on m).1 = .ok found) : ((discover root entry).on n).1 = .ok found := by
  obtain ⟨ix, k, hix, -⟩ := ok_of_on_bind (a := Index.build root) (Prod.ext h rfl)
  obtain ⟨d, hroot⟩ : m.HasDirectory root := by
    by_contra hno
    rw [Index.build_of_not_directory hno] at hix
    cases hix
  have ho : m.tree.Outlines n.tree := outlines_of_get?_eq hm hl hne
  have hback : n.tree.Outlines m.tree := outlines_of_get?_eq hl hm fun k hk => (hne k hk).symm
  have hagain : ((Index.build root).on n).1 = .ok ix := Index.build_of_outlines hn hroot hix ho hback hhere
  have hcontents : ∀ p ∈ readsOf (discover root entry) m, n.contents p = m.contents p := by
    intro p hp
    rw [contents, contents, hhere]
    exact readFile_of_ne hm hl hne (hreads p hp)
  rw [on_discover (Prod.ext hagain rfl) fun _ _ => rfl, ← h, on_discover hix hcontents]

/-- A tree with one file more, whose name has no suffix of a source, and to which no link below the root leads. -/
structure Added (m n : Machine) (root : Path) (l : Location) : Prop where
  here : n.here = m.here
  absent : m.tree.get? l = none
  file : ∃ c y, n.tree.get? l = some (.file c y)
  rest : ∀ k ≠ l, n.tree.get? k = m.tree.get? k
  suffix : ∀ x, l.getLast? = some x → suffixOf? x = none
  links : ∀ d ns x target, n.tree.find n.here root = .ok (d, .directory) →
    n.tree.get? (d ++ ns ++ [x]) = some (.link target) →
    n.tree.place n.here (root / Path.ofNames (ns ++ [x])) true ≠ .ok (.found l)

theorem Added.outlines (h : Added m n root l) : m.tree.Outlines n.tree :=
  outlines_of_absent h.absent h.rest

theorem Added.get? (h : Added m n root l) {k : Location} {e : TreeEntry} (hk : m.tree.get? k = some e) :
    n.tree.get? k = some e := by
  rw [h.rest, hk]
  rintro rfl
  cases h.absent.symm.trans hk

theorem Added.find_iff (h : Added m n root l) :
    n.tree.find n.here root = .ok (d, .directory) ↔ m.tree.find m.here root = .ok (d, .directory) := by
  obtain ⟨c, y, hl⟩ := h.file
  rw [find_eq_ok_iff, find_eq_ok_iff, h.here]
  constructor
  · rintro ⟨hplace, hd⟩
    have hk : d ≠ l := by
      rintro rfl
      cases hd.symm.trans hl
    exact ⟨place_of_added hplace hl h.rest hk, (h.rest d hk).symm.trans hd⟩
  · rintro ⟨hplace, hd⟩
    exact ⟨place_of_outlines hplace h.outlines, h.get? hd⟩

theorem Added.holdsFile_iff (h : Added m n root l) (hroot : m.tree.find m.here root = .ok (d, .directory))
    {ns : List (List Char)} {z s : List Char} (hs : suffixOf? z = some s) :
    Access.full.HoldsFile n root d ns z ↔ Access.full.HoldsFile m root d ns z := by
  obtain ⟨c, y, hl⟩ := h.file
  constructor
  · rintro ⟨hlists, hregular | ⟨target, j, hlink, hlooks, hplace, hregular⟩⟩
    · have hk : d ++ ns ++ [z] ≠ l := by
        rintro rfl
        cases (h.suffix z (by simp)).symm.trans hs
      exact ⟨hlists, .inl (hregular.of_ne h.rest hk)⟩
    · have hj : j ≠ l := by
        rintro rfl
        exact h.links d ns z target (h.find_iff.2 hroot) hlink hplace
      have hk : d ++ ns ++ [z] ≠ l := by
        rintro rfl
        cases hlink.symm.trans hl
      rw [h.here] at hplace
      exact ⟨hlists, .inr ⟨target, j, (h.rest _ hk).symm.trans hlink, hlooks, place_of_added hplace hl h.rest hj,
        hregular.of_ne h.rest hj⟩⟩
  · exact fun hm => hm.of_outlines h.outlines h.here

theorem Added.build_iff (h : Added m n root l) (hn : n.tree.Nameable) :
    ((Index.build root).on n).1 = .ok ix ↔ ((Index.build root).on m).1 = .ok ix := by
  by_cases hroot : m.HasDirectory root
  · obtain ⟨d, hroot⟩ := hroot
    have hm : m.tree.Nameable := hn.of_outlines h.outlines
    obtain ⟨_, hixm⟩ := Access.exists_build (a := .full) rfl hroot
    obtain ⟨_, hixn⟩ := Access.exists_build (a := .full) rfl (h.find_iff.2 hroot)
    rw [Access.build_full] at hixm hixn
    have hrecords : Index.ofFiles root (n.answer (Access.full.filesBelow root (n.deepest + 1) [])) =
        Index.ofFiles root (m.answer (Access.full.filesBelow root (m.deepest + 1) [])) := by
      have hroots (sources : List Path) : (Index.ofFiles root sources).root = root := rfl
      refine Index.eq_of_records ((hroots _).trans (hroots _).symm) ?_
      apply List.Pairwise.eq_of_mem_iff (Index.ordered_ofFiles _ _) (Index.ordered_ofFiles _ _)
      intro r
      rw [Access.mem_records_iff hn (h.find_iff.2 hroot), Access.mem_records_iff hm hroot]
      refine exists₃_congr fun ns z s => ?_
      rw [and_left_comm, and_left_comm (b := suffixOf? z = some s)]
      exact and_congr_right fun hs => and_congr_left' (h.holdsFile_iff hroot hs)
    rw [hixm, hixn, hrecords]
  · have hrootn : ¬n.HasDirectory root := fun ⟨d, hd⟩ => hroot ⟨d, h.find_iff.1 hd⟩
    rw [Index.build_of_not_directory hroot, Index.build_of_not_directory hrootn]

open Classical in
/-- A file without the suffix of a source makes no difference to a search that does not read it. -/
theorem discover_iff_of_added (h : Added m n root l) (hn : n.tree.Nameable)
    (hunread : ∀ p ∈ readsOf (discover root entry) n, n.tree.place n.here p true ≠ .ok (.found l)) :
    ((discover root entry).on n).1 = .ok found ↔ ((discover root entry).on m).1 = .ok found := by
  obtain ⟨c, y, hl⟩ := h.file
  constructor
  · intro hfound
    obtain ⟨ix, k, hix, -⟩ := ok_of_on_bind (a := Index.build root) (Prod.ext hfound rfl)
    have hixm : ((Index.build root).on m).1 = .ok ix := (h.build_iff hn).1 (congrArg Prod.fst hix)
    let files : Contents := fun p => if n.tree.place n.here p true = .ok (.found l) then .error .notFound else n.contents p
    have hfiles : ∀ p ∈ readsOf (discover root entry) n, files p = n.contents p := fun p hp => if_neg (hunread p hp)
    rw [on_discover hix hfiles] at hfound
    rw [on_discover (Prod.ext hixm rfl) fun _ _ => rfl]
    refine Index.discoveryOn_mono (fun p b hb => ?_) hfound
    dsimp only [files] at hb
    split at hb
    next => cases hb
    next hp =>
      obtain ⟨j, hj⟩ := exists_leads_of_contents hb
      have hne : j ≠ l := fun he => hp (he ▸ hj.place)
      have hleads := hj.of_added hl h.rest hne
      rw [h.here] at hleads
      exact hleads.readFile
  · intro hfound
    obtain ⟨ix, k, hix, -⟩ := ok_of_on_bind (a := Index.build root) (Prod.ext hfound rfl)
    have hixn : ((Index.build root).on n).1 = .ok ix := (h.build_iff hn).2 (congrArg Prod.fst hix)
    rw [on_discover hix fun _ _ => rfl] at hfound
    rw [on_discover (Prod.ext hixn rfl) fun _ _ => rfl]
    refine Index.discoveryOn_mono (fun p b hb => ?_) hfound
    obtain ⟨j, hj⟩ := exists_leads_of_contents hb
    obtain ⟨x, hx⟩ := hj.file
    rw [contents, h.here]
    exact Leads.readFile ⟨place_of_outlines hj.place h.outlines, x, h.get? hx⟩

end Source

end CBuild
