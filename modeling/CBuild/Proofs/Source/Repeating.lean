import CBuild.Proofs.Source.Naming
import CBuild.Proofs.Source.Rounds

/-! Files that are listed twice. Where there are no links a file has one path by names from the root, so no two of the
files that are found are the same. Only the entry point may be listed again, under a path that goes up or starts at the
top directory. -/

namespace CBuild

open CBuild.Action Machine FileTree

namespace FileTree

variable {t : FileTree} {links : Nat} {here d l : Location} {parts : List (List Char)} {root p : Path}

/-- There are no links in the tree. -/
def Linkless (t : FileTree) : Prop :=
  ∀ x ∈ t.entries, ¬∃ target, x.2 = .link target

instance (t : FileTree) : Decidable t.Linkless :=
  decidable_of_iff (∀ x ∈ t.entries, (match x.2 with | .link _ => false | _ => true) = true) <| by
    refine forall₂_congr fun x _ => ?_
    rcases x with ⟨l, b | target | _⟩
    · simp
    · simp
    · simp

theorem Linkless.get?_ne (h : t.Linkless) {target : Path} : t.get? l ≠ some (.link target) := by
  intro hl
  by_cases hnil : l = []
  · rw [hnil] at hl
    cases hl
  · exact h _ ((get?_eq_some_iff hnil).1 hl) ⟨target, rfl⟩

theorem Walks.of_linkless (h : Walks t true links here parts (.found l)) (ht : t.Linkless) (hup : ['.', '.'] ∉ parts) :
    l = here ++ parts.filter fun part => !Path.isIdle part := by
  have named {part : List Char} {rest : List (List Char)} (hn : IsName part) :
      (part :: rest).filter (fun part => !Path.isIdle part) = part :: rest.filter fun part => !Path.isIdle part := by
    apply List.filter_cons_of_pos
    rw [Bool.not_eq_true', ← Bool.not_eq_true, Path.isIdle_iff]
    exact hn.not_idle
  generalize hq : Place.found l = q at h
  induction h with
  | stay =>
    cases hq
    simp
  | idle h _ ih =>
    rw [List.mem_cons, not_or] at hup
    rw [List.filter_cons_of_neg (by simp [Path.isIdle, h])]
    exact ih hup.2 hq
  | up => exact absurd List.mem_cons_self hup
  | absent => cases hq
  | directory hn _ _ ih =>
    rw [List.mem_cons, not_or] at hup
    rw [named hn, ih hup.2 hq, List.append_assoc]
    rfl
  | file hn _ =>
    cases hq
    rw [named hn]
    rfl
  | itself _ _ hf => cases hf
  | link _ hg _ _ _ => exact absurd hg ht.get?_ne

theorem place_words (ht : t.Linkless) (hroot : t.find here root = .ok (d, .directory)) (hp : p.isAbsolute = false)
    (hup : ¬p.GoesUp) (h : t.place here (root / p) true = .ok (.found l)) : l = d ++ p.words := by
  obtain ⟨hplace, hd⟩ := find_eq_ok_iff.1 hroot
  obtain ⟨k, -, hdiv⟩ := exists_place_div hplace hd
  have hw : Walks t true k d p.parts (.found l) := .of_eq_ok ((hdiv p hp (spelled_of_place h)).symm.trans h)
  rw [Path.goesUp_iff] at hup
  exact hw.of_linkless ht hup

end FileTree

namespace Path

variable {p : Path} {ks : List (List Char)}

theorem goesUp_iff_words : p.GoesUp ↔ ['.', '.'] ∈ p.words := by
  rw [goesUp_iff, mem_words]
  exact ⟨fun h => ⟨h, by decide⟩, fun h => h.1⟩

theorem IsFileName.isWord {n : List Char} (h : IsFileName n) : IsWord n :=
  ⟨h.isPart, h.not_idle⟩

/-- A path that is spelled by its words, and goes down by each of them. -/
structure LeadsDown (p : Path) : Prop where
  spelled : p = ofNames p.words
  not_up : ¬p.GoesUp
  relative : p.isAbsolute = false

theorem Named.leadsDown (h : p.Named) : p.LeadsDown := by
  obtain ⟨ns, n, rfl, hnames⟩ := h
  have hwords : (ofNames (ns ++ [n])).words = ns ++ [n] := words_ofNames fun x hx => (hnames x hx).isWord
  refine ⟨by rw [hwords], ?_, isAbsolute_ofNames fun x hx => (hnames x hx).isPart⟩
  rw [goesUp_iff_words, hwords]
  exact fun hup => (hnames _ hup).not_up rfl

end Path

namespace Source

variable {root entry : Path} {m n k : Machine} {ix : Index} {found : Discovery} {s : Resolution} {d l : Location}
  {b : Bytes}

/-- Two texts that no file goes by both, as seen from the root. -/
def Apart (m : Machine) (root : Path) (f g : String) : Prop :=
  ∀ l, m.tree.place m.here (root / Path.ofString f) true = .ok (.found l) →
    m.tree.place m.here (root / Path.ofString g) true ≠ .ok (.found l)

theorem nodup_companions {files : Contents} {start : Path} (hs : ix.traceOn files start = .ok s) :
    (s.companions.map Record.relative).Nodup := by
  let Distinct (s : Resolution) (_ : List (Task ix)) : Prop := (s.companions.map Record.relative).Nodup
  have hvisit (s : Resolution) (r : ix.Member) (rest : List ix.Member) (stack : List (Task ix))
      (_ : ¬s.hasVisited r.val) (h : Distinct s (.follow (r :: rest) :: stack)) :
      Distinct (s.meet r).1 ((s.meet r).2 ++ .follow rest :: stack) := by
    show ((s.meet r).1.companions.map Record.relative).Nodup
    rcases Moment.companions_meet s r with hsame | ⟨c, -, hnew, hmore⟩
    · rw [hsame]
      exact h
    · rw [Resolution.hasCompanion_iff] at hnew
      rw [hmore]
      exact Moment.nodup_concat h hnew
  have hrun : ∀ s', ix.traceOn files start = .ok s' → (s'.companions.map Record.relative).Nodup := by
    rw [Resolution.traceOn_eq_runOn]
    refine Resolution.runOn_rule files (P := Distinct)
      (Q := fun answer => ∀ s', answer = .ok s' → (s'.companions.map Record.relative).Nodup)
      ?_ ?_ ?_ ?_ ?_ hvisit {} [.scan start] List.nodup_nil
    · intro s h s' hs'
      cases hs'
      exact h
    · exact fun s p e stack _ _ s' => nofun
    · exact fun s p b stack _ h => h
    · exact fun s stack h => h
    · exact fun s r rest stack _ h => h
  exact hrun s hs

theorem ofString_toString (p : Path) : Path.ofString p.toString = p :=
  ofString_ofList p.chars

theorem toString_ofString (f : String) : (Path.ofString f).toString = f := by
  simp [Path.ofString, Path.toString]

/-- Different paths that lead down lead to different files. -/
theorem apart_of_leadsDown {p q : Path} (hlinks : m.tree.Linkless) (hroot : m.HasDirectory root) (hp : p.LeadsDown)
    (hq : q.LeadsDown) (hne : p ≠ q) : Apart m root p.toString q.toString := by
  obtain ⟨d, hd⟩ := hroot
  intro l hlp hlq
  rw [ofString_toString] at hlp hlq
  have hsame : d ++ p.words = d ++ q.words :=
    (place_words hlinks hd hp.relative hp.not_up hlp).symm.trans (place_words hlinks hd hq.relative hq.not_up hlq)
  apply hne
  rw [hp.spelled, hq.spelled, List.append_cancel_left hsame]

theorem isAbsolute_slashed {p : Path} (h : p.isAbsolute = true) : (Path.mk p.slashed).isAbsolute = true := by
  obtain ⟨cs, hcs⟩ := List.head?_eq_some_iff.1 (of_decide_eq_true h)
  unfold Path.isAbsolute Path.slashed Text.slashed
  rw [hcs]
  rfl

theorem Searched.first (hslash : m.tree.Unslashed) (h : Searched m root entry ix s) :
    let q := Path.ofString (String.ofList ((root / entry).relativeTo root).slashed)
    q.isAbsolute = true ∨ q = .ofNames q.words := by
  intro q
  have hq : q = ⟨((root / entry).relativeTo root).slashed⟩ := ofString_ofList _
  obtain ⟨d, hd⟩ := h.rooted
  obtain ⟨l, b, hl⟩ := h.start
  have hclean : ∀ part ∈ (root / entry).parts, '\\' ∉ part := hslash.not_mem (walks_of_place hl.place)
  rcases Path.relativeTo_cases (spelled_of_place (find_eq_ok_iff.1 hd).1).written entry with habsolute | ⟨ks, hks, hwords⟩
  · left
    rw [hq]
    exact isAbsolute_slashed habsolute
  · right
    have hunslashed : ∀ k ∈ ks, '\\' ∉ k := by
      intro k hk
      rcases (hwords k hk).2 with rfl | hmem
      · decide
      · exact hclean k hmem
    have hnames : q = .ofNames ks := by
      rw [hq, hks, slashed_ofNames hunslashed]
    rw [hnames, Path.words_ofNames fun k hk => (hwords k hk).1]

/-- Where there are no links, no two of the companions that are listed are one file, and the entry point is listed again
only when its name goes up or is absolute. As seen from the root, an entry point has such a name only when it is spelled
so. -/
theorem discover_apart (hnames : m.tree.WellNamed) (hslash : m.tree.Unslashed) (hlinks : m.tree.Linkless)
    (h : (discover root entry).on m = (.ok found, n)) :
    ∃ f fs, found.files = f :: fs ∧ fs.Pairwise (Apart m root) ∧
      (∀ g ∈ fs, ¬Apart m root f g → (Path.ofString f).isAbsolute = true ∨ (Path.ofString f).GoesUp) ∧
      (entry.isAbsolute = false → (Path.ofString f).isAbsolute = false ∧ ((Path.ofString f).GoesUp ↔ entry.GoesUp)) := by
  obtain ⟨ix, s, hs, rfl⟩ := searched_of_discover hnames h
  obtain ⟨f, fs, hfiles, hf, hfs⟩ := hs.files hslash
  refine ⟨f, fs, hfiles, ?_, ?_, ?_⟩
  · have hdistinct : s.companions.reverse.Pairwise fun c c' => c.relative ≠ c'.relative := by
      have hnodup := nodup_companions hs.traced
      rw [List.Nodup, List.pairwise_map] at hnodup
      rw [List.pairwise_reverse]
      exact hnodup.imp fun hne hsame => hne hsame.symm
    rw [hfs]
    apply List.Pairwise.filter
    rw [List.pairwise_map]
    refine hdistinct.imp_of_mem fun hc hc' hne => ?_
    have hnamed {c : Record} (hc : c ∈ s.companions.reverse) : c.relative.Named :=
      (hs.companions c (List.mem_reverse.1 hc)).2.1
    exact apart_of_leadsDown hlinks hs.rooted (hnamed hc).leadsDown (hnamed hc').leadsDown hne
  · intro g hg hshared
    by_contra hdown
    rw [not_or] at hdown
    rw [hfs] at hg
    obtain ⟨hmem, hother⟩ := List.mem_filter.1 hg
    obtain ⟨c, hc, rfl⟩ := List.mem_map.1 hmem
    have hcompanion : c.relative.LeadsDown := (hs.companions c (List.mem_reverse.1 hc)).2.1.leadsDown
    have hspelled := hs.first hslash
    rw [← hf] at hspelled
    have hentry : (Path.ofString f).LeadsDown :=
      ⟨hspelled.resolve_left hdown.1, hdown.2, Bool.eq_false_iff.2 hdown.1⟩
    have hne : Path.ofString f ≠ c.relative := by
      intro hsame
      rw [← hsame, toString_ofString] at hother
      simp at hother
    have hapart := apart_of_leadsDown hlinks hs.rooted hentry hcompanion hne
    rw [toString_ofString] at hapart
    exact hshared hapart
  · intro hentry
    obtain ⟨d, hd⟩ := hs.rooted
    obtain ⟨l, b, hl⟩ := hs.start
    have hclean : ∀ x ∈ entry.words, '\\' ∉ x := fun x hx =>
      no_backslash_of_leads hslash hd hentry hl x (Path.mem_words.1 hx).1
    have hspelled : Path.ofString f = .ofNames entry.words := by
      rw [hf, ofString_ofList, Path.relativeTo_div (spelled_of_place (find_eq_ok_iff.1 hd).1).written hentry,
        slashed_ofNames hclean]
    rw [hspelled, Path.goesUp_iff_words, Path.goesUp_iff_words,
      Path.words_ofNames fun x => Path.isWord_of_mem_words]
    exact ⟨Path.isAbsolute_ofNames fun x => Path.isPart_of_mem_words, Iff.rfl⟩

def coupled : Machine where
  tree := .ofEntries [(["a.c".toList], .file (Utf8.encode "#include \"a.h\"") false), (["a.h".toList], .file [] false),
    (["s".toList], .directory)]
  here := []

theorem discover_apart_coupled : ∃ n, coupled.tree.WellNamed ∧ coupled.tree.Unslashed ∧ coupled.tree.Linkless ∧
    (discover (Path.ofString ".") (Path.ofString "s/../a.c")).on coupled = (.ok ⟨["."], ["s/../a.c", "a.c"]⟩, n) ∧
    ¬Apart coupled (Path.ofString ".") "s/../a.c" "a.c" ∧ (Path.ofString "s/../a.c").GoesUp := by
  have hnames : coupled.tree.WellNamed := by decide
  have hslash : coupled.tree.Unslashed := by decide
  have hlinks : coupled.tree.Linkless := by decide
  have hrun : ((discover (Path.ofString ".") (Path.ofString "s/../a.c")).on coupled).1 =
      .ok ⟨["."], ["s/../a.c", "a.c"]⟩ := by cbv
  have hentry : coupled.tree.place [] (Path.ofString "." / Path.ofString "s/../a.c") true =
      .ok (.found ["a.c".toList]) := by cbv
  have hcompanion : coupled.tree.place [] (Path.ofString "." / Path.ofString "a.c") true =
      .ok (.found ["a.c".toList]) := by cbv
  have hshared : ¬Apart coupled (Path.ofString ".") "s/../a.c" "a.c" := fun hapart => hapart _ hentry hcompanion
  obtain ⟨f, fs, hfiles, -, hagain, -⟩ := discover_apart hnames hslash hlinks (Prod.ext hrun rfl)
  cases hfiles
  have hrelative : (Path.ofString "s/../a.c").isAbsolute ≠ true := by decide
  have hup := (hagain "a.c" (by decide) hshared).resolve_left hrelative
  exact ⟨_, hnames, hslash, hlinks, Prod.ext hrun rfl, hshared, hup⟩

end Source
end CBuild
