import CBuild.Proofs.Toml.Editing

/-! A document with arrays put into it, printed and read: each listed key has its array, and every other key
what it had. -/

namespace CBuild.Toml

open Children

section Sections

theorem Statement.sections_known {sts : List Statement} (h : ∀ st ∈ sts, st.Known) :
    (∀ e ∈ (sections sts).1, e.Known lineLeaf true (keyLimit - 1)) ∧
      ∀ p ∈ (sections sts).2, p.1.Known ∧ ∀ e ∈ p.2, e.Known lineLeaf true (keyLimit - 1) := by
  fun_induction sections sts with
  | case1 => exact ⟨by simp, by simp⟩
  | case2 e r ih =>
    rw [List.forall_mem_cons] at h
    exact ⟨List.forall_mem_cons.2 ⟨h.1, (ih h.2).1⟩, (ih h.2).2⟩
  | case3 hd r ih =>
    rw [List.forall_mem_cons] at h
    exact ⟨by simp, List.forall_mem_cons.2 ⟨⟨h.1, (ih h.2).1⟩, (ih h.2).2⟩⟩

theorem grown_of_defineAll? {es : List Entry} {cs : Children}
    (he : ∀ e ∈ es, e.Known lineLeaf true (keyLimit - 1)) (h : Entry.defineAll? [] es = some cs) :
    GrownAll lineLeaf true (keyLimit - 1) cs := by
  have hnil : GrownAll lineLeaf true (keyLimit - 1) [] := trivial
  exact (hnil.of_defineAll? he h).1

theorem ownTables?_read {ss : List (Header × List Entry)} {gs : List (Header × Children)}
    (hk : ∀ p ∈ ss, p.1.Known ∧ ∀ e ∈ p.2, e.Known lineLeaf true (keyLimit - 1))
    (h : ownTables? ss = some gs) : ∀ g ∈ gs, SectionRead g := by
  induction ss generalizing gs with
  | nil =>
    cases h
    simp
  | cons p ss ih =>
    obtain ⟨hd, es⟩ := p
    rw [ownTables?] at h
    obtain ⟨own, hown, h⟩ := Option.bind_eq_some_iff.1 h
    obtain ⟨gs', hgs, rfl⟩ := Option.map_eq_some_iff.1 h
    rw [List.forall_mem_cons] at hk
    exact List.forall_mem_cons.2 ⟨⟨hk.1.1, grown_of_defineAll? hk.1.2 hown⟩, ih hk.2 hgs⟩

theorem upright_of_settled {b a : List Char} {first : Bool} {path : List Key}
    (hb : ∀ c ∈ b, isSpace c = true) (ha : ∀ c ∈ a, isSpace c = true)
    (h : Settled (Key.Ends (b, a)) first path) : ∀ k ∈ path, k.Upright := by
  induction path generalizing first with
  | nil => exact h.elim
  | cons k path ih =>
    cases path with
    | nil =>
      obtain ⟨hk, _, _, ho⟩ := h
      rw [List.forall_mem_singleton]
      refine ⟨hk, ?_, ?_⟩
      · rw [ho]
        rintro _ ⟨⟩
        exact hb
      · rw [ho]
        rintro _ ⟨⟩
        exact ha
    | cons l path =>
      obtain ⟨hk, _, ho, h⟩ := h
      refine List.forall_mem_cons.2 ⟨⟨hk, ?_, ?_⟩, ih h⟩
      · rw [ho]
        rintro _ ⟨⟩
      · rw [ho]
        rintro _ ⟨⟩

theorem SectionRead.known {g : Header × Children} (h : SectionRead g) : KnownSection g := by
  obtain ⟨b, a, hb, ha, hs⟩ := h.header.path
  exact ⟨upright_of_settled hb ha hs, GrownAll.tidyAll g.2 h.own, GrownAll.ownAll g.2 h.own⟩

def Sheet.ofSection (a : (Header × Children) × Nat) : Sheet :=
  ⟨some ⟨a.2, a.1.1.before, a.1.1.after⟩, a.1.1.element, Toml.names a.1.1.path, entriesUnder [] a.1.2⟩

theorem sectionSheets_eq (rank : Nat) (gs : List (Header × Children)) :
    sectionSheets rank gs = (gs.zipIdx rank).map Sheet.ofSection := by
  induction gs generalizing rank with
  | nil => rfl
  | cons g gs ih =>
    rw [sectionSheets, ih, List.zipIdx_cons, List.map_cons]
    rfl

def graftAt? (a : (Header × Children) × Nat) (cs : Children) : Option Children :=
  graft? a.2 a.1 cs

theorem graftAll?_eq_run (rank : Nat) (cs : Children) (gs : List (Header × Children)) :
    graftAll? rank cs gs = run graftAt? cs (gs.zipIdx rank) := by
  induction gs generalizing rank cs with
  | nil => rfl
  | cons g gs ih =>
    rw [graftAll?, List.zipIdx_cons, run_cons]
    exact congrArg (Option.bind _) (funext fun cs => ih (rank + 1) cs)

theorem run_graftAt?_plainAll (cs : Children) (as : List ((Header × Children) × Nat)) :
    run (graft? 0) (plainAll cs) ((as.map Prod.fst).map plainSection) = (run graftAt? cs as).map plainAll := by
  induction as generalizing cs with
  | nil => rfl
  | cons a as ih =>
    have hopen : graft? 0 (plainSection a.1) (plainAll cs) = (graftAt? a cs).map plainAll :=
      open?_plainAll (gain?_plainAll a.1.2) a.1.1 a.2 cs
    rw [List.map_cons, List.map_cons, run_cons, run_cons, hopen]
    cases graftAt? a cs with
    | none => rfl
    | some ds => exact ih ds

theorem concerns_graftAt? (a : (Header × Children) × Nat) : Concerns (headName a.1.1.path) (graftAt? a) :=
  concerns_graft? a.2 a.1

theorem not_mem_of_isFree {keys : List (List Char)} {path : List Key} (hn : path ≠ [])
    (h : isFree keys (names path) = true) : headName path ∉ keys := by
  intro hm
  obtain ⟨k, path, rfl⟩ := List.exists_cons_of_ne_nil hn
  have h := List.all_eq_true.1 h _ hm
  exact absurd rfl (of_decide_eq_true h)

theorem isFree_of_not_mem {keys : List (List Char)} {path : List Key} (h : headName path ∉ keys) :
    isFree keys (names path) = true := by
  refine List.all_eq_true.2 fun key hk => decide_eq_true ?_
  cases path with
  | nil => nofun
  | cons k path =>
    rintro he
    rw [names, List.map_cons, List.head?_cons, Option.some.injEq] at he
    exact h (show k.name ∈ keys from he ▸ hk)

end Sections

section Putting

variable {top cs : Children} {gs : List (Header × Children)} {lists : Lists}

/-- A document whose sections stand apart, as it is read. -/
structure ReadApart (top : Children) (gs : List (Header × Children)) (cs : Children) : Prop where
  grown : GrownAll lineLeaf true (keyLimit - 1) top
  read : ∀ g ∈ gs, SectionRead g
  grafts : graftAll? 1 top gs = some cs

theorem Document.readApart {s : List Char} {d : Document} (h : Document.strict? s = some d) :
    (∃ top gs, ReadApart top gs d.top) ∧ trivia false d.trailing = (d.trailing, []) := by
  obtain ⟨sts, top, gs, hs, ht, hg, hc⟩ := Document.strict?_eq_some.1 h
  obtain ⟨hknown, htrailing⟩ := Statement.readAll?_known hs
  obtain ⟨hes, hss⟩ := Statement.sections_known hknown
  exact ⟨⟨top, gs, grown_of_defineAll? hes ht, ownTables?_read hss hg, hc⟩, htrailing⟩

theorem ReadApart.layout (h : ReadApart top gs cs) :
    TidyAll cs ∧ ownPart cs = top ∧ List.Perm (sheets [] cs) (sectionSheets 1 gs) := by
  have hown := GrownAll.ownAll top h.grown
  obtain ⟨htidy, hpart, hperm⟩ := sheets_graftAll? (fun g hg => (h.read g hg).known)
    (GrownAll.tidyAll top h.grown) h.grafts
  rw [sheets_own hown, List.nil_append] at hperm
  exact ⟨htidy, hpart.trans (OwnAll.ownPart_eq top hown), hperm⟩

def leftSections (keys : List (List Char)) (gs : List (Header × Children)) : List ((Header × Children) × Nat) :=
  (gs.zipIdx 1).filter fun a => isFree keys (names a.1.1.path)

theorem mem_of_mem_leftSections {keys : List (List Char)} {a : (Header × Children) × Nat}
    (h : a ∈ leftSections keys gs) : a.1 ∈ gs :=
  List.fst_mem_of_mem_zipIdx (List.mem_filter.1 h).1

theorem ReadApart.sheets_left (h : ReadApart top gs cs) (lists : Lists) :
    ((Block.ordered (blocksUnder [] (cs.putAll lists))).filter Block.isVisible).map Block.sheet =
      (leftSections (lists.map Prod.fst) gs).map Sheet.ofSection := by
  obtain ⟨htidy, _, hperm⟩ := h.layout
  have hleft : List.Perm (sheets [] (cs.putAll lists))
      ((sectionSheets 1 gs).filter fun s => isFree (lists.map Prod.fst) s.names) := by
    rw [sheets_putAll htidy]
    exact hperm.filter _
  rw [map_sheet_ordered hleft
    (fun s hs => (rank_of_mem_sectionSheets (List.mem_filter.1 hs).1).1)
    ((pairwise_sectionSheets 1 gs).filter _), sectionSheets_eq, List.filter_map, leftSections]
  rfl

theorem ReadApart.prints (h : ReadApart top gs cs) (lists : Lists) :
    List.Forall₂ Sheet.Prints
      (((Block.ordered (blocksUnder [] (cs.putAll lists))).filter Block.isVisible).map Block.sheet)
      ((leftSections (lists.map Prod.fst) gs).map Prod.fst) := by
  rw [h.sheets_left, List.forall₂_map_left_iff, List.forall₂_map_right_iff, List.forall₂_same]
  exact fun a _ => ⟨a.2, rfl⟩

theorem only_printedPart (cs : Children) (name : List Char) :
    only (printedPart cs) name = printedPart (cs.only name) := by
  rw [printedPart, printedPart, ← only_ownPart, only, only, List.filter_map]
  refine congrArg (List.map closeChild) (List.filter_congr fun p _ => ?_)
  obtain ⟨k, n⟩ := p
  cases n <;> rfl

theorem ReadApart.only_unlisted (h : ReadApart top gs cs) {lists : Lists} {name : List Char}
    (hn : name ∉ lists.map Prod.fst) : only (printedPart (cs.putAll lists)) name = top.only name := by
  obtain ⟨_, hpart, _⟩ := h.layout
  rw [only_printedPart, putAll_only hn, printedPart, ← only_ownPart, hpart]
  refine (List.map_congr_left fun p hp => ?_).trans (List.map_id _)
  exact closeChild_eq (((grownAll_iff top).1 h.grown).1 p (List.mem_filter.1 hp).1)

/-- What the sections that are left make of the edited top table. -/
theorem ReadApart.run_left (h : ReadApart top gs cs) (lists : Lists) :
    ∃ ds, run graftAt? (printedPart (cs.putAll lists)) (leftSections (lists.map Prod.fst) gs) = some ds ∧
      (∀ name ∉ lists.map Prod.fst, ds.only name = cs.only name) ∧
      ∀ name ∈ lists.map Prod.fst, ds.only name = only (printedPart (cs.putAll lists)) name := by
  have hrun : run graftAt? top (gs.zipIdx 1) = some cs := by
    rw [← graftAll?_eq_run, h.grafts]
  have hsame : ∀ name ∉ lists.map Prod.fst,
      (leftSections (lists.map Prod.fst) gs).filter (fun a => headName a.1.1.path = name) =
        (gs.zipIdx 1).filter fun a => headName a.1.1.path = name := by
    intro name hn
    rw [leftSections, List.filter_filter]
    refine List.filter_congr fun a _ => ?_
    by_cases ha : headName a.1.1.path = name
    · rw [isFree_of_not_mem (ha ▸ hn), Bool.and_true]
    · simp [ha]
  have hfree : ∀ a ∈ leftSections (lists.map Prod.fst) gs, headName a.1.1.path ∉ lists.map Prod.fst := by
    intro a ha
    obtain ⟨_, _, _, _, hsettled⟩ := (h.read a.1 (mem_of_mem_leftSections ha)).header.path
    exact not_mem_of_isFree hsettled.ne_nil (List.mem_filter.1 ha).2
  -- a section concerns one key alone, and no section that is left concerns a listed one
  obtain ⟨ds, hds, hagree, hrest⟩ := run_agree concerns_graftAt? hrun
    (fun a ha => ⟨h.only_unlisted (hfree a ha), hsame _ (hfree a ha)⟩)
  exact ⟨ds, hds, fun name hn => hagree name (h.only_unlisted hn) (hsame name hn),
    fun name hn => hrest name fun a ha he => hfree a ha (he ▸ hn)⟩

theorem ReadApart.strict?_of_run (h : ReadApart top gs cs) (hd : (lists.map Prod.fst).Nodup) {ds : Children}
    (hrun : run graftAt? (printedPart (cs.putAll lists)) (leftSections (lists.map Prod.fst) gs) = some ds)
    {t : List Char} (ht : trivia false t = (t, [])) :
    ∃ es gs', Document.strict? ((cs.putAll lists).text ++ t) = some ⟨es, t⟩ ∧
      Statement.readAll? ((cs.putAll lists).text ++ t) =
        some ((entriesUnder [] (printedPart (cs.putAll lists))).map .entry ++ sectionLines gs', t) ∧
      plainAll es = plainAll ds ∧ ReadApart (printedPart (cs.putAll lists)) gs' es ∧
      Reprinted ((Block.ordered (blocksUnder [] (cs.putAll lists))).filter Block.isVisible)
        ((leftSections (lists.map Prod.fst) gs).map Prod.fst) gs' := by
  obtain ⟨htidy, hpart, _⟩ := h.layout
  have hplain := run_graftAt?_plainAll (printedPart (cs.putAll lists)) (leftSections (lists.map Prod.fst) gs)
  rw [hrun, Option.map_some] at hplain
  have hlines : (entriesUnder [] (cs.putAll lists)).flatMap Entry.line =
      (entriesUnder [] (printedPart (cs.putAll lists))).flatMap Entry.line := by
    rw [printedPart, lines_closeChild, entriesUnder_ownPart]
  have hgrown := grownAll_printedPart htidy (hpart ▸ h.grown) hd
  obtain ⟨es, gs', hparse, hall, hes, hgraft, hread, hre⟩ := Document.strict?_printed (htidy.putAll lists) hgrown hlines
    (h.prints lists) (fun g hg => by
      obtain ⟨a, ha, rfl⟩ := List.mem_map.1 hg
      exact h.read _ (mem_of_mem_leftSections ha)) hplain ht
  exact ⟨es, gs', hparse, hall, hes, ⟨hgrown, hread, hgraft⟩, hre⟩

/-- The edited document says what it should. -/
theorem ReadApart.strict?_putAll (h : ReadApart top gs cs) (hd : (lists.map Prod.fst).Nodup)
    {t : List Char} (ht : trivia false t = (t, [])) :
    ∃ d, Document.strict? ((cs.putAll lists).text ++ t) = some d ∧
      (∀ name ∉ lists.map Prod.fst, only (plainAll d.top) name = plainAll (cs.only name)) ∧
      ∀ p ∈ lists, ∃ k after,
        only (plainAll d.top) p.1 = plainAll [(k, .value [' '] (arrayValue p.2) after)] ∧ k.name = p.1 := by
  obtain ⟨htidy, hpart, _⟩ := h.layout
  obtain ⟨ds, hrun, hother, hlisted⟩ := h.run_left lists
  obtain ⟨es, _, hparse, -, hes, -⟩ := h.strict?_of_run hd hrun ht
  refine ⟨⟨es, t⟩, hparse, fun name hn => ?_, fun p hp => ?_⟩
  · rw [hes, only_plainAll, hother name hn]
  · obtain ⟨k, after, he, hk, _⟩ := grown_arrayUnder htidy (hpart ▸ h.grown) p.1 p.2
    refine ⟨k, after, ?_, hk⟩
    rw [hes, only_plainAll, hlisted p.1 (List.mem_map_of_mem hp), ← only_plainAll, only_plainAll_printedPart,
      putAll_only_self hd hp htidy, he, ownPart_single, Node.ownUnder]

end Putting

end CBuild.Toml
