import CBuild.Proofs.Toml.Order
import CBuild.Proofs.Toml.Recorded

/-! A document that is printed reads as the same lines: those of the top table, then each section where its
header stood. -/

namespace CBuild.Toml

open Children

section Upright

mutual

theorem Node.upright_of_mem_blocks {path : List Key} (hp : ∀ k ∈ path, k.Upright) {k : Key} :
    (n : Node) → n.Tidy k → ∀ b ∈ n.blocks (path ++ [k]), ∀ l ∈ b.path, l.Upright
  | .value _ _ _, _ => by simp [Node.blocks]
  | .table .dotted cs, h => by
    rw [Node.Tidy] at h
    rw [Node.blocks]
    have hk : ∀ l ∈ path ++ [k], l.Upright := List.forall_mem_append.2 ⟨hp, by simpa using h.1⟩
    exact upright_of_mem_blocksUnder hk cs h.2.2
  | .table .implied cs, h => by
    rw [Node.Tidy] at h
    have hk : ∀ l ∈ path ++ [k], l.Upright := List.forall_mem_append.2 ⟨hp, by simpa using h.1⟩
    rw [Node.blocks, List.forall_mem_cons]
    exact ⟨hk, upright_of_mem_blocksUnder hk cs h.2.2⟩
  | .table (.headed _) cs, h => by
    rw [Node.Tidy] at h
    have hk : ∀ l ∈ path ++ [k], l.Upright := List.forall_mem_append.2 ⟨hp, by simpa using h.1⟩
    rw [Node.blocks, List.forall_mem_cons]
    exact ⟨hk, upright_of_mem_blocksUnder hk cs h.2.2⟩
  | .tables es, h => by
    rw [Node.Tidy] at h
    rw [Node.blocks]
    exact upright_of_mem_elementBlocks (List.forall_mem_append.2 ⟨hp, by simpa using h.1⟩) es h.2

theorem upright_of_mem_blocksUnder {path : List Key} (hp : ∀ k ∈ path, k.Upright) :
    (cs : List (Key × Node)) → TidyAll cs → ∀ b ∈ blocksUnder path cs, ∀ l ∈ b.path, l.Upright
  | [], _ => by simp [blocksUnder]
  | (k, n) :: r, h => by
    rw [TidyAll] at h
    rw [blocksUnder]
    exact List.forall_mem_append.2
      ⟨Node.upright_of_mem_blocks hp n h.1, upright_of_mem_blocksUnder hp r h.2.2⟩

theorem upright_of_mem_elementBlocks {path : List Key} (hp : ∀ k ∈ path, k.Upright) :
    (es : List (Heading × List (Key × Node))) → TidyTables es →
      ∀ b ∈ elementBlocks path es, ∀ l ∈ b.path, l.Upright
  | [], _ => by simp [elementBlocks]
  | (_, cs) :: r, h => by
    rw [TidyTables] at h
    rw [elementBlocks, List.cons_append, List.forall_mem_cons]
    exact ⟨hp, List.forall_mem_append.2
      ⟨upright_of_mem_blocksUnder hp cs h.1, upright_of_mem_elementBlocks hp r h.2⟩⟩

end

end Upright

section Text

def Sheet.Prints (s : Sheet) (g : Header × Children) : Prop :=
  ∃ rank, s = ⟨some ⟨rank, g.1.before, g.1.after⟩, g.1.element, Toml.names g.1.path, entriesUnder [] g.2⟩

/-- What is known of a section that has been read. -/
structure SectionRead (g : Header × Children) : Prop where
  header : g.1.Known
  own : GrownAll lineLeaf true (keyLimit - 1) g.2

def sectionLines (gs : List (Header × Children)) : List Statement :=
  gs.flatMap fun g => .header g.1 :: (entriesUnder [] g.2).map .entry

theorem Block.text_eq {b : Block} (h : b.heading.isSome = true) (before before' : List Char) :
    b.text before = b.text before' := by
  obtain ⟨hd, hb⟩ := Option.isSome_iff_exists.1 h
  rw [Block.text, Block.text, hb]
  rfl

theorem Children.text_eq {cs : Children}
    (h : ∀ b ∈ (Block.ordered (blocksUnder [] cs)).filter Block.isVisible, b.heading.isSome = true) :
    cs.text = (entriesUnder [] cs).flatMap Entry.line ++
      ((Block.ordered (blocksUnder [] cs)).filter Block.isVisible).flatMap (Block.text []) := by
  have fold (bs : List Block) (hb : ∀ b ∈ bs, b.heading.isSome = true) (done : List Char) :
      bs.foldl (fun done b => done ++ b.text (if done = [] then [] else ['\n'])) done =
        done ++ bs.flatMap (Block.text []) := by
    induction bs generalizing done with
    | nil => simp
    | cons b bs ih =>
      rw [List.foldl_cons, ih fun b h => hb b (List.mem_cons_of_mem _ h),
        Block.text_eq (hb b List.mem_cons_self) _ [], List.flatMap_cons, List.append_assoc]
  exact fold _ h _

theorem plain_of_names {p q : List Key} (h : names p = names q) : p.map Key.plain = q.map Key.plain := by
  have hp (p : List Key) : p.map Key.plain = (names p).map fun n => ⟨n, [], ([], []), none⟩ := by
    rw [names, List.map_map]
    rfl
  rw [hp, hp, h]

/-- The sections as they are read from print: the keys of each header are those of the block that is printed, as
they read in its line. -/
structure Reprinted (bs : List Block) (gs gs' : List (Header × Children)) : Prop where
  paths : List.Forall₂ (fun b g' => g'.1.path = reread b.around b.path) bs gs'
  rest : List.Forall₂ (fun g g' => g' = (⟨g.1.before, g.1.element, g'.1.path, g.1.after⟩, g.2)) gs gs'

theorem readAll?_blocks {bs : List Block} {gs : List (Header × Children)}
    (hp : List.Forall₂ (fun b g => b.sheet.Prints g) bs gs) (hg : ∀ g ∈ gs, SectionRead g)
    (hu : ∀ b ∈ bs, ∀ k ∈ b.path, k.Upright) :
    ∃ gs', Reprinted bs gs gs' ∧ gs'.map plainSection = gs.map plainSection ∧
      ∀ rest, Statement.readAll? (bs.flatMap (Block.text []) ++ rest) =
        (Statement.readAll? rest).map fun (sts, t) => (sectionLines gs' ++ sts, t) := by
  induction hp with
  | nil => exact ⟨[], ⟨.nil, .nil⟩, rfl, fun rest => by simp [sectionLines]⟩
  | @cons b g bs gs hb _ ih =>
    obtain ⟨gs', hre, hplain, hread⟩ := ih (fun g h => hg g (List.mem_cons_of_mem _ h))
      fun b h => hu b (List.mem_cons_of_mem _ h)
    obtain ⟨hknown, hgrown⟩ := hg g List.mem_cons_self
    obtain ⟨rank, hsheet⟩ := hb
    rw [Block.sheet, Sheet.mk.injEq] at hsheet
    obtain ⟨hheading, helement, hnames, hentries⟩ := hsheet
    have hlength : b.path.length = g.1.path.length := by
      simpa only [names, List.length_map] using congrArg List.length hnames
    obtain ⟨_, _, _, _, hsettled⟩ := hknown.path
    have hne : b.path ≠ [] := by
      rw [← List.length_pos_iff, hlength, List.length_pos_iff]
      exact hsettled.ne_nil
    obtain ⟨u, hspelled, htext⟩ := Block.spelled_header hheading hknown.before hknown.after
      hne (hu b List.mem_cons_self) (hlength ▸ hknown.short)
    refine ⟨(⟨g.1.before, g.1.element, reread b.around b.path, g.1.after⟩, g.2) :: gs',
      ⟨.cons rfl hre.paths, .cons rfl hre.rest⟩, ?_, fun rest => ?_⟩
    · rw [List.map_cons, List.map_cons, hplain]
      refine congrArg (· :: _) ?_
      simp only [plainSection, Header.plain, plain_of_names ((names_reread _ _).trans hnames)]
    · rw [List.flatMap_cons, htext, List.append_assoc, List.append_assoc, List.append_assoc,
        Statement.readAll?_spelled hspelled, hentries, readAll?_entries (GrownAll.known g.2 hgrown),
        hread, Option.map_map, Option.map_map, helement]
      refine congrArg (Option.map · _) (funext fun p => ?_)
      simp [sectionLines]

theorem sections_sectionLines (gs : List (Header × Children)) :
    Statement.sections (sectionLines gs) = ([], gs.map fun g => (g.1, entriesUnder [] g.2)) := by
  induction gs with
  | nil => rfl
  | cons g gs ih =>
    rw [sectionLines, List.flatMap_cons, ← sectionLines, List.cons_append, Statement.sections,
      Statement.sections_entries, ih, List.append_nil, List.map_cons]

theorem ownTables?_sections {gs : List (Header × Children)} (h : ∀ g ∈ gs, OwnAll g.2) :
    ownTables? (gs.map fun g => (g.1, entriesUnder [] g.2)) = some gs := by
  induction gs with
  | nil => rfl
  | cons g gs ih =>
    rw [List.map_cons, ownTables?, OwnAll.rebuild g.2 (h g List.mem_cons_self) (by simp),
      ih fun g hg => h g (List.mem_cons_of_mem _ hg)]
    rfl

theorem exists_of_forall₂ {α β : Type} {R : α → β → Prop} {as : List α} {bs : List β}
    (h : List.Forall₂ R as bs) {a : α} (ha : a ∈ as) : ∃ b ∈ bs, R a b := by
  induction h with
  | nil => cases ha
  | @cons x b as bs hr _ ih =>
    rcases List.mem_cons.1 ha with rfl | ha
    · exact ⟨b, List.mem_cons_self, hr⟩
    · obtain ⟨b', hb, hr'⟩ := ih ha
      exact ⟨b', List.mem_cons_of_mem _ hb, hr'⟩

theorem mem_ordered {b : Block} {bs : List Block} : b ∈ Block.ordered bs ↔ b ∈ bs := by
  have hperm := (List.mergeSort_perm (Block.ranked 0 bs) fun a b => a.1 ≤ b.1).map Prod.snd
  rw [map_snd_ranked] at hperm
  exact hperm.mem_iff

theorem Reprinted.own {bs : List Block} {gs gs' : List (Header × Children)} (h : Reprinted bs gs gs') :
    gs'.map Prod.snd = gs.map Prod.snd := by
  obtain ⟨-, hrest⟩ := h
  induction hrest with
  | nil => rfl
  | cons he _ ih => rw [List.map_cons, List.map_cons, ih, he]

/-- A document whose tables print as sections, and whose top table prints as one that has grown from lines,
reads as what the sections make of that table. -/
theorem Document.strict?_printed {cs top ds : Children} {gs : List (Header × Children)} {t : List Char}
    (hc : TidyAll cs) (ht : GrownAll lineLeaf true (keyLimit - 1) top)
    (hl : (entriesUnder [] cs).flatMap Entry.line = (entriesUnder [] top).flatMap Entry.line)
    (hs : List.Forall₂ Sheet.Prints
      (((Block.ordered (blocksUnder [] cs)).filter Block.isVisible).map Block.sheet) gs)
    (hg : ∀ g ∈ gs, SectionRead g) (hr : run (graft? 0) (plainAll top) (gs.map plainSection) = some ds)
    (htr : trivia false t = (t, [])) :
    ∃ es gs', strict? (cs.text ++ t) = some ⟨es, t⟩ ∧
      Statement.readAll? (cs.text ++ t) = some ((entriesUnder [] top).map .entry ++ sectionLines gs', t) ∧
      plainAll es = ds ∧ graftAll? 1 top gs' = some es ∧ (∀ g ∈ gs', SectionRead g) ∧
      Reprinted ((Block.ordered (blocksUnder [] cs)).filter Block.isVisible) gs gs' := by
  have hheads : ∀ b ∈ (Block.ordered (blocksUnder [] cs)).filter Block.isVisible,
      b.heading.isSome = true := by
    intro b hb
    obtain ⟨g, _, rank, hsheet⟩ := exists_of_forall₂ hs (List.mem_map_of_mem hb)
    rw [Block.sheet, Sheet.mk.injEq] at hsheet
    rw [hsheet.1]
    rfl
  have hup : ∀ b ∈ (Block.ordered (blocksUnder [] cs)).filter Block.isVisible, ∀ k ∈ b.path, k.Upright := by
    intro b hb
    have hnil : ∀ k ∈ ([] : List Key), k.Upright := nofun
    refine upright_of_mem_blocksUnder hnil cs hc b ?_
    exact mem_ordered.1 (List.mem_filter.1 hb).1
  rw [List.forall₂_map_left_iff] at hs
  obtain ⟨gs', hre, hplain, hread⟩ := readAll?_blocks hs hg hup
  have htext : Statement.readAll? (cs.text ++ t) =
      some ((entriesUnder [] top).map .entry ++ sectionLines gs', t) := by
    rw [Children.text_eq hheads, hl, List.append_assoc, readAll?_entries (GrownAll.known top ht), hread,
      Statement.readAll?_of_trivia htr]
    simp
  have hgs : ∀ g ∈ gs', SectionRead g := by
    intro g hg'
    refine ⟨(Statement.readAll?_known htext).1 (.header g.1) (List.mem_append_right _ ?_), ?_⟩
    · exact List.mem_flatMap.2 ⟨g, hg', List.mem_cons_self⟩
    · have hm : g.2 ∈ gs.map Prod.snd := hre.own ▸ List.mem_map_of_mem hg'
      obtain ⟨g'', hg'', he⟩ := List.mem_map.1 hm
      exact he ▸ (hg g'' hg'').own
  rw [← hplain, ← graftAll?_plainAll 1] at hr
  obtain ⟨es, hes, rfl⟩ := Option.map_eq_some_iff.1 hr
  have htop : Entry.defineAll? [] (entriesUnder [] top) = some ([] ++ top) :=
    OwnAll.rebuild top (GrownAll.ownAll top ht) (by simp)
  refine ⟨es, gs', ?_, htext, rfl, hes, hgs, hre⟩
  refine strict?_eq_some.2 ⟨_, top, gs', (Statement.unmarked_of_readAll? htext).symm ▸ htext, ?_, ?_, hes⟩
  · rw [Statement.sections_entries, sections_sectionLines, List.append_nil, htop, List.nil_append]
  · rw [Statement.sections_entries, sections_sectionLines]
    exact ownTables?_sections fun g hg' => GrownAll.ownAll g.2 (hgs g hg').own

end Text

end CBuild.Toml
