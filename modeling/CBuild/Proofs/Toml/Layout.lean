import CBuild.Proofs.Toml.Tidy

/-! The tables of a document are printed where their headers stood. Each section that is grafted adds its own
lines to those that are there and changes none of the others. -/

namespace CBuild.Toml

open Children

/-- A table that is printed: its header line by the names of its keys, and the lines below. -/
structure Sheet where
  heading : Option Heading
  element : Bool
  names : List (List Char)
  entries : List Entry

def Sheet.isVisible (s : Sheet) : Bool :=
  s.heading.isSome || !s.entries.isEmpty

def Block.sheet (b : Block) : Sheet :=
  ⟨b.heading, b.element, names b.path, b.entries⟩

def sheets (path : List Key) (cs : Children) : List Sheet :=
  ((blocksUnder path cs).map Block.sheet).filter Sheet.isVisible

section Sheets

variable {cs ds : Children} {path q : List Key} {k : Key} {n : Node}

theorem names_append (p q : List Key) : names (p ++ q) = names p ++ names q :=
  List.map_append

theorem eq_nil_of_names (h : names [] = names q) : q = [] := by
  simpa [names] using h.symm

theorem exists_cons_of_names {p : List Key} (h : names (k :: p) = names q) :
    ∃ l q', q = l :: q' ∧ k.name = l.name ∧ names p = names q' := by
  cases q with
  | nil => cases h
  | cons l q' =>
    rw [names, names, List.map_cons, List.map_cons, List.cons.injEq] at h
    exact ⟨l, q', rfl, h⟩

theorem blocksUnder_append (path : List Key) (cs ds : Children) :
    blocksUnder path (cs ++ ds) = blocksUnder path cs ++ blocksUnder path ds := by
  induction cs with
  | nil => rfl
  | cons p cs ih => rw [List.cons_append, blocksUnder, blocksUnder, ih, List.append_assoc]

theorem elementBlocks_append (path : List Key) (es fs : List (Heading × Children)) :
    elementBlocks path (es ++ fs) = elementBlocks path es ++ elementBlocks path fs := by
  induction es with
  | nil => rfl
  | cons p es ih =>
    rw [List.cons_append, elementBlocks, elementBlocks, ih]
    simp only [List.cons_append, List.append_assoc]

mutual

theorem Node.map_sheet_blocks {p q : List Key} (h : names p = names q) :
    (n : Node) → (n.blocks p).map Block.sheet = (n.blocks q).map Block.sheet
  | .value _ _ _ => by rw [Node.blocks, Node.blocks]
  | .table .dotted cs => by rw [Node.blocks, Node.blocks, map_sheet_blocksUnder h cs]
  | .table .implied cs => by
    simp only [Node.blocks, List.map_cons, Block.sheet, h, map_sheet_blocksUnder h cs]
  | .table (.headed _) cs => by
    simp only [Node.blocks, List.map_cons, Block.sheet, h, map_sheet_blocksUnder h cs]
  | .tables es => by rw [Node.blocks, Node.blocks, map_sheet_elementBlocks h es]

theorem map_sheet_blocksUnder {p q : List Key} (h : names p = names q) :
    (cs : List (Key × Node)) →
      (blocksUnder p cs).map Block.sheet = (blocksUnder q cs).map Block.sheet
  | [] => rfl
  | (k, n) :: r => by
    have hk : names (p ++ [k]) = names (q ++ [k]) := by rw [names_append, names_append, h]
    rw [blocksUnder, blocksUnder, List.map_append, List.map_append, Node.map_sheet_blocks hk n,
      map_sheet_blocksUnder h r]

theorem map_sheet_elementBlocks {p q : List Key} (h : names p = names q) :
    (es : List (Heading × List (Key × Node))) →
      (elementBlocks p es).map Block.sheet = (elementBlocks q es).map Block.sheet
  | [] => rfl
  | (_, cs) :: r => by
    simp only [elementBlocks, List.cons_append, List.map_cons, List.map_append, Block.sheet, h,
      map_sheet_blocksUnder h cs, map_sheet_elementBlocks h r]

end

theorem sheets_congr (h : names path = names q) (cs : Children) : sheets path cs = sheets q cs := by
  rw [sheets, sheets, map_sheet_blocksUnder h]

theorem sheets_append (path : List Key) (cs ds : Children) :
    sheets path (cs ++ ds) = sheets path cs ++ sheets path ds := by
  rw [sheets, blocksUnder_append, List.map_append, List.filter_append]
  rfl

@[simp] theorem sheets_nil (path : List Key) : sheets path [] = [] := by
  rw [sheets, blocksUnder]
  rfl

theorem sheets_middle (path : List Key) (l r : Children) (k : Key) (n : Node) :
    sheets path (l ++ (k, n) :: r) = sheets path l ++ (sheets path [(k, n)] ++ sheets path r) := by
  rw [sheets_append, ← List.singleton_append, sheets_append]

theorem sheets_own (h : OwnAll cs) (path : List Key) : sheets path cs = [] := by
  rw [sheets, OwnAll.blocksUnder path cs h]
  rfl

theorem sheets_value (path : List Key) (k : Key) (gap : List Char) (v : Value) (after : List Char) :
    sheets path [(k, .value gap v after)] = [] := by
  rw [sheets, blocksUnder, blocksUnder, Node.blocks]
  rfl

theorem sheets_dotted (path : List Key) (k : Key) (cs : Children) :
    sheets path [(k, .table .dotted cs)] = sheets (path ++ [k]) cs := by
  rw [sheets, blocksUnder, blocksUnder, Node.blocks, List.append_nil]
  rfl

theorem sheets_implied (h : ownPart cs = []) (path : List Key) (k : Key) :
    sheets path [(k, .table .implied cs)] = sheets (path ++ [k]) cs := by
  rw [sheets, blocksUnder, blocksUnder, Node.blocks, List.append_nil, List.map_cons,
    entriesUnder_eq_nil h, List.filter_cons_of_neg]
  · rfl
  · rw [Block.sheet, Sheet.isVisible]
    simp

theorem sheets_headed (path : List Key) (k : Key) (h : Heading) (cs : Children) :
    sheets path [(k, .table (.headed h) cs)] =
      ⟨some h, false, names path ++ [k.name], entriesUnder [] cs⟩ :: sheets (path ++ [k]) cs := by
  rw [sheets, blocksUnder, blocksUnder, Node.blocks, List.append_nil, List.map_cons,
    List.filter_cons_of_pos rfl, Block.sheet, names_append]
  rfl

def elementSheets (path : List Key) (es : List (Heading × Children)) : List Sheet :=
  ((elementBlocks path es).map Block.sheet).filter Sheet.isVisible

theorem sheets_tables (path : List Key) (k : Key) (es : List (Heading × Children)) :
    sheets path [(k, .tables es)] = elementSheets (path ++ [k]) es := by
  rw [sheets, blocksUnder, blocksUnder, Node.blocks, List.append_nil]
  rfl

theorem elementSheets_append (path : List Key) (es fs : List (Heading × Children)) :
    elementSheets path (es ++ fs) = elementSheets path es ++ elementSheets path fs := by
  rw [elementSheets, elementBlocks_append, List.map_append, List.filter_append]
  rfl

theorem elementSheets_single (path : List Key) (h : Heading) (cs : Children) :
    elementSheets path [(h, cs)] =
      ⟨some h, true, names path, entriesUnder [] cs⟩ :: sheets path cs := by
  rw [elementSheets, elementBlocks, elementBlocks, List.append_nil, List.map_cons,
    List.filter_cons_of_pos rfl]
  rfl

end Sheets

section Adding

/-- The operation adds one table to those printed, and leaves all the other lines as they are. -/
def Adds (op : Children → Option Children) (sheet : List (List Char) → Sheet) : Prop :=
  ∀ cs ds, TidyAll cs → op cs = some ds →
    TidyAll ds ∧ ownPart ds = ownPart cs ∧
      ∀ path, List.Perm (sheets path ds) (sheets path cs ++ [sheet (names path)])

variable {cs ds own : Children} {k : Key} {op : Children → Option Children}
  {sheet : List (List Char) → Sheet}

def headSheet (h : Heading) (element : Bool) (path : List (List Char)) (own : Children) :
    List (List Char) → Sheet :=
  fun p => ⟨some h, element, p ++ path, entriesUnder [] own⟩

theorem gain?_nil (own : Children) : gain? own [] = some own := by
  rw [gain?, if_pos]
  · rfl
  · simp

theorem perm_regroup {α : Type} (l m r : List α) (a : α) :
    List.Perm (l ++ r ++ a :: m) (l ++ (m ++ r) ++ [a]) := by
  have h : List.Perm (r ++ a :: m) (m ++ r ++ [a]) :=
    List.perm_middle.trans ((List.perm_append_comm.cons a).trans (List.perm_append_singleton a _).symm)
  simpa only [List.append_assoc] using h.append_left l

theorem perm_sheets_change {path : List Key} {n m : Node} {s : Sheet}
    (h : List.Perm (sheets path [(k, m)]) (sheets path [(k, n)] ++ [s])) (l r : Children) :
    List.Perm (sheets path (l ++ (k, m) :: r)) (sheets path (l ++ (k, n) :: r) ++ [s]) := by
  rw [sheets_middle, sheets_middle]
  have h := h.append_right (sheets path r)
  have hlast : List.Perm (sheets path [(k, n)] ++ [s] ++ sheets path r)
      (sheets path [(k, n)] ++ sheets path r ++ [s]) := by
    rw [List.append_assoc, List.append_assoc]
    exact List.perm_append_comm.append_left _
  simpa only [List.append_assoc] using (h.trans hlast).append_left (sheets path l)

theorem adds_change {n m : Node} {l r : Children} {s : List Key → Sheet}
    (hc : TidyAll (l ++ (k, n) :: r)) (hm : m.Tidy k) (hown : m.ownUnder k = n.ownUnder k)
    (h : ∀ path, List.Perm (sheets path [(k, m)]) (sheets path [(k, n)] ++ [s path])) :
    TidyAll (l ++ (k, m) :: r) ∧ ownPart (l ++ (k, m) :: r) = ownPart (l ++ (k, n) :: r) ∧
      ∀ path, List.Perm (sheets path (l ++ (k, m) :: r)) (sheets path (l ++ (k, n) :: r) ++ [s path]) := by
  refine ⟨hc.change hm, ?_, fun path => perm_sheets_change (h path) l r⟩
  rw [ownPart_append, ownPart_append, ownPart_cons, ownPart_cons, hown]

theorem ownUnder_table_congr (h : ownPart ds = ownPart cs) (k : Key) (how : Standing) :
    (Node.table how ds).ownUnder k = (Node.table how cs).ownUnder k := by
  cases how with
  | implied => rw [ownUnder_implied, ownUnder_implied]
  | dotted => rw [Node.ownUnder, Node.ownUnder, h]
  | headed hd => rw [ownUnder_headed, ownUnder_headed]

theorem perm_sheets_table {how : Standing} {path : List Key} {s : Sheet} (hown : ownPart ds = ownPart cs)
    (hnone : how = .implied → ownPart cs = [])
    (h : List.Perm (sheets (path ++ [k]) ds) (sheets (path ++ [k]) cs ++ [s])) :
    List.Perm (sheets path [(k, .table how ds)]) (sheets path [(k, .table how cs)] ++ [s]) := by
  cases how with
  | implied =>
    rw [sheets_implied (hnone rfl), sheets_implied (hown.trans (hnone rfl))]
    exact h
  | dotted =>
    rw [sheets_dotted, sheets_dotted]
    exact h
  | headed hd =>
    rw [sheets_headed, sheets_headed, entriesUnder_congr hown]
    exact h.cons _

theorem perm_elementSheets_last {path : List Key} {s : Sheet} (hown : ownPart ds = ownPart cs)
    (h : List.Perm (sheets path ds) (sheets path cs ++ [s])) (es : List (Heading × Children))
    (hd : Heading) :
    List.Perm (elementSheets path (es ++ [(hd, ds)])) (elementSheets path (es ++ [(hd, cs)]) ++ [s]) := by
  rw [elementSheets_append, elementSheets_append, elementSheets_single, elementSheets_single,
    entriesUnder_congr hown, List.append_assoc]
  exact (h.cons _).append_left _

theorem tidy_tables_concat (es : List (Heading × Children)) (h : Heading) (cs : Children) :
    (Node.tables (es ++ [(h, cs)])).Tidy k ↔ (Node.tables es).Tidy k ∧ TidyAll cs := by
  simp only [Node.Tidy, tidyTables_iff, List.forall_mem_append, List.forall_mem_singleton, and_assoc]

theorem names_below {k' : Key} (hk : k'.name = k.name) (q path : List Key) :
    names (q ++ [k']) ++ names path = names q ++ names (k :: path) := by
  have hkeys : names [k'] ++ names path = names (k :: path) := by
    rw [names, List.map_singleton, hk]
    rfl
  rw [names_append, List.append_assoc, hkeys]

theorem adds_headTable? (hk : k.Upright) (ht : TidyAll own) (ho : OwnAll own) (h : Heading) :
    Adds (headTable? k h (gain? own)) (headSheet h false [k.name] own) := by
  have headed (b : Children) (hb : TidyAll b) : (Node.table (.headed h) b).Tidy k := by
    rw [Node.Tidy]
    exact ⟨hk, nofun, hb⟩
  intro cs ds hc hd
  rw [headTable?] at hd
  split at hd
  · next hn =>
    rw [gain?_nil] at hd
    cases hd
    refine ⟨hc.concat hn (headed own ht), ?_, fun path => ?_⟩
    · rw [ownPart_append, ownPart_single, ownUnder_headed, List.append_nil]
    · rw [sheets_append, sheets_headed, sheets_own ho, headSheet]
  -- a table that other headers implied goes to the end, where it has a header of its own
  · next k' sub hn =>
    obtain ⟨b, hb, rfl⟩ := Option.map_eq_some_iff.1 hd
    obtain ⟨l, r, rfl, hk', hl, hr⟩ := child?_split hc.nodup hn
    have hsub : (Node.table .implied sub).Tidy k' := hc.of_mem (by simp)
    rw [Node.Tidy] at hsub
    obtain ⟨_, hnone, hsub⟩ := hsub
    obtain ⟨rfl, hb⟩ := hsub.gain ht hb
    have hdrop := hc.drop
    rw [hk'] at hdrop
    rw [erase_split hk' hl hr]
    refine ⟨hdrop.1.concat hdrop.2 (headed _ hb), ?_, fun path => ?_⟩
    · simp only [ownPart_append, ownPart_cons, ownPart_nil, ownUnder_headed, ownUnder_implied,
        List.append_nil, List.nil_append]
    · have hpath : names (path ++ [k']) = names (path ++ [k]) := by
        rw [names_append, names_append, names, names, names, List.map_cons, List.map_cons, hk']
      rw [sheets_append, sheets_append, sheets_headed, sheets_append, sheets_own ho, List.append_nil,
        entriesUnder_append, entriesUnder_eq_nil (hnone rfl), List.nil_append, sheets_middle,
        sheets_implied (hnone rfl), sheets_congr hpath]
      exact perm_regroup _ _ _ _
  · cases hd

theorem adds_headElement? (hk : k.Upright) (ht : TidyAll own) (ho : OwnAll own) (h : Heading) :
    Adds (headElement? k h (gain? own)) (headSheet h true [k.name] own) := by
  intro cs ds hc hd
  rw [headElement?, gain?_nil] at hd
  split at hd
  · next hn =>
    cases hd
    have htidy : (Node.tables [(h, own)]).Tidy k := by
      rw [Node.Tidy, tidyTables_iff]
      exact ⟨hk, by simpa using ht⟩
    refine ⟨hc.concat hn htidy, ?_, fun path => ?_⟩
    · rw [ownPart_append, ownPart_single, ownUnder_tables, List.append_nil]
    · rw [sheets_append, sheets_tables, elementSheets_single, sheets_own ho, names_append]
      exact .refl _
  · next k' es hn =>
    cases hd
    obtain ⟨l, r, rfl, hk', hl, hr⟩ := child?_split hc.nodup hn
    have htidy : (Node.tables (es ++ [(h, own)])).Tidy k' :=
      (tidy_tables_concat es h own).2 ⟨hc.of_mem (by simp), ht⟩
    dsimp only
    rw [put_split hk' hl hr]
    refine adds_change hc htidy (by rw [ownUnder_tables, ownUnder_tables]) fun path => ?_
    have hpath : names (path ++ [k']) = names path ++ [k.name] := by
      rw [names_append, ← hk']
      rfl
    rw [sheets_tables, sheets_tables, elementSheets_append, elementSheets_single, sheets_own ho, hpath]
    exact .refl _
  · cases hd

theorem changeLast?_eq_some {f : Children → Option Children} {es es' : List (Heading × Children)}
    (h : changeLast? f es = some es') :
    ∃ init hd e e', es = init ++ [(hd, e)] ∧ es' = init ++ [(hd, e')] ∧ f e = some e' := by
  rw [changeLast?] at h
  split at h
  · cases h
  · next hd e hl =>
    obtain ⟨e', he, rfl⟩ := Option.map_eq_some_iff.1 h
    obtain ⟨init, rfl⟩ := List.getLast?_eq_some_iff.1 hl
    exact ⟨init, hd, e, e', rfl, by rw [List.dropLast_concat], he⟩

theorem adds_descend? (h : Adds op sheet) {path : List Key} (hp : ∀ k ∈ path, k.Upright) :
    Adds (fun cs => cs.descend? op path) fun p => sheet (p ++ names path) := by
  induction path with
  | nil =>
    intro cs ds hc hd
    obtain ⟨htidy, hown, hperm⟩ := h cs ds hc hd
    exact ⟨htidy, hown, fun path => by simpa [names] using hperm path⟩
  | cons k path ih =>
    have ih := ih fun k hk => hp k (List.mem_cons_of_mem _ hk)
    intro cs ds hc hd
    change descend? op cs (k :: path) = some ds at hd
    rw [descend?] at hd
    split at hd
    · next hn =>
      obtain ⟨sub, hs, rfl⟩ := Option.map_eq_some_iff.1 hd
      obtain ⟨htidy, hown, hperm⟩ := ih [] sub (by rw [TidyAll]; trivial) hs
      have hnode : (Node.table .implied sub).Tidy k := by
        rw [Node.Tidy]
        exact ⟨hp k List.mem_cons_self, fun _ => hown, htidy⟩
      refine ⟨hc.concat hn hnode, ?_, fun q => ?_⟩
      · rw [ownPart_append, ownPart_single, ownUnder_implied, List.append_nil]
      · have hperm := hperm (q ++ [k])
        rw [sheets_nil, List.nil_append] at hperm
        dsimp only at hperm ⊢
        rw [sheets_append, sheets_implied hown, ← names_below rfl q path]
        exact hperm.append_left _
    · cases hd
    · next k' how sub hn =>
      obtain ⟨sub', hs, rfl⟩ := Option.map_eq_some_iff.1 hd
      obtain ⟨l, r, rfl, hk', hl, hr⟩ := child?_split hc.nodup hn
      have hsub : (Node.table how sub).Tidy k' := hc.of_mem (by simp)
      rw [Node.Tidy] at hsub
      obtain ⟨hk, hnone, hsub⟩ := hsub
      obtain ⟨htidy, hown, hperm⟩ := ih sub sub' hsub hs
      have hnode : (Node.table how sub').Tidy k' := by
        rw [Node.Tidy]
        exact ⟨hk, fun hi => hown.trans (hnone hi), htidy⟩
      rw [put_split hk' hl hr]
      refine adds_change hc hnode (ownUnder_table_congr hown k' how) fun q => ?_
      dsimp only
      rw [← names_below hk' q path]
      exact perm_sheets_table hown hnone (hperm _)
    · next k' es hn =>
      obtain ⟨es', hs, rfl⟩ := Option.map_eq_some_iff.1 hd
      obtain ⟨l, r, rfl, hk', hl, hr⟩ := child?_split hc.nodup hn
      obtain ⟨init, hdg, e, e', rfl, rfl, he⟩ := changeLast?_eq_some hs
      have hes : (Node.tables (init ++ [(hdg, e)])).Tidy k' := hc.of_mem (by simp)
      obtain ⟨hinit, hlast⟩ := (tidy_tables_concat init hdg e).1 hes
      obtain ⟨htidy, hown, hperm⟩ := ih e e' hlast he
      have hnode : (Node.tables (init ++ [(hdg, e')])).Tidy k' :=
        (tidy_tables_concat init hdg e').2 ⟨hinit, htidy⟩
      rw [put_split hk' hl hr]
      refine adds_change hc hnode (by rw [ownUnder_tables, ownUnder_tables]) fun q => ?_
      dsimp only
      rw [← names_below hk' q path, sheets_tables, sheets_tables]
      exact perm_elementSheets_last hown (hperm _) init hdg

theorem adds_graft? {h : Header} (hp : ∀ k ∈ h.path, k.Upright) (ht : TidyAll own) (ho : OwnAll own)
    (rank : Nat) :
    Adds (graft? rank (h, own)) (headSheet ⟨rank, h.before, h.after⟩ h.element (names h.path) own) := by
  obtain ⟨before, element, path, after⟩ := h
  dsimp only at hp ⊢
  intro cs ds hc hd
  unfold graft? Header.open? at hd
  dsimp only at hd
  split at hd
  · cases hd
  · next k hk =>
    obtain ⟨init, rfl⟩ := List.getLast?_eq_some_iff.1 hk
    rw [List.dropLast_concat] at hd
    have hinit : ∀ k ∈ init, k.Upright := fun k hk => hp k (List.mem_append_left _ hk)
    have hlast : k.Upright := hp k (by simp)
    have hnames (q : List (List Char)) : q ++ names (init ++ [k]) = q ++ names init ++ [k.name] := by
      rw [names_append, List.append_assoc]
      rfl
    have goal : Adds (fun cs => cs.descend?
        (if element then headElement? k ⟨rank, before, after⟩ (gain? own)
          else headTable? k ⟨rank, before, after⟩ (gain? own)) init)
        (fun p => headSheet ⟨rank, before, after⟩ element [k.name] own (p ++ names init)) := by
      cases element with
      | false => exact adds_descend? (adds_headTable? hlast ht ho _) hinit
      | true => exact adds_descend? (adds_headElement? hlast ht ho _) hinit
    obtain ⟨htidy, hown, hperm⟩ := goal cs ds hc hd
    refine ⟨htidy, hown, fun q => ?_⟩
    rw [headSheet, hnames]
    exact hperm q

def sectionSheets (rank : Nat) : List (Header × Children) → List Sheet
  | [] => []
  | (h, own) :: r =>
    ⟨some ⟨rank, h.before, h.after⟩, h.element, names h.path, entriesUnder [] own⟩ ::
      sectionSheets (rank + 1) r

def KnownSection (s : Header × Children) : Prop :=
  (∀ k ∈ s.1.path, k.Upright) ∧ TidyAll s.2 ∧ OwnAll s.2

/-- A run of sections adds the lines of each. -/
theorem sheets_graftAll? {gs : List (Header × Children)} (hg : ∀ s ∈ gs, KnownSection s) {rank : Nat}
    (hc : TidyAll cs) (h : graftAll? rank cs gs = some ds) :
    TidyAll ds ∧ ownPart ds = ownPart cs ∧
      List.Perm (sheets [] ds) (sheets [] cs ++ sectionSheets rank gs) := by
  induction gs generalizing rank cs with
  | nil =>
    cases h
    exact ⟨hc, rfl, by rw [sectionSheets, List.append_nil]⟩
  | cons s gs ih =>
    obtain ⟨hd, own⟩ := s
    rw [graftAll?] at h
    obtain ⟨cs', hs, h⟩ := Option.bind_eq_some_iff.1 h
    obtain ⟨hp, ht, ho⟩ := hg _ List.mem_cons_self
    obtain ⟨htidy, hown, hperm⟩ := adds_graft? hp ht ho rank cs cs' hc hs
    obtain ⟨htidy', hown', hperm'⟩ := ih (fun s hs => hg s (List.mem_cons_of_mem _ hs)) htidy h
    refine ⟨htidy', hown'.trans hown, hperm'.trans ?_⟩
    have := (hperm []).append_right (sectionSheets (rank + 1) gs)
    rwa [List.append_assoc] at this

end Adding

end CBuild.Toml
