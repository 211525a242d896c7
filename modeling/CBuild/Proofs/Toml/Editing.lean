import CBuild.Toml.Edit
import CBuild.Proofs.Toml.Printing

/-! Putting arrays under keys of a document: what the document says of every other key stays, also in the text
that is printed. -/

namespace CBuild.Toml

open Children

section Put

variable {cs : Children} {name other : List Char} {values : List (List Char)}

def Children.arrayUnder (cs : Children) (name : List Char) (values : List (List Char)) : Key × Node :=
  match cs.child? name with
  | some (k, n) => (k, .value [' '] (arrayValue values) n.kept)
  | none => (Key.fresh name, .value [' '] (arrayValue values) [])

theorem only_eq_nil (h : cs.child? name = none) : cs.only name = [] :=
  List.filter_eq_nil_iff.2 fun p hp => by simpa using child?_eq_none.1 h p hp

theorem putArray_only_self (hn : (childNames cs).Nodup) (name : List Char) (values : List (List Char)) :
    (cs.putArray name values).only name = [cs.arrayUnder name values] := by
  rw [putArray, arrayUnder]
  cases h : cs.child? name with
  | none =>
    dsimp only
    rw [only_append, only_eq_nil h, List.nil_append]
    exact only_self (Key.fresh name) _
  | some p =>
    obtain ⟨k, n⟩ := p
    obtain ⟨l, r, rfl, rfl, hl, hr⟩ := child?_split hn h
    dsimp only
    rw [put_split rfl hl hr, ← List.singleton_append, only_append, only_append, only_eq_nil hl,
      only_eq_nil hr, only_self]
    rfl

theorem putArray_only (h : other ≠ name) (cs : Children) (values : List (List Char)) :
    (cs.putArray name values).only other = cs.only other := by
  rw [putArray]
  split
  · exact only_put h cs _
  · rw [only_append, only_other (k := Key.fresh name) h, List.append_nil]

theorem TidyAll.putArray (h : TidyAll cs) (name : List Char) (values : List (List Char)) :
    TidyAll (cs.putArray name values) := by
  rw [Children.putArray]
  cases hc : cs.child? name with
  | none => exact h.concat (k := Key.fresh name) hc (by rw [Node.Tidy]; trivial)
  | some p =>
    obtain ⟨k, n⟩ := p
    obtain ⟨l, r, rfl, hk, hl, hr⟩ := child?_split h.nodup hc
    dsimp only
    rw [put_split hk hl hr]
    exact h.change (by rw [Node.Tidy]; trivial)

def Children.putAll (cs : Children) (lists : Lists) : Children :=
  lists.foldl (fun cs (name, values) => cs.putArray name values) cs

theorem TidyAll.putAll (h : TidyAll cs) (lists : Lists) : TidyAll (cs.putAll lists) := by
  induction lists generalizing cs with
  | nil => exact h
  | cons p lists ih => exact ih (h.putArray p.1 p.2)

theorem putAll_only {lists : Lists} (h : name ∉ lists.map Prod.fst) (cs : Children) :
    (cs.putAll lists).only name = cs.only name := by
  induction lists generalizing cs with
  | nil => rfl
  | cons p lists ih =>
    rw [List.map_cons, List.mem_cons, not_or] at h
    exact (ih h.2 _).trans (putArray_only h.1 cs p.2)

theorem arrayUnder_congr {ds : Children} (h : cs.only name = ds.only name) (values : List (List Char)) :
    cs.arrayUnder name values = ds.arrayUnder name values := by
  rw [arrayUnder, arrayUnder, ← child?_only, h, child?_only]

theorem putAll_only_self {lists : Lists} (hd : (lists.map Prod.fst).Nodup) (h : (name, values) ∈ lists)
    (ht : TidyAll cs) : (cs.putAll lists).only name = [cs.arrayUnder name values] := by
  induction lists generalizing cs with
  | nil => cases h
  | cons p lists ih =>
    rw [List.map_cons, List.nodup_cons] at hd
    rcases List.mem_cons.1 h with rfl | h
    · exact (putAll_only hd.1 _).trans (putArray_only_self ht.nodup name values)
    · have hne : name ≠ p.1 := by
        rintro rfl
        exact hd.1 (List.mem_map.2 ⟨_, h, rfl⟩)
      rw [← arrayUnder_congr (putArray_only hne cs p.2) values]
      exact ih hd.2 h (ht.putArray p.1 p.2)

end Put

section Sheets

mutual

theorem Node.prefix_of_mem_blocks {path : List Key} :
    (n : Node) → ∀ b ∈ n.blocks path, path <+: b.path
  | .value _ _ _ => by simp [Node.blocks]
  | .table .dotted cs => by
    rw [Node.blocks]
    exact prefix_of_mem_blocksUnder cs
  | .table .implied cs => by
    rw [Node.blocks, List.forall_mem_cons]
    exact ⟨List.prefix_refl _, prefix_of_mem_blocksUnder cs⟩
  | .table (.headed _) cs => by
    rw [Node.blocks, List.forall_mem_cons]
    exact ⟨List.prefix_refl _, prefix_of_mem_blocksUnder cs⟩
  | .tables es => by
    rw [Node.blocks]
    exact prefix_of_mem_elementBlocks es

theorem prefix_of_mem_blocksUnder {path : List Key} :
    (cs : List (Key × Node)) → ∀ b ∈ blocksUnder path cs, path <+: b.path
  | [] => by simp [blocksUnder]
  | (k, n) :: r => by
    rw [blocksUnder]
    refine List.forall_mem_append.2 ⟨fun b hb => ?_, prefix_of_mem_blocksUnder r⟩
    exact (List.prefix_append path [k]).trans (Node.prefix_of_mem_blocks n b hb)

theorem prefix_of_mem_elementBlocks {path : List Key} :
    (es : List (Heading × List (Key × Node))) → ∀ b ∈ elementBlocks path es, path <+: b.path
  | [] => by simp [elementBlocks]
  | (_, cs) :: r => by
    rw [elementBlocks, List.cons_append, List.forall_mem_cons]
    exact ⟨List.prefix_refl _, List.forall_mem_append.2
      ⟨prefix_of_mem_blocksUnder cs, prefix_of_mem_elementBlocks r⟩⟩

end

def isFree (keys : List (List Char)) (names : List (List Char)) : Bool :=
  keys.all fun key => names.head? ≠ some key

variable {cs : Children} {name : List Char}

theorem head?_of_mem_sheets {k : Key} {n : Node} {s : Sheet} (h : s ∈ sheets [] [(k, n)]) :
    s.names.head? = some k.name := by
  rw [sheets, blocksUnder, blocksUnder, List.append_nil, List.nil_append] at h
  obtain ⟨b, hb, rfl⟩ := List.mem_map.1 (List.mem_filter.1 h).1
  obtain ⟨t, ht⟩ := Node.prefix_of_mem_blocks n b hb
  rw [Block.sheet, ← ht]
  rfl

theorem filter_sheets_self (h : cs.child? name = none) :
    (sheets [] cs).filter (fun s => isFree [name] s.names) = sheets [] cs := by
  rw [List.filter_eq_self]
  induction cs with
  | nil => simp
  | cons p cs ih =>
    rw [child?_cons] at h
    rw [← List.singleton_append, sheets_append]
    have hne : p.1.name ≠ name := by
      intro he
      rw [if_pos he] at h
      cases h
    rw [if_neg hne] at h
    refine List.forall_mem_append.2 ⟨fun s hs => ?_, ih h⟩
    simpa [isFree, head?_of_mem_sheets hs] using hne

/-- The tables below a key that is given an array are gone, and the others are as they were. -/
theorem sheets_putArray (ht : TidyAll cs) (name : List Char) (values : List (List Char)) :
    sheets [] (cs.putArray name values) = (sheets [] cs).filter fun s => isFree [name] s.names := by
  rw [putArray]
  cases h : cs.child? name with
  | none =>
    dsimp only
    rw [sheets_append, sheets_value, List.append_nil, filter_sheets_self h]
  | some p =>
    obtain ⟨k, n⟩ := p
    obtain ⟨l, r, rfl, rfl, hl, hr⟩ := child?_split ht.nodup h
    have hnone : (sheets [] [(k, n)]).filter (fun s => isFree [k.name] s.names) = [] := by
      refine List.filter_eq_nil_iff.2 fun s hs => ?_
      simp [isFree, head?_of_mem_sheets hs]
    dsimp only
    rw [put_split rfl hl hr, sheets_middle, sheets_middle, sheets_value, List.filter_append,
      List.filter_append, filter_sheets_self hl, filter_sheets_self hr, hnone]

theorem sheets_putAll (ht : TidyAll cs) (lists : Lists) :
    sheets [] (cs.putAll lists) =
      (sheets [] cs).filter fun s => isFree (lists.map Prod.fst) s.names := by
  induction lists generalizing cs with
  | nil => exact (List.filter_eq_self.2 fun _ _ => rfl).symm
  | cons p lists ih =>
    rw [putAll, List.foldl_cons, ← putAll, ih (ht.putArray p.1 p.2), sheets_putArray ht, List.filter_filter]
    refine List.filter_congr fun s _ => ?_
    simp [isFree, Bool.and_comm]

end Sheets

section Lines

variable {cs : Children} {name : List Char} {k : Key} {n : Node}

def Key.closed (k : Key) : Key :=
  ⟨k.name, k.spelling, ([], []), some (k.outer.getD ([], [' ']))⟩

def closeChild : Key × Node → Key × Node
  | (k, .value gap v after) => (k.closed, .value gap v after)
  | p => p

theorem closeChild_table (k : Key) (how : Standing) (sub : Children) :
    closeChild (k, .table how sub) = (k, .table how sub) := rfl

theorem closeChild_tables (k : Key) (es : List (Heading × Children)) :
    closeChild (k, .tables es) = (k, .tables es) := rfl

/-- The lines of a table as they are read from print. -/
def printedPart (cs : Children) : Children :=
  (ownPart cs).map closeChild

theorem plainAll_closeChild (cs : Children) : plainAll (cs.map closeChild) = plainAll cs := by
  induction cs with
  | nil => rfl
  | cons p cs ih =>
    obtain ⟨k, n⟩ := p
    rw [List.map_cons]
    cases n with
    | value gap v after =>
      rw [closeChild, plainAll, plainAll, ih]
      rfl
    | table how sub => rw [closeChild_table, plainAll, plainAll, ih]
    | tables es => rw [closeChild_tables, plainAll, plainAll, ih]

theorem childNames_closeChild (cs : Children) : childNames (cs.map closeChild) = childNames cs := by
  rw [childNames, childNames, List.map_map]
  refine List.map_congr_left fun p _ => ?_
  obtain ⟨k, n⟩ := p
  cases n <;> rfl

theorem lines_closeChild (cs : Children) :
    (entriesUnder [] (cs.map closeChild)).flatMap Entry.line =
      (entriesUnder [] cs).flatMap Entry.line := by
  induction cs with
  | nil => rfl
  | cons p cs ih =>
    obtain ⟨k, n⟩ := p
    rw [List.map_cons]
    cases n with
    | value gap v after =>
      rw [closeChild, entriesUnder, entriesUnder, Node.entries, Node.entries, List.flatMap_append,
        List.flatMap_append, ih]
      simp [Entry.line, Entry.text, pathText, innerText, Key.closed]
    | table how sub =>
      rw [closeChild_table, entriesUnder, entriesUnder, List.flatMap_append, List.flatMap_append, ih]
    | tables es =>
      rw [closeChild_tables, entriesUnder, entriesUnder, List.flatMap_append, List.flatMap_append, ih]

theorem name_of_mem_ownUnder {p : Key × Node} (h : p ∈ n.ownUnder k) : p.1 = k := by
  unfold Node.ownUnder at h
  split at h
  · rw [List.mem_singleton.1 h]
  · rw [List.mem_singleton.1 h]
  · cases h

theorem only_ownPart (cs : Children) (name : List Char) :
    only (ownPart cs) name = ownPart (cs.only name) := by
  induction cs with
  | nil => rfl
  | cons p cs ih =>
    obtain ⟨k, n⟩ := p
    rw [ownPart, only_append, ih, only_cons]
    by_cases hk : k.name = name
    · have hself : only (n.ownUnder k) name = n.ownUnder k :=
        List.filter_eq_self.2 fun p hp => by simp [name_of_mem_ownUnder hp, hk]
      rw [if_pos hk, ownPart, hself]
    · have hnone : only (n.ownUnder k) name = [] :=
        List.filter_eq_nil_iff.2 fun p hp => by simp [name_of_mem_ownUnder hp, hk]
      rw [if_neg hk, hnone, List.nil_append]

theorem only_plainAll (cs : Children) (name : List Char) :
    only (plainAll cs) name = plainAll (cs.only name) := by
  rw [plainAll_eq_map, plainAll_eq_map, only, only, List.filter_map]
  rfl

theorem only_plainAll_printedPart (cs : Children) (name : List Char) :
    only (plainAll (printedPart cs)) name = plainAll (ownPart (cs.only name)) := by
  rw [printedPart, plainAll_closeChild, only_plainAll, only_ownPart]

theorem childNames_ownPart (cs : Children) : (childNames (ownPart cs)).Sublist (childNames cs) := by
  induction cs with
  | nil => exact .refl _
  | cons p cs ih =>
    obtain ⟨k, n⟩ := p
    rw [ownPart, childNames_append, childNames_cons]
    have hn : (childNames (n.ownUnder k)).Sublist [k.name] := by
      unfold Node.ownUnder
      split
      · exact .refl _
      · exact .refl _
      · exact List.nil_sublist _
    exact hn.append ih

end Lines

section Known

variable {cs : Children} {name : List Char} {k : Key} {n : Node}

/-- A name that can stand as a bare key. -/
def IsBare (name : List Char) : Prop :=
  name ≠ [] ∧ ∀ c ∈ name, isBareKeyChar c = true

theorem spells_marked {m : Char} {t name : List Char} (hm : m = '"' ∨ m = '\'')
    (h : ∀ rest, (if m = '"' then basicBody? else literalBody?) (t ++ rest) = some (name, rest)) :
    Spells (m :: t) name := by
  intro rest _
  have hcons : consumed (m :: (t ++ rest)) rest = m :: t := consumed_append (m :: t) rest
  have h := h rest
  rcases hm with rfl | rfl
  · rw [if_pos rfl] at h
    rw [List.cons_append, simpleKey?, h]
    exact congrArg (fun x => some ((name, x), rest)) hcons
  · rw [if_neg (by decide)] at h
    rw [List.cons_append, simpleKey?, h]
    exact congrArg (fun x => some ((name, x), rest)) hcons

theorem spells_quoteKey (name : List Char) : Spells (quoteKey name) name := by
  have basic : Spells (quoteAs .basic name) name := by
    refine spells_marked (t := escaped false 0 name ++ ['"']) (.inl rfl) fun rest => ?_
    rw [if_pos rfl, List.append_assoc]
    exact basicBody?_escaped name 0
  rw [quoteKey]
  split
  · next h =>
    rw [Bool.and_eq_true, decide_eq_true_eq, List.all_eq_true] at h
    exact spells_bare h.1 h.2
  · simp only [Quoting.ofKey]
    split
    · exact basic
    · split
      · next h =>
        simp only [Bool.and_eq_true, Bool.not_eq_true', List.any_eq_false, Bool.or_eq_true, not_or,
          Bool.not_eq_true, decide_eq_true_eq] at h
        refine spells_marked (t := name ++ ['\'']) (.inr rfl) fun rest => ?_
        rw [if_neg (by decide), List.append_assoc]
        exact literalBody?_append (by simpa using h.2)
          fun c hc => isPrintable_of_not_isControl (h.1 c hc).1 (h.1 c hc).2
      · exact basic

theorem Key.closed_wellSpelled (h : k.WellSpelled) : k.closed.WellSpelled :=
  ⟨h.spells, by simp [Key.closed], by simp [Key.closed]⟩

theorem legible_arrayValue (values : List (List Char)) :
    (arrayValue values).Legible (value? depthLimit) := by
  refine ⟨?_, fun rest _ => value?_arrayText 78 values rest trivial⟩
  match values with
  | [] => exact ⟨'[', _, rfl, rfl⟩
  | [_] => exact ⟨'[', _, rfl, rfl⟩
  | _ :: _ :: _ => exact ⟨'[', _, rfl, rfl⟩

theorem known_child (ht : TidyAll cs) (hg : GrownAll lineLeaf true (keyLimit - 1) (ownPart cs))
    (hm : (k, n) ∈ cs) :
    k.WellSpelled ∧ IsTrivia false (k.outer.getD ([], [' '])).1 ∧
      (∀ c ∈ (k.outer.getD ([], [' '])).2, isSpace c = true) ∧ EndsLine n.kept := by
  have htidy := ht.of_mem hm
  -- the key of a table has space around it at most; only the key of a line has trivia before it
  have upright (hu : k.Upright) : k.WellSpelled ∧ IsTrivia false (k.outer.getD ([], [' '])).1 ∧
      ∀ c ∈ (k.outer.getD ([], [' '])).2, isSpace c = true := by
    refine ⟨hu.wellSpelled, ?_⟩
    cases ho : k.outer with
    | none => exact ⟨rfl, by simp [isSpace]⟩
    | some around => exact ⟨isTrivia_of_isSpace (hu.before _ ho), hu.after _ ho⟩
  cases n with
  | value gap v after =>
    have hown : (k, .value gap v after) ∈ ownPart cs := by
      obtain ⟨l, r, rfl⟩ := List.append_of_mem hm
      rw [ownPart_append, ownPart_cons, Node.ownUnder]
      simp
    obtain ⟨⟨hk, _⟩, hleaf⟩ := hg.of_mem hown
    rw [Node.Grown] at hleaf
    obtain ⟨⟨t, a, htr, hsp, _, ho⟩, _, ha, _⟩ := hleaf
    rw [ho]
    refine ⟨hk, htr, hsp, ?_⟩
    unfold Node.kept
    split
    · next h =>
      cases h
      exact ha
    · exact endsLine_nil
  | table how sub =>
    rw [Node.Tidy] at htidy
    obtain ⟨h1, h2, h3⟩ := upright htidy.1
    exact ⟨h1, h2, h3, endsLine_nil⟩
  | tables es =>
    rw [Node.Tidy] at htidy
    obtain ⟨h1, h2, h3⟩ := upright htidy.1
    exact ⟨h1, h2, h3, endsLine_nil⟩

theorem grown_arrayUnder (ht : TidyAll cs) (hg : GrownAll lineLeaf true (keyLimit - 1) (ownPart cs))
    (name : List Char) (values : List (List Char)) :
    ∃ k after, cs.arrayUnder name values = (k, .value [' '] (arrayValue values) after) ∧
      k.name = name ∧ k.WellSpelled ∧ lineLeaf k.closed [' '] (arrayValue values) after := by
  rw [arrayUnder]
  cases hc : cs.child? name with
  | some p =>
    obtain ⟨k, n⟩ := p
    obtain ⟨h1, h2, h3, h4⟩ := known_child ht hg (mem_of_child? hc).1
    exact ⟨k, n.kept, rfl, (mem_of_child? hc).2, h1, ⟨_, _, h2, h3, rfl, rfl⟩, by simp [isSpace], h4,
      legible_arrayValue values⟩
  | none =>
    exact ⟨Key.fresh name, [], rfl, rfl, ⟨spells_quoteKey name, by simp [Key.fresh], by simp [Key.fresh]⟩,
      ⟨[], [' '], rfl, by simp [isSpace], rfl, rfl⟩, by simp [isSpace], endsLine_nil,
      legible_arrayValue values⟩

theorem closeChild_eq {p : Key × Node}
    (h : (p.1.WellSpelled ∧ (true = true → p.1.inner.1 = []) ∧ 0 < keyLimit - 1) ∧
      p.2.Grown lineLeaf (keyLimit - 1 - 1) p.1) : closeChild p = p := by
  obtain ⟨k, n⟩ := p
  cases n with
  | value gap v after =>
    obtain ⟨⟨_, hi, _⟩, hleaf⟩ := h
    rw [Node.Grown] at hleaf
    obtain ⟨⟨t, a, _, _, hi', ho⟩, _⟩ := hleaf
    have hk : k.closed = k := by
      have hinner : k.inner = ([], []) := Prod.ext (hi rfl) hi'
      rw [Key.closed, ho, Option.getD_some, ← ho, ← hinner]
    rw [closeChild, hk]
  | table how sub => rfl
  | tables es => rfl

theorem grownAll_printedPart {lists : Lists} (ht : TidyAll cs)
    (hg : GrownAll lineLeaf true (keyLimit - 1) (ownPart cs)) (hd : (lists.map Prod.fst).Nodup) :
    GrownAll lineLeaf true (keyLimit - 1) (printedPart (cs.putAll lists)) := by
  rw [grownAll_iff]
  refine ⟨fun p hp => ?_, ?_⟩
  · obtain ⟨q, hq, rfl⟩ := List.mem_map.1 hp
    have hq : q ∈ ownPart ((cs.putAll lists).only q.1.name) := by
      rw [← only_ownPart]
      exact List.mem_filter.2 ⟨hq, decide_eq_true rfl⟩
    by_cases hl : q.1.name ∈ lists.map Prod.fst
    · obtain ⟨⟨name, values⟩, hl, hname⟩ := List.mem_map.1 hl
      rw [← hname, putAll_only_self hd hl ht] at hq
      obtain ⟨k, after, he, _, hk, hleaf⟩ := grown_arrayUnder ht hg name values
      rw [he, ownPart_single, Node.ownUnder] at hq
      cases List.mem_singleton.1 hq
      rw [closeChild, Node.Grown]
      exact ⟨⟨Key.closed_wellSpelled hk, fun _ => rfl, by decide⟩, hleaf⟩
    · rw [putAll_only hl, ← only_ownPart] at hq
      have hgrown := ((grownAll_iff _).1 hg).1 q (List.mem_filter.1 hq).1
      rw [closeChild_eq hgrown]
      exact hgrown
  · rw [printedPart, childNames_closeChild]
    exact (ht.putAll lists).nodup.sublist (childNames_ownPart _)

end Known

end CBuild.Toml
