import CBuild.Proofs.Toml.Origins
import CBuild.Proofs.Toml.Rewriting

/-! The lines of an edited document. Every line of the text stands in it again; where no other line writes the
keys that it shares in another way, it stands there as it was. -/

namespace CBuild.Toml

open Children

section Alike

def writtenAlike : List Key → List Key → Bool
  | k :: p, l :: q => k.name ≠ l.name || (k.spelling = l.spelling && k.inner = l.inner && writtenAlike p q)
  | _, _ => true

structure Key.Alike (k l : Key) : Prop where
  name : k.name = l.name
  spelling : k.spelling = l.spelling
  inner : k.inner = l.inner

variable {p q a b r s : List Key} {k l : Key}

theorem alike_of_writtenAlike (h : writtenAlike (a ++ k :: r) (b ++ l :: s) = true) (hn : names a = names b)
    (hk : k.name = l.name) : k.Alike l := by
  induction a generalizing b with
  | nil =>
    obtain rfl := eq_nil_of_names hn
    rw [List.nil_append, List.nil_append, writtenAlike] at h
    simp only [hk, ne_eq, not_true_eq_false, decide_false, Bool.false_or, Bool.and_eq_true,
      decide_eq_true_eq] at h
    exact ⟨hk, h.1.1, h.1.2⟩
  | cons x a ih =>
    obtain ⟨y, b, rfl, hx, hn⟩ := exists_cons_of_names hn
    rw [List.cons_append, List.cons_append, writtenAlike] at h
    simp only [hx, ne_eq, not_true_eq_false, decide_false, Bool.false_or, Bool.and_eq_true] at h
    exact ih h.2 hn

theorem eq_of_passes (hn : names p = names q) (hl : p.getLast? = q.getLast?)
    (h : ∀ before k l, Passes p before k → Passes q before l → k.name = l.name → k = l) : p = q := by
  induction p generalizing q with
  | nil => exact (eq_nil_of_names hn).symm
  | cons k p ih =>
    obtain ⟨l, q, rfl, hkl, hrest⟩ := exists_cons_of_names hn
    cases p with
    | nil =>
      obtain rfl := eq_nil_of_names hrest
      exact congrArg (· :: []) (Option.some.inj hl)
    | cons x p =>
      cases q with
      | nil => cases hrest
      | cons y q =>
        rw [List.getLast?_cons_cons, List.getLast?_cons_cons] at hl
        have hk : k = l := h [] k l (passes_cons.2 (.inl ⟨rfl, List.cons_ne_nil _ _, rfl⟩))
          (passes_cons.2 (.inl ⟨rfl, List.cons_ne_nil _ _, rfl⟩)) hkl
        subst hk
        refine congrArg (k :: ·) (ih hrest hl fun before i j hi hj hij => ?_)
        exact h (k.name :: before) i j (passes_cons.2 (.inr ⟨before, rfl, hi⟩))
          (passes_cons.2 (.inr ⟨before, rfl, hj⟩)) hij

theorem Settled.outer_of_passes {leaf : Key → Prop} {first : Bool} {before : List (List Char)}
    (h : Settled leaf first p) (hp : Passes p before k) : k.outer = none := by
  induction p generalizing first before with
  | nil => exact h.elim
  | cons l p ih =>
    cases p with
    | nil => exact absurd hp not_passes_single
    | cons x p =>
      rcases passes_cons.1 hp with ⟨rfl, -, -⟩ | ⟨rest, -, hp⟩
      · exact h.2.2.1
      · exact ih h.2.2.2 hp

/-- An entry is written as it was, if the other entries of its table write the keys that they share in the
same way. -/
theorem Entry.Kept.eq_self {P : Leaf} {first : Bool} {m : Nat} {es : List Entry} {e e' : Entry}
    (h : e.Kept es e') (hk : ∀ f ∈ es, f.Known P first m) (he : e.Known P first m)
    (ha : ∀ f ∈ es, writtenAlike e.path f.path = true) : e' = e := by
  obtain ⟨hnames, hlast, hgap, hvalue, hafter, hshared⟩ := h
  have hpath : e'.path = e.path := by
    refine eq_of_passes hnames hlast fun before k l hk' hl hname => ?_
    obtain ⟨f, hf, hpass⟩ := hshared before k hk'
    have hf' := (hk f hf).1.outer_of_passes hpass
    have hl' := he.1.outer_of_passes hl
    obtain ⟨a, r, hpa, -, rfl⟩ := hl
    obtain ⟨b, s, hpb, -, hb⟩ := hpass
    have halike := ha f hf
    rw [hpa, hpb] at halike
    obtain ⟨-, hspelling, hinner⟩ := alike_of_writtenAlike halike hb.symm hname.symm
    obtain ⟨kn, ks, ki, ko⟩ := k
    obtain ⟨ln, ls, li, lo⟩ := l
    simp_all
  obtain ⟨path, gap, v, after⟩ := e
  obtain ⟨path', gap', v', after'⟩ := e'
  simp_all

end Alike

section Lists

def Node.isArray : Node → Bool
  | .value _ ⟨.array _, _⟩ _ => true
  | _ => false

/-- Each listed key has an array, or has nothing. -/
def Children.takes (cs : Children) (lists : Lists) : Bool :=
  lists.all fun p => (cs.child? p.1).all fun c => c.2.isArray

def Entry.relisted (lists : Lists) (e : Entry) : Entry :=
  match lists.find? fun p => names e.path = [p.1] with
  | some p => { e with gap := [' '], value := arrayValue p.2 }
  | none => e

def Entry.fresh (name : List Char) (values : List (List Char)) : Entry :=
  ⟨[(Key.fresh name).closed], [' '], arrayValue values, []⟩

variable {cs : Children} {lists : Lists} {name : List Char} {values : List (List Char)} {e e' : Entry}

theorem eq_of_isArray {n : Node} (h : n.isArray = true) :
    ∃ gap v after, n = .value gap v after ∧ n.kept = after := by
  unfold Node.isArray at h
  split at h
  · exact ⟨_, _, _, rfl, rfl⟩
  · cases h

theorem relisted_of_ne (h : name ∉ lists.map Prod.fst) (hn : names e.path = [name]) : e.relisted lists = e := by
  rw [Entry.relisted, List.find?_eq_none.2]
  intro p hp he
  rw [hn, decide_eq_true_eq, List.cons.injEq] at he
  exact h (he.1 ▸ List.mem_map_of_mem hp)

theorem relisted_cons (p : List Char × List (List Char)) (lists : Lists) (e : Entry) :
    e.relisted (p :: lists) =
      if names e.path = [p.1] then { e with gap := [' '], value := arrayValue p.2 } else e.relisted lists := by
  rw [Entry.relisted, List.find?_cons]
  by_cases h : names e.path = [p.1]
  · simp [h]
  · simp only [h, decide_false, if_false]
    rfl

theorem exists_child_of_entry (h : e ∈ entriesUnder [] cs) : ∃ p ∈ cs, headName e.path = p.1.name := by
  induction cs with
  | nil => cases h
  | cons p cs ih =>
    obtain ⟨k, n⟩ := p
    rw [entriesUnder, List.nil_append, Node.entries_cons, List.mem_append] at h
    rcases h with h | h
    · obtain ⟨f, -, rfl⟩ := List.mem_map.1 h
      exact ⟨_, List.mem_cons_self, rfl⟩
    · obtain ⟨p, hp, hn⟩ := ih h
      exact ⟨p, List.mem_cons_of_mem _ hp, hn⟩

def Children.printedEntries (cs : Children) : List Entry :=
  entriesUnder [] (printedPart cs)

theorem printedEntries_append (cs ds : Children) :
    (cs ++ ds).printedEntries = cs.printedEntries ++ ds.printedEntries := by
  rw [printedEntries, printedPart, ownPart_append, List.map_append, entriesUnder_append]
  rfl

theorem printedEntries_value (k : Key) (gap : List Char) (v : Value) (after : List Char) :
    printedEntries [(k, .value gap v after)] = [⟨[k.closed], gap, v, after⟩] := by
  rw [printedEntries, printedPart, ownPart_single, Node.ownUnder, List.map_singleton, closeChild, entriesUnder,
    Node.entries, entriesUnder]
  rfl

theorem relisted_printedEntries (h : cs.child? name = none) (values : List (List Char)) :
    cs.printedEntries.map (Entry.relisted [(name, values)]) = cs.printedEntries := by
  refine (List.map_congr_left fun e he => ?_).trans (List.map_id _)
  rw [relisted_cons, if_neg]
  · rfl
  · intro hn
    obtain ⟨p, hp, hhead⟩ := exists_child_of_entry he
    have hname : headName e.path = name := by
      obtain ⟨path, gap, v, after⟩ := e
      cases path with
      | nil => cases hn
      | cons k path => exact (List.cons.inj hn).1
    have hmem : name ∈ childNames (printedPart cs) := hname ▸ hhead ▸ List.mem_map_of_mem hp
    rw [printedPart, childNames_closeChild] at hmem
    exact not_mem_childNames.2 h ((childNames_ownPart cs).subset hmem)

theorem printedEntries_putArray (ht : TidyAll cs) (h : (cs.child? name).all (fun c => c.2.isArray) = true)
    (values : List (List Char)) :
    (cs.putArray name values).printedEntries = cs.printedEntries.map (Entry.relisted [(name, values)]) ++
      if (cs.child? name).isNone then [.fresh name values] else [] := by
  rw [putArray]
  cases hc : cs.child? name with
  | none =>
    dsimp only
    rw [printedEntries_append, printedEntries_value, relisted_printedEntries hc, Option.isNone_none, if_pos rfl]
    rfl
  | some p =>
    obtain ⟨k, n⟩ := p
    rw [hc, Option.all_some] at h
    obtain ⟨gap, v, after, rfl, hkept⟩ := eq_of_isArray h
    obtain ⟨l, r, rfl, rfl, hl, hr⟩ := child?_split ht.nodup hc
    have hself : (⟨[k.closed], gap, v, after⟩ : Entry).relisted [(k.name, values)] =
        ⟨[k.closed], [' '], arrayValue values, after⟩ := by
      rw [relisted_cons]
      exact if_pos rfl
    dsimp only
    rw [put_split rfl hl hr, hkept, ← List.singleton_append, printedEntries_append, printedEntries_append,
      printedEntries_value, ← List.singleton_append (l := r), printedEntries_append, printedEntries_append,
      printedEntries_value, List.map_append, List.map_append, relisted_printedEntries hl,
      relisted_printedEntries hr, List.map_singleton, hself]
    simp

theorem relisted_relisted {p : List Char × List (List Char)} (hp : p.1 ∉ lists.map Prod.fst) (e : Entry) :
    (e.relisted [p]).relisted lists = e.relisted (p :: lists) := by
  rw [relisted_cons, relisted_cons]
  split
  · next hn => exact relisted_of_ne hp hn
  · rfl

theorem printedEntries_putAll (ht : TidyAll cs) (hd : (lists.map Prod.fst).Nodup) (h : cs.takes lists = true) :
    (cs.putAll lists).printedEntries = cs.printedEntries.map (Entry.relisted lists) ++
      (lists.filter fun p => (cs.child? p.1).isNone).map fun p => .fresh p.1 p.2 := by
  induction lists generalizing cs with
  | nil =>
    have hid : Entry.relisted [] = id := rfl
    rw [hid, List.map_id, List.filter_nil, List.map_nil, List.append_nil]
    rfl
  | cons p lists ih =>
    rw [takes, List.all_cons, Bool.and_eq_true] at h
    rw [List.map_cons, List.nodup_cons] at hd
    have hsame : ∀ q ∈ lists, (cs.putArray p.1 p.2).child? q.1 = cs.child? q.1 := by
      intro q hq
      have hne : q.1 ≠ p.1 := fun he => hd.1 (he ▸ List.mem_map_of_mem hq)
      rw [← child?_only, putArray_only hne, child?_only]
    have htakes : (cs.putArray p.1 p.2).takes lists = true := by
      refine List.all_eq_true.2 fun q hq => ?_
      rw [hsame q hq]
      exact List.all_eq_true.1 h.2 q hq
    have hrest : (cs.putAll (p :: lists)).printedEntries = ((cs.putArray p.1 p.2).putAll lists).printedEntries := rfl
    rw [hrest, ih (ht.putArray p.1 p.2) hd.2 htakes, printedEntries_putArray ht h.1, List.map_append,
      List.map_map, List.append_assoc]
    congr 1
    · exact List.map_congr_left fun e _ => relisted_relisted hd.1 e
    · rw [List.filter_congr fun q hq => by rw [hsame q hq], List.filter_cons]
      split
      · rw [List.map_singleton, relisted_of_ne hd.1 rfl, List.map_cons, List.singleton_append]
      · rfl

end Lists

section Headers

/-- The lines of a text: the entries above all headers, and each header with the entries below it. -/
abbrev Contents := List Entry × List (Header × List Entry)

def Contents.paths (c : Contents) : List (List Key) :=
  c.1.map Entry.path ++ c.2.flatMap fun s => s.1.path :: s.2.map fun e => s.1.path ++ e.path

/-- The header again, by the same names and between the same texts. If no other line writes a key that it
shares in another way, it is the same header. -/
structure Header.Recurs (c : Contents) (h h' : Header) : Prop where
  before : h'.before = h.before
  element : h'.element = h.element
  names : names h'.path = names h.path
  after : h'.after = h.after
  same : (∀ p ∈ c.paths, writtenAlike h.path p = true) →
    (∀ s ∈ c.2, Toml.names s.1.path = Toml.names h.path → pathSpace s.1.path = pathSpace h.path) → h' = h

variable {p q : List Key} {a b : List Char}

theorem forall₂_alike (hn : names p = names q)
    (h : ∀ p₁ k p₂ q₁ l q₂, p = p₁ ++ k :: p₂ → q = q₁ ++ l :: q₂ → names p₁ = names q₁ → k.name = l.name →
      k.Alike l) : List.Forall₂ Key.Alike p q := by
  induction p generalizing q with
  | nil =>
    obtain rfl := eq_nil_of_names hn
    exact .nil
  | cons k p ih =>
    obtain ⟨l, q, rfl, hk, hn⟩ := exists_cons_of_names hn
    refine .cons (h [] k p [] l q rfl rfl rfl hk) (ih hn fun p₁ i p₂ q₁ j q₂ hp hq hpq hij => ?_)
    refine h (k :: p₁) i p₂ (l :: q₁) j q₂ (by rw [hp, List.cons_append]) (by rw [hq, List.cons_append]) ?_ hij
    rw [names, names, List.map_cons, List.map_cons, hk]
    exact congrArg (l.name :: ·) hpq

theorem reread_congr (h : List.Forall₂ Key.Alike p q) (around : List Char × List Char) :
    reread around p = reread around q := by
  have hspaced (b a : List Char) : spaced b a p = spaced b a q := by
    induction h generalizing b with
    | nil => rfl
    | @cons k l p q hk hr ih =>
      cases hr with
      | nil => rw [spaced, spaced, hk.name, hk.spelling]
      | @cons i j p q hi hr =>
        rw [spaced, spaced, hk.name, hk.spelling, hk.inner, hi.inner, ih]
  rw [reread, reread, hspaced]

theorem forall₂_ownTables? {ss : List (Header × List Entry)} {gs : List (Header × Children)}
    (h : ownTables? ss = some gs) :
    List.Forall₂ (fun s g => g.1 = s.1 ∧ Entry.defineAll? [] s.2 = some g.2) ss gs := by
  induction ss generalizing gs with
  | nil =>
    cases h
    exact .nil
  | cons s ss ih =>
    rw [ownTables?] at h
    obtain ⟨own, hown, h⟩ := Option.bind_eq_some_iff.1 h
    obtain ⟨gs', hgs, rfl⟩ := Option.map_eq_some_iff.1 h
    exact .cons ⟨rfl, hown⟩ (ih hgs)

def Contents.origin (c : Contents) : Origin where
  table above k := ∃ p ∈ c.paths, ∃ q r, p = q ++ k :: r ∧ names q = above
  header above k := ∃ s ∈ c.2, ∃ q, s.1.path = q ++ [k] ∧ names q = above
  table_of_header := by
    rintro above k ⟨s, hs, q, hq, hn⟩
    refine ⟨s.1.path, List.mem_append_right _ (List.mem_flatMap.2 ⟨s, hs, List.mem_cons_self⟩), q, [], hq, hn⟩

variable {c : Contents} {h : Header} {blk : Block}

theorem Header.recurs (hh : h.Known) (hb : blk.From c.origin) (hs : blk.heading.isSome = true)
    (hn : names blk.path = names h.path) :
    h.Recurs c ⟨h.before, h.element, reread blk.around blk.path, h.after⟩ := by
  refine ⟨rfl, rfl, (names_reread _ _).trans hn, rfl, fun halike hspace => ?_⟩
  obtain ⟨b, a, -, -, hsettled⟩ := hh.path
  obtain ⟨l, hl, hends, -⟩ := hsettled.last
  have hkeys : List.Forall₂ Key.Alike blk.path h.path := by
    refine forall₂_alike hn fun p₁ k p₂ q₁ l q₂ hp hq hpq hkl => ?_
    obtain ⟨p, hmem, q, r, hpath, hnames⟩ := hb.passed p₁ k p₂ hp
    have hpair := halike p hmem
    rw [hq, hpath] at hpair
    obtain ⟨h1, h2, h3⟩ := alike_of_writtenAlike hpair (hpq.symm.trans hnames.symm) hkl.symm
    exact ⟨h1.symm, h2.symm, h3.symm⟩
  have hne : blk.path ≠ [] := by
    intro he
    rw [he] at hkeys
    exact hsettled.ne_nil (List.forall₂_nil_left_iff.1 hkeys)
  have haround : blk.around = (b, a) := by
    obtain ⟨q, k, hq⟩ := (List.eq_nil_or_concat' blk.path).resolve_left hne
    obtain ⟨s, hm, q', hq', hnames⟩ := hb.last hs q k hq
    have hsame : names s.1.path = names h.path := by
      rw [← hn, hq, hq', names_append, names_append, hnames]
    have hspace := hspace s hm hsame
    rw [pathSpace, pathSpace, hl, hq', Option.bind_some, hends.2, List.getLast?_concat, Option.bind_some] at hspace
    rw [Block.around, hq, List.getLast?_concat, Option.bind_some, hspace]
    rfl
  rw [haround, reread_congr hkeys, reread_eq hsettled]

end Headers

section Documents

/-- The lines of a text stand again in another: the entries of each table in some order, and the headers in
theirs. Those of the top table have the arrays that are listed for them; the entries `new` come with these. -/
structure Contents.Recurs (lists : Lists) (new : List Entry) (c c' : Contents) : Prop where
  top : ∃ fs, List.Forall₂ (Entry.Kept c.1) c.1 fs ∧ c'.1.Perm (fs.map (Entry.relisted lists) ++ new)
  sections : List.Forall₂ (fun s s' => s.1.Recurs c s'.1 ∧
    ∃ fs, List.Forall₂ (Entry.Kept s.2) s.2 fs ∧ s'.2.Perm fs) c.2 c'.2

variable {c : Contents} {top cs : Children} {gs : List (Header × Children)} {lists : Lists}

theorem FromAll.putAll {o : Origin} {above : List (List Char)} (h : FromAll o above cs) (ht : TidyAll cs)
    (lists : Lists) : FromAll o above (cs.putAll lists) := by
  induction lists generalizing cs with
  | nil => exact h
  | cons p lists ih =>
    refine ih ?_ (ht.putArray p.1 p.2)
    change FromAll o above (cs.putArray p.1 p.2)
    rw [putArray]
    cases hc : cs.child? p.1 with
    | none => exact h.concat trivial
    | some q =>
      obtain ⟨k, n⟩ := q
      obtain ⟨l, r, rfl, hk, hl, hr⟩ := child?_split ht.nodup hc
      dsimp only
      rw [put_split hk hl hr]
      exact h.change trivial

theorem child?_of_mem {p : Key × Node} (hn : (childNames cs).Nodup) (hp : p ∈ cs) :
    cs.child? p.1.name = some p := by
  obtain ⟨l, r, rfl⟩ := List.append_of_mem hp
  rw [childNames_append, childNames_cons, List.nodup_append] at hn
  have hnone : Children.child? l p.1.name = none := by
    rw [← not_mem_childNames]
    exact fun hl => hn.2.2 _ hl _ List.mem_cons_self rfl
  rw [child?_append, hnone, Option.none_or, child?_cons, if_pos rfl]

theorem ReadApart.left_of_takes (h : ReadApart top gs cs) (ht : cs.takes lists = true) :
    leftSections (lists.map Prod.fst) gs = gs.zipIdx 1 := by
  obtain ⟨htidy, -, hperm⟩ := h.layout
  refine List.filter_eq_self.2 fun a ha => ?_
  have hm : Sheet.ofSection a ∈ sheets [] cs := by
    refine hperm.mem_iff.2 ?_
    rw [sectionSheets_eq]
    exact List.mem_map_of_mem ha
  obtain ⟨hm, hvisible⟩ := List.mem_filter.1 hm
  obtain ⟨b, hb, he⟩ := List.mem_map.1 hm
  obtain ⟨p, hp, hb⟩ := mem_blocksUnder.1 hb
  clear hm
  refine List.all_eq_true.2 fun key hkey => decide_eq_true fun hhead => ?_
  -- a table under a listed key would be a child of that name, which is an array
  obtain ⟨q, hq, rfl⟩ := List.mem_map.1 hkey
  obtain ⟨t, hpath⟩ := Node.prefix_of_mem_blocks p.2 b hb
  have hnames : names b.path = names a.1.1.path := congrArg Sheet.names he
  rw [← hnames, ← hpath, List.nil_append, List.singleton_append, names, List.map_cons, List.head?_cons,
    Option.some.injEq] at hhead
  have hchild := List.all_eq_true.1 ht q hq
  rw [← hhead, child?_of_mem htidy.nodup hp, Option.all_some] at hchild
  obtain ⟨gap, v, after, hvalue, -⟩ := eq_of_isArray hchild
  rw [hvalue, Node.blocks] at hb
  cases hb

theorem ReadApart.origin (h : ReadApart top gs cs) (hes : ∀ e ∈ c.1, e.Known lineLeaf true (keyLimit - 1))
    (hss : ∀ s ∈ c.2, ∀ e ∈ s.2, e.Known lineLeaf true (keyLimit - 1))
    (ht : Entry.defineAll? [] c.1 = some top) (hg : ownTables? c.2 = some gs) :
    FromAll c.origin [] cs := by
  -- a key that an entry passes is one that an entry of the text passes
  have entry {es : List Entry} {own : Children} (path : List Key)
      (hk : ∀ e ∈ es, e.Known lineLeaf true (keyLimit - 1)) (hd : Entry.defineAll? [] es = some own)
      (hp : ∀ e ∈ es, path ++ e.path ∈ c.paths) : FromAll c.origin (names path) own := by
    obtain ⟨fs, hfs, hperm⟩ := kept_of_defineAll? hk hd
    refine OwnAll.from own (GrownAll.ownAll own (grown_of_defineAll? hk hd)) fun e he before l hl => ?_
    obtain ⟨f, -, hkept⟩ := exists_of_forall₂ hfs.flip (hperm.subset he)
    obtain ⟨g, hg, q, r, hq, -, rfl⟩ := hkept.shared before l hl
    refine ⟨path ++ g.path, hp g hg, path ++ q, r, ?_, names_append path q⟩
    rw [hq, List.append_assoc]
  have hown := forall₂_ownTables? hg
  refine FromAll.graftAll? (fun g hg => (h.read g hg).known) (fun g hg => ?_) (GrownAll.tidyAll top h.grown) ?_
    h.grafts
  · obtain ⟨s, hs, he, hd⟩ := exists_of_forall₂ hown.flip hg
    have hmem : s.1.path :: s.2.map (fun e => s.1.path ++ e.path) ⊆ c.paths := fun p hp =>
      List.mem_append_right _ (List.mem_flatMap.2 ⟨s, hs, hp⟩)
    rw [he]
    exact ⟨⟨fun q k r hq => ⟨_, hmem List.mem_cons_self, q, r, hq, rfl⟩, fun q k hq => ⟨s, hs, q, hq, rfl⟩⟩,
      entry s.1.path (hss s hs) hd fun e he => hmem (List.mem_cons_of_mem _ (List.mem_map_of_mem he))⟩
  · exact entry [] hes ht fun e he => List.mem_append_left _ (List.mem_map_of_mem he)

theorem Reprinted.recurs {bs : List Block} {ss : List (Header × List Entry)} {gs' : List (Header × Children)}
    {rank : Nat} (hr : Reprinted bs gs gs') (hb : bs.map Block.sheet = (gs.zipIdx rank).map Sheet.ofSection)
    (hf : ∀ b ∈ bs, b.From c.origin) (hk : ∀ g ∈ gs, SectionRead g)
    (hs : List.Forall₂ (fun s g => g.1 = s.1 ∧ Entry.defineAll? [] s.2 = some g.2) ss gs)
    (hss : ∀ s ∈ ss, ∀ e ∈ s.2, e.Known lineLeaf true (keyLimit - 1)) :
    List.Forall₂ (fun s s' => s.1.Recurs c s'.1 ∧
      ∃ fs, List.Forall₂ (Entry.Kept s.2) s.2 fs ∧ s'.2.Perm fs) ss (gs'.map fun g => (g.1, entriesUnder [] g.2)) := by
  induction hs generalizing bs gs' rank with
  | nil =>
    obtain rfl := List.forall₂_nil_left_iff.1 hr.rest
    exact .nil
  | @cons s g ss gs hsg _ ih =>
    obtain ⟨hpaths, hrest⟩ := hr
    obtain ⟨g', gs', hg', hgs', rfl⟩ := List.forall₂_cons_left_iff.1 hrest
    obtain ⟨b, bs, hpath, hbs, rfl⟩ := List.forall₂_cons_right_iff.1 hpaths
    rw [List.zipIdx_cons, List.map_cons, List.map_cons, List.cons.injEq] at hb
    rw [List.forall_mem_cons] at hf hk hss
    obtain ⟨he, hd⟩ := hsg
    refine .cons ⟨?_, ?_⟩ (ih ⟨hbs, hgs'⟩ hb.2 hf.2 hk.2 hss.2)
    · have hhead := Block.heading_eq hb.1
      have hnames : names b.path = names g.1.path := congrArg Sheet.names hb.1
      rw [hg', ← he, hpath]
      exact Header.recurs hk.1.header hf.1 (by rw [hhead]; rfl) hnames
    · rw [hg']
      exact kept_of_defineAll? hss.1 hd

theorem ReadApart.printedEntries_eq (h : ReadApart top gs cs) : cs.printedEntries = entriesUnder [] top := by
  obtain ⟨-, hpart, -⟩ := h.layout
  rw [printedEntries, printedPart, hpart]
  refine congrArg _ ((List.map_congr_left fun p hp => ?_).trans (List.map_id _))
  exact closeChild_eq (((grownAll_iff top).1 h.grown).1 p hp)

/-- The edited document reads as the lines of the text, with the arrays in their places. -/
theorem Document.recurs {s t : List Char} {d : Document} {sts : List Statement} (h : strict? s = some d)
    (hread : Statement.readAll? (unmarked s) = some (sts, t)) (hd : (lists.map Prod.fst).Nodup)
    (ht : d.top.takes lists = true) :
    ∃ sts' new, Statement.readAll? (d.putArrays lists).text = some (sts', t) ∧
      (∀ e ∈ new, ∃ p ∈ lists, e = .fresh p.1 p.2) ∧
        Contents.Recurs lists new (Statement.sections sts) (Statement.sections sts') := by
  obtain ⟨sts₀, top, gs, hread₀, htop, hgs, hgraft⟩ := strict?_eq_some.1 h
  rw [hread, Option.some.injEq, Prod.mk.injEq] at hread₀
  obtain ⟨rfl, rfl⟩ := hread₀
  obtain ⟨hknown, htrailing⟩ := Statement.readAll?_known hread
  obtain ⟨hes, hss⟩ := Statement.sections_known hknown
  have hapart : ReadApart top gs d.top := ⟨grown_of_defineAll? hes htop, ownTables?_read hss hgs, hgraft⟩
  obtain ⟨htidy, -, -⟩ := hapart.layout
  obtain ⟨ds, hrun, -⟩ := hapart.run_left lists
  obtain ⟨-, gs', -, hread', -, -, hre⟩ := hapart.strict?_of_run hd hrun htrailing
  have hleft := hapart.left_of_takes ht
  have hsheets := hapart.sheets_left lists
  rw [hleft] at hsheets hre
  rw [List.zipIdx_map_fst] at hre
  have hsections (es : List Entry) :
      Statement.sections (es.map .entry ++ sectionLines gs') = (es, gs'.map fun g => (g.1, entriesUnder [] g.2)) := by
    rw [Statement.sections_entries, sections_sectionLines, List.append_nil]
  refine ⟨_, (lists.filter fun p => (d.top.child? p.1).isNone).map fun p => .fresh p.1 p.2, hread',
    fun e he => ?_, ⟨?_, ?_⟩⟩
  · obtain ⟨p, hp, rfl⟩ := List.mem_map.1 he
    exact ⟨p, (List.mem_filter.1 hp).1, rfl⟩
  · obtain ⟨fs, hfs, hperm⟩ := kept_of_defineAll? hes htop
    have hall := printedEntries_putAll htidy hd ht
    rw [hapart.printedEntries_eq] at hall
    rw [hsections]
    refine ⟨fs, hfs, ?_⟩
    exact (List.Perm.of_eq hall).trans ((hperm.map _).append_right _)
  · rw [hsections]
    have horigin : FromAll (Contents.origin (Statement.sections sts)) [] d.top :=
      hapart.origin hes (fun s hs => (hss s hs).2) htop hgs
    refine hre.recurs hsheets (fun b hb => ?_) hapart.read (forall₂_ownTables? hgs) fun s hs => (hss s hs).2
    have hnil : ∀ q l r, ([] : List Key) = q ++ l :: r → (Contents.origin (Statement.sections sts)).table (names q) l := by
      simp
    exact FromAll.blocks hnil _ (horigin.putAll htidy lists) b (mem_ordered.1 (List.mem_filter.1 hb).1)

end Documents

end CBuild.Toml
