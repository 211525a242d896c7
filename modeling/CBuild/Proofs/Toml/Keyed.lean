import CBuild.Proofs.Toml.Extent
import Mathlib.Data.List.Nodup

/-! No text says two things under one key. The tables that lines and braces define have distinct keys, whatever the keys
are and however deep the tables are. -/

namespace CBuild.Toml

open Children

mutual

/-- Every table in the value has distinct keys. -/
def Data.Keyed : Data → Prop
  | .array items => KeyedItems items
  | .table es => (es.map Prod.fst).Nodup ∧ KeyedEntries es
  | _ => True

def KeyedItems : List Data → Prop
  | [] => True
  | d :: r => d.Keyed ∧ KeyedItems r

def KeyedEntries : List (String × Data) → Prop
  | [] => True
  | (_, d) :: r => d.Keyed ∧ KeyedEntries r

end

section Data

variable {items : List Data} {es : List (String × Data)} {d : Data} {key : String}

theorem keyedItems_iff : KeyedItems items ↔ ∀ d ∈ items, d.Keyed := by
  induction items with
  | nil => simp [KeyedItems]
  | cons d r ih => rw [KeyedItems, ih, List.forall_mem_cons]

theorem keyedEntries_iff : KeyedEntries es ↔ ∀ p ∈ es, p.2.Keyed := by
  induction es with
  | nil => simp [KeyedEntries]
  | cons p r ih => rw [KeyedEntries, ih, List.forall_mem_cons]

theorem Data.Keyed.nodup (h : (Data.table es).Keyed) : (es.map Prod.fst).Nodup := by
  rw [Data.Keyed] at h
  exact h.1

theorem Data.Keyed.lookup (h : (Data.table es).Keyed) (hd : es.lookup key = some d) : d.Keyed := by
  rw [Data.Keyed, keyedEntries_iff] at h
  obtain ⟨l, r, rfl, -⟩ := List.lookup_eq_some_iff.1 hd
  exact h.2 _ (List.mem_append_right _ List.mem_cons_self)

end Data

def Children.Keyed (cs : Children) : Prop :=
  (Data.table (entriesData cs)).Keyed

def KeepsKeyed (op : Children → Option Children) : Prop :=
  ∀ cs ds, Children.Keyed cs → op cs = some ds → Children.Keyed ds

section Children

variable {cs ds sub : Children} {k k' : Key} {n : Node} {name : List Char} {how : Standing}
  {es fs : List (Heading × Children)} {op body : Children → Option Children}

theorem map_fst_entriesData (cs : Children) : (entriesData cs).map Prod.fst = (childNames cs).map String.ofList := by
  induction cs with
  | nil => rfl
  | cons p cs ih => rw [entriesData, List.map_cons, ih, childNames_cons, List.map_cons]

theorem keyedEntries_entriesData (cs : Children) : KeyedEntries (entriesData cs) ↔ ∀ p ∈ cs, p.2.data.Keyed := by
  induction cs with
  | nil => simp [entriesData, KeyedEntries]
  | cons p cs ih => rw [entriesData, KeyedEntries, ih, List.forall_mem_cons]

theorem keyed_iff : cs.Keyed ↔ (childNames cs).Nodup ∧ ∀ p ∈ cs, p.2.data.Keyed := by
  rw [Children.Keyed, Data.Keyed, map_fst_entriesData, keyedEntries_entriesData,
    List.nodup_map_iff fun _ _ => String.ofList_injective]

theorem keyed_tables_iff : (Node.tables es).data.Keyed ↔ ∀ e ∈ es, Children.Keyed e.2 := by
  rw [Node.data, Data.Keyed]
  induction es with
  | nil => simp [tablesData, KeyedItems]
  | cons e es ih => rw [tablesData, KeyedItems, ih, List.forall_mem_cons, Children.Keyed]

theorem keyed_nil : Children.Keyed [] :=
  keyed_iff.2 ⟨List.nodup_nil, List.forall_mem_nil _⟩

theorem Children.Keyed.child (h : cs.Keyed) (hc : cs.child? name = some (k, n)) : n.data.Keyed :=
  (keyed_iff.1 h).2 _ (mem_of_child? hc).1

theorem Children.Keyed.concat (h : cs.Keyed) (hk : cs.child? k.name = none) (hn : n.data.Keyed) :
    Children.Keyed (cs ++ [(k, n)]) := by
  rw [keyed_iff] at h ⊢
  rw [childNames_append, List.forall_mem_append, List.forall_mem_singleton]
  refine ⟨List.Nodup.append h.1 (List.nodup_singleton _) ?_, h.2, hn⟩
  exact List.disjoint_singleton.2 (not_mem_childNames.2 hk)

theorem Children.Keyed.put (h : cs.Keyed) (name : List Char) (hn : n.data.Keyed) : (cs.put name n).Keyed := by
  rw [keyed_iff] at h ⊢
  have hnames : childNames (cs.put name n) = childNames cs := by
    rw [childNames, Children.put, List.map_map]
    refine List.map_congr_left fun p _ => ?_
    dsimp only [Function.comp]
    split <;> rfl
  refine ⟨hnames ▸ h.1, fun p hp => ?_⟩
  obtain ⟨⟨k, m⟩, hq, rfl⟩ := List.mem_map.1 hp
  dsimp only
  split
  · exact hn
  · exact h.2 _ hq

theorem Children.Keyed.erase (h : cs.Keyed) (name : List Char) :
    (cs.erase name).Keyed ∧ (cs.erase name).child? name = none := by
  rw [keyed_iff] at h ⊢
  refine ⟨⟨h.1.sublist (List.filter_sublist.map _), fun p hp => h.2 p (List.mem_filter.1 hp).1⟩, ?_⟩
  exact child?_eq_none.2 fun p hp => by simpa using (List.mem_filter.1 hp).2

theorem KeepsKeyed.changeLast (hop : KeepsKeyed op) (h : (Node.tables es).data.Keyed)
    (hf : changeLast? op es = some fs) : (Node.tables fs).data.Keyed := by
  obtain ⟨init, heading, e, e', rfl, rfl, he⟩ := changeLast?_eq_some hf
  rw [keyed_tables_iff, List.forall_mem_append, List.forall_mem_singleton] at h ⊢
  exact ⟨h.1, hop e e' h.2 he⟩

theorem keepsKeyed_define? (hn : n.data.Keyed) (holds : Bool) (path : List Key) :
    KeepsKeyed (define? · holds n path) := by
  induction path generalizing holds with
  | nil => nofun
  | cons k path ih =>
    intro cs ds h hd
    dsimp only at hd
    cases path with
    | nil =>
      rw [define?] at hd
      split at hd
      · cases hd
      · next hfree =>
        cases hd
        exact h.concat (by simp at hfree; exact hfree.2) hn
    | cons l path =>
      rw [define?] at hd
      · split at hd
        · next hc =>
          obtain ⟨sub, hs, rfl⟩ := Option.map_eq_some_iff.1 hd
          exact h.concat hc (ih true [] sub keyed_nil hs)
        · cases hd
        · cases hd
        · next k' sub hc =>
          obtain ⟨sub', hs, rfl⟩ := Option.map_eq_some_iff.1 hd
          exact h.put _ (ih true sub sub' (h.child hc) hs)
        · next k' sub hc =>
          obtain ⟨sub', hs, rfl⟩ := Option.map_eq_some_iff.1 hd
          exact h.put _ (ih false sub sub' (h.child hc) hs)
        · next k' es hc =>
          obtain ⟨es', hs, rfl⟩ := Option.map_eq_some_iff.1 hd
          exact h.put _ ((ih false).changeLast (h.child hc) hs)
      · rintro ⟨⟩

theorem keepsKeyed_descend? (hop : KeepsKeyed op) (path : List Key) : KeepsKeyed (descend? op · path) := by
  induction path with
  | nil => simpa [KeepsKeyed, descend?] using hop
  | cons k path ih =>
    intro cs ds h hd
    dsimp only at hd
    rw [descend?] at hd
    split at hd
    · next hc =>
      obtain ⟨sub, hs, rfl⟩ := Option.map_eq_some_iff.1 hd
      exact h.concat hc (ih [] sub keyed_nil hs)
    · cases hd
    · next k' how sub hc =>
      obtain ⟨sub', hs, rfl⟩ := Option.map_eq_some_iff.1 hd
      exact h.put _ (ih sub sub' (h.child hc) hs)
    · next k' es hc =>
      obtain ⟨es', hs, rfl⟩ := Option.map_eq_some_iff.1 hd
      exact h.put _ (ih.changeLast (h.child hc) hs)

theorem keepsKeyed_headTable? (hbody : KeepsKeyed body) (k : Key) (heading : Heading) :
    KeepsKeyed (headTable? k heading body) := by
  intro cs ds h hd
  rw [headTable?] at hd
  split at hd
  · next hc =>
    obtain ⟨b, hb, rfl⟩ := Option.map_eq_some_iff.1 hd
    exact h.concat hc (hbody [] b keyed_nil hb)
  · next k' sub hc =>
    obtain ⟨b, hb, rfl⟩ := Option.map_eq_some_iff.1 hd
    exact (h.erase k.name).1.concat (h.erase k.name).2 (hbody sub b (h.child hc) hb)
  · cases hd

theorem keepsKeyed_headElement? (hbody : KeepsKeyed body) (k : Key) (heading : Heading) :
    KeepsKeyed (headElement? k heading body) := by
  intro cs ds h hd
  rw [headElement?] at hd
  split at hd
  · next hc =>
    obtain ⟨b, hb, rfl⟩ := Option.map_eq_some_iff.1 hd
    refine h.concat hc (keyed_tables_iff.2 ?_)
    exact List.forall_mem_singleton.2 (hbody [] b keyed_nil hb)
  · next k' es hc =>
    obtain ⟨b, hb, rfl⟩ := Option.map_eq_some_iff.1 hd
    refine h.put _ (keyed_tables_iff.2 ?_)
    rw [List.forall_mem_append, List.forall_mem_singleton]
    exact ⟨keyed_tables_iff.1 (h.child hc), hbody [] b keyed_nil hb⟩
  · cases hd

theorem keepsKeyed_open? (hbody : KeepsKeyed body) (h : Header) (rank : Nat) : KeepsKeyed (h.open? rank body) := by
  intro cs ds hcs hd
  rw [Header.open?] at hd
  split at hd
  · cases hd
  · refine keepsKeyed_descend? ?_ _ cs ds hcs hd
    split
    · exact keepsKeyed_headElement? hbody _ _
    · exact keepsKeyed_headTable? hbody _ _

theorem keepsKeyed_defineAll? {entries : List Entry} (he : ∀ e ∈ entries, e.value.data.Keyed) :
    KeepsKeyed (Entry.defineAll? · entries) := by
  induction entries with
  | nil =>
    rintro cs ds h ⟨⟩
    exact h
  | cons e entries ih =>
    intro cs ds h hd
    rw [List.forall_mem_cons] at he
    dsimp only at hd
    rw [Entry.defineAll?_cons] at hd
    obtain ⟨cs', hs, hd⟩ := Option.bind_eq_some_iff.1 hd
    have hn : (Node.value e.gap e.value e.after).data.Keyed := by
      rw [Node.data]
      exact he.1
    exact ih he.2 cs' ds (keepsKeyed_define? hn true e.path cs cs' h hs) hd

end Children

section Values

variable {read : List Char → Option (Value × List Char)} {s r t before : List Char} {v : Value} {ds : List Data}
  {es : List Entry} {d : Data}

theorem scalarOfToken?_keyed (h : scalarOfToken? t = some d) : d.Keyed := by
  unfold scalarOfToken? at h
  split at h
  · cases h
    trivial
  · split at h
    · cases h
      trivial
    · split at h
      · cases h
        trivial
      · split at h
        · cases h
          trivial
        · obtain ⟨x, -, rfl⟩ := Option.map_eq_some_iff.1 h
          trivial

theorem plain?_keyed (h : plain? s = some (v, r)) : v.data.Keyed := by
  unfold plain? at h
  split at h
  · obtain ⟨x, -, he⟩ := Option.map_eq_some_iff.1 h
    cases he
    trivial
  · obtain ⟨x, -, he⟩ := Option.map_eq_some_iff.1 h
    cases he
    trivial
  · obtain ⟨⟨⟨text, d⟩, rest⟩, hs, he⟩ := Option.map_eq_some_iff.1 h
    cases he
    obtain ⟨d, hd, he⟩ := Option.map_eq_some_iff.1 hs
    cases he
    exact scalarOfToken?_keyed hd

variable (hread : ∀ s v r, read s = some (v, r) → v.data.Keyed)
include hread

theorem items?_keyed (h : items? read s = some ((ds, t), r)) : ∀ d ∈ ds, d.Keyed := by
  replace h := items_of_items? h
  induction h with
  | close => exact List.forall_mem_nil _
  | last _ hv _ => exact List.forall_mem_singleton.2 (hread _ _ _ hv)
  | comma _ hv _ _ _ ih => exact List.forall_mem_cons.2 ⟨hread _ _ _ hv, ih⟩

theorem pair?_keyed {e : Entry} (h : pair? read s = some (e, r)) : e.value.data.Keyed := by
  unfold pair? at h
  split at h
  · obtain ⟨⟨v, rest⟩, hv, he⟩ := Option.map_eq_some_iff.1 h
    cases he
    exact hread _ _ _ hv
  · cases h

theorem pairs?_keyed (h : pairs? read s = some (es, r)) : ∀ e ∈ es, e.value.data.Keyed := by
  replace h := pairs_of_pairs? h
  induction h with
  | last hp => exact List.forall_mem_singleton.2 (pair?_keyed hread hp)
  | comma hp _ _ ih => exact List.forall_mem_cons.2 ⟨pair?_keyed hread hp, ih⟩

theorem inline?_keyed (h : inline? read s = some (v, r)) : v.data.Keyed := by
  unfold inline? at h
  split at h
  · cases h
    exact keyed_nil
  · obtain ⟨⟨es, rest⟩, hp, h⟩ := Option.bind_eq_some_iff.1 h
    obtain ⟨cs, hd, h⟩ := Option.bind_eq_some_iff.1 h
    cases h
    exact keepsKeyed_defineAll? (pairs?_keyed hread hp) [] cs keyed_nil hd

omit hread

theorem value?_keyed (n : Nat) (h : value? n s = some (v, r)) : v.data.Keyed := by
  induction n generalizing s v r with
  | zero => exact plain?_keyed h
  | succ n ih =>
    unfold value? at h
    split at h
    · obtain ⟨⟨⟨ds, text⟩, rest⟩, hi, he⟩ := Option.map_eq_some_iff.1 h
      cases he
      rw [Data.Keyed, keyedItems_iff]
      exact items?_keyed (fun _ _ _ => ih) hi
    · exact inline?_keyed (fun _ _ _ => ih) h
    · exact plain?_keyed h

end Values

section Documents

variable {s before r : List Char} {e : Entry} {sts : List Statement}

theorem Entry.read?_keyed (h : Entry.read? before s = some (e, r)) : e.value.data.Keyed := by
  rw [Entry.read?] at h
  obtain ⟨⟨path, r1⟩, -, h⟩ := Option.bind_eq_some_iff.1 h
  obtain ⟨r2, -, h⟩ := Option.bind_eq_some_iff.1 h
  obtain ⟨⟨v, r3⟩, hv, h⟩ := Option.bind_eq_some_iff.1 h
  obtain ⟨⟨behind, rest⟩, -, h⟩ := Option.bind_eq_some_iff.1 h
  cases h
  exact value?_keyed _ hv

def Statement.Keyed : Statement → Prop
  | .header _ => True
  | .entry e => e.value.data.Keyed

theorem Statement.read?_keyed {st : Statement} (h : Statement.read? before s = some (st, r)) : st.Keyed := by
  unfold Statement.read? at h
  split at h
  · obtain ⟨x, -, he⟩ := Option.map_eq_some_iff.1 h
    cases he
    trivial
  · obtain ⟨x, -, he⟩ := Option.map_eq_some_iff.1 h
    cases he
    trivial
  · obtain ⟨⟨e, rest⟩, hx, he⟩ := Option.map_eq_some_iff.1 h
    cases he
    exact Entry.read?_keyed hx

theorem Statement.readAll?_keyed {t : List Char} (h : Statement.readAll? s = some (sts, t)) : ∀ st ∈ sts, st.Keyed := by
  fun_induction Statement.readAll? s generalizing sts t with
  | case1 s before ht =>
    cases h
    exact List.forall_mem_nil _
  | case2 => cases h
  | case3 s before r ht hr st rest hst hlt ih =>
    obtain ⟨⟨sts', t'⟩, hall, he⟩ := Option.map_eq_some_iff.1 h
    cases he
    exact List.forall_mem_cons.2 ⟨Statement.read?_keyed hst, ih hall⟩
  | case4 => cases h

theorem Statement.sections_keyed (h : ∀ st ∈ sts, st.Keyed) :
    (∀ e ∈ (sections sts).1, e.value.data.Keyed) ∧ ∀ g ∈ (sections sts).2, ∀ e ∈ g.2, e.value.data.Keyed := by
  induction sts with
  | nil => exact ⟨List.forall_mem_nil _, List.forall_mem_nil _⟩
  | cons st sts ih =>
    rw [List.forall_mem_cons] at h
    have ih := ih h.2
    cases st with
    | header hd => exact ⟨List.forall_mem_nil _, List.forall_mem_cons.2 ih⟩
    | entry e => exact ⟨List.forall_mem_cons.2 ⟨h.1, ih.1⟩, ih.2⟩

theorem Document.openAll?_keyed {cs ds : Children} {rank : Nat} {gs : List (Header × List Entry)} (hcs : cs.Keyed)
    (hg : ∀ g ∈ gs, ∀ e ∈ g.2, e.value.data.Keyed) (h : openAll? rank cs gs = some ds) : ds.Keyed := by
  induction gs generalizing rank cs with
  | nil =>
    cases h
    exact hcs
  | cons g gs ih =>
    rw [List.forall_mem_cons] at hg
    obtain ⟨cs', hs, h⟩ := Option.bind_eq_some_iff.1 h
    exact ih (keepsKeyed_open? (keepsKeyed_defineAll? hg.1) g.1 rank cs cs' hcs hs) hg.2 h

/-- What a text says is said under distinct keys. -/
theorem read?_keyed {d : Data} (h : read? s = some d) : d.Keyed := by
  obtain ⟨doc, hdoc, rfl⟩ := Option.map_eq_some_iff.1 h
  obtain ⟨⟨sts, trailing⟩, hs, h⟩ := Option.bind_eq_some_iff.1 hdoc
  obtain ⟨top, ht, h⟩ := Option.bind_eq_some_iff.1 h
  obtain ⟨cs, hc, h⟩ := Option.bind_eq_some_iff.1 h
  cases h
  have hkeyed := Statement.sections_keyed (Statement.readAll?_keyed hs)
  exact Document.openAll?_keyed (keepsKeyed_defineAll? hkeyed.1 [] top keyed_nil ht) hkeyed.2 hc

end Documents

end CBuild.Toml
