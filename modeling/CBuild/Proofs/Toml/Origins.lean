import CBuild.Proofs.Toml.Keeping

/-! Where the keys of tables come from. No line makes up a key: what is printed of a header are keys that lines
have at that place, and the last of them is the last key of a header. -/

namespace CBuild.Toml

open Children

/-- The keys that tables may stand under, behind keys of the names given: any table, and one that headers
open. -/
structure Origin where
  table : List (List Char) → Key → Prop
  header : List (List Char) → Key → Prop
  table_of_header : ∀ above k, header above k → table above k

def Origin.of (o : Origin) : Standing → List (List Char) → Key → Prop
  | .headed _ => o.header
  | _ => o.table

mutual

def Node.From (o : Origin) (above : List (List Char)) (k : Key) : Node → Prop
  | .value _ _ _ => True
  | .table how cs => o.of how above k ∧ FromAll o (above ++ [k.name]) cs
  | .tables es => o.header above k ∧ FromTables o (above ++ [k.name]) es

def FromAll (o : Origin) (above : List (List Char)) : List (Key × Node) → Prop
  | [] => True
  | (k, n) :: r => n.From o above k ∧ FromAll o above r

def FromTables (o : Origin) (above : List (List Char)) : List (Heading × List (Key × Node)) → Prop
  | [] => True
  | (_, cs) :: r => FromAll o above cs ∧ FromTables o above r

end

section Building

variable {o : Origin} {above : List (List Char)} {cs ds own : Children} {k : Key} {n : Node}

theorem fromAll_iff : FromAll o above cs ↔ ∀ p ∈ cs, p.2.From o above p.1 := by
  induction cs with
  | nil => simp [FromAll]
  | cons p cs ih => rw [FromAll, ih, List.forall_mem_cons]

theorem fromTables_iff {es : List (Heading × Children)} :
    FromTables o above es ↔ ∀ p ∈ es, FromAll o above p.2 := by
  induction es with
  | nil => simp [FromTables]
  | cons p es ih => rw [FromTables, ih, List.forall_mem_cons]

theorem FromAll.append (h : FromAll o above cs) (h' : FromAll o above ds) : FromAll o above (cs ++ ds) :=
  fromAll_iff.2 (List.forall_mem_append.2 ⟨fromAll_iff.1 h, fromAll_iff.1 h'⟩)

theorem FromAll.concat (h : FromAll o above cs) (hn : n.From o above k) :
    FromAll o above (cs ++ [(k, n)]) :=
  h.append ⟨hn, trivial⟩

theorem FromAll.of_mem (h : FromAll o above cs) (hm : (k, n) ∈ cs) : n.From o above k :=
  fromAll_iff.1 h _ hm

theorem FromAll.change {l r : Children} {m : Node} (h : FromAll o above (l ++ (k, n) :: r))
    (hm : m.From o above k) : FromAll o above (l ++ (k, m) :: r) := by
  rw [fromAll_iff, List.forall_mem_append, List.forall_mem_cons] at h ⊢
  exact ⟨h.1, hm, h.2.2⟩

theorem FromAll.gain? (h : FromAll o above cs) (ho : FromAll o above own) (hg : gain? own cs = some ds) :
    FromAll o above ds := by
  rw [Children.gain?] at hg
  split at hg
  · cases hg
    exact h.append ho
  · cases hg

def Keeps (o : Origin) (above : List (List Char)) (op : Children → Option Children) : Prop :=
  ∀ cs ds, TidyAll cs → FromAll o above cs → op cs = some ds → FromAll o above ds

theorem keeps_headTable? (hk : o.header above k) (ho : FromAll o (above ++ [k.name]) own) (h : Heading) :
    Keeps o above (headTable? k h (Children.gain? own)) := by
  intro cs ds hc hf hd
  rw [headTable?] at hd
  split at hd
  · rw [gain?_nil] at hd
    cases hd
    exact hf.concat ⟨hk, ho⟩
  · next k' sub hn =>
    obtain ⟨b, hb, rfl⟩ := Option.map_eq_some_iff.1 hd
    obtain ⟨l, r, rfl, hk', hl, hr⟩ := child?_split hc.nodup hn
    have hsub : (Node.table .implied sub).From o above k' := hf.of_mem (by simp)
    rw [Node.From, hk'] at hsub
    rw [erase_split hk' hl hr]
    rw [fromAll_iff, List.forall_mem_append, List.forall_mem_cons] at hf
    refine FromAll.concat (fromAll_iff.2 (List.forall_mem_append.2 ⟨hf.1, hf.2.2⟩)) ?_
    exact ⟨hk, hsub.2.gain? ho hb⟩
  · cases hd

theorem keeps_headElement? (hk : o.header above k) (ho : FromAll o (above ++ [k.name]) own) (h : Heading) :
    Keeps o above (headElement? k h (Children.gain? own)) := by
  intro cs ds hc hf hd
  rw [headElement?, gain?_nil] at hd
  split at hd
  · cases hd
    exact hf.concat ⟨hk, ho, trivial⟩
  · next k' es hn =>
    cases hd
    obtain ⟨l, r, rfl, hk', hl, hr⟩ := child?_split hc.nodup hn
    have hes : (Node.tables es).From o above k' := hf.of_mem (by simp)
    rw [Node.From, fromTables_iff] at hes
    dsimp only
    rw [put_split hk' hl hr]
    refine hf.change ?_
    rw [Node.From, fromTables_iff, List.forall_mem_append, List.forall_mem_singleton]
    exact ⟨hes.1, hes.2, hk' ▸ ho⟩
  · cases hd

theorem keeps_descend? {op : Children → Option Children} {path : List Key}
    (h : Keeps o (above ++ names path) op) (hp : ∀ q l r, path = q ++ l :: r → o.table (above ++ names q) l) :
    Keeps o above (descend? op · path) := by
  induction path generalizing above with
  | nil => simpa [names, Keeps, descend?] using h
  | cons k path ih =>
    have hbelow : Keeps o (above ++ [k.name]) (descend? op · path) := by
      refine ih ?_ fun q l r he => ?_
      · simpa [names] using h
      · simpa [names] using hp (k :: q) l r (by rw [he, List.cons_append])
    have hk : o.table above k := by simpa [names] using hp [] k path rfl
    intro cs ds hc hf hd
    dsimp only at hd
    rw [descend?] at hd
    split at hd
    · obtain ⟨sub, hs, rfl⟩ := Option.map_eq_some_iff.1 hd
      exact hf.concat ⟨hk, hbelow [] sub (by rw [TidyAll]; trivial) trivial hs⟩
    · cases hd
    · next k' how sub hn =>
      obtain ⟨sub', hs, rfl⟩ := Option.map_eq_some_iff.1 hd
      obtain ⟨l, r, rfl, hk', hl, hr⟩ := child?_split hc.nodup hn
      have hsub : (Node.table how sub).From o above k' := hf.of_mem (by simp)
      have htidy : (Node.table how sub).Tidy k' := hc.of_mem (by simp)
      rw [Node.From, hk'] at hsub
      rw [Node.Tidy] at htidy
      rw [put_split hk' hl hr]
      refine hf.change ?_
      rw [Node.From, hk']
      exact ⟨hsub.1, hbelow sub sub' htidy.2.2 hsub.2 hs⟩
    · next k' es hn =>
      obtain ⟨es', hs, rfl⟩ := Option.map_eq_some_iff.1 hd
      obtain ⟨l, r, rfl, hk', hl, hr⟩ := child?_split hc.nodup hn
      obtain ⟨init, hdg, e, e', rfl, rfl, he⟩ := changeLast?_eq_some hs
      have hes : (Node.tables (init ++ [(hdg, e)])).From o above k' := hf.of_mem (by simp)
      have htidy : (Node.tables (init ++ [(hdg, e)])).Tidy k' := hc.of_mem (by simp)
      rw [Node.From, hk', fromTables_iff, List.forall_mem_append, List.forall_mem_singleton] at hes
      rw [put_split hk' hl hr]
      refine hf.change ?_
      rw [Node.From, hk', fromTables_iff, List.forall_mem_append, List.forall_mem_singleton]
      exact ⟨hes.1, hes.2.1, hbelow e e' ((tidy_tables_concat init hdg e).1 htidy).2 hes.2.2 he⟩

structure Header.From (o : Origin) (h : Header) : Prop where
  passed : ∀ q k r, h.path = q ++ k :: r → o.table (names q) k
  last : ∀ q k, h.path = q ++ [k] → o.header (names q) k

theorem keeps_graft? {h : Header} (hh : h.From o) (ho : FromAll o (names h.path) own) (rank : Nat) :
    Keeps o [] (graft? rank (h, own)) := by
  obtain ⟨before, element, path, after⟩ := h
  obtain ⟨hpassed, hlast⟩ := hh
  intro cs ds hc hf hd
  unfold graft? Header.open? at hd
  dsimp only at hpassed hlast ho hd
  split at hd
  · cases hd
  · next k hk =>
    obtain ⟨init, rfl⟩ := List.getLast?_eq_some_iff.1 hk
    rw [List.dropLast_concat] at hd
    rw [names_append] at ho
    have hop : Keeps o ([] ++ names init) (if element then headElement? k ⟨rank, before, after⟩ (Children.gain? own)
        else headTable? k ⟨rank, before, after⟩ (Children.gain? own)) := by
      cases element with
      | false => exact keeps_headTable? (hlast init k rfl) ho _
      | true => exact keeps_headElement? (hlast init k rfl) ho _
    refine keeps_descend? hop (fun q l r he => hpassed q l (r ++ [k]) ?_) cs ds hc hf hd
    rw [he, List.append_assoc, List.cons_append]

theorem FromAll.graftAll? {gs : List (Header × Children)} (hk : ∀ g ∈ gs, KnownSection g)
    (hg : ∀ g ∈ gs, g.1.From o ∧ FromAll o (names g.1.path) g.2) {rank : Nat} (hc : TidyAll cs)
    (hf : FromAll o [] cs) (h : Children.graftAll? rank cs gs = some ds) : FromAll o [] ds := by
  induction gs generalizing rank cs with
  | nil =>
    cases h
    exact hf
  | cons g gs ih =>
    obtain ⟨hd, own⟩ := g
    rw [List.forall_mem_cons] at hk hg
    rw [Children.graftAll?] at h
    obtain ⟨cs', hs, h⟩ := Option.bind_eq_some_iff.1 h
    obtain ⟨hp, ht, ho⟩ := hk.1
    exact ih hk.2 hg.2 (adds_graft? hp ht ho rank cs cs' hc hs).1
      (keeps_graft? hg.1.1 hg.1.2 rank cs cs' hc hf hs) h

mutual

theorem Node.Own.from {o : Origin} {above : List (List Char)} {k : Key} : (n : Node) → n.Own →
    (∀ e ∈ n.entries [k], ∀ before l, Passes e.path before l → o.table (above ++ before) l) → n.From o above k
  | .value _ _ _, _, _ => trivial
  | .table .dotted cs, h, he => by
    rw [Node.Own] at h
    rw [Node.entries, entriesUnder_cons] at he
    have below : ∀ e ∈ entriesUnder [] cs, ∀ before l, Passes (k :: e.path) before l →
        o.table (above ++ before) l := fun e hm => he _ (List.mem_map_of_mem hm)
    refine ⟨?_, OwnAll.from cs h.2 fun e hm before l hp => ?_⟩
    · obtain ⟨e, hm⟩ := List.exists_mem_of_ne_nil _ (OwnAll.entriesUnder_ne_nil [] cs h.1 h.2)
      have hk := below e hm [] k (passes_cons.2 (.inl ⟨rfl, entriesUnder_path_ne_nil [] cs e hm, rfl⟩))
      rwa [List.append_nil] at hk
    · have hl := below e hm (k.name :: before) l (passes_cons.2 (.inr ⟨before, rfl, hp⟩))
      rwa [List.append_assoc, List.singleton_append]
  | .table .implied _, h, _ => by simp [Node.Own] at h
  | .table (.headed _) _, h, _ => by simp [Node.Own] at h
  | .tables _, h, _ => by simp [Node.Own] at h

theorem OwnAll.from {o : Origin} {above : List (List Char)} : (cs : List (Key × Node)) → OwnAll cs →
    (∀ e ∈ entriesUnder [] cs, ∀ before l, Passes e.path before l → o.table (above ++ before) l) →
      FromAll o above cs
  | [], _, _ => trivial
  | (k, n) :: r, h, he => by
    rw [OwnAll] at h
    rw [entriesUnder, List.forall_mem_append] at he
    exact ⟨Node.Own.from n h.1 he.1, OwnAll.from r h.2.2 he.2⟩

end

end Building

section Blocks

variable {o : Origin}

structure Block.From (o : Origin) (b : Block) : Prop where
  passed : ∀ q k r, b.path = q ++ k :: r → o.table (names q) k
  last : b.heading.isSome = true → ∀ q k, b.path = q ++ [k] → o.header (names q) k

theorem table_of_concat {path : List Key} {k : Key} (hp : ∀ q l r, path = q ++ l :: r → o.table (names q) l)
    (hk : o.table (names path) k) : ∀ q l r, path ++ [k] = q ++ l :: r → o.table (names q) l := by
  intro q l r he
  rcases List.append_eq_append_iff.1 he with ⟨a, rfl, ha⟩ | ⟨a, rfl, ha⟩
  · cases a with
    | nil =>
      rw [List.nil_append, List.cons.injEq] at ha
      rw [← ha.1, List.append_nil]
      exact hk
    | cons x a => simp at ha
  · cases a with
    | nil =>
      rw [List.nil_append, List.cons.injEq] at ha
      rw [ha.1]
      rw [List.append_nil] at hk
      exact hk
    | cons x a =>
      rw [List.cons_append, List.cons.injEq] at ha
      rw [ha.1]
      exact hp q x a rfl

mutual

theorem Node.From.blocks {o : Origin} {path : List Key} (hp : ∀ q l r, path = q ++ l :: r → o.table (names q) l)
    {k : Key} : (n : Node) → n.From o (names path) k → ∀ b ∈ n.blocks (path ++ [k]), b.From o
  | .value _ _ _, _ => by simp [Node.blocks]
  | .table how cs, h => by
    rw [Node.From] at h
    have hk := table_of_concat hp (k := k) (by
      cases how with
      | headed hd => exact o.table_of_header _ _ h.1
      | implied => exact h.1
      | dotted => exact h.1)
    have hbelow := FromAll.blocks hk cs (by rw [names_append]; exact h.2)
    cases how with
    | dotted =>
      rw [Node.blocks]
      exact hbelow
    | implied =>
      rw [Node.blocks, List.forall_mem_cons]
      exact ⟨⟨hk, nofun⟩, hbelow⟩
    | headed hd =>
      rw [Node.blocks, List.forall_mem_cons]
      refine ⟨⟨hk, fun _ q l he => ?_⟩, hbelow⟩
      obtain ⟨rfl, hl⟩ := List.append_inj' he rfl
      cases hl
      exact h.1
  | .tables es, h => by
    rw [Node.From] at h
    have hk := table_of_concat hp (o.table_of_header _ _ h.1)
    rw [Node.blocks]
    refine FromTables.blocks hk (fun q l he => ?_) es (by rw [names_append]; exact h.2)
    obtain ⟨rfl, hl⟩ := List.append_inj' he rfl
    cases hl
    exact h.1

theorem FromAll.blocks {o : Origin} {path : List Key} (hp : ∀ q l r, path = q ++ l :: r → o.table (names q) l) :
    (cs : List (Key × Node)) → FromAll o (names path) cs → ∀ b ∈ blocksUnder path cs, b.From o
  | [], _ => by simp [blocksUnder]
  | (k, n) :: r, h => by
    rw [FromAll] at h
    rw [blocksUnder]
    exact List.forall_mem_append.2 ⟨Node.From.blocks hp n h.1, FromAll.blocks hp r h.2⟩

theorem FromTables.blocks {o : Origin} {path : List Key}
    (hp : ∀ q l r, path = q ++ l :: r → o.table (names q) l)
    (hl : ∀ q k, path = q ++ [k] → o.header (names q) k) :
    (es : List (Heading × List (Key × Node))) → FromTables o (names path) es →
      ∀ b ∈ elementBlocks path es, b.From o
  | [], _ => by simp [elementBlocks]
  | (_, cs) :: r, h => by
    rw [FromTables] at h
    rw [elementBlocks, List.cons_append, List.forall_mem_cons]
    exact ⟨⟨hp, fun _ => hl⟩,
      List.forall_mem_append.2 ⟨FromAll.blocks hp cs h.1, FromTables.blocks hp hl r h.2⟩⟩

end

end Blocks

end CBuild.Toml
