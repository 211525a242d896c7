import CBuild.Proofs.Toml.Putting
import CBuild.Proofs.Toml.Twins

/-! A document with arrays put into it is printed again as it was, once it has been read from print: its headers
stand under keys that are written as they were printed. -/

namespace CBuild.Toml

open Children

section Paths

variable {around : List Char × List Char} {p q path : List Key} {k l : Key} {d : Nat}

theorem getElem?_reread (h : path[d]? = some k) :
    ∃ l, (reread around path)[d]? = some l ∧ l.spelling = k.spelling ∧ (0 < d → l.inner.1 = k.inner.1) ∧
      (d + 1 < path.length → l.inner.2 = k.inner.2) ∧
      (d + 1 = path.length → l.inner.2 = [] ∧ l.outer = some around) := by
  have go (first : Bool) (b : List Char) {path : List Key} {d : Nat} (h : path[d]? = some k) :
      ∃ l, (settle.go around.1 around.2 first (spaced b around.2 path))[d]? = some l ∧
        l.spelling = k.spelling ∧ l.inner.1 = (if d = 0 then if first = true then [] else b else k.inner.1) ∧
        (d + 1 < path.length → l.inner.2 = k.inner.2) ∧
        (d + 1 = path.length → l.inner.2 = [] ∧ l.outer = some around) := by
    induction path generalizing first b d with
    | nil => cases h
    | cons x path ih =>
      cases path with
      | nil =>
        obtain ⟨rfl, rfl⟩ : d = 0 ∧ x = k := by
          cases d with
          | zero => exact ⟨rfl, Option.some.inj h⟩
          | succ d => cases h
        exact ⟨_, rfl, rfl, rfl, by simp, fun _ => ⟨rfl, rfl⟩⟩
      | cons y path =>
        rw [spaced, settle.go]
        · cases d with
          | zero =>
            obtain rfl : x = k := Option.some.inj h
            exact ⟨_, rfl, rfl, rfl, fun _ => rfl, by simp⟩
          | succ d =>
            rw [List.getElem?_cons_succ] at h
            obtain ⟨l, hl, hs, hb, ha, he⟩ := ih false y.inner.1 h
            refine ⟨l, hl, hs, ?_, fun hd => ha (by simpa using hd), fun hd => he (by simpa using hd)⟩
            rw [hb, if_neg (Nat.succ_ne_zero d)]
            split
            · next hd =>
              subst hd
              obtain rfl : y = k := Option.some.inj h
              rfl
            · rfl
        · exact spaced_ne_nil (List.cons_ne_nil _ _)
  have hn : path ≠ [] := by
    rintro rfl
    cases h
  rw [reread_go around hn]
  obtain ⟨l, hl, hs, hb, ha, he⟩ := go true around.1 h
  refine ⟨l, hl, hs, fun hd => ?_, ha, he⟩
  rw [hb, if_neg (Nat.ne_of_gt hd)]

/-- The paths are written alike, also as the front part of a longer path. -/
structure Alike (p q : List Key) : Prop where
  length : p.length = q.length
  inner : innerText p = innerText q
  behind : p.getLast?.map (fun k => k.inner.2) = q.getLast?.map fun k => k.inner.2

theorem alike_nil : Alike [] [] :=
  ⟨rfl, rfl, rfl⟩

theorem innerText_concat (p : List Key) (k : Key) : innerText (p ++ [k]) =
    match p.getLast? with
    | none => k.spelling
    | some x => innerText p ++ (x.inner.2 ++ '.' :: (k.inner.1 ++ k.spelling)) := by
  induction p with
  | nil => rfl
  | cons x p ih =>
    cases p with
    | nil => simp [innerText]
    | cons y p =>
      rw [List.cons_append] at ih
      rw [List.cons_append, List.cons_append, innerText, ih, List.getLast?_cons_cons]
      obtain ⟨z, hz⟩ := Option.ne_none_iff_exists'.1 (show (y :: p).getLast? ≠ none by simp)
      rw [hz]
      simp [innerText]

theorem Alike.concat (h : Alike p q) (hs : l.spelling = k.spelling) (hb : p ≠ [] → l.inner.1 = k.inner.1)
    (ha : l.inner.2 = k.inner.2) : Alike (p ++ [k]) (q ++ [l]) := by
  obtain ⟨hlength, hinner, hbehind⟩ := h
  refine ⟨by simp [hlength], ?_, by simp [ha]⟩
  rw [innerText_concat, innerText_concat]
  cases hp : p.getLast? with
  | none =>
    rw [hp, Option.map_none, eq_comm, Option.map_eq_none_iff] at hbehind
    rw [hbehind, hs]
  | some x =>
    rw [hp, Option.map_some, eq_comm, Option.map_eq_some_iff] at hbehind
    obtain ⟨y, hy, hxy⟩ := hbehind
    have hn : p ≠ [] := by
      rintro rfl
      cases hp
    rw [hy]
    dsimp only
    rw [hinner, hxy, hs, hb hn]

theorem Alike.read (h : Alike p q) (hp : p ++ [k] <+: path) (hl : (reread around path)[p.length]? = some l)
    (hi : p.length + 1 = path.length → k.inner.2 = []) :
    Alike (p ++ [k]) (q ++ [l]) ∧ (p.length + 1 = path.length → l.outer = some around) := by
  obtain ⟨t, rfl⟩ := hp
  have hk : (p ++ [k] ++ t)[p.length]? = some k := by simp
  have hread : ∃ l', (reread around (p ++ [k] ++ t))[p.length]? = some l' ∧ _ := getElem?_reread hk
  obtain ⟨l', hl', hs, hb, ha, he⟩ := hread
  obtain rfl : l' = l := Option.some.inj (hl'.symm.trans hl)
  refine ⟨h.concat hs (fun hn => hb (List.length_pos_iff.2 hn)) ?_, fun hd => (he hd).2⟩
  by_cases hd : p.length + 1 = (p ++ [k] ++ t).length
  · rw [(he hd).1, hi hd]
  · refine ha ?_
    simp only [List.length_append, List.length_singleton] at hd ⊢
    omega

end Paths

section Blocks

mutual

theorem Node.exists_block {path : List Key} {r : Nat} : (n : Node) → r ∈ n.ranks →
    ∃ b ∈ n.blocks path, ∃ h, b.heading = some h ∧ h.rank = r ∧ path <+: b.path
  | .value _ _ _, h => by simp [Node.ranks] at h
  | .table .dotted cs, h => by
    rw [Node.ranks] at h
    obtain ⟨b, hb, hd, hh, hr, hp⟩ := exists_block_under cs h
    rw [Node.blocks]
    exact ⟨b, hb, hd, hh, hr, hp.1⟩
  | .table .implied cs, h => by
    rw [Node.ranks] at h
    obtain ⟨b, hb, hd, hh, hr, hp⟩ := exists_block_under cs h
    rw [Node.blocks]
    exact ⟨b, List.mem_cons_of_mem _ hb, hd, hh, hr, hp.1⟩
  | .table (.headed hd) cs, h => by
    rw [Node.ranks] at h
    rw [Node.blocks]
    rcases List.mem_cons.1 h with rfl | h
    · exact ⟨_, List.mem_cons_self, hd, rfl, rfl, List.prefix_refl _⟩
    · obtain ⟨b, hb, hd, hh, hr, hp⟩ := exists_block_under cs h
      exact ⟨b, List.mem_cons_of_mem _ hb, hd, hh, hr, hp.1⟩
  | .tables es, h => by
    rw [Node.ranks] at h
    rw [Node.blocks]
    exact exists_block_tables es h

theorem exists_block_under {path : List Key} {r : Nat} : (cs : List (Key × Node)) → r ∈ ranksAll cs →
    ∃ b ∈ blocksUnder path cs, ∃ h, b.heading = some h ∧ h.rank = r ∧ path <+: b.path ∧ path.length < b.path.length
  | [], h => by cases h
  | (k, n) :: cs, h => by
    rw [ranksAll, List.mem_append] at h
    rw [blocksUnder]
    rcases h with h | h
    · obtain ⟨b, hb, hd, hh, hr, hp⟩ := Node.exists_block n h
      refine ⟨b, List.mem_append_left _ hb, hd, hh, hr, (List.prefix_append _ _).trans hp, ?_⟩
      have := hp.length_le
      simp only [List.length_append, List.length_singleton] at this
      omega
    · obtain ⟨b, hb, hd⟩ := exists_block_under cs h
      exact ⟨b, List.mem_append_right _ hb, hd⟩

theorem exists_block_tables {path : List Key} {r : Nat} : (es : List (Heading × List (Key × Node))) →
    r ∈ ranksTables es → ∃ b ∈ elementBlocks path es, ∃ h, b.heading = some h ∧ h.rank = r ∧ path <+: b.path
  | [], h => by cases h
  | (hd, cs) :: es, h => by
    rw [ranksTables, List.cons_append, List.mem_cons, List.mem_append] at h
    rw [elementBlocks, List.cons_append]
    rcases h with rfl | h | h
    · exact ⟨_, List.mem_cons_self, hd, rfl, rfl, List.prefix_refl _⟩
    · obtain ⟨b, hb, hd, hh, hr, hp⟩ := exists_block_under cs h
      exact ⟨b, List.mem_cons_of_mem _ (List.mem_append_left _ hb), hd, hh, hr, hp.1⟩
    · obtain ⟨b, hb, hd⟩ := exists_block_tables es h
      exact ⟨b, List.mem_cons_of_mem _ (List.mem_append_right _ hb), hd⟩

end

def Block.Twin (w : Renewal) (b c : Block) : Prop :=
  ∀ h, b.heading = some h → ∃ g, c.heading = some g ∧ g.rank = w.rank h.rank ∧
    pathText ([], []) c.path = pathText ([], []) b.path

def Block.Renewed (w : Renewal) (b : Block) : Prop :=
  ∀ h, b.heading = some h → w.path h.rank = reread b.around b.path

variable {w : Renewal} {p q : List Key} {k l : Key}

theorem Alike.ends (h : Alike p q) {around : List Char × List Char} {r : Nat} (he : w.Ends p.length l r)
    (hi : k.inner.2 = []) (hr : w.path r = reread around (p ++ [k])) :
    Alike (p ++ [k]) (q ++ [l]) ∧ l.outer = some around := by
  obtain ⟨hl, -⟩ := he
  rw [hr] at hl
  obtain ⟨ha, ho⟩ := h.read (List.prefix_refl _) hl fun _ => hi
  exact ⟨ha, ho (by simp)⟩

theorem Alike.pathText_eq (h : Alike (p ++ [k]) (q ++ [l])) (ho : l.outer = some (k.outer.getD ([], []))) :
    pathText ([], []) (q ++ [l]) = pathText ([], []) (p ++ [k]) := by
  rw [pathText, pathText, h.inner]
  simp [ho]

mutual

theorem Node.Twin.blocks {w : Renewal} {p q : List Key} {k l : Key} (ha : Alike p q) :
    (n m : Node) → n.Twin w p.length k l m → (∀ b ∈ n.blocks (p ++ [k]), b.Renewed w) →
      List.Forall₂ (Block.Twin w) (n.blocks (p ++ [k])) (m.blocks (q ++ [l]))
  | .value _ _ _, m, h, _ => by
    cases m <;> simp [Node.Twin, Node.blocks] at h ⊢
  | .table .dotted cs, m, h, hb => by
    obtain ⟨how, ds, rfl, -⟩ := h.table
    cases how with
    | implied => simp [Node.Twin] at h
    | headed hd => simp [Node.Twin] at h
    | dotted =>
      rw [Node.Twin] at h
      obtain ⟨rfl, h⟩ := h
      rw [Node.blocks] at hb ⊢
      exact TwinAll.blocks (ha.concat rfl (fun _ => rfl) rfl) cs ds (by simpa using h) hb
  | .table .implied cs, m, h, hb => by
    obtain ⟨how, ds, rfl, -, hhow, -⟩ := h.table
    obtain rfl := hhow rfl
    rw [Node.Twin] at h
    obtain ⟨⟨r, hr, hl⟩, h⟩ := h
    rw [Node.blocks, List.forall_mem_cons] at hb
    obtain ⟨b, hmem, hd, hh, rfl, hpre, hlen⟩ := exists_block_under cs hr
    rw [hb.2 b hmem hd hh] at hl
    rw [List.length_append, List.length_singleton] at hlen
    have hk := (ha.read hpre hl fun he => absurd he (Nat.ne_of_lt hlen)).1
    rw [Node.blocks, Node.blocks]
    exact .cons nofun (TwinAll.blocks hk cs ds (by simpa using h) hb.2)
  | .table (.headed hd) cs, m, h, hb => by
    obtain ⟨how, ds, rfl, -⟩ := h.table
    cases how with
    | implied => simp [Node.Twin] at h
    | dotted => simp [Node.Twin] at h
    | headed hd' =>
      rw [Node.Twin] at h
      obtain ⟨⟨hi, he⟩, hrank, h⟩ := h
      rw [Node.blocks, List.forall_mem_cons] at hb
      obtain ⟨hk, ho⟩ := ha.ends he hi (hb.1 hd rfl)
      rw [Node.blocks, Node.blocks]
      refine .cons ?_ (TwinAll.blocks hk cs ds (by simpa using h) hb.2)
      rintro _ ⟨⟩
      exact ⟨hd', rfl, hrank, hk.pathText_eq (by simpa [Block.around] using ho)⟩
  | .tables es, m, h, hb => by
    obtain ⟨fs, rfl, -⟩ := h.tables
    rw [Node.Twin] at h
    obtain ⟨⟨hi, e, hmem, he⟩, h⟩ := h
    rw [Node.blocks] at hb
    have hfirst : ⟨some e.1, true, p ++ [k], entriesUnder [] e.2⟩ ∈ elementBlocks (p ++ [k]) es := by
      obtain ⟨es₁, es₂, rfl⟩ := List.append_of_mem hmem
      rw [elementBlocks_append, elementBlocks]
      simp
    obtain ⟨hk, ho⟩ := ha.ends he hi (hb _ hfirst e.1 rfl)
    rw [Node.blocks, Node.blocks]
    exact TwinTables.blocks hk (hk.pathText_eq (by simpa [Block.around] using ho)) es fs (by simpa using h) hb

theorem TwinAll.blocks {w : Renewal} {p q : List Key} (ha : Alike p q) :
    (cs ds : List (Key × Node)) → TwinAll w p.length cs ds → (∀ b ∈ blocksUnder p cs, b.Renewed w) →
      List.Forall₂ (Block.Twin w) (blocksUnder p cs) (blocksUnder q ds)
  | [], ds, h, _ => by
    cases ds with
    | nil => exact .nil
    | cons d ds => simp [TwinAll] at h
  | (k, n) :: cs, ds, h, hb => by
    cases ds with
    | nil => simp [TwinAll] at h
    | cons d ds =>
      obtain ⟨l, m⟩ := d
      rw [TwinAll] at h
      rw [blocksUnder, List.forall_mem_append] at hb
      rw [blocksUnder, blocksUnder]
      exact List.rel_append (Node.Twin.blocks ha n m h.1.2 hb.1) (TwinAll.blocks ha cs ds h.2 hb.2)

theorem TwinTables.blocks {w : Renewal} {p q : List Key} (ha : Alike p q)
    (ht : pathText ([], []) q = pathText ([], []) p) :
    (es fs : List (Heading × List (Key × Node))) → TwinTables w p.length es fs →
      (∀ b ∈ elementBlocks p es, b.Renewed w) →
        List.Forall₂ (Block.Twin w) (elementBlocks p es) (elementBlocks q fs)
  | [], fs, h, _ => by
    cases fs with
    | nil => exact .nil
    | cons f fs => simp [TwinTables] at h
  | (hd, cs) :: es, fs, h, hb => by
    cases fs with
    | nil => simp [TwinTables] at h
    | cons f fs =>
      obtain ⟨hd', ds⟩ := f
      rw [TwinTables] at h
      rw [elementBlocks, List.cons_append, List.forall_mem_cons, List.forall_mem_append] at hb
      rw [elementBlocks, elementBlocks, List.cons_append, List.cons_append]
      refine .cons ?_ (List.rel_append (TwinAll.blocks ha cs ds h.1.2 hb.2.1)
        (TwinTables.blocks ha ht es fs h.2 hb.2.2))
      rintro _ ⟨⟩
      exact ⟨hd', rfl, h.1.1, ht⟩

end

end Blocks

section Runs

variable {w : Renewal} {as bs : List ((Header × Children) × Nat)} {cs ds cs' : Children}

/-- The second section is the first one renewed: it stands under another path of the same names. -/
structure Renews (w : Renewal) (a b : (Header × Children) × Nat) : Prop where
  rank : w.rank a.2 = b.2
  path : w.path a.2 = b.1.1.path
  names : Toml.names a.1.1.path = Toml.names b.1.1.path
  element : b.1.1.element = a.1.1.element
  own : b.1.2 = a.1.2

theorem exists_renewal (hn : (as.map Prod.snd).Nodup) (hl : as.length = bs.length) :
    ∃ w : Renewal, List.Forall₂ (fun a b => w.rank a.2 = b.2 ∧ w.path a.2 = b.1.1.path) as bs := by
  induction as generalizing bs with
  | nil =>
    rw [List.eq_nil_of_length_eq_zero hl.symm]
    exact ⟨⟨id, fun _ => []⟩, .nil⟩
  | cons a as ih =>
    cases bs with
    | nil => cases hl
    | cons b bs =>
      rw [List.map_cons, List.nodup_cons] at hn
      obtain ⟨w, hw⟩ := ih hn.2 (Nat.succ.inj hl)
      refine ⟨⟨fun r => if r = a.2 then b.2 else w.rank r, fun r => if r = a.2 then b.1.1.path else w.path r⟩,
        .cons ⟨if_pos rfl, if_pos rfl⟩ ?_⟩
      rw [List.forall₂_iff_zip] at hw ⊢
      refine ⟨hw.1, fun hx => ?_⟩
      rename_i x y
      have hne : x.2 ≠ a.2 := fun he => hn.1 (he ▸ List.mem_map_of_mem (List.of_mem_zip hx).1)
      dsimp only
      rw [if_neg hne, if_neg hne]
      exact hw.2 hx

theorem TwinAll.run (hk : ∀ a ∈ as, KnownSection a.1)
    (hi : ∀ a ∈ as, ∀ k, a.1.1.path.getLast? = some k → k.inner.2 = []) (hr : List.Forall₂ (Renews w) as bs)
    (ht : TidyAll cs) (hc : TwinAll w 0 cs ds) (h : run graftAt? cs as = some cs') :
    ∃ ds', Children.run graftAt? ds bs = some ds' ∧ TwinAll w 0 cs' ds' := by
  induction hr generalizing cs ds with
  | nil =>
    cases h
    exact ⟨ds, rfl, hc⟩
  | @cons a b as bs hab _ ih =>
    rw [List.forall_mem_cons] at hk hi
    obtain ⟨⟨hd, own⟩, r⟩ := a
    obtain ⟨⟨hd', own'⟩, s⟩ := b
    obtain ⟨hrank, hpath, hnames, helement, hown⟩ := hab
    dsimp only at hrank hpath hnames helement hown
    subst hown hrank
    rw [run_cons] at h
    obtain ⟨cs₁, hs, h⟩ := Option.bind_eq_some_iff.1 h
    obtain ⟨ds₁, hds, htwin, -⟩ := twinOps_graft? hnames helement hi.1 hpath hk.1.2.2 cs ds cs₁ ht hc hs
    have htidy := (adds_graft? hk.1.1 hk.1.2.1 hk.1.2.2 r cs cs₁ ht hs).1
    obtain ⟨ds', hrun, hds'⟩ := ih hk.2 hi.2 htidy htwin h
    refine ⟨ds', ?_, hds'⟩
    rw [run_cons]
    exact (congrArg (Option.bind · _) hds).trans hrun

end Runs

section Documents

variable {top cs : Children} {gs : List (Header × Children)} {lists : Lists}

theorem mem_blocksUnder {path : List Key} {b : Block} :
    b ∈ blocksUnder path cs ↔ ∃ p ∈ cs, b ∈ p.2.blocks (path ++ [p.1]) := by
  induction cs with
  | nil => simp [blocksUnder]
  | cons p cs ih =>
    rw [blocksUnder, List.mem_append, ih]
    simp

theorem mem_blocks_iff {ds : Children} (hother : ∀ name ∉ lists.map Prod.fst, ds.only name = cs.only name)
    (hlisted : ∀ name ∈ lists.map Prod.fst, blocksUnder [] (ds.only name) = []) {b : Block} :
    b ∈ blocksUnder [] ds ↔ ∃ p ∈ cs, p.1.name ∉ lists.map Prod.fst ∧ b ∈ p.2.blocks [p.1] := by
  have self (ds : Children) (p : Key × Node) : p ∈ ds ↔ p ∈ ds.only p.1.name := by
    simp [only]
  rw [mem_blocksUnder]
  constructor
  · rintro ⟨p, hp, hb⟩
    have hn : p.1.name ∉ lists.map Prod.fst := by
      intro hn
      have hm : b ∈ blocksUnder [] (ds.only p.1.name) := mem_blocksUnder.2 ⟨p, (self ds p).1 hp, hb⟩
      rw [hlisted _ hn] at hm
      cases hm
    exact ⟨p, (self cs p).2 (hother _ hn ▸ (self ds p).1 hp), hn, hb⟩
  · rintro ⟨p, hp, hn, hb⟩
    exact ⟨p, (self ds p).2 (hother _ hn ▸ (self cs p).1 hp), hb⟩

def Children.printed (cs : Children) : List Block :=
  (Block.ordered (blocksUnder [] cs)).filter Block.isVisible

theorem mem_printed {b : Block} : b ∈ cs.printed ↔ b ∈ blocksUnder [] cs ∧ b.isVisible = true := by
  rw [printed, List.mem_filter, mem_ordered]

theorem ReadApart.sheets_printed (h : ReadApart top gs cs) :
    cs.printed.map Block.sheet = (gs.zipIdx 1).map Sheet.ofSection := by
  have hleft := h.sheets_left []
  have hall : leftSections [] gs = gs.zipIdx 1 := List.filter_eq_self.2 fun _ _ => rfl
  rwa [List.map_nil, hall] at hleft

theorem Children.text_eq_of_printed {as : List ((Header × Children) × Nat)}
    (h : cs.printed.map Block.sheet = as.map Sheet.ofSection) :
    cs.text = (entriesUnder [] cs).flatMap Entry.line ++ cs.printed.flatMap (Block.text []) := by
  refine Children.text_eq fun b hb => ?_
  have hm : b.sheet ∈ as.map Sheet.ofSection := h ▸ List.mem_map_of_mem hb
  obtain ⟨a, _, ha⟩ := List.mem_map.1 hm
  have hheading : b.heading = some ⟨a.2, a.1.1.before, a.1.1.after⟩ := (congrArg Sheet.heading ha).symm
  rw [hheading]
  rfl

theorem Block.text_congr {b c : Block} {g : Header × Children} {path : List Key} {r s : Nat}
    (hb : b.sheet = Sheet.ofSection (g, r))
    (hc : c.sheet = Sheet.ofSection ((⟨g.1.before, g.1.element, path, g.1.after⟩, g.2), s))
    (hp : pathText ([], []) c.path = pathText ([], []) b.path) (before : List Char) :
    c.text before = b.text before := by
  obtain ⟨hd, el, p, es⟩ := b
  obtain ⟨hd', el', p', es'⟩ := c
  rw [Block.sheet, Sheet.ofSection, Sheet.mk.injEq] at hb hc
  obtain ⟨rfl, rfl, -, rfl⟩ := hb
  obtain ⟨rfl, rfl, -, rfl⟩ := hc
  dsimp only at hp
  simp only [Block.text, hp]
  rfl

structure Block.Reads (w : Renewal) (b c : Block) : Prop where
  heading : ∀ h, b.heading = some h → ∃ g, c.heading = some g ∧ g.rank = w.rank h.rank
  text : pathText ([], []) c.path = pathText ([], []) b.path → c.text [] = b.text []

theorem Block.heading_eq {b : Block} {a : (Header × Children) × Nat} (h : b.sheet = Sheet.ofSection a) :
    b.heading = some ⟨a.2, a.1.1.before, a.1.1.after⟩ :=
  congrArg Sheet.heading h

theorem Reprinted.renews {w : Renewal} {bs cs : List Block} {as : List ((Header × Children) × Nat)}
    {gs' : List (Header × Children)} {rank : Nat} (hr : Reprinted bs (as.map Prod.fst) gs')
    (hb : bs.map Block.sheet = as.map Sheet.ofSection)
    (hc : cs.map Block.sheet = (gs'.zipIdx rank).map Sheet.ofSection)
    (hw : List.Forall₂ (fun a b => w.rank a.2 = b.2 ∧ w.path a.2 = b.1.1.path) as (gs'.zipIdx rank)) :
    List.Forall₂ (Renews w) as (gs'.zipIdx rank) ∧ (∀ b ∈ bs, b.Renewed w) ∧ List.Forall₂ (Block.Reads w) bs cs := by
  induction gs' generalizing bs cs as rank with
  | nil =>
    obtain rfl := List.forall₂_nil_right_iff.1 hr.paths
    obtain rfl : as = [] := by simpa using hb.symm
    obtain rfl : cs = [] := by simpa using hc
    exact ⟨.nil, by simp, .nil⟩
  | cons g gs' ih =>
    obtain ⟨hpaths, hrest⟩ := hr
    obtain ⟨b, bs, hpath, hbs, rfl⟩ := List.forall₂_cons_right_iff.1 hpaths
    cases as with
    | nil => cases hb
    | cons a as =>
      cases cs with
      | nil => cases hc
      | cons c cs =>
        rw [List.map_cons, List.map_cons, List.cons.injEq] at hb
        rw [List.zipIdx_cons, List.map_cons, List.map_cons, List.cons.injEq] at hc
        rw [List.zipIdx_cons, List.forall₂_cons] at hw
        rw [List.map_cons, List.forall₂_cons] at hrest
        obtain ⟨hrenews, hrenewed, hreads⟩ := ih ⟨hbs, hrest.2⟩ hb.2 hc.2 hw.2
        obtain ⟨hg, -⟩ := hrest
        obtain ⟨⟨hrank, hwpath⟩, -⟩ := hw
        have hhead := Block.heading_eq hb.1
        refine ⟨?_, List.forall_mem_cons.2 ⟨?_, hrenewed⟩, .cons ⟨?_, fun hp => ?_⟩ hreads⟩
        · rw [List.zipIdx_cons]
          have hnames : names b.path = names a.1.1.path := congrArg Sheet.names hb.1
          refine .cons ⟨hrank, hwpath, ?_, ?_, ?_⟩ hrenews
          · rw [hpath, names_reread, hnames]
          · rw [hg]
          · rw [hg]
        · rw [Block.Renewed, hhead]
          rintro _ ⟨⟩
          exact hwpath.trans hpath
        · rw [hhead]
          rintro _ ⟨⟩
          exact ⟨_, Block.heading_eq hc.1, hrank.symm⟩
        · rw [hg] at hc
          exact Block.text_congr hb.1 hc.1 hp []

theorem nodup_ranks (gs : List (Header × Children)) : ((gs.zipIdx 1).map Prod.snd).Nodup := by
  rw [List.zipIdx_map_snd]
  exact List.nodup_range'

theorem ReadApart.eq_of_rank_eq (h : ReadApart top gs cs) {b c : Block} (hb : b ∈ cs.printed) (hc : c ∈ cs.printed)
    (hr : b.sheet.rank = c.sheet.rank) : b = c := by
  have hnodup : (cs.printed.map fun b => b.sheet.rank).Nodup := by
    have hranks := congrArg (List.map Sheet.rank) h.sheets_printed
    rw [List.map_map, List.map_map] at hranks
    exact (congrArg List.Nodup hranks).mpr (nodup_ranks gs)
  exact List.inj_on_of_nodup_map hnodup hb hc hr

theorem ReadApart.mem_blocks_left (h : ReadApart top gs cs) (hd : (lists.map Prod.fst).Nodup) {ds : Children}
    (hother : ∀ name ∉ lists.map Prod.fst, ds.only name = cs.only name)
    (hlisted : ∀ name ∈ lists.map Prod.fst, ds.only name = only (printedPart (cs.putAll lists)) name) {b : Block} :
    b ∈ blocksUnder [] ds ↔ b ∈ blocksUnder [] (cs.putAll lists) := by
  obtain ⟨htidy, hpart, -⟩ := h.layout
  rw [mem_blocks_iff hother, mem_blocks_iff fun name hn => putAll_only hn cs]
  · intro name hn
    obtain ⟨p, hp, rfl⟩ := List.mem_map.1 hn
    obtain ⟨k, after, he, -⟩ := grown_arrayUnder htidy (hpart ▸ h.grown) p.1 p.2
    rw [putAll_only_self hd hp htidy, he, blocksUnder, blocksUnder, Node.blocks]
    rfl
  · intro name hn
    have hnone := OwnAll.blocksUnder [] _ (GrownAll.ownAll _ (grownAll_printedPart htidy (hpart ▸ h.grown) hd))
    rw [hlisted name hn, List.eq_nil_iff_forall_not_mem]
    intro b hb
    obtain ⟨p, hp, hb⟩ := mem_blocksUnder.1 hb
    have hm := mem_blocksUnder.2 ⟨p, (List.mem_filter.1 hp).1, hb⟩
    rw [hnone] at hm
    cases hm

/-- The edited document, read from print, is printed as it was. -/
theorem ReadApart.text_eq (h : ReadApart top gs cs) (hd : (lists.map Prod.fst).Nodup)
    {es : Children} {gs' : List (Header × Children)} (he : ReadApart (printedPart (cs.putAll lists)) gs' es)
    (hr : Reprinted (cs.putAll lists).printed ((leftSections (lists.map Prod.fst) gs).map Prod.fst) gs') :
    es.text = (cs.putAll lists).text := by
  obtain ⟨ds, hrun, hother, hlisted⟩ := h.run_left lists
  have hleft := h.sheets_left lists
  have hprinted := he.sheets_printed
  have hranks : ((leftSections (lists.map Prod.fst) gs).map Prod.snd).Nodup :=
    (nodup_ranks gs).sublist (List.filter_sublist.map _)
  have hlength : (leftSections (lists.map Prod.fst) gs).length = (gs'.zipIdx 1).length := by
    rw [List.length_zipIdx, ← hr.rest.length_eq, List.length_map]
  obtain ⟨w, hw⟩ := exists_renewal hranks hlength
  obtain ⟨hrenews, hrenewed, hreads⟩ := hr.renews hleft hprinted hw
  -- both documents are built by the same steps, from the same top table
  have hknown : ∀ a ∈ leftSections (lists.map Prod.fst) gs, SectionRead a.1 := fun a ha =>
    h.read a.1 (mem_of_mem_leftSections ha)
  have hends : ∀ a ∈ leftSections (lists.map Prod.fst) gs, ∀ k, a.1.1.path.getLast? = some k → k.inner.2 = [] := by
    intro a ha k hk
    obtain ⟨_, _, _, _, hs⟩ := (hknown a ha).header.path
    obtain ⟨k', hk', hend, -⟩ := hs.last
    rw [hk, Option.some.injEq] at hk'
    exact hk' ▸ hend.1
  obtain ⟨es', hes, htwin⟩ := TwinAll.run (fun a ha => (hknown a ha).known) hends hrenews
    (GrownAll.tidyAll _ he.grown) (OwnAll.twin _ (GrownAll.ownAll _ he.grown)) hrun
  rw [← graftAll?_eq_run, he.grafts, Option.some.injEq] at hes
  subst hes
  have hblocks {b : Block} := h.mem_blocks_left hd hother hlisted (b := b)
  have htwins := TwinAll.blocks alike_nil ds es htwin fun b hb hd hh =>
    hrenewed b (mem_printed.2 ⟨hblocks.1 hb, by simp [Block.isVisible, hh]⟩) hd hh
  -- the table that goes with one of the first is the one that was read from it, since it has its rank
  have htext : List.Forall₂ (fun b c => b.text [] = c.text []) (cs.putAll lists).printed es.printed := by
    rw [List.forall₂_iff_zip]
    refine ⟨hreads.length_eq, fun {b c} hbc => ?_⟩
    obtain ⟨hb, hc⟩ := List.of_mem_zip hbc
    obtain ⟨hheading, htext⟩ := List.forall₂_zip hreads hbc
    obtain ⟨a, -, ha⟩ := List.mem_map.1 (hleft ▸ List.mem_map_of_mem hb)
    obtain ⟨hd, hhd⟩ : ∃ hd, b.heading = some hd := ⟨_, Block.heading_eq ha.symm⟩
    obtain ⟨c', hc', htwin⟩ := exists_of_forall₂ htwins (hblocks.2 (mem_printed.1 hb).1)
    obtain ⟨g, hg, hrank, hpath⟩ := htwin hd hhd
    obtain ⟨g', hg', hrank'⟩ := hheading hd hhd
    obtain rfl : c' = c := by
      refine he.eq_of_rank_eq (mem_printed.2 ⟨hc', by simp [Block.isVisible, hg]⟩) hc ?_
      simp [Sheet.rank, Block.sheet, hg, hg', hrank, hrank']
    exact (htext hpath).symm
  have hlines : (entriesUnder [] es).flatMap Entry.line = (entriesUnder [] (cs.putAll lists)).flatMap Entry.line := by
    rw [← entriesUnder_ownPart [] es, he.layout.2.1, printedPart, lines_closeChild, entriesUnder_ownPart]
  have hblocks : es.printed.flatMap (Block.text []) = (cs.putAll lists).printed.flatMap (Block.text []) := by
    rw [List.flatMap_def, List.flatMap_def]
    refine congrArg List.flatten (Eq.symm ?_)
    rw [← List.forall₂_eq_eq_eq, List.forall₂_map_left_iff, List.forall₂_map_right_iff]
    exact htext
  rw [text_eq_of_printed hleft, text_eq_of_printed hprinted, hlines, hblocks]

theorem putArray_eq_self {name : List Char} {values : List (List Char)} {k : Key} {after : List Char}
    (h : cs.only name = [(k, .value [' '] (arrayValue values) after)]) : cs.putArray name values = cs := by
  have hk : k.name = name := by
    have hm : (k, .value [' '] (arrayValue values) after) ∈ cs.only name := h ▸ List.mem_singleton_self _
    simpa using (List.mem_filter.1 hm).2
  have hc : cs.child? name = some (k, .value [' '] (arrayValue values) after) := by
    rw [← child?_only, h, child?_cons, if_pos hk]
  rw [putArray, hc]
  refine (List.map_congr_left fun p hp => ?_).trans (List.map_id cs)
  obtain ⟨l, m⟩ := p
  dsimp only
  split
  · next hl =>
    have hm : (l, m) ∈ cs.only name := List.mem_filter.2 ⟨hp, decide_eq_true hl⟩
    rw [h, List.mem_singleton] at hm
    cases hm
    rfl
  · rfl

theorem putAll_eq_self (h : ∀ p ∈ lists, ∃ k after, cs.only p.1 = [(k, .value [' '] (arrayValue p.2) after)]) :
    cs.putAll lists = cs := by
  induction lists with
  | nil => rfl
  | cons p lists ih =>
    rw [List.forall_mem_cons] at h
    obtain ⟨⟨k, after, hk⟩, h⟩ := h
    rw [Children.putAll, List.foldl_cons]
    dsimp only
    rw [putArray_eq_self hk]
    exact ih h

theorem only_ownPart_of_plain {name : List Char} {k : Key} {gap after : List Char} {v : Value}
    (h : plainAll (cs.only name) = plainAll [(k, .value gap v after)]) : only (ownPart cs) name = cs.only name := by
  rw [only_ownPart]
  generalize cs.only name = ds at h
  match ds with
  | [] => cases h
  | [(l, n)] =>
    cases n with
    | value => rfl
    | table how sub => simp [plainAll, Node.plain] at h
    | tables es => simp [plainAll, Node.plain] at h
  | _ :: _ :: _ => simp [plainAll] at h

/-- An edited document reads, and the same edit leaves it as it is printed. -/
theorem ReadApart.reread_putAll (h : ReadApart top gs cs) (hd : (lists.map Prod.fst).Nodup) {t : List Char}
    (ht : trivia false t = (t, [])) :
    ∃ es, Document.strict? ((cs.putAll lists).text ++ t) = some ⟨es, t⟩ ∧
      (∀ p ∈ lists, (es.child? p.1).isSome = true) ∧ (es.putAll lists).text = (cs.putAll lists).text := by
  obtain ⟨htidy, hpart, -⟩ := h.layout
  obtain ⟨ds, hrun, -, hlisted⟩ := h.run_left lists
  obtain ⟨es, gs', hparse, -, hplain, he, hre⟩ := h.strict?_of_run hd hrun ht
  have honly : ∀ p ∈ lists, ∃ k after, es.only p.1 = [(k, .value [' '] (arrayValue p.2) after)] ∧ k.name = p.1 := by
    intro p hp
    obtain ⟨k, after, hunder, hk, -⟩ := grown_arrayUnder htidy (hpart ▸ h.grown) p.1 p.2
    have hprinted : only (printedPart (cs.putAll lists)) p.1 =
        [(k.closed, .value [' '] (arrayValue p.2) after)] := by
      rw [only_printedPart, putAll_only_self hd hp htidy, hunder, printedPart, ownPart_single, Node.ownUnder]
      rfl
    have hes : plainAll (es.only p.1) = plainAll [(k.closed, .value [' '] (arrayValue p.2) after)] := by
      rw [← only_plainAll, hplain, only_plainAll, hlisted p.1 (List.mem_map_of_mem hp), hprinted]
    refine ⟨k.closed, after, ?_, hk⟩
    rw [← only_ownPart_of_plain hes, he.layout.2.1, hprinted]
  refine ⟨es, hparse, fun p hp => ?_, ?_⟩
  · obtain ⟨k, after, hp, hk⟩ := honly p hp
    rw [← child?_only, hp, child?_cons, if_pos hk]
    rfl
  · rw [putAll_eq_self fun p hp => by
      obtain ⟨k, after, hp, -⟩ := honly p hp
      exact ⟨k, after, hp⟩]
    exact h.text_eq hd he hre

end Documents

end CBuild.Toml
