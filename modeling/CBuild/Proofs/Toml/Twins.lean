import CBuild.Proofs.Toml.Printing

/-! Two trees that headers of the same names build side by side. They have the same shape, and each key that a
header has made in the second comes from a header whose table stands at or below the node of the key. -/

namespace CBuild.Toml

open Children

section Ranks

mutual

def Node.ranks : Node → List Nat
  | .value _ _ _ => []
  | .table .implied cs => ranksAll cs
  | .table .dotted cs => ranksAll cs
  | .table (.headed h) cs => h.rank :: ranksAll cs
  | .tables es => ranksTables es

def ranksAll : List (Key × Node) → List Nat
  | [] => []
  | (_, n) :: r => n.ranks ++ ranksAll r

def ranksTables : List (Heading × List (Key × Node)) → List Nat
  | [] => []
  | (h, cs) :: r => h.rank :: ranksAll cs ++ ranksTables r

end

variable {cs ds : Children} {k : Key} {n m : Node} {r : Nat}

theorem ranksAll_append (cs ds : Children) : ranksAll (cs ++ ds) = ranksAll cs ++ ranksAll ds := by
  induction cs with
  | nil => rfl
  | cons p cs ih => rw [List.cons_append, ranksAll, ranksAll, ih, List.append_assoc]

theorem ranksAll_single (k : Key) (n : Node) : ranksAll [(k, n)] = n.ranks := by
  rw [ranksAll, ranksAll, List.append_nil]

theorem ranksAll_middle (l r : Children) (k : Key) (n : Node) :
    ranksAll (l ++ (k, n) :: r) = ranksAll l ++ (n.ranks ++ ranksAll r) := by
  rw [ranksAll_append, ranksAll]

theorem ranksTables_append (es fs : List (Heading × Children)) :
    ranksTables (es ++ fs) = ranksTables es ++ ranksTables fs := by
  induction es with
  | nil => rfl
  | cons p es ih =>
    rw [List.cons_append, ranksTables, ranksTables, ih]
    simp only [List.cons_append, List.append_assoc]

theorem mem_ranks_table {how : Standing} (h : r ∈ ranksAll cs) : r ∈ (Node.table how cs).ranks := by
  cases how with
  | headed hd =>
    rw [Node.ranks]
    exact List.mem_cons_of_mem _ h
  | implied => rwa [Node.ranks]
  | dotted => rwa [Node.ranks]

theorem ranks_table_subset (how : Standing) (h : ranksAll cs ⊆ ranksAll ds) :
    (Node.table how cs).ranks ⊆ (Node.table how ds).ranks := by
  cases how with
  | headed hd =>
    rw [Node.ranks, Node.ranks]
    exact List.cons_subset_cons _ h
  | implied => rwa [Node.ranks, Node.ranks]
  | dotted => rwa [Node.ranks, Node.ranks]

theorem ranksAll_change (h : n.ranks ⊆ m.ranks) (l r : Children) (k k' : Key) :
    ranksAll (l ++ (k, n) :: r) ⊆ ranksAll (l ++ (k', m) :: r) := by
  intro x hx
  simp only [ranksAll_middle, List.mem_append] at hx ⊢
  exact hx.imp_right (Or.imp_left fun hx => h hx)

end Ranks

section Twins

/-- What becomes of the headers of the first tree, told by their ranks: the rank that each has in the second,
and its path there. -/
structure Renewal where
  rank : Nat → Nat
  path : Nat → List Key

def Renewal.Ends (w : Renewal) (depth : Nat) (l : Key) (r : Nat) : Prop :=
  (w.path r)[depth]? = some l ∧ (w.path r).length = depth + 1

mutual

/-- The nodes have the same shape. Keys that dots have made are the same in both; any other key of the second
stands in a header for a table at or below the node, and in one that ends there, if the node has headers. -/
def Node.Twin (w : Renewal) (depth : Nat) (k l : Key) : Node → Node → Prop
  | .value _ _ _, .value _ _ _ => True
  | .table .dotted cs, .table .dotted ds => k = l ∧ TwinAll w (depth + 1) cs ds
  | .table .implied cs, .table .implied ds =>
    (∃ r ∈ ranksAll cs, (w.path r)[depth]? = some l) ∧ TwinAll w (depth + 1) cs ds
  | .table (.headed h) cs, .table (.headed g) ds =>
    (k.inner.2 = [] ∧ w.Ends depth l h.rank) ∧ g.rank = w.rank h.rank ∧ TwinAll w (depth + 1) cs ds
  | .tables es, .tables fs =>
    (k.inner.2 = [] ∧ ∃ p ∈ es, w.Ends depth l p.1.rank) ∧ TwinTables w (depth + 1) es fs
  | _, _ => False

def TwinAll (w : Renewal) (depth : Nat) : List (Key × Node) → List (Key × Node) → Prop
  | [], [] => True
  | (k, n) :: cs, (l, m) :: ds => (k.name = l.name ∧ n.Twin w depth k l m) ∧ TwinAll w depth cs ds
  | _, _ => False

def TwinTables (w : Renewal) (depth : Nat) :
    List (Heading × List (Key × Node)) → List (Heading × List (Key × Node)) → Prop
  | [], [] => True
  | (h, cs) :: es, (g, ds) :: fs => (g.rank = w.rank h.rank ∧ TwinAll w depth cs ds) ∧ TwinTables w depth es fs
  | _, _ => False

end

variable {w : Renewal} {depth : Nat} {cs ds : Children} {k l : Key} {n m : Node} {name : List Char}

theorem twinAll_iff : TwinAll w depth cs ds ↔
    List.Forall₂ (fun p q => p.1.name = q.1.name ∧ p.2.Twin w depth p.1 q.1 q.2) cs ds := by
  induction cs generalizing ds with
  | nil => cases ds <;> simp [TwinAll]
  | cons p cs ih =>
    cases ds with
    | nil => simp [TwinAll]
    | cons q ds => rw [TwinAll, List.forall₂_cons, ih]

theorem twinTables_iff {es fs : List (Heading × Children)} : TwinTables w depth es fs ↔
    List.Forall₂ (fun p q => q.1.rank = w.rank p.1.rank ∧ TwinAll w depth p.2 q.2) es fs := by
  induction es generalizing fs with
  | nil => cases fs <;> simp [TwinTables]
  | cons p es ih =>
    cases fs with
    | nil => simp [TwinTables]
    | cons q fs => rw [TwinTables, List.forall₂_cons, ih]

theorem TwinAll.append {cs' ds' : Children} (h : TwinAll w depth cs ds) (h' : TwinAll w depth cs' ds') :
    TwinAll w depth (cs ++ cs') (ds ++ ds') :=
  twinAll_iff.2 (List.rel_append (twinAll_iff.1 h) (twinAll_iff.1 h'))

theorem twinAll_single : TwinAll w depth [(k, n)] [(l, m)] ↔ k.name = l.name ∧ n.Twin w depth k l m := by
  rw [TwinAll, TwinAll, and_true]

theorem TwinAll.concat {r : Nat} (h : TwinAll w depth cs ds) (hk : k.name = l.name) (ht : n.Twin w depth k l m)
    (hr : r ∈ n.ranks) : TwinAll w depth (cs ++ [(k, n)]) (ds ++ [(l, m)]) ∧ r ∈ ranksAll (cs ++ [(k, n)]) ∧
      ranksAll cs ⊆ ranksAll (cs ++ [(k, n)]) := by
  refine ⟨h.append (twinAll_single.2 ⟨hk, ht⟩), ?_, ?_⟩
  · rw [ranksAll_append, ranksAll_single]
    exact List.mem_append_right _ hr
  · rw [ranksAll_append]
    exact List.subset_append_left _ _

theorem TwinAll.child?_eq_none (h : TwinAll w depth cs ds) :
    cs.child? name = none → ds.child? name = none := by
  rw [twinAll_iff] at h
  induction h with
  | nil => exact id
  | @cons p q cs ds hpq _ ih =>
    rw [child?_cons, child?_cons, ← hpq.1]
    split
    · nofun
    · exact ih

theorem TwinAll.split (h : TwinAll w depth cs ds) (hn : (childNames cs).Nodup)
    (hc : cs.child? name = some (k, n)) :
    ∃ (a b a' b' : Children) (l : Key) (m : Node), cs = a ++ (k, n) :: b ∧ ds = a' ++ (l, m) :: b' ∧
      TwinAll w depth a a' ∧ TwinAll w depth b b' ∧ k.name = name ∧ l.name = name ∧ n.Twin w depth k l m ∧
      a.child? name = none ∧ b.child? name = none := by
  rw [twinAll_iff] at h
  induction h with
  | nil => cases hc
  | @cons p q cs ds hpq h ih =>
    rw [childNames_cons, List.nodup_cons] at hn
    rw [child?_cons] at hc
    split at hc
    · next hp =>
      cases hc
      exact ⟨[], cs, [], ds, q.1, q.2, rfl, rfl, trivial, twinAll_iff.2 h, hp, hpq.1 ▸ hp, hpq.2, rfl,
        not_mem_childNames.1 (hp ▸ hn.1)⟩
    · next hp =>
      obtain ⟨a, b, a', b', l, m, rfl, rfl, ha, hb, hk, hl, ht, hna, hnb⟩ := ih hn.2 hc
      exact ⟨p :: a, b, q :: a', b', l, m, rfl, rfl, twinAll_iff.2 (.cons hpq (twinAll_iff.1 ha)), hb, hk, hl, ht,
        by rwa [child?_cons, if_neg hp], hnb⟩

theorem TwinAll.put (h : TwinAll w depth cs ds) (hn : (childNames cs).Nodup)
    (hc : cs.child? name = some (k, n)) :
    ∃ l m, ds.child? name = some (l, m) ∧ n.Twin w depth k l m ∧
      ∀ n' m', n'.Twin w depth k l m' → n.ranks ⊆ n'.ranks →
        TwinAll w depth (cs.put name n') (ds.put name m') ∧ ranksAll cs ⊆ ranksAll (cs.put name n') ∧
          n'.ranks ⊆ ranksAll (cs.put name n') := by
  obtain ⟨a, b, a', b', l, m, rfl, rfl, ha, hb, hk, hl, ht, hna, hnb⟩ := h.split hn hc
  have hna' := ha.child?_eq_none hna
  have hnb' := hb.child?_eq_none hnb
  refine ⟨l, m, by rw [child?_append, hna', Option.none_or, child?_cons, if_pos hl], ht,
    fun n' m' ht' hr => ?_⟩
  rw [put_split hk hna hnb, put_split hl hna' hnb']
  refine ⟨ha.append ⟨⟨hk.trans hl.symm, ht'⟩, hb⟩, ranksAll_change hr a b k k, fun r hm => ?_⟩
  rw [ranksAll_middle]
  exact List.mem_append_right _ (List.mem_append_left _ hm)

theorem TwinAll.erase (h : TwinAll w depth cs ds) (hn : (childNames cs).Nodup)
    (hc : cs.child? name = some (k, n)) :
    ∃ l m, ds.child? name = some (l, m) ∧ n.Twin w depth k l m ∧
      TwinAll w depth (cs.erase name) (ds.erase name) ∧
        ∀ r ∈ ranksAll cs, r ∈ ranksAll (cs.erase name) ∨ r ∈ n.ranks := by
  obtain ⟨a, b, a', b', l, m, rfl, rfl, ha, hb, hk, hl, ht, hna, hnb⟩ := h.split hn hc
  have hna' := ha.child?_eq_none hna
  have hnb' := hb.child?_eq_none hnb
  refine ⟨l, m, by rw [child?_append, hna', Option.none_or, child?_cons, if_pos hl], ht, ?_, fun r hr => ?_⟩
  · rw [erase_split hk hna hnb, erase_split hl hna' hnb']
    exact ha.append hb
  · rw [ranksAll_middle, List.mem_append, List.mem_append] at hr
    rw [erase_split hk hna hnb, ranksAll_append, List.mem_append]
    tauto

theorem Node.Twin.table {how : Standing} (h : (Node.table how cs).Twin w depth k l m) :
    ∃ how' ds, m = .table how' ds ∧ TwinAll w (depth + 1) cs ds ∧ (how = .implied → how' = .implied) ∧
      ∀ cs' ds', TwinAll w (depth + 1) cs' ds' → ranksAll cs ⊆ ranksAll cs' →
        (Node.table how cs').Twin w depth k l (.table how' ds') := by
  cases m with
  | value gap v after => cases how <;> simp [Node.Twin] at h
  | tables es => cases how <;> simp [Node.Twin] at h
  | table how' ds =>
    refine ⟨how', ds, rfl, ?_⟩
    cases how with
    | implied =>
      cases how' with
      | dotted | headed => simp [Node.Twin] at h
      | implied =>
        rw [Node.Twin] at h
        obtain ⟨⟨r, hr, hl⟩, h⟩ := h
        refine ⟨h, fun _ => rfl, fun cs' ds' h' hs => ?_⟩
        rw [Node.Twin]
        exact ⟨⟨r, hs hr, hl⟩, h'⟩
    | dotted =>
      cases how' with
      | implied | headed => simp [Node.Twin] at h
      | dotted =>
        rw [Node.Twin] at h
        refine ⟨h.2, fun he => absurd he (by simp), fun cs' ds' h' _ => ?_⟩
        rw [Node.Twin]
        exact ⟨h.1, h'⟩
    | headed hd =>
      cases how' with
      | implied | dotted => simp [Node.Twin] at h
      | headed hd' =>
        rw [Node.Twin] at h
        refine ⟨h.2.2, fun he => absurd he (by simp), fun cs' ds' h' _ => ?_⟩
        rw [Node.Twin]
        exact ⟨h.1, h.2.1, h'⟩

theorem Node.Twin.tables {es : List (Heading × Children)} (h : (Node.tables es).Twin w depth k l m) :
    ∃ fs, m = .tables fs ∧ TwinTables w (depth + 1) es fs ∧
      ∀ es' fs', TwinTables w (depth + 1) es' fs' → es.map Prod.fst ⊆ es'.map Prod.fst →
        (Node.tables es').Twin w depth k l (.tables fs') := by
  cases m with
  | value gap v after => simp [Node.Twin] at h
  | table how ds => simp [Node.Twin] at h
  | tables fs =>
    rw [Node.Twin] at h
    obtain ⟨⟨hi, p, hp, he⟩, h⟩ := h
    refine ⟨fs, rfl, h, fun es' fs' h' hs => ?_⟩
    obtain ⟨q, hq, hpq⟩ := List.mem_map.1 (hs (List.mem_map_of_mem hp))
    rw [Node.Twin]
    exact ⟨⟨hi, q, hq, hpq ▸ he⟩, h'⟩

mutual

theorem Node.Own.twin {w : Renewal} {depth : Nat} {k : Key} : (n : Node) → n.Own → n.Twin w depth k k n
  | .value _ _ _, _ => by
    rw [Node.Twin]
    trivial
  | .table .dotted cs, h => by
    rw [Node.Own] at h
    rw [Node.Twin]
    exact ⟨rfl, OwnAll.twin cs h.2⟩
  | .table .implied _, h => by simp [Node.Own] at h
  | .table (.headed _) _, h => by simp [Node.Own] at h
  | .tables _, h => by simp [Node.Own] at h

theorem OwnAll.twin {w : Renewal} {depth : Nat} : (cs : List (Key × Node)) → OwnAll cs → TwinAll w depth cs cs
  | [], _ => trivial
  | (k, n) :: r, h => by
    rw [OwnAll] at h
    rw [TwinAll]
    exact ⟨⟨rfl, Node.Own.twin n h.1⟩, OwnAll.twin r h.2.2⟩

end

end Twins

section Grafting

variable {w : Renewal} {depth r : Nat} {cs ds own : Children} {k l : Key} {f g : Children → Option Children}

/-- The operations build twins from twins, and the first of them brings in the header of the rank. -/
def TwinOps (w : Renewal) (depth r : Nat) (f g : Children → Option Children) : Prop :=
  ∀ cs ds cs', TidyAll cs → TwinAll w depth cs ds → f cs = some cs' →
    ∃ ds', g ds = some ds' ∧ TwinAll w depth cs' ds' ∧ r ∈ ranksAll cs' ∧ ranksAll cs ⊆ ranksAll cs'

theorem TwinAll.gain? {cs' : Children} (h : TwinAll w depth cs ds) (ho : OwnAll own)
    (hg : gain? own cs = some cs') :
    ∃ ds', Children.gain? own ds = some ds' ∧ TwinAll w depth cs' ds' ∧ ranksAll cs ⊆ ranksAll cs' := by
  rw [Children.gain?] at hg
  split at hg
  · next hall =>
    cases hg
    rw [List.all_eq_true] at hall
    refine ⟨ds ++ own, ?_, h.append (OwnAll.twin own ho), ?_⟩
    · rw [Children.gain?, if_pos]
      refine List.all_eq_true.2 fun p hp => ?_
      exact Option.isNone_iff_eq_none.2 (h.child?_eq_none (Option.isNone_iff_eq_none.1 (hall p hp)))
    · rw [ranksAll_append]
      exact List.subset_append_left _ _
  · cases hg

theorem twinOps_headTable? {hd hd' : Heading} (hk : k.name = l.name) (hi : k.inner.2 = [])
    (he : w.Ends depth l hd.rank) (hs : hd'.rank = w.rank hd.rank) (ho : OwnAll own) :
    TwinOps w depth hd.rank (headTable? k hd (gain? own)) (headTable? l hd' (gain? own)) := by
  have headed {b c : Children} (h : TwinAll w (depth + 1) b c) :
      (Node.table (.headed hd) b).Twin w depth k l (.table (.headed hd') c) := by
    rw [Node.Twin]
    exact ⟨⟨hi, he⟩, hs, h⟩
  have mine (b : Children) : hd.rank ∈ (Node.table (.headed hd) b).ranks := by
    rw [Node.ranks]
    exact List.mem_cons_self
  intro cs ds cs' ht h hf
  rw [headTable?] at hf
  rw [headTable?, ← hk]
  split at hf
  · next hn =>
    rw [gain?_nil] at hf
    cases hf
    rw [h.child?_eq_none hn, gain?_nil]
    exact ⟨_, rfl, h.concat hk (headed (OwnAll.twin own ho)) (mine own)⟩
  · next k' sub hn =>
    obtain ⟨b, hb, rfl⟩ := Option.map_eq_some_iff.1 hf
    obtain ⟨l', m, hm, htw, herase, hranks⟩ := h.erase ht.nodup hn
    obtain ⟨how, sub', rfl, hsub, hhow, -⟩ := htw.table
    obtain rfl := hhow rfl
    obtain ⟨c, hc, hbc, hkeep⟩ := hsub.gain? ho hb
    rw [hm]
    dsimp only
    rw [hc]
    refine ⟨_, rfl, herase.append (twinAll_single.2 ⟨hk, headed hbc⟩), ?_, fun x hx => ?_⟩
    · rw [ranksAll_append, ranksAll_single]
      exact List.mem_append_right _ (mine b)
    · rw [ranksAll_append, ranksAll_single, List.mem_append]
      refine (hranks x hx).imp_right fun hx => ?_
      rw [Node.ranks] at hx
      exact mem_ranks_table (hkeep hx)
  · cases hf

theorem twinOps_headElement? {hd hd' : Heading} (hk : k.name = l.name) (hi : k.inner.2 = [])
    (he : w.Ends depth l hd.rank) (hs : hd'.rank = w.rank hd.rank) (ho : OwnAll own) :
    TwinOps w depth hd.rank (headElement? k hd (gain? own)) (headElement? l hd' (gain? own)) := by
  have hlast : TwinTables w (depth + 1) [(hd, own)] [(hd', own)] :=
    ⟨⟨hs, OwnAll.twin own ho⟩, trivial⟩
  have mine (es : List (Heading × Children)) : hd.rank ∈ (Node.tables (es ++ [(hd, own)])).ranks := by
    rw [Node.ranks, ranksTables_append, ranksTables]
    simp
  intro cs ds cs' ht h hf
  rw [headElement?, gain?_nil] at hf
  rw [headElement?, gain?_nil, ← hk]
  split at hf
  · next hn =>
    cases hf
    rw [h.child?_eq_none hn]
    refine ⟨_, rfl, h.concat hk ?_ (mine [])⟩
    rw [Node.Twin]
    exact ⟨⟨hi, _, List.mem_singleton_self _, he⟩, hlast⟩
  · next k' es hn =>
    cases hf
    obtain ⟨l', m, hm, htw, hput⟩ := h.put ht.nodup hn
    obtain ⟨fs, rfl, hfs, hchange⟩ := htw.tables
    rw [hm]
    have hes : TwinTables w (depth + 1) (es ++ [(hd, own)]) (fs ++ [(hd', own)]) :=
      twinTables_iff.2 (List.rel_append (twinTables_iff.1 hfs) (twinTables_iff.1 hlast))
    obtain ⟨hall, hkeep, hmine⟩ := hput _ _ (hchange _ _ hes (by simp)) (by
      rw [Node.ranks, Node.ranks, ranksTables_append]
      exact List.subset_append_left _ _)
    exact ⟨_, rfl, hall, hmine (mine es), hkeep⟩
  · cases hf

theorem exists_concat_of_forall₂ {α β : Type} {R : α → β → Prop} {as : List α} {a : α} {bs : List β}
    (h : List.Forall₂ R (as ++ [a]) bs) : ∃ bs' b, bs = bs' ++ [b] ∧ List.Forall₂ R as bs' ∧ R a b := by
  induction as generalizing bs with
  | nil =>
    obtain ⟨b, _, hr, hnil, rfl⟩ := List.forall₂_cons_left_iff.1 h
    obtain rfl := List.forall₂_nil_left_iff.1 hnil
    exact ⟨[], b, rfl, .nil, hr⟩
  | cons x as ih =>
    rw [List.cons_append] at h
    obtain ⟨y, bs, hr, hrest, rfl⟩ := List.forall₂_cons_left_iff.1 h
    obtain ⟨bs', b, rfl, h, hb⟩ := ih hrest
    exact ⟨y :: bs', b, rfl, .cons hr h, hb⟩

theorem TwinOps.changeLast? {es es' fs : List (Heading × Children)} (h : TwinOps w depth r f g)
    (ht : (Node.tables es).Tidy k) (hes : TwinTables w depth es fs) (hf : Children.changeLast? f es = some es') :
    ∃ fs', Children.changeLast? g fs = some fs' ∧ TwinTables w depth es' fs' ∧ es.map Prod.fst ⊆ es'.map Prod.fst ∧
      r ∈ (Node.tables es').ranks ∧ (Node.tables es).ranks ⊆ (Node.tables es').ranks := by
  obtain ⟨init, hd, e, e', rfl, rfl, he⟩ := changeLast?_eq_some hf
  obtain ⟨finit, ⟨hd', c⟩, rfl, hinit, hlast⟩ := exists_concat_of_forall₂ (twinTables_iff.1 hes)
  obtain ⟨c', hc, htwin, hr, hkeep⟩ := h e c e' ((tidy_tables_concat init hd e).1 ht).2 hlast.2 he
  refine ⟨finit ++ [(hd', c')], ?_, twinTables_iff.2 (List.rel_append hinit (.cons ⟨hlast.1, htwin⟩ .nil)),
    by simp, ?_, ?_⟩
  · rw [Children.changeLast?, List.getLast?_concat]
    dsimp only
    rw [hc, List.dropLast_concat]
    rfl
  · simp only [Node.ranks, ranksTables_append, ranksTables]
    simp [hr]
  · simp only [Node.ranks, ranksTables_append, ranksTables]
    intro x hx
    simp only [List.mem_append, List.mem_cons, List.not_mem_nil, or_false] at hx ⊢
    exact hx.imp_right (Or.imp_right fun hx => hkeep hx)

theorem twinOps_descend? {p q : List Key} (hn : names p = names q)
    (hq : ∀ j, j < q.length → (w.path r)[depth + j]? = q[j]?) (h : TwinOps w (depth + p.length) r f g) :
    TwinOps w depth r (fun cs => cs.descend? f p) (fun cs => cs.descend? g q) := by
  induction p generalizing q depth with
  | nil =>
    obtain rfl := eq_nil_of_names hn
    exact h
  | cons k p ih =>
    obtain ⟨l, q, rfl, hk, hn⟩ := exists_cons_of_names hn
    have hl : (w.path r)[depth]? = some l := by simpa using hq 0 (by simp)
    have ih := ih hn (fun j hj => by
      have := hq (j + 1) (by simpa using hj)
      rwa [List.getElem?_cons_succ, ← Nat.add_assoc, Nat.add_right_comm] at this) (by
      rwa [List.length_cons, ← Nat.add_assoc, Nat.add_right_comm] at h)
    intro cs ds cs' ht hcs hf
    dsimp only at hf ⊢
    rw [descend?] at hf
    rw [descend?, ← hk]
    split at hf
    · next hn =>
      obtain ⟨sub, hs, rfl⟩ := Option.map_eq_some_iff.1 hf
      obtain ⟨sub', hs', hsub, hr, -⟩ := ih [] [] sub (by rw [TidyAll]; trivial) trivial hs
      have hs' : descend? g [] q = some sub' := hs'
      rw [hcs.child?_eq_none hn]
      dsimp only
      rw [hs']
      refine ⟨_, rfl, hcs.concat hk ?_ (mem_ranks_table hr)⟩
      rw [Node.Twin]
      exact ⟨⟨r, hr, hl⟩, hsub⟩
    · cases hf
    · next k' how sub hn =>
      obtain ⟨sub', hs, rfl⟩ := Option.map_eq_some_iff.1 hf
      obtain ⟨l', m, hm, htw, hput⟩ := hcs.put ht.nodup hn
      obtain ⟨how', dsub, rfl, hsub, -, hchange⟩ := htw.table
      have htidy : (Node.table how sub).Tidy k' := ht.of_mem (mem_of_child? hn).1
      rw [Node.Tidy] at htidy
      obtain ⟨dsub', hs', hsub', hr, hkeep⟩ := ih sub dsub sub' htidy.2.2 hsub hs
      have hs' : descend? g dsub q = some dsub' := hs'
      rw [hm]
      dsimp only
      rw [hs']
      obtain ⟨hall, hk, hmine⟩ := hput _ _ (hchange _ _ hsub' hkeep) (ranks_table_subset how hkeep)
      exact ⟨_, rfl, hall, hmine (mem_ranks_table hr), hk⟩
    · next k' es hn =>
      obtain ⟨es', hs, rfl⟩ := Option.map_eq_some_iff.1 hf
      obtain ⟨l', m, hm, htw, hput⟩ := hcs.put ht.nodup hn
      obtain ⟨fs, rfl, hfs, hchange⟩ := htw.tables
      have htidy : (Node.tables es).Tidy k' := ht.of_mem (mem_of_child? hn).1
      obtain ⟨fs', hc, hes, hhead, hr, hkeep⟩ := ih.changeLast? htidy hfs hs
      obtain ⟨hall, hk, hmine⟩ := hput _ _ (hchange _ _ hes hhead) hkeep
      rw [hm]
      dsimp only
      rw [hc]
      exact ⟨_, rfl, hall, hmine hr, hk⟩

/-- The sections open twins when their headers have the same names, and the renewal tells the second. -/
theorem twinOps_graft? {h h' : Header} (hn : names h.path = names h'.path) (he : h'.element = h.element)
    (hi : ∀ k, h.path.getLast? = some k → k.inner.2 = []) (hw : w.path r = h'.path) (ho : OwnAll own) :
    TwinOps w 0 r (graft? r (h, own)) (graft? (w.rank r) (h', own)) := by
  obtain ⟨before, element, p, after⟩ := h
  obtain ⟨before', element', q, after'⟩ := h'
  dsimp only at hn he hi hw
  subst he
  cases hk : p.getLast? with
  | none =>
    intro cs ds cs' _ _ hf
    simp only [graft?, Header.open?, hk] at hf
    cases hf
  | some k =>
    obtain ⟨init, rfl⟩ := List.getLast?_eq_some_iff.1 hk
    obtain ⟨qinit, l, rfl⟩ : ∃ qinit l, q = qinit ++ [l] := by
      refine ⟨q.dropLast, q.getLast ?_, (List.dropLast_concat_getLast _).symm⟩
      rintro rfl
      simp [names] at hn
    rw [names_append, names_append] at hn
    obtain ⟨hinit, hlast⟩ := List.append_inj' hn (by simp [names])
    have hlast : k.name = l.name := by simpa [names] using hlast
    have hlength : init.length = qinit.length := by simpa [names] using congrArg List.length hinit
    have hends : w.Ends (0 + init.length) l r := by
      rw [Renewal.Ends, hw, Nat.zero_add, hlength, List.getElem?_concat_length, List.length_append]
      exact ⟨rfl, rfl⟩
    have hpath : ∀ j, j < qinit.length → (w.path r)[0 + j]? = qinit[j]? := fun j hj => by
      rw [hw, Nat.zero_add, List.getElem?_append_left hj]
    intro cs ds cs' ht hcs hf
    simp only [graft?, Header.open?, hk, List.getLast?_concat, List.dropLast_concat] at hf ⊢
    cases element' with
    | false =>
      exact twinOps_descend? hinit hpath (twinOps_headTable? hlast (hi k hk) hends rfl ho) cs ds cs' ht hcs hf
    | true =>
      exact twinOps_descend? hinit hpath (twinOps_headElement? hlast (hi k hk) hends rfl ho) cs ds cs' ht hcs hf

end Grafting

end CBuild.Toml
