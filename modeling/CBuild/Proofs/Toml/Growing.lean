import CBuild.Proofs.Toml.Keys
import CBuild.Proofs.Toml.Tables

/-! Tables that grow entry by entry keep every key as it was first read. -/

namespace CBuild.Toml

open Children

abbrev Leaf := Key → List Char → Value → List Char → Prop

mutual

/-- A value, or a table that dotted keys made, with paths of at most `m` further keys below it. -/
def Node.Grown (P : Leaf) (m : Nat) (k : Key) : Node → Prop
  | .value gap v after => P k gap v after
  | .table .dotted cs => k.outer = none ∧ cs ≠ [] ∧ GrownAll P false m cs
  | _ => False

def GrownAll (P : Leaf) (first : Bool) (m : Nat) : List (Key × Node) → Prop
  | [] => True
  | (k, n) :: r => (k.WellSpelled ∧ (first = true → k.inner.1 = []) ∧ 0 < m) ∧ n.Grown P (m - 1) k ∧
      child? r k.name = none ∧ GrownAll P first m r

end

section Growing

variable {P : Leaf} {first : Bool} {m : Nat} {cs ds : Children} {k : Key} {n : Node}

theorem GrownAll.of_mem (h : GrownAll P first m cs) (hk : (k, n) ∈ cs) :
    (k.WellSpelled ∧ (first = true → k.inner.1 = []) ∧ 0 < m) ∧ n.Grown P (m - 1) k := by
  induction cs with
  | nil => cases hk
  | cons p cs ih =>
    obtain ⟨l, o⟩ := p
    rw [GrownAll] at h
    rcases List.mem_cons.1 hk with he | hk
    · cases he
      exact ⟨h.1, h.2.1⟩
    · exact ih h.2.2.2 hk

theorem GrownAll.concat (h : GrownAll P first m cs) (hn : cs.child? k.name = none)
    (hk : k.WellSpelled ∧ (first = true → k.inner.1 = []) ∧ 0 < m) (hg : n.Grown P (m - 1) k) :
    GrownAll P first m (cs ++ [(k, n)]) := by
  induction cs with
  | nil =>
    rw [List.nil_append, GrownAll]
    exact ⟨hk, hg, rfl, trivial⟩
  | cons p cs ih =>
    obtain ⟨l, o⟩ := p
    rw [GrownAll] at h
    rw [child?_cons] at hn
    have hne : l.name ≠ k.name := by
      intro he
      rw [if_pos he] at hn
      cases hn
    rw [if_neg hne] at hn
    rw [List.cons_append, GrownAll]
    refine ⟨h.1, h.2.1, ?_, ih h.2.2.2 hn⟩
    rw [child?_append, h.2.2.1, Option.none_or, child?_cons, if_neg (Ne.symm hne)]
    rfl

theorem GrownAll.put (h : GrownAll P first m cs) {o : Node} (hc : cs.child? k.name = some (k, o))
    (hg : n.Grown P (m - 1) k) : GrownAll P first m (cs.put k.name n) := by
  induction cs with
  | nil => trivial
  | cons p cs ih =>
    obtain ⟨l, q⟩ := p
    rw [GrownAll] at h
    rw [child?_cons] at hc
    rw [put_cons]
    by_cases he : l.name = k.name
    · rw [if_pos he] at hc ⊢
      cases hc
      rw [put_eq_self h.2.2.1, GrownAll]
      exact ⟨h.1, hg, h.2.2⟩
    · rw [if_neg he] at hc ⊢
      rw [GrownAll, child?_put_eq_none]
      exact ⟨h.1, h.2.1, h.2.2.1, ih h.2.2.2 hc⟩

/-- One more value at the end of a settled path. -/
theorem GrownAll.of_define? {gap after : List Char} {v : Value} {path : List Key}
    (hg : GrownAll P first m cs) (hp : Settled (fun k => P k gap v after) first path)
    (hl : path.length ≤ m) (h : cs.define? true (.value gap v after) path = some ds) :
    GrownAll P first m ds ∧ ds ≠ [] := by
  induction path generalizing cs first m ds with
  | nil => cases h
  | cons k path ih =>
    rw [List.length_cons] at hl
    cases path with
    | nil =>
      rw [Children.define?] at h
      split at h
      · cases h
      · next hn =>
        cases h
        have hn : cs.child? k.name = none := by simpa using hn
        exact ⟨hg.concat hn ⟨hp.1, hp.2.1, by omega⟩ (by rw [Node.Grown]; exact hp.2.2), by simp⟩
    | cons l path =>
      obtain ⟨hk, hf, ho, hp⟩ := hp
      rw [Children.define?] at h
      · split at h
        · next hn =>
          obtain ⟨sub, hs, rfl⟩ := Option.map_eq_some_iff.1 h
          have hnil : GrownAll P false (m - 1) [] := trivial
          have ih := ih hnil hp (by omega) hs
          exact ⟨hg.concat hn ⟨hk, hf, by omega⟩ (by rw [Node.Grown]; exact ⟨ho, ih.2, ih.1⟩), by simp⟩
        · cases h
        · cases h
        · next k' sub hc =>
          obtain ⟨ds', hs, rfl⟩ := Option.map_eq_some_iff.1 h
          obtain ⟨hm, hk'⟩ := mem_of_child? hc
          have hsub := (hg.of_mem hm).2
          rw [Node.Grown] at hsub
          have ih := ih (m := m - 1) hsub.2.2 hp (by omega) hs
          rw [← hk'] at hc ⊢
          refine ⟨hg.put hc (by rw [Node.Grown]; exact ⟨hsub.1, ih.2, ih.1⟩), fun hnil => ?_⟩
          rw [List.map_eq_nil_iff.1 hnil] at hm
          cases hm
        · next hc =>
          have := (hg.of_mem (mem_of_child? hc).1).2
          simp [Node.Grown] at this
        · next hc =>
          have := (hg.of_mem (mem_of_child? hc).1).2
          simp [Node.Grown] at this
      · rintro ⟨⟩

/-- What is known of an entry: of its path, its value and the space in it. -/
def Entry.Known (P : Leaf) (first : Bool) (m : Nat) (e : Entry) : Prop :=
  Settled (fun k => P k e.gap e.value e.after) first e.path ∧ e.path.length ≤ m

theorem GrownAll.of_defineAll? {es : List Entry} (hg : GrownAll P first m cs)
    (he : ∀ e ∈ es, e.Known P first m) (h : Entry.defineAll? cs es = some ds) :
    GrownAll P first m ds ∧ (cs ≠ [] ∨ es ≠ [] → ds ≠ []) := by
  induction es generalizing cs with
  | nil =>
    cases h
    exact ⟨hg, fun hn => hn.resolve_right fun h => h rfl⟩
  | cons e es ih =>
    rw [Entry.defineAll?_cons] at h
    obtain ⟨cs', hd, h⟩ := Option.bind_eq_some_iff.1 h
    have hk := he e List.mem_cons_self
    have hstep := hg.of_define? hk.1 hk.2 hd
    have ih := ih hstep.1 (fun e h => he e (List.mem_cons_of_mem _ h)) h
    exact ⟨ih.1, fun _ => ih.2 (.inl hstep.2)⟩

mutual

theorem Node.Grown.own {P : Leaf} {m : Nat} {k : Key} : (n : Node) → n.Grown P m k → n.Own
  | .value _ _ _, _ => by rw [Node.Own]; trivial
  | .table .dotted cs, h => by
    rw [Node.Grown] at h
    rw [Node.Own]
    exact ⟨h.2.1, GrownAll.ownAll cs h.2.2⟩
  | .table .implied _, h => by simp [Node.Grown] at h
  | .table (.headed _) _, h => by simp [Node.Grown] at h
  | .tables _, h => by simp [Node.Grown] at h

theorem GrownAll.ownAll {P : Leaf} {first : Bool} {m : Nat} :
    (cs : List (Key × Node)) → GrownAll P first m cs → OwnAll cs
  | [], _ => by rw [OwnAll]; trivial
  | (k, n) :: r, h => by
    rw [GrownAll] at h
    rw [OwnAll]
    exact ⟨Node.Grown.own n h.2.1, h.2.2.1, GrownAll.ownAll r h.2.2.2⟩

end

mutual

theorem Node.Grown.known {P : Leaf} {first : Bool} {m : Nat} {k : Key}
    (hk : k.WellSpelled ∧ (first = true → k.inner.1 = []) ∧ 0 < m) :
    (n : Node) → n.Grown P (m - 1) k → ∀ e ∈ n.entries [k], e.Known P first m
  | .value gap v after, h => by
    rw [Node.Grown] at h
    rw [Node.entries]
    rintro e he
    cases List.mem_singleton.1 he
    exact ⟨⟨hk.1, hk.2.1, h⟩, hk.2.2⟩
  | .table .dotted cs, h => by
    rw [Node.Grown] at h
    rw [Node.entries, entriesUnder_cons]
    rintro e he
    obtain ⟨d, hd, rfl⟩ := List.mem_map.1 he
    have hknown := GrownAll.known cs h.2.2 d hd
    obtain ⟨l, path, hp⟩ := List.exists_cons_of_ne_nil (entriesUnder_path_ne_nil [] cs d hd)
    rw [Entry.Known, hp] at hknown
    rw [Entry.Known, Entry.under, hp]
    exact ⟨⟨hk.1, hk.2.1, h.1, hknown.1⟩, by have := hknown.2; simp only [List.length_cons] at this ⊢; omega⟩
  | .table .implied _, h => by simp [Node.Grown] at h
  | .table (.headed _) _, h => by simp [Node.Grown] at h
  | .tables _, h => by simp [Node.Grown] at h

theorem GrownAll.known {P : Leaf} {first : Bool} {m : Nat} :
    (cs : List (Key × Node)) → GrownAll P first m cs → ∀ e ∈ entriesUnder [] cs, e.Known P first m
  | [], _ => by simp [entriesUnder]
  | (k, n) :: r, h => by
    rw [GrownAll] at h
    intro e he
    rw [entriesUnder, List.mem_append] at he
    rcases he with he | he
    · exact Node.Grown.known h.1 n h.2.1 e he
    · exact GrownAll.known r h.2.2.2 e he

end

end Growing

end CBuild.Toml
