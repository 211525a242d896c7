import CBuild.Toml.Value

/-! The entries of a table, defined one after the other, build the table again. -/

namespace CBuild.Toml

namespace Children

section Names

variable {cs ds : Children} {name : List Char} {k : Key} {n : Node}

theorem child?_eq_none : cs.child? name = none ↔ ∀ p ∈ cs, p.1.name ≠ name := by
  rw [child?, List.find?_eq_none]
  exact ⟨fun h p hp he => h p hp (by simpa using he), fun h p hp => by simpa using h p hp⟩

theorem child?_append (cs ds : Children) (name : List Char) :
    child? (cs ++ ds) name = (cs.child? name).or (child? ds name) := by
  rw [child?, List.find?_append]
  rfl

@[simp] theorem child?_nil (name : List Char) : child? [] name = none := rfl

theorem child?_cons (p : Key × Node) (cs : Children) (name : List Char) :
    child? (p :: cs) name = if p.1.name = name then some p else child? cs name := by
  rw [child?, List.find?_cons]
  split <;> simp_all [child?]

theorem put_eq_self (h : cs.child? name = none) (n : Node) : cs.put name n = cs := by
  rw [child?_eq_none] at h
  rw [put]
  exact (List.map_congr_left fun p hp => if_neg (h p hp)).trans (List.map_id cs)

theorem put_cons (p : Key × Node) (cs : Children) (name : List Char) (n : Node) :
    put (p :: cs) name n = (if p.1.name = name then (p.1, n) else p) :: put cs name n := rfl

theorem mem_of_child? (h : cs.child? name = some (k, n)) : (k, n) ∈ cs ∧ k.name = name :=
  ⟨List.mem_of_find?_eq_some h, by simpa using List.find?_some h⟩

theorem child?_put_eq_none (cs : Children) (name : List Char) (n : Node) (other : List Char) :
    child? (cs.put name n) other = none ↔ cs.child? other = none := by
  induction cs with
  | nil => rfl
  | cons p cs ih =>
    rw [put_cons, child?_cons, child?_cons]
    by_cases hk : p.1.name = other
    · rw [if_pos hk, if_pos (by split <;> exact hk)]
      simp
    · rw [if_neg hk, if_neg (by split <;> exact hk), ih]

theorem put_append (cs ds : Children) (name : List Char) (n : Node) :
    put (cs ++ ds) name n = cs.put name n ++ put ds name n := by
  rw [put, List.map_append]
  rfl

theorem put_concat (h : cs.child? k.name = none) (m n : Node) :
    put (cs ++ [(k, m)]) k.name n = cs ++ [(k, n)] := by
  rw [put_append, put_eq_self h]
  simp [put]

theorem child?_concat (h : cs.child? k.name = none) (n : Node) :
    child? (cs ++ [(k, n)]) k.name = some (k, n) := by
  rw [child?_append, h, Option.none_or, child?_cons, if_pos rfl]

end Names

end Children

section Rebuilding

open Children

mutual

/-- A value, or a table of such that dotted keys made. -/
def Node.Own : Node → Prop
  | .value _ _ _ => True
  | .table .dotted cs => cs ≠ [] ∧ OwnAll cs
  | _ => False

def OwnAll : List (Key × Node) → Prop
  | [] => True
  | (k, n) :: r => n.Own ∧ Children.child? r k.name = none ∧ OwnAll r

end

variable {base cs : Children} {k : Key} {n : Node}

def Entry.under (k : Key) (e : Entry) : Entry :=
  { e with path := k :: e.path }

mutual

theorem Node.entries_cons (k : Key) (path : List Key) :
    (n : Node) → n.entries (k :: path) = (n.entries path).map (Entry.under k)
  | .value _ _ _ => by simp [Node.entries, Entry.under]
  | .table .dotted cs => by rw [Node.entries, Node.entries, entriesUnder_cons k path cs]
  | .table .implied _ => by simp [Node.entries]
  | .table (.headed _) _ => by simp [Node.entries]
  | .tables _ => by simp [Node.entries]

theorem entriesUnder_cons (k : Key) (path : List Key) :
    (cs : List (Key × Node)) → entriesUnder (k :: path) cs = (entriesUnder path cs).map (Entry.under k)
  | [] => by simp [entriesUnder]
  | (l, n) :: r => by
    rw [entriesUnder, entriesUnder, List.map_append, ← entriesUnder_cons k path r, List.cons_append,
      Node.entries_cons k (path ++ [l]) n]

end

theorem Entry.defineAll?_append (cs : Children) (es fs : List Entry) :
    defineAll? cs (es ++ fs) = (defineAll? cs es).bind fun cs => defineAll? cs fs := by
  rw [defineAll?, List.foldlM_append]
  rfl

@[simp] theorem Entry.defineAll?_nil (cs : Children) : defineAll? cs [] = some cs := rfl

theorem Entry.defineAll?_cons (cs : Children) (e : Entry) (es : List Entry) :
    defineAll? cs (e :: es) =
      (cs.define? true (.value e.gap e.value e.after) e.path).bind fun cs => defineAll? cs es := rfl

theorem Entry.defineAll?_under (hb : base.child? k.name = none) (es : List Entry)
    (hp : ∀ e ∈ es, e.path ≠ []) (cs : Children) :
    defineAll? (base ++ [(k, .table .dotted cs)]) (es.map (Entry.under k)) =
      (defineAll? cs es).map fun cs => base ++ [(k, .table .dotted cs)] := by
  induction es generalizing cs with
  | nil => rfl
  | cons e es ih =>
    obtain ⟨l, path, he⟩ := List.exists_cons_of_ne_nil (hp e List.mem_cons_self)
    rw [List.map_cons, defineAll?_cons, defineAll?_cons, Entry.under, he, define?,
      child?_concat hb]
    · dsimp only
      cases cs.define? true (.value e.gap e.value e.after) (l :: path) with
      | none => rfl
      | some ds =>
        rw [Option.map_some, Option.bind_some, Option.bind_some, put_concat hb,
          ih (fun e he => hp e (List.mem_cons_of_mem _ he))]
    · rintro ⟨⟩

theorem Entry.defineAll?_under_new (hb : base.child? k.name = none) {es : List Entry} (hn : es ≠ [])
    (hp : ∀ e ∈ es, e.path ≠ []) :
    defineAll? base (es.map (Entry.under k)) =
      (defineAll? [] es).map fun cs => base ++ [(k, .table .dotted cs)] := by
  obtain ⟨e, es, rfl⟩ := List.exists_cons_of_ne_nil hn
  obtain ⟨l, path, he⟩ := List.exists_cons_of_ne_nil (hp e List.mem_cons_self)
  rw [List.map_cons, defineAll?_cons, defineAll?_cons, Entry.under, he, define?, hb]
  · dsimp only
    cases define? [] true (.value e.gap e.value e.after) (l :: path) with
    | none => rfl
    | some ds =>
      rw [Option.map_some, Option.bind_some, Option.bind_some,
        defineAll?_under hb es fun e he => hp e (List.mem_cons_of_mem _ he)]
  · rintro ⟨⟩

theorem entriesData_append (cs ds : Children) :
    entriesData (cs ++ ds) = entriesData cs ++ entriesData ds := by
  induction cs with
  | nil => rfl
  | cons p cs ih => rw [List.cons_append, entriesData, entriesData, ih, List.cons_append]

theorem entriesUnder_append (path : List Key) (cs ds : Children) :
    entriesUnder path (cs ++ ds) = entriesUnder path cs ++ entriesUnder path ds := by
  induction cs with
  | nil => rfl
  | cons p cs ih => rw [List.cons_append, entriesUnder, entriesUnder, ih, List.append_assoc]

mutual

theorem Node.path_ne_nil {path : List Key} (hp : path ≠ []) :
    (n : Node) → ∀ e ∈ n.entries path, e.path ≠ []
  | .value _ _ _ => by simpa [Node.entries] using hp
  | .table .dotted cs => by
    rw [Node.entries]
    exact entriesUnder_path_ne_nil path cs
  | .table .implied _ => by simp [Node.entries]
  | .table (.headed _) _ => by simp [Node.entries]
  | .tables _ => by simp [Node.entries]

theorem entriesUnder_path_ne_nil (path : List Key) :
    (cs : List (Key × Node)) → ∀ e ∈ entriesUnder path cs, e.path ≠ []
  | [] => by simp [entriesUnder]
  | (k, n) :: r => by
    intro e he
    rw [entriesUnder, List.mem_append] at he
    rcases he with he | he
    · exact Node.path_ne_nil (by simp) n e he
    · exact entriesUnder_path_ne_nil path r e he

end

mutual

theorem Node.Own.entries_ne_nil (path : List Key) : (n : Node) → n.Own → n.entries path ≠ []
  | .value _ _ _, _ => by simp [Node.entries]
  | .table .dotted cs, h => by
    rw [Node.Own] at h
    rw [Node.entries]
    exact OwnAll.entriesUnder_ne_nil path cs h.1 h.2
  | .table .implied _, h => by simp [Node.Own] at h
  | .table (.headed _) _, h => by simp [Node.Own] at h
  | .tables _, h => by simp [Node.Own] at h

theorem OwnAll.entriesUnder_ne_nil (path : List Key) :
    (cs : List (Key × Node)) → cs ≠ [] → OwnAll cs → entriesUnder path cs ≠ []
  | [], hn, _ => absurd rfl hn
  | (k, n) :: r, _, h => by
    rw [OwnAll] at h
    rw [entriesUnder]
    exact List.append_ne_nil_of_left_ne_nil (Node.Own.entries_ne_nil _ n h.1) _

end

mutual

theorem Node.Own.rebuild {base : Children} {k : Key} (hb : base.child? k.name = none) :
    (n : Node) → n.Own → Entry.defineAll? base (n.entries [k]) = some (base ++ [(k, n)])
  | .value gap v after, _ => by
    rw [Node.entries, Entry.defineAll?_cons, define?, hb]
    rfl
  | .table .dotted cs, h => by
    rw [Node.Own] at h
    rw [Node.entries, entriesUnder_cons, Entry.defineAll?_under_new hb
      (OwnAll.entriesUnder_ne_nil [] cs h.1 h.2) (entriesUnder_path_ne_nil [] cs),
      OwnAll.rebuild cs h.2 (by simp)]
    rfl
  | .table .implied _, h => by simp [Node.Own] at h
  | .table (.headed _) _, h => by simp [Node.Own] at h
  | .tables _, h => by simp [Node.Own] at h

/-- The entries of a table, defined in another that has none of its keys, add all of the table. -/
theorem OwnAll.rebuild {base : Children} :
    (cs : List (Key × Node)) → OwnAll cs → (∀ p ∈ cs, base.child? p.1.name = none) →
      Entry.defineAll? base (entriesUnder [] cs) = some (base ++ cs)
  | [], _, _ => by simp [entriesUnder]
  | (k, n) :: r, h, hb => by
    rw [OwnAll] at h
    rw [entriesUnder, Entry.defineAll?_append, List.nil_append,
      Node.Own.rebuild (hb _ List.mem_cons_self) n h.1, Option.bind_some,
      OwnAll.rebuild r h.2.2 ?_, List.append_assoc, List.singleton_append]
    intro p hp
    rw [child?_append, hb p (List.mem_cons_of_mem _ hp), Option.none_or, child?_cons, if_neg]
    · rfl
    · exact fun he => child?_eq_none.1 h.2.1 p hp he.symm

end

end Rebuilding

end CBuild.Toml
