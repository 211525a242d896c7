import CBuild.Proofs.Toml.Growing
import CBuild.Proofs.Toml.Grafting

/-! What stands in the lines of a table itself, and the tables that headers build: their keys are distinct
and can be written in a header, and a table that no header has opened has no lines of its own. -/

namespace CBuild.Toml

open Children

section OwnPart

mutual

def Node.ownUnder (k : Key) : Node → List (Key × Node)
  | .value gap v after => [(k, .value gap v after)]
  | .table .dotted cs => [(k, .table .dotted (ownPart cs))]
  | _ => []

def ownPart : List (Key × Node) → List (Key × Node)
  | [] => []
  | (k, n) :: r => n.ownUnder k ++ ownPart r

end

@[simp] theorem ownPart_nil : ownPart [] = [] := rfl

@[simp] theorem ownPart_append (cs ds : Children) : ownPart (cs ++ ds) = ownPart cs ++ ownPart ds := by
  induction cs with
  | nil => rfl
  | cons p cs ih => rw [List.cons_append, ownPart, ownPart, ih, List.append_assoc]

theorem ownPart_cons (k : Key) (n : Node) (cs : Children) :
    ownPart ((k, n) :: cs) = n.ownUnder k ++ ownPart cs := by
  rw [ownPart]

theorem ownPart_single (k : Key) (n : Node) : ownPart [(k, n)] = n.ownUnder k := by
  rw [ownPart, ownPart, List.append_nil]

@[simp] theorem ownUnder_implied (k : Key) (cs : Children) :
    (Node.table .implied cs).ownUnder k = [] := by
  simp [Node.ownUnder]

@[simp] theorem ownUnder_headed (k : Key) (h : Heading) (cs : Children) :
    (Node.table (.headed h) cs).ownUnder k = [] := by
  simp [Node.ownUnder]

@[simp] theorem ownUnder_tables (k : Key) (es : List (Heading × Children)) :
    (Node.tables es).ownUnder k = [] := by
  simp [Node.ownUnder]

mutual

theorem Node.entriesUnder_ownUnder (path : List Key) (k : Key) :
    (n : Node) → entriesUnder path (n.ownUnder k) = n.entries (path ++ [k])
  | .value _ _ _ => by simp [Node.ownUnder, entriesUnder]
  | .table .dotted cs => by
    rw [Node.ownUnder, entriesUnder, entriesUnder, Node.entries, Node.entries, List.append_nil,
      entriesUnder_ownPart _ cs]
  | .table .implied _ => by simp [Node.ownUnder, entriesUnder, Node.entries]
  | .table (.headed _) _ => by simp [Node.ownUnder, entriesUnder, Node.entries]
  | .tables _ => by simp [Node.ownUnder, entriesUnder, Node.entries]

theorem entriesUnder_ownPart (path : List Key) :
    (cs : List (Key × Node)) → entriesUnder path (ownPart cs) = entriesUnder path cs
  | [] => rfl
  | (k, n) :: r => by
    rw [ownPart, entriesUnder_append, Node.entriesUnder_ownUnder path k n, entriesUnder_ownPart path r,
      entriesUnder]

end

theorem entriesUnder_eq_nil {cs : Children} (h : ownPart cs = []) (path : List Key) :
    entriesUnder path cs = [] := by
  rw [← entriesUnder_ownPart, h, entriesUnder]

theorem entriesUnder_congr {cs ds : Children} (h : ownPart cs = ownPart ds) (path : List Key) :
    entriesUnder path cs = entriesUnder path ds := by
  rw [← entriesUnder_ownPart, h, entriesUnder_ownPart]

mutual

theorem Node.Own.ownUnder (k : Key) : (n : Node) → n.Own → n.ownUnder k = [(k, n)]
  | .value _ _ _, _ => by rw [Node.ownUnder]
  | .table .dotted cs, h => by
    rw [Node.Own] at h
    rw [Node.ownUnder, OwnAll.ownPart_eq cs h.2]
  | .table .implied _, h => by simp [Node.Own] at h
  | .table (.headed _) _, h => by simp [Node.Own] at h
  | .tables _, h => by simp [Node.Own] at h

theorem OwnAll.ownPart_eq : (cs : List (Key × Node)) → OwnAll cs → ownPart cs = cs
  | [], _ => rfl
  | (k, n) :: r, h => by
    rw [OwnAll] at h
    rw [ownPart, Node.Own.ownUnder k n h.1, OwnAll.ownPart_eq r h.2.2, List.singleton_append]

end

mutual

theorem Node.Own.blocks (path : List Key) : (n : Node) → n.Own → n.blocks path = []
  | .value _ _ _, _ => by rw [Node.blocks]
  | .table .dotted cs, h => by
    rw [Node.Own] at h
    rw [Node.blocks, OwnAll.blocksUnder path cs h.2]
  | .table .implied _, h => by simp [Node.Own] at h
  | .table (.headed _) _, h => by simp [Node.Own] at h
  | .tables _, h => by simp [Node.Own] at h

theorem OwnAll.blocksUnder (path : List Key) :
    (cs : List (Key × Node)) → OwnAll cs → Toml.blocksUnder path cs = []
  | [], _ => by rw [Toml.blocksUnder]
  | (k, n) :: r, h => by
    rw [OwnAll] at h
    rw [Toml.blocksUnder, Node.Own.blocks _ n h.1, OwnAll.blocksUnder path r h.2.2, List.nil_append]

end

end OwnPart

section Tidiness

structure Key.Upright (k : Key) : Prop where
  wellSpelled : k.WellSpelled
  before : ∀ around, k.outer = some around → ∀ c ∈ around.1, isSpace c = true
  after : ∀ around, k.outer = some around → ∀ c ∈ around.2, isSpace c = true

def childNames (cs : Children) : List (List Char) :=
  cs.map fun p => p.1.name

mutual

/-- What stands under the key is a value, or tables whose keys are distinct and can be written in headers;
those that no header has opened have no lines of their own. -/
def Node.Tidy (k : Key) : Node → Prop
  | .value _ _ _ => True
  | .table how cs => k.Upright ∧ (how = .implied → ownPart cs = []) ∧ TidyAll cs
  | .tables es => k.Upright ∧ TidyTables es

def TidyAll : List (Key × Node) → Prop
  | [] => True
  | (k, n) :: r => n.Tidy k ∧ k.name ∉ childNames r ∧ TidyAll r

def TidyTables : List (Heading × List (Key × Node)) → Prop
  | [] => True
  | (_, cs) :: r => TidyAll cs ∧ TidyTables r

end

variable {cs ds : Children} {k : Key} {n : Node} {name : List Char}

theorem childNames_cons (p : Key × Node) (cs : Children) :
    childNames (p :: cs) = p.1.name :: childNames cs := rfl

theorem childNames_append (cs ds : Children) : childNames (cs ++ ds) = childNames cs ++ childNames ds :=
  List.map_append

theorem tidyAll_iff (cs : Children) :
    TidyAll cs ↔ (∀ p ∈ cs, p.2.Tidy p.1) ∧ (childNames cs).Nodup := by
  induction cs with
  | nil => simp [TidyAll, childNames]
  | cons p cs ih =>
    rw [TidyAll, ih, List.forall_mem_cons, childNames_cons, List.nodup_cons]
    exact ⟨fun ⟨h, hn, ha, hd⟩ => ⟨⟨h, ha⟩, hn, hd⟩, fun ⟨⟨h, ha⟩, hn, hd⟩ => ⟨h, hn, ha, hd⟩⟩

theorem tidyTables_iff (es : List (Heading × Children)) :
    TidyTables es ↔ ∀ p ∈ es, TidyAll p.2 := by
  induction es with
  | nil => simp [TidyTables]
  | cons p es ih => rw [TidyTables, ih, List.forall_mem_cons]

theorem not_mem_childNames : name ∉ childNames cs ↔ cs.child? name = none := by
  rw [child?_eq_none, childNames, List.mem_map]
  exact ⟨fun h p hp he => h ⟨p, hp, he⟩, fun h ⟨p, hp, he⟩ => h p hp he⟩

theorem grownAll_iff {P : Leaf} {first : Bool} {m : Nat} (cs : Children) :
    GrownAll P first m cs ↔
      (∀ p ∈ cs, (p.1.WellSpelled ∧ (first = true → p.1.inner.1 = []) ∧ 0 < m) ∧
        p.2.Grown P (m - 1) p.1) ∧ (childNames cs).Nodup := by
  induction cs with
  | nil => simp [GrownAll, childNames]
  | cons p cs ih =>
    rw [GrownAll, ih, List.forall_mem_cons, childNames_cons, List.nodup_cons, not_mem_childNames]
    exact ⟨fun ⟨h, hn, hc, ha, hd⟩ => ⟨⟨⟨h, hn⟩, ha⟩, hc, hd⟩,
      fun ⟨⟨⟨h, hn⟩, ha⟩, hc, hd⟩ => ⟨h, hn, hc, ha, hd⟩⟩

theorem child?_split (hn : (childNames cs).Nodup) (h : cs.child? name = some (k, n)) :
    ∃ l r : Children, cs = l ++ (k, n) :: r ∧ k.name = name ∧ l.child? name = none ∧
      r.child? name = none := by
  obtain ⟨hm, hk⟩ := mem_of_child? h
  obtain ⟨l, r, rfl⟩ := List.append_of_mem hm
  rw [childNames_append, childNames_cons, List.nodup_append, List.nodup_cons] at hn
  obtain ⟨_, ⟨hr, _⟩, hd⟩ := hn
  refine ⟨l, r, rfl, hk, ?_, ?_⟩
  · rw [← not_mem_childNames, ← hk]
    exact fun hl => hd _ hl _ List.mem_cons_self rfl
  · rw [← not_mem_childNames, ← hk]
    exact hr

theorem put_split {l r : Children} (hk : k.name = name) (hl : l.child? name = none)
    (hr : r.child? name = none) (m : Node) :
    put (l ++ (k, n) :: r) name m = l ++ (k, m) :: r := by
  rw [put_append, put_eq_self hl, put_cons, if_pos hk, put_eq_self hr]

theorem erase_split {l r : Children} (hk : k.name = name) (hl : l.child? name = none)
    (hr : r.child? name = none) : erase (l ++ (k, n) :: r) name = l ++ r := by
  have keep {cs : Children} (h : cs.child? name = none) : cs.filter (fun p => p.1.name ≠ name) = cs :=
    List.filter_eq_self.2 fun p hp => by simpa using child?_eq_none.1 h p hp
  have hl := keep hl
  have hr := keep hr
  rw [erase, List.filter_append, List.filter_cons, if_neg (by simpa using hk)]
  exact congrArg₂ (· ++ ·) hl hr

theorem TidyAll.nodup (h : TidyAll cs) : (childNames cs).Nodup :=
  ((tidyAll_iff cs).1 h).2

theorem TidyAll.of_mem (h : TidyAll cs) (hm : (k, n) ∈ cs) : n.Tidy k :=
  ((tidyAll_iff cs).1 h).1 _ hm

theorem TidyAll.concat (h : TidyAll cs) (hk : cs.child? k.name = none) (hn : n.Tidy k) :
    TidyAll (cs ++ [(k, n)]) := by
  obtain ⟨hall, hd⟩ := (tidyAll_iff cs).1 h
  rw [tidyAll_iff, childNames_append, List.nodup_append]
  refine ⟨?_, hd, by simp [childNames], ?_⟩
  · intro p hp
    rcases List.mem_append.1 hp with hp | hp
    · exact hall p hp
    · cases List.mem_singleton.1 hp
      exact hn
  · rintro a ha b hb rfl
    have hb : a = k.name := by simpa [childNames] using hb
    rw [hb] at ha
    exact not_mem_childNames.2 hk ha

theorem TidyAll.change {l r : Children} {m : Node} (h : TidyAll (l ++ (k, n) :: r)) (hm : m.Tidy k) :
    TidyAll (l ++ (k, m) :: r) := by
  rw [tidyAll_iff] at h ⊢
  refine ⟨?_, by simpa [childNames] using h.2⟩
  intro p hp
  rcases List.mem_append.1 hp with hp | hp
  · exact h.1 p (List.mem_append_left _ hp)
  · rcases List.mem_cons.1 hp with rfl | hp
    · exact hm
    · exact h.1 p (List.mem_append_right _ (List.mem_cons_of_mem _ hp))

theorem TidyAll.drop {l r : Children} (h : TidyAll (l ++ (k, n) :: r)) :
    TidyAll (l ++ r) ∧ child? (l ++ r) k.name = none := by
  rw [tidyAll_iff] at h ⊢
  obtain ⟨hall, hd⟩ := h
  have hd : (childNames ((k, n) :: (l ++ r))).Nodup := by
    refine (List.Perm.nodup_iff ?_).1 hd
    rw [childNames, childNames]
    exact List.perm_middle.map _
  rw [childNames_cons, List.nodup_cons] at hd
  refine ⟨⟨fun p hp => hall p ?_, hd.2⟩, not_mem_childNames.1 hd.1⟩
  rcases List.mem_append.1 hp with hp | hp
  · exact List.mem_append_left _ hp
  · exact List.mem_append_right _ (List.mem_cons_of_mem _ hp)

theorem TidyAll.gain {own : Children} (h : TidyAll cs) (ho : TidyAll own)
    (hd : gain? own cs = some ds) : ds = cs ++ own ∧ TidyAll ds := by
  rw [gain?] at hd
  split at hd
  · next hall =>
    cases hd
    refine ⟨rfl, ?_⟩
    rw [List.all_eq_true] at hall
    rw [tidyAll_iff] at h ho ⊢
    rw [childNames_append, List.nodup_append]
    refine ⟨?_, h.2, ho.2, ?_⟩
    · intro p hp
      rcases List.mem_append.1 hp with hp | hp
      · exact h.1 p hp
      · exact ho.1 p hp
    · rintro a ha b hb rfl
      obtain ⟨p, hp, rfl⟩ := List.mem_map.1 hb
      exact not_mem_childNames.2 (Option.isNone_iff_eq_none.1 (hall p hp)) ha
  · cases hd

mutual

theorem Node.Grown.tidy {P : Leaf} {m : Nat} {k : Key} (hk : k.WellSpelled) :
    (n : Node) → n.Grown P m k → n.Tidy k
  | .value _ _ _, _ => by rw [Node.Tidy]; trivial
  | .table .dotted cs, h => by
    rw [Node.Grown] at h
    rw [Node.Tidy]
    refine ⟨⟨hk, ?_, ?_⟩, nofun, GrownAll.tidyAll cs h.2.2⟩
    · rw [h.1]
      nofun
    · rw [h.1]
      nofun
  | .table .implied _, h => by simp [Node.Grown] at h
  | .table (.headed _) _, h => by simp [Node.Grown] at h
  | .tables _, h => by simp [Node.Grown] at h

/-- A table that has grown from entries is tidy. -/
theorem GrownAll.tidyAll {P : Leaf} {first : Bool} {m : Nat} :
    (cs : List (Key × Node)) → GrownAll P first m cs → TidyAll cs
  | [], _ => by rw [TidyAll]; trivial
  | (k, n) :: r, h => by
    rw [GrownAll] at h
    rw [TidyAll, not_mem_childNames]
    exact ⟨Node.Grown.tidy h.1.1 n h.2.1, h.2.2.1, GrownAll.tidyAll r h.2.2.2⟩

end

end Tidiness

end CBuild.Toml
