import CBuild.Proofs.Toml.Parts
import CBuild.Proofs.Toml.Plain
import CBuild.Proofs.Toml.Statements

/-! Sections that stand apart: the entries below a header make a table of their own, and the table that the
header opens takes it over whole. The order of the entries in it plays no part then. -/

namespace CBuild.Toml

namespace Children

def gain? (own cs : Children) : Option Children :=
  if own.all fun p => (cs.child? p.1.name).isNone then some (cs ++ own) else none

section First

variable {base cs ds : Children} {n : Node} {path : List Key} {holds : Bool}

theorem isSome_child?_of_define? (h : cs.define? holds n path = some ds) :
    (ds.child? (headName path)).isSome = true ∧
      ∀ name, (cs.child? name).isSome = true → (ds.child? name).isSome = true := by
  match path with
  | [] => cases h
  | k :: path =>
    have hk : (ds.child? k.name).isSome = true := by
      rw [define?.eq_def] at h
      match path with
      | [] =>
        dsimp only at h
        split at h
        · cases h
        · have hd : ((some n).map fun m => cs ++ [(k, m)]) = some ds := h
          exact isSome_child?_of_map_concat hd
      | l :: path =>
        dsimp only at h
        split at h
        · exact isSome_child?_of_map_concat h
        · cases h
        · cases h
        · next hk => exact isSome_child?_of_map_put hk h
        · next hk => exact isSome_child?_of_map_put hk h
        · next hk => exact isSome_child?_of_map_put hk h
    exact ⟨hk, fun name hn => (concerns_define? holds n k path).isSome_child? hk h hn⟩

theorem define?_append (hb : base.child? (headName path) = none) :
    define? (base ++ cs) holds n path = (cs.define? holds n path).map fun ds => base ++ ds := by
  have hput (k : Key) (hk : base.child? k.name = none) (m : Node) :
      put (base ++ cs) k.name m = base ++ cs.put k.name m := by
    rw [put_append, put_eq_self hk]
  match path with
  | [] => rfl
  | [k] =>
    have hb : base.child? k.name = none := hb
    rw [define?, define?, child?_append, hb, Option.none_or]
    split
    · rfl
    · rw [Option.map_some, List.append_assoc]
  | k :: l :: path =>
    have hb : base.child? k.name = none := hb
    have hne : l :: path = [] → False := nofun
    rw [define?.eq_3 cs holds n k _ hne, define?.eq_3 (base ++ cs) holds n k _ hne, child?_append, hb,
      Option.none_or]
    split <;> simp only [Option.map_map, Function.comp_def, List.append_assoc, hput k hb, Option.map_none]

theorem isSome_child?_of_defineAll? {es : List Entry} (h : Entry.defineAll? cs es = some ds) :
    (∀ e ∈ es, (ds.child? (headName e.path)).isSome = true) ∧
      ∀ name, (cs.child? name).isSome = true → (ds.child? name).isSome = true := by
  induction es generalizing cs with
  | nil =>
    cases h
    exact ⟨by simp, fun _ h => h⟩
  | cons e es ih =>
    rw [Entry.defineAll?_cons] at h
    obtain ⟨cs', hd, h⟩ := Option.bind_eq_some_iff.1 h
    obtain ⟨hhead, hkeep⟩ := isSome_child?_of_define? hd
    obtain ⟨hall, hkeep'⟩ := ih h
    exact ⟨List.forall_mem_cons.2 ⟨hkeep' _ hhead, hall⟩, fun name hn => hkeep' _ (hkeep _ hn)⟩

theorem defineAll?_append {es : List Entry} (hb : ∀ e ∈ es, base.child? (headName e.path) = none) :
    Entry.defineAll? (base ++ cs) es = (Entry.defineAll? cs es).map fun ds => base ++ ds := by
  induction es generalizing cs with
  | nil => rfl
  | cons e es ih =>
    rw [Entry.defineAll?_cons, Entry.defineAll?_cons, define?_append (hb e List.mem_cons_self)]
    cases cs.define? true (.value e.gap e.value e.after) e.path with
    | none => rfl
    | some ds => exact ih fun e he => hb e (List.mem_cons_of_mem _ he)

theorem defineAll?_of_gain? {own : Children} {es : List Entry} (ho : Entry.defineAll? [] es = some own)
    (h : gain? own cs = some ds) : Entry.defineAll? cs es = some ds := by
  rw [gain?] at h
  split at h
  · next hall =>
    rw [List.all_eq_true] at hall
    have hb : ∀ e ∈ es, cs.child? (headName e.path) = none := by
      intro e he
      obtain ⟨p, hp⟩ := Option.isSome_iff_exists.1 ((isSome_child?_of_defineAll? ho).1 e he)
      obtain ⟨k, m⟩ := p
      obtain ⟨hmem, hname⟩ := mem_of_child? hp
      rw [← hname]
      exact Option.isNone_iff_eq_none.1 (hall _ hmem)
    have happ : Entry.defineAll? (cs ++ []) es = (Entry.defineAll? [] es).map fun ds => cs ++ ds :=
      defineAll?_append hb
    rw [List.append_nil, ho] at happ
    rw [happ]
    exact h
  · cases h

end First

section Mono

variable {f g : Children → Option Children} (hfg : ∀ cs ds, f cs = some ds → g cs = some ds)
include hfg

theorem changeLast?_mono {es es' : List (Heading × Children)} (h : changeLast? f es = some es') :
    changeLast? g es = some es' := by
  rw [changeLast?] at h ⊢
  cases hl : es.getLast? with
  | none =>
    rw [hl] at h
    exact h
  | some p =>
    rw [hl] at h
    obtain ⟨e, he, h⟩ := Option.map_eq_some_iff.1 h
    dsimp only
    rw [hfg _ _ he, Option.map_some, h]

theorem descend?_mono {cs ds : Children} {path : List Key} (h : cs.descend? f path = some ds) :
    cs.descend? g path = some ds := by
  induction path generalizing cs ds with
  | nil => exact hfg _ _ h
  | cons k path ih =>
    rw [descend?] at h ⊢
    split at h
    · next hc =>
      obtain ⟨sub, hs, rfl⟩ := Option.map_eq_some_iff.1 h
      rw [ih hs, Option.map_some]
    · cases h
    · next hc =>
      obtain ⟨sub, hs, rfl⟩ := Option.map_eq_some_iff.1 h
      rw [ih hs, Option.map_some]
    · next hc =>
      obtain ⟨es, hs, rfl⟩ := Option.map_eq_some_iff.1 h
      rw [changeLast?_mono (fun _ _ h => ih h) hs, Option.map_some]

theorem headTable?_mono {k : Key} {h : Heading} {cs ds : Children} (hd : headTable? k h f cs = some ds) :
    headTable? k h g cs = some ds := by
  rw [headTable?] at hd ⊢
  split at hd
  · obtain ⟨b, hb, rfl⟩ := Option.map_eq_some_iff.1 hd
    rw [hfg _ _ hb, Option.map_some]
  · obtain ⟨b, hb, rfl⟩ := Option.map_eq_some_iff.1 hd
    rw [hfg _ _ hb, Option.map_some]
  · cases hd

theorem headElement?_mono {k : Key} {h : Heading} {cs ds : Children}
    (hd : headElement? k h f cs = some ds) : headElement? k h g cs = some ds := by
  rw [headElement?] at hd ⊢
  split at hd
  · obtain ⟨b, hb, rfl⟩ := Option.map_eq_some_iff.1 hd
    rw [hfg _ _ hb, Option.map_some]
  · obtain ⟨b, hb, rfl⟩ := Option.map_eq_some_iff.1 hd
    rw [hfg _ _ hb, Option.map_some]
  · cases hd

theorem open?_mono {h : Header} {rank : Nat} {cs ds : Children} (hd : h.open? rank f cs = some ds) :
    h.open? rank g cs = some ds := by
  obtain ⟨before, element, path, after⟩ := h
  unfold Header.open? at hd ⊢
  dsimp only at hd ⊢
  cases hl : path.getLast? with
  | none =>
    rw [hl] at hd
    cases hd
  | some k =>
    rw [hl] at hd
    dsimp only at hd ⊢
    refine descend?_mono ?_ hd
    intro cs ds hc
    cases element with
    | false => exact headTable?_mono hfg hc
    | true => exact headElement?_mono hfg hc

end Mono

section Grafting

/-- Opens a table that gains children of its own. -/
def graft? (rank : Nat) (s : Header × Children) (cs : Children) : Option Children :=
  s.1.open? rank (gain? s.2) cs

def graftAll? (rank : Nat) (cs : Children) : List (Header × Children) → Option Children
  | [] => some cs
  | s :: r => (graft? rank s cs).bind fun cs => graftAll? (rank + 1) cs r

def ownTables? : List (Header × List Entry) → Option (List (Header × Children))
  | [] => some []
  | (h, es) :: r =>
    (Entry.defineAll? [] es).bind fun own => (ownTables? r).map fun gs => (h, own) :: gs

/-- Where each section stands apart, the document is what grafting makes of it. -/
theorem openAll?_of_graftAll? {ss : List (Header × List Entry)} {gs : List (Header × Children)}
    {rank : Nat} {cs ds : Children} (ho : ownTables? ss = some gs) (h : graftAll? rank cs gs = some ds) :
    Document.openAll? rank cs ss = some ds := by
  induction ss generalizing rank cs gs with
  | nil =>
    cases ho
    exact h
  | cons s ss ih =>
    obtain ⟨hd, es⟩ := s
    rw [ownTables?] at ho
    obtain ⟨own, hown, ho⟩ := Option.bind_eq_some_iff.1 ho
    obtain ⟨gs', hgs, rfl⟩ := Option.map_eq_some_iff.1 ho
    rw [graftAll?] at h
    obtain ⟨cs', hopen, h⟩ := Option.bind_eq_some_iff.1 h
    have hopen : hd.open? rank (Entry.defineAll? · es) cs = some cs' :=
      open?_mono (fun _ _ => defineAll?_of_gain? hown) hopen
    rw [Document.openAll?, hopen]
    exact ih hgs h

theorem gain?_plainAll (own cs : Children) :
    gain? (plainAll own) (plainAll cs) = (gain? own cs).map plainAll := by
  have hall : ((plainAll own).all fun p => (child? (plainAll cs) p.1.name).isNone) =
      own.all fun p => (cs.child? p.1.name).isNone := by
    rw [plainAll_eq_map, List.all_map]
    refine congrArg (List.all own) (funext fun p => ?_)
    rw [Function.comp_apply, Key.plain, child?_plainAll, Option.isNone_map]
  rw [gain?, gain?, hall]
  split
  · rw [Option.map_some, plainAll_append]
  · rfl

def plainSection (s : Header × Children) : Header × Children :=
  (s.1.plain, plainAll s.2)

theorem graftAll?_plainAll (rank : Nat) (cs : Children) (gs : List (Header × Children)) :
    (graftAll? rank cs gs).map plainAll = run (graft? 0) (plainAll cs) (gs.map plainSection) := by
  induction gs generalizing rank cs with
  | nil => rfl
  | cons s gs ih =>
    have hopen : graft? 0 (plainSection s) (plainAll cs) = (graft? rank s cs).map plainAll :=
      open?_plainAll (gain?_plainAll s.2) s.1 rank cs
    rw [graftAll?, List.map_cons, run_cons, hopen]
    cases graft? rank s cs with
    | none => rfl
    | some ds => exact ih (rank + 1) ds

theorem concerns_graft? (rank : Nat) (s : Header × Children) :
    Concerns (headName s.1.path) (graft? rank s) :=
  concerns_open? s.1 rank (gain? s.2)

end Grafting

end Children

namespace Document

open Children

/-- The document that a text spells, if no dotted key adds to a table that another header has made. The
reader lets some of these keys pass. -/
def strict? (s : List Char) : Option Document := do
  let (statements, trailing) ← Statement.readAll? (unmarked s)
  let (entries, sections) := Statement.sections statements
  let top ← Entry.defineAll? [] entries
  return ⟨← graftAll? 1 top (← ownTables? sections), trailing⟩

theorem strict?_eq_some {s : List Char} {d : Document} : strict? s = some d ↔
    ∃ sts top gs, Statement.readAll? (unmarked s) = some (sts, d.trailing) ∧
      Entry.defineAll? [] (Statement.sections sts).1 = some top ∧
      ownTables? (Statement.sections sts).2 = some gs ∧ graftAll? 1 top gs = some d.top := by
  simp only [strict?, Option.bind_eq_bind, Option.bind_eq_some_iff, Option.pure_def, Option.some.injEq]
  constructor
  · rintro ⟨⟨sts, t⟩, hs, top, ht, gs, hg, cs, hc, rfl⟩
    exact ⟨sts, top, gs, hs, ht, hg, hc⟩
  · rintro ⟨sts, top, gs, hs, ht, hg, hc⟩
    exact ⟨(sts, d.trailing), hs, top, ht, gs, hg, d.top, hc, rfl⟩

theorem parse?_of_strict? {s : List Char} {d : Document} (h : strict? s = some d) :
    parse? s = some d := by
  obtain ⟨sts, top, gs, hs, ht, hg, hc⟩ := strict?_eq_some.1 h
  rw [parse?, ← unmarked, hs]
  simp only [Option.bind_eq_bind, Option.bind_some, ht, openAll?_of_graftAll? hg hc]
  rfl

end Document

end CBuild.Toml
