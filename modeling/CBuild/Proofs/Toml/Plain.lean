import CBuild.Toml.Document
import CBuild.Proofs.Toml.Tables

/-! What a table says does not depend on how it is written: the rules that build tables look at names and
values alone. -/

namespace CBuild.Toml

open Children

section Forgetting

def Key.plain (k : Key) : Key :=
  ⟨k.name, [], ([], []), none⟩

def Heading.plain (_ : Heading) : Heading :=
  ⟨0, [], []⟩

def Standing.plain : Standing → Standing
  | .headed h => .headed h.plain
  | how => how

mutual

def Node.plain : Node → Node
  | .value _ v _ => .value [] ⟨v.data, []⟩ []
  | .table how cs => .table how.plain (plainAll cs)
  | .tables es => .tables (plainTables es)

def plainAll : List (Key × Node) → List (Key × Node)
  | [] => []
  | (k, n) :: r => (k.plain, n.plain) :: plainAll r

def plainTables : List (Heading × List (Key × Node)) → List (Heading × List (Key × Node))
  | [] => []
  | (h, cs) :: r => (h.plain, plainAll cs) :: plainTables r

end

def Entry.plain (e : Entry) : Entry :=
  ⟨e.path.map Key.plain, [], ⟨e.value.data, []⟩, []⟩

def Header.plain (h : Header) : Header :=
  ⟨[], h.element, h.path.map Key.plain, []⟩

mutual

theorem Node.data_plain : (n : Node) → n.plain.data = n.data
  | .value _ _ _ => by rw [Node.plain, Node.data, Node.data]
  | .table how cs => by rw [Node.plain, Node.data, Node.data, entriesData_plainAll cs]
  | .tables es => by rw [Node.plain, Node.data, Node.data, tablesData_plainTables es]

theorem entriesData_plainAll : (cs : List (Key × Node)) → entriesData (plainAll cs) = entriesData cs
  | [] => rfl
  | (k, n) :: r => by
    rw [plainAll, entriesData, entriesData, Node.data_plain n, entriesData_plainAll r, Key.plain]

theorem tablesData_plainTables :
    (es : List (Heading × List (Key × Node))) → tablesData (plainTables es) = tablesData es
  | [] => rfl
  | (h, cs) :: r => by
    rw [plainTables, tablesData, tablesData, entriesData_plainAll cs, tablesData_plainTables r]

end

end Forgetting

section Commuting

variable {cs : Children} {k : Key} {n : Node}

theorem plainAll_eq_map (cs : Children) : plainAll cs = cs.map fun p => (p.1.plain, p.2.plain) := by
  induction cs with
  | nil => rfl
  | cons p cs ih => rw [plainAll, ih, List.map_cons]

theorem plainTables_eq_map (es : List (Heading × Children)) :
    plainTables es = es.map fun p => (p.1.plain, plainAll p.2) := by
  induction es with
  | nil => rfl
  | cons p es ih => rw [plainTables, ih, List.map_cons]

@[simp] theorem plainAll_nil : plainAll [] = [] := rfl

@[simp] theorem plainAll_append (cs ds : Children) : plainAll (cs ++ ds) = plainAll cs ++ plainAll ds := by
  simp only [plainAll_eq_map, List.map_append]

theorem child?_plainAll (cs : Children) (name : List Char) :
    child? (plainAll cs) name = (cs.child? name).map fun p => (p.1.plain, p.2.plain) := by
  induction cs with
  | nil => rfl
  | cons p cs ih =>
    rw [plainAll, child?_cons, child?_cons, ih, Key.plain]
    split <;> rfl

theorem child?_plain (cs : Children) (k : Key) :
    child? (plainAll cs) k.plain.name = (cs.child? k.name).map fun p => (p.1.plain, p.2.plain) :=
  child?_plainAll cs k.name

theorem put_plainAll (cs : Children) (name : List Char) (n : Node) :
    put (plainAll cs) name n.plain = plainAll (cs.put name n) := by
  induction cs with
  | nil => rfl
  | cons p cs ih =>
    rw [plainAll, put_cons, put_cons, plainAll, ih, Key.plain]
    dsimp only
    split <;> rfl

theorem erase_plainAll (cs : Children) (name : List Char) :
    erase (plainAll cs) name = plainAll (cs.erase name) := by
  rw [erase, erase, plainAll_eq_map, plainAll_eq_map, List.filter_map]
  rfl

theorem changeLast?_plainTables {f g : Children → Option Children}
    (hf : ∀ cs, g (plainAll cs) = (f cs).map plainAll) (es : List (Heading × Children)) :
    changeLast? g (plainTables es) = (changeLast? f es).map plainTables := by
  rw [changeLast?, changeLast?, plainTables_eq_map, List.getLast?_map]
  cases es.getLast? with
  | none => rfl
  | some p =>
    simp only [Option.map_some, hf]
    cases f p.2 with
    | none => rfl
    | some e =>
      simp only [Option.map_some, plainTables_eq_map, List.map_append, List.map_dropLast,
        List.map_cons, List.map_nil]

theorem define?_plainAll (cs : Children) (holds : Bool) (n : Node) (path : List Key) :
    define? (plainAll cs) holds n.plain (path.map Key.plain) = (define? cs holds n path).map plainAll := by
  induction path generalizing cs holds with
  | nil => rfl
  | cons k path ih =>
    cases path with
    | nil =>
      rw [List.map_cons, List.map_nil, define?, define?, child?_plainAll, Key.plain, Option.isSome_map]
      split
      · rfl
      · rw [Option.map_some, plainAll_append]
        rfl
    | cons l path =>
      have hput (m : Node) : put (plainAll cs) k.plain.name m.plain = plainAll (cs.put k.name m) :=
        put_plainAll cs k.name m
      have hlast := changeLast?_plainTables (f := fun e => define? e false n (l :: path))
        (g := fun e => define? e false n.plain ((l :: path).map Key.plain)) fun e => ih e false
      rw [List.map_cons, define?, define?, child?_plain]
      · cases cs.child? k.name with
        | none =>
          have ih := ih [] true
          rw [plainAll_nil] at ih
          simp only [Option.map_none, ih, Option.map_map, Function.comp_def, plainAll_append]
          rfl
        | some p =>
          obtain ⟨k', m⟩ := p
          cases m with
          | value gap v after => rfl
          | table how sub =>
            cases how with
            | headed h => rfl
            | dotted =>
              simp only [Option.map_some, Node.plain, Standing.plain, ih, Option.map_map,
                Function.comp_def, ← hput]
            | implied =>
              simp only [Option.map_some, Node.plain, Standing.plain, ih, Option.map_map,
                Function.comp_def, ← hput]
          | tables es =>
            simp only [Option.map_some, Node.plain, hlast, Option.map_map, Function.comp_def, ← hput]
      · rintro ⟨⟩
      · simp

theorem defineAll?_plainAll (cs : Children) (es : List Entry) :
    Entry.defineAll? (plainAll cs) (es.map Entry.plain) = (Entry.defineAll? cs es).map plainAll := by
  induction es generalizing cs with
  | nil => rfl
  | cons e es ih =>
    have h := define?_plainAll cs true (.value e.gap e.value e.after) e.path
    rw [Node.plain] at h
    rw [List.map_cons, Entry.defineAll?_cons, Entry.defineAll?_cons, Entry.plain, h]
    cases cs.define? true (.value e.gap e.value e.after) e.path with
    | none => rfl
    | some ds => exact ih ds

theorem descend?_plainAll {f g : Children → Option Children}
    (hf : ∀ cs, g (plainAll cs) = (f cs).map plainAll) (cs : Children) (path : List Key) :
    descend? g (plainAll cs) (path.map Key.plain) = (descend? f cs path).map plainAll := by
  induction path generalizing cs with
  | nil => exact hf cs
  | cons k path ih =>
    have hput (m : Node) : put (plainAll cs) k.plain.name m.plain = plainAll (cs.put k.name m) :=
      put_plainAll cs k.name m
    have hlast := changeLast?_plainTables (f := fun e => descend? f e path)
      (g := fun e => descend? g e (path.map Key.plain)) fun e => ih e
    rw [List.map_cons, descend?, descend?, child?_plain]
    cases cs.child? k.name with
    | none =>
      have ih := ih []
      rw [plainAll_nil] at ih
      simp only [Option.map_none, ih, Option.map_map, Function.comp_def, plainAll_append]
      rfl
    | some p =>
      obtain ⟨k', m⟩ := p
      cases m with
      | value gap v after => rfl
      | table how sub =>
        simp only [Option.map_some, Node.plain, ih, Option.map_map, Function.comp_def, ← hput]
      | tables es =>
        simp only [Option.map_some, Node.plain, hlast, Option.map_map, Function.comp_def, ← hput]

variable {f g : Children → Option Children}

theorem headTable?_plainAll (hf : ∀ cs, g (plainAll cs) = (f cs).map plainAll) (k : Key) (h : Heading)
    (cs : Children) :
    headTable? k.plain h.plain g (plainAll cs) = (headTable? k h f cs).map plainAll := by
  have hnew := hf []
  have herase : erase (plainAll cs) k.plain.name = plainAll (cs.erase k.name) :=
    erase_plainAll cs k.name
  rw [plainAll_nil] at hnew
  rw [headTable?, headTable?, child?_plain]
  cases cs.child? k.name with
  | none =>
    simp only [Option.map_none, hnew, Option.map_map, Function.comp_def, plainAll_append]
    rfl
  | some p =>
    obtain ⟨k', m⟩ := p
    cases m with
    | value gap v after => rfl
    | table how sub =>
      cases how with
      | headed h => rfl
      | dotted => rfl
      | implied =>
        simp only [Option.map_some, Node.plain, Standing.plain, hf, Option.map_map, Function.comp_def,
          plainAll_append, herase]
        rfl
    | tables es => rfl

theorem headElement?_plainAll (hf : ∀ cs, g (plainAll cs) = (f cs).map plainAll) (k : Key)
    (h : Heading) (cs : Children) :
    headElement? k.plain h.plain g (plainAll cs) = (headElement? k h f cs).map plainAll := by
  have hnew := hf []
  have hput (m : Node) : put (plainAll cs) k.plain.name m.plain = plainAll (cs.put k.name m) :=
    put_plainAll cs k.name m
  rw [plainAll_nil] at hnew
  rw [headElement?, headElement?, child?_plain]
  cases cs.child? k.name with
  | none =>
    simp only [Option.map_none, hnew, Option.map_map, Function.comp_def, plainAll_append]
    rfl
  | some p =>
    obtain ⟨k', m⟩ := p
    cases m with
    | value gap v after => rfl
    | table how sub => cases how <;> rfl
    | tables es =>
      simp only [Option.map_some, Node.plain, hnew, Option.map_map, Function.comp_def, ← hput,
        plainTables_eq_map, List.map_append]
      rfl

/-- Headers open the same tables whatever stands before them and around them. -/
theorem open?_plainAll (hf : ∀ cs, g (plainAll cs) = (f cs).map plainAll) (h : Header) (rank : Nat)
    (cs : Children) : h.plain.open? 0 g (plainAll cs) = (h.open? rank f cs).map plainAll := by
  obtain ⟨before, element, path, after⟩ := h
  rw [Header.open?, Header.open?, Header.plain]
  simp only [List.getLast?_map, ← List.map_dropLast]
  cases path.getLast? with
  | none => rfl
  | some k =>
    refine descend?_plainAll ?_ cs path.dropLast
    intro ds
    cases element with
    | false => exact headTable?_plainAll hf k ⟨rank, before, after⟩ ds
    | true => exact headElement?_plainAll hf k ⟨rank, before, after⟩ ds

end Commuting

end CBuild.Toml
