import CBuild.Proofs.Toml.Statements
import CBuild.Proofs.Toml.Tables

/-! Documents that are composed line by line, of comments and of bare keys with their values. -/

namespace CBuild.Toml

def Key.opening (before name : List Char) : Key :=
  ⟨name, name, ([], []), some (before, [' '])⟩

inductive Line
  | note (text : List Char)
  | assignment (name : List Char) (v : Value) (after : List Char)

namespace Line

def text : Line → List Char
  | note t => t
  | assignment name v after => name ++ ([' '] ++ '=' :: ([' '] ++ (v.spelling ++ (after ++ ['\n']))))

/-- A note is blank but for comments, and a value reads in front of what ends its line. -/
def Legible : Line → Prop
  | note t => IsTrivia false t
  | assignment name v after =>
    (name ≠ [] ∧ ∀ c ∈ name, isBareKeyChar c = true) ∧
      (∃ c r, v.spelling = c :: r ∧ isSpace c = false) ∧ EndsLine after ∧
        Reads (value? depthLimit) (fun rest => ∃ r, rest = after ++ '\n' :: r) v.spelling v

def children (before : List Char) : List Line → Children
  | [] => []
  | note t :: r => children (before ++ t) r
  | assignment name v after :: r => (Key.opening before name, .value [' '] v after) :: children [] r

def left (before : List Char) : List Line → List Char
  | [] => before
  | note t :: r => left (before ++ t) r
  | assignment _ _ _ :: r => left [] r

def assigned : List Line → List (List Char × Data)
  | [] => []
  | note _ :: r => assigned r
  | assignment name v _ :: r => (name, v.data) :: assigned r

def named (entries : List (List Char × Data)) : List (String × Data) :=
  entries.map fun p => (String.ofList p.1, p.2)

variable {before name after rest : List Char} {v : Value} {ls : List Line}

theorem assigned_append (ls ms : List Line) : assigned (ls ++ ms) = assigned ls ++ assigned ms := by
  fun_induction assigned ls <;> simp_all [assigned]

theorem names_children (before : List Char) (ls : List Line) :
    (children before ls).map (fun p => p.1.name) = (assigned ls).map Prod.fst := by
  fun_induction children before ls <;> simp_all [assigned, Key.opening]

theorem entriesData_children (before : List Char) (ls : List Line) :
    entriesData (children before ls) = named (assigned ls) := by
  fun_induction children before ls <;>
    simp_all [named, assigned, Key.opening, entriesData, Node.data]

theorem ownAll_children (h : ((assigned ls).map Prod.fst).Nodup) (before : List Char) :
    OwnAll (children before ls) := by
  fun_induction children before ls with
  | case1 => trivial
  | case2 before t r ih => exact ih h
  | case3 before name v after r ih =>
    rw [assigned, List.map_cons, List.nodup_cons] at h
    rw [OwnAll, Node.Own, Children.child?_eq_none]
    refine ⟨trivial, fun p hp he => h.1 ?_, ih h.2⟩
    rw [← names_children []]
    exact List.mem_map.2 ⟨p, hp, he⟩

theorem isTrivia_left (hb : IsTrivia false before) (hl : ∀ l ∈ ls, l.Legible) :
    IsTrivia false (left before ls) := by
  fun_induction left before ls with
  | case1 => exact hb
  | case2 before t r ih =>
    exact ih (hb.append (hl _ List.mem_cons_self)) fun l h => hl l (List.mem_cons_of_mem _ h)
  | case3 before name v after r ih => exact ih rfl fun l h => hl l (List.mem_cons_of_mem _ h)

theorem wellSpelled_bare {k : Key} (hn : name ≠ []) (hc : ∀ c ∈ name, isBareKeyChar c = true)
    (hk : k ∈ [(⟨name, name, ([], []), none⟩ : Key)]) : k.WellSpelled := by
  cases List.mem_singleton.1 hk
  exact ⟨spells_bare hn hc, by simp, by simp⟩

theorem spelled_assignment (hb : IsTrivia false before) (h : (assignment name v after).Legible) :
    Statement.Spelled before (assignment name v after).text
      (.entry ⟨[Key.opening before name], [' '], v, after⟩) := by
  obtain ⟨⟨hn, hc⟩, hv, ha, hr⟩ := h
  have hs : ∀ c ∈ [' '], isSpace c = true := by simp [isSpace]
  have hspelled := Statement.spelled_entry hb (List.cons_ne_nil _ _) (fun _ => wellSpelled_bare hn hc)
    (by simp [keyLimit]) hs hs hr hv ha
  have hk : lead before (reread ([], [' ']) [⟨name, name, ([], []), none⟩]) =
      [Key.opening before name] := by
    simp [reread, spaced, settle, settle.go, lead, Key.opening]
  rwa [hk] at hspelled

theorem readAll?_lines (hb : IsTrivia false before) (hl : ∀ l ∈ ls, l.Legible) (rest : List Char) :
    Statement.readAll? (before ++ (ls.flatMap text ++ rest)) =
      (Statement.readAll? (left before ls ++ rest)).map fun (sts, t) =>
        ((entriesUnder [] (children before ls)).map .entry ++ sts, t) := by
  fun_induction children before ls with
  | case1 => simp [left, entriesUnder]
  | case2 before t r ih =>
    rw [List.flatMap_cons, left, ← ih (hb.append (hl _ List.mem_cons_self))
      fun l h => hl l (List.mem_cons_of_mem _ h)]
    simp [text]
  | case3 before name v after r ih =>
    rw [List.flatMap_cons, List.append_assoc, Statement.readAll?_spelled
      (spelled_assignment hb (hl _ List.mem_cons_self)), left]
    have ih := ih rfl fun l h => hl l (List.mem_cons_of_mem _ h)
    rw [List.nil_append] at ih
    rw [ih, Option.map_map]
    rfl

def headerText (name : List Char) : List Char :=
  '[' :: (name ++ [']', '\n'])

def header (before name : List Char) : Header :=
  ⟨before, false, [⟨name, name, ([], []), some ([], [])⟩], []⟩

theorem spelled_header (hb : IsTrivia false before) (hn : name ≠ [])
    (hc : ∀ c ∈ name, isBareKeyChar c = true) :
    Statement.Spelled before (headerText name) (.header (header before name)) := by
  have hspelled := Statement.spelled_header (b := []) (a := []) hb (List.cons_ne_nil _ _)
    (fun _ => wellSpelled_bare hn hc) (by simp [keyLimit]) (by simp) (by simp) endsLine_nil false
  have ht : Statement.headerText false ([] ++ innerText [⟨name, name, ([], []), none⟩] ++ []) [] =
      headerText name := by
    simp [Statement.headerText, headerText, innerText]
  rwa [ht] at hspelled

end Line

theorem Document.parse?_lines {top below : List Line} {name : List Char}
    (ht : ∀ l ∈ top, l.Legible) (hu : ∀ l ∈ below, l.Legible)
    (hn : name ≠ [] ∧ ∀ c ∈ name, isBareKeyChar c = true)
    (hx : name ∉ (Line.assigned top).map Prod.fst) (hd : ((Line.assigned top).map Prod.fst).Nodup)
    (hd' : ((Line.assigned below).map Prod.fst).Nodup) :
    parse? (top.flatMap Line.text ++ (Line.headerText name ++ below.flatMap Line.text)) =
      some ⟨Line.children [] top ++
        [(⟨name, name, ([], []), some ([], [])⟩,
          .table (.headed ⟨1, Line.left [] top, []⟩) (Line.children [] below))], Line.left [] below⟩ := by
  -- from the end: the lines below the header, then the header and the lines above it
  have hlow : Statement.readAll? (below.flatMap Line.text) =
      some ((entriesUnder [] (Line.children [] below)).map .entry ++ [], Line.left [] below) := by
    have h := Line.readAll?_lines isTrivia_nil hu []
    have hleft := Line.isTrivia_left isTrivia_nil hu
    have hend := trivia_append hleft solid_nil
    rw [List.append_nil] at hend
    rwa [List.nil_append, List.append_nil, List.append_nil, Statement.readAll?_of_trivia hend] at h
  have hall := Line.readAll?_lines isTrivia_nil ht (Line.headerText name ++ below.flatMap Line.text)
  rw [Statement.readAll?_spelled (Line.spelled_header (Line.isTrivia_left isTrivia_nil ht) hn.1 hn.2),
    hlow, List.nil_append] at hall
  have hnew : Children.child? (Line.children [] top) name = none := by
    rw [Children.child?_eq_none]
    intro p hp he
    rw [← Line.names_children []] at hx
    exact hx (List.mem_map.2 ⟨p, hp, he⟩)
  rw [parse?, ← unmarked, Statement.unmarked_of_readAll? hall, hall]
  simp only [Option.map_some, Option.bind_eq_bind, Option.bind_some, Statement.sections_entries,
    Statement.sections]
  rw [List.append_nil, List.append_nil, OwnAll.rebuild _ (Line.ownAll_children hd []) (by simp), Option.bind_some,
    List.nil_append, openAll?, Header.open?]
  simp only [Line.header, List.getLast?_singleton, List.dropLast_singleton, Children.descend?,
    Bool.false_eq_true, if_false, Children.headTable?, hnew]
  rw [OwnAll.rebuild _ (Line.ownAll_children hd' []) (by simp)]
  rfl

theorem read?_lines {top below : List Line} {name : List Char}
    (ht : ∀ l ∈ top, l.Legible) (hu : ∀ l ∈ below, l.Legible)
    (hn : name ≠ [] ∧ ∀ c ∈ name, isBareKeyChar c = true)
    (hx : name ∉ (Line.assigned top).map Prod.fst) (hd : ((Line.assigned top).map Prod.fst).Nodup)
    (hd' : ((Line.assigned below).map Prod.fst).Nodup) :
    read? (top.flatMap Line.text ++ (Line.headerText name ++ below.flatMap Line.text)) =
      some (.table (Line.named (Line.assigned top) ++
        [(String.ofList name, .table (Line.named (Line.assigned below)))])) := by
  rw [read?, Document.parse?_lines ht hu hn hx hd hd', Option.map_some, entriesData_append,
    Line.entriesData_children, entriesData, Node.data, Line.entriesData_children, entriesData]

end CBuild.Toml
