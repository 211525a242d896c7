import CBuild.Proofs.Glob.Alike
import CBuild.Proofs.Machine.Steady

/-! The expansion of a pattern on a machine, step by step. Nothing on the machine changes, so each step is told by what
the machine answers. -/

namespace CBuild

open Machine

namespace Glob

variable {m : Machine} {depth : Nat} {c : List Token} {rest components : List (List Token)} {p q : Path} {x : List Char}

section Steadiness

theorem askedAlike_steady : AskedAlike fun α (x y : StateM Machine α) => Steady x ∧ Steady y where
  pure a := ⟨steady_pure a, steady_pure a⟩
  bind hx hf := ⟨hx.1.bind fun a => (hf a).1, hx.2.bind fun a => (hf a).2⟩
  kind _ := ⟨fun _ => rfl, fun _ => rfl⟩
  names p := ⟨steady_namesIn p, steady_namesIn p⟩
  deepest := ⟨fun _ => rfl, fun _ => rfl⟩
  executable _ := ⟨fun _ => rfl, fun _ => rfl⟩
  directories := ⟨fun _ => rfl, fun _ => rfl⟩

theorem steady_named {below : List (List Token) → Path → StateM Machine (List Path)}
    (hbelow : ∀ cs q, Steady (below cs q)) (p : Path) (c : List Token) (rest : List (List Token)) :
    Steady (search.named below p c rest) :=
  (alike_named askedAlike_steady (fun cs q => ⟨hbelow cs q, hbelow cs q⟩) p c rest).1

theorem steady_search {below : List (List Token) → Path → StateM Machine (List Path)}
    (hbelow : ∀ cs q, Steady (below cs q)) (p : Path) (components : List (List Token)) :
    Steady (search below p components) :=
  (alike_search askedAlike_steady (fun cs q => ⟨hbelow cs q, hbelow cs q⟩) p components).1

theorem steady_expandFrom (depth : Nat) (components : List (List Token)) (p : Path) :
    Steady (expandFrom depth components p) :=
  (alike_expandFrom askedAlike_steady depth components p).1

theorem steady_goOn (depth : Nat) (rest : List (List Token)) (q : Path) : Steady (goOn depth rest q) :=
  (alike_goOn askedAlike_steady (alike_expandFrom askedAlike_steady depth rest) q).1

end Steadiness

section Finding

def found (m : Machine) (depth : Nat) (components : List (List Token)) (p : Path) : List Path :=
  m.answer (expandFrom depth components p)

def foundBehind (m : Machine) (depth : Nat) (rest : List (List Token)) (q : Path) : List Path :=
  if rest = [] then [q] else found m depth rest q

theorem answer_goOn (depth : Nat) (rest : List (List Token)) (q : Path) :
    m.answer (goOn depth rest q) = foundBehind m depth rest q := by
  unfold goOn foundBehind
  split
  · rfl
  · rfl

theorem found_nil : found m depth [] p = [] := by
  unfold found
  rw [expandFrom_nil, answer_pure]

theorem found_exhausted (h : literal? c = none) : found m 0 (c :: rest) p = [] := by
  unfold found
  rw [expandFrom_exhausted h, answer_pure]

theorem mem_found_literal (h : literal? c = some x) : q ∈ found m depth (c :: rest) p ↔
    (if x = ['.'] ∨ x = ['.', '.'] then m.kind p = some .directory else (m.kind (child p x)).isSome = true) ∧
      q ∈ foundBehind m depth rest (child p x) := by
  unfold found
  rw [expandFrom_literal h, ← answer_goOn]
  by_cases hx : x = ['.'] ∨ x = ['.', '.']
  · rw [if_pos hx, if_pos hx, answer_bind (steady_isDirectory p), answer_isDirectory]
    by_cases hkind : m.kind p = some .directory
    · simp [hkind]
    · simp [hkind]
  · rw [if_neg hx, if_neg hx, answer_bind (steady_exists _), answer_exists]
    by_cases hkind : (m.kind (child p x)).isSome = true
    · simp [hkind]
    · simp [hkind]

def searched (m : Machine) (depth : Nat) (p : Path) (components : List (List Token)) : List Path :=
  m.answer (search (fun cs q => expandFrom depth cs q) p components)

theorem mem_found_listing (h : literal? c = none) : q ∈ found m (depth + 1) (c :: rest) p ↔
    ∃ names, m.namesIn p = .ok names ∧
      ((∃ n ∈ names, q ∈ searched m depth (child p n) (c :: rest)) ∨
        c.head? = some (.char '.') ∧ ∃ n, (n = ['.'] ∨ n = ['.', '.']) ∧ matchesName c n = true ∧
          q ∈ foundBehind m depth rest (p / ⟨n⟩)) := by
  have hsearch (n : List Char) : Steady (search (fun cs q => expandFrom depth cs q) (child p n) (c :: rest)) :=
    steady_search (fun cs q => steady_expandFrom depth cs q) _ _
  unfold found
  rw [expandFrom_listing h, answer_bind (steady_namesIn p), answer_namesIn]
  cases hnames : m.namesIn p with
  | error e => simp
  | ok names =>
    dsimp only
    rw [answer_bind (Steady.mapM fun n _ => hsearch n), answer_mapM fun n _ => hsearch n]
    by_cases hdot : c.head? = some (.char '.')
    · rw [if_pos hdot, answer_bind (Steady.mapM fun n _ => steady_goOn _ _ _), answer_mapM fun n _ => steady_goOn _ _ _]
      have hdots :
          (∃ l ∈ ([['.'], ['.', '.']].filter (matchesName c)).map fun n => m.answer (goOn depth rest (p / ⟨n⟩)), q ∈ l) ↔
            ∃ n, (n = ['.'] ∨ n = ['.', '.']) ∧ matchesName c n = true ∧ q ∈ foundBehind m depth rest (p / ⟨n⟩) := by
        simp only [List.mem_map, List.mem_filter, List.mem_cons, List.not_mem_nil, or_false, answer_goOn, and_assoc]
        constructor
        · rintro ⟨_, ⟨n, hn, hm, rfl⟩, hq⟩
          exact ⟨n, hn, hm, hq⟩
        · rintro ⟨n, hn, hm, hq⟩
          exact ⟨_, ⟨n, hn, hm, rfl⟩, hq⟩
      rw [answer_pure, List.mem_append, List.mem_flatten, List.mem_flatten, hdots]
      simp [hdot, searched]
    · rw [if_neg hdot]
      simp [hdot, searched]

def looked (m : Machine) (depth : Nat) (p : Path) (c : List Token) (rest : List (List Token)) : List Path :=
  m.answer (search.named (fun cs q => expandFrom depth cs q) p c rest)

theorem mem_looked : q ∈ looked m depth p c rest ↔
    ∃ n, p.fileName? = some n ∧ matchesName c n = true ∧ q ∈ foundBehind m depth rest p := by
  unfold looked search.named foundBehind found
  cases hname : p.fileName? with
  | none => simp
  | some n =>
    by_cases hm : matchesName c n = true
    · by_cases hrest : rest = []
      · simp [hm, hrest]
      · simp [hm, hrest]
    · simp [hm]

theorem searched_component (hc : c ≠ [.directories]) :
    searched m depth p (c :: rest) = looked m depth p c rest := by
  unfold searched search
  split
  next h => cases h
  next h =>
    cases h
    exact absurd rfl hc
  next h =>
    cases h
    rfl

theorem mem_searched_directories : q ∈ searched m depth p ([.directories] :: rest) ↔
    m.kind p = some .directory ∧ (q ∈ found m depth ([.directories] :: rest) p ∨
      rest.dropWhile (· = [.directories]) = [] ∧ q = p) ∨
    ∃ c next, rest.dropWhile (· = [.directories]) = c :: next ∧ q ∈ looked m depth p c next := by
  have hbelow (cs : List (List Token)) (q : Path) : Steady (expandFrom depth cs q) := steady_expandFrom depth cs q
  unfold searched search
  dsimp only
  rw [answer_bind (steady_isDirectory p), answer_isDirectory]
  by_cases hkind : m.kind p = some .directory
  · rw [decide_eq_true hkind, if_pos rfl, answer_bind (hbelow _ _)]
    cases hdrop : rest.dropWhile (· = [.directories]) with
    | nil =>
      dsimp only
      rw [answer_pure]
      simp [hkind, found, or_comm]
    | cons c next =>
      dsimp only
      rw [answer_bind (steady_named hbelow p c next), answer_pure]
      simp [hkind, found, looked]
  · rw [decide_eq_false hkind, if_neg Bool.false_ne_true, answer_bind (steady_pure _)]
    cases hdrop : rest.dropWhile (· = [.directories]) with
    | nil => simp [hkind]
    | cons c next =>
      dsimp only
      rw [answer_bind (steady_named hbelow p c next), answer_pure]
      simp [hkind, looked]

end Finding

end Glob
end CBuild
