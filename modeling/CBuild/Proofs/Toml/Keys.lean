import CBuild.Toml.Key
import CBuild.Proofs.Toml.Strings
import CBuild.Proofs.Toml.Trivia

/-! A path of keys reads again from the way it is written. -/

namespace CBuild.Toml

section SingleKeys

def EndsKey (rest : List Char) : Prop :=
  ∀ c, rest.head? = some c → isBareKeyChar c = false

def Spells (spelling name : List Char) : Prop :=
  Reads simpleKey? EndsKey spelling (name, spelling)

theorem drop_length_takeWhile (p : Char → Bool) (s : List Char) :
    s.drop (s.takeWhile p).length = s.dropWhile p := by
  have h : (s.takeWhile p ++ s.dropWhile p).drop (s.takeWhile p).length = s.dropWhile p :=
    List.drop_left
  rwa [List.takeWhile_append_dropWhile] at h

theorem ne_mark_of_isBareKeyChar {c : Char} (h : isBareKeyChar c = true) : c ≠ '"' ∧ c ≠ '\'' := by
  constructor <;> (rintro rfl; exact absurd h (by decide))

theorem simpleKey?_bare {c : Char} (hc : c ≠ '"' ∧ c ≠ '\'') (r : List Char) :
    simpleKey? (c :: r) =
      if (c :: r).takeWhile isBareKeyChar = [] then none
      else some (((c :: r).takeWhile isBareKeyChar, (c :: r).takeWhile isBareKeyChar),
        (c :: r).drop ((c :: r).takeWhile isBareKeyChar).length) := by
  unfold simpleKey?
  split
  · next h =>
    cases h
    exact absurd rfl hc.1
  · next h =>
    cases h
    exact absurd rfl hc.2
  · rfl

theorem spells_bare {name : List Char} (hn : name ≠ []) (hb : ∀ c ∈ name, isBareKeyChar c = true) :
    Spells name name := by
  intro rest hr
  cases name with
  | nil => exact absurd rfl hn
  | cons c name =>
    rw [List.cons_append, simpleKey?_bare (ne_mark_of_isBareKeyChar (hb c List.mem_cons_self)),
      ← List.cons_append, takeWhile_append_stop hb hr, if_neg hn, List.drop_left]

theorem simpleKey?_reads {s name spelling r : List Char}
    (h : simpleKey? s = some ((name, spelling), r)) :
    s = spelling ++ r ∧ Spells spelling name := by
  unfold simpleKey? at h
  split at h
  · next s =>
    obtain ⟨⟨t, r'⟩, ht, he⟩ := Option.map_eq_some_iff.1 h
    obtain ⟨a, rfl, ha⟩ := basicBody?_reads ht
    cases he
    have hs (rest : List Char) : consumed ('"' :: (a ++ rest)) rest = '"' :: a :=
      consumed_append ('"' :: a) rest
    rw [hs]
    refine ⟨rfl, fun rest _ => ?_⟩
    rw [List.cons_append, simpleKey?, ha rest trivial, Option.map_some]
    exact congrArg (fun x => some ((name, x), rest)) (hs rest)
  · next s =>
    obtain ⟨⟨t, r'⟩, ht, he⟩ := Option.map_eq_some_iff.1 h
    obtain ⟨a, rfl, ha⟩ := literalBody?_reads ht
    cases he
    have hs (rest : List Char) : consumed ('\'' :: (a ++ rest)) rest = '\'' :: a :=
      consumed_append ('\'' :: a) rest
    rw [hs]
    refine ⟨rfl, fun rest _ => ?_⟩
    rw [List.cons_append, simpleKey?, ha rest trivial, Option.map_some]
    exact congrArg (fun x => some ((name, x), rest)) (hs rest)
  · dsimp only at h
    split at h
    · cases h
    · next hn =>
      cases h
      refine ⟨?_, spells_bare hn fun c hc => List.mem_takeWhile_imp hc⟩
      rw [drop_length_takeWhile, List.takeWhile_append_dropWhile]

theorem Spells.head {spelling name : List Char} (h : Spells spelling name) :
    ∃ c r, spelling = c :: r ∧ (isBareKeyChar c = true ∨ c = '"' ∨ c = '\'') := by
  have h := h [] (by rintro c ⟨⟩)
  rw [List.append_nil] at h
  cases spelling with
  | nil => simp [simpleKey?] at h
  | cons c r =>
    refine ⟨c, r, rfl, ?_⟩
    by_cases hc : c ≠ '"' ∧ c ≠ '\''
    · rw [simpleKey?_bare hc] at h
      by_cases hb : isBareKeyChar c = true
      · exact .inl hb
      · simp [hb] at h
    · rw [not_and_or, not_not, not_not] at hc
      exact .inr hc

end SingleKeys

section Paths

def EndsPath (rest : List Char) : Prop :=
  ∀ c, rest.head? = some c → isBareKeyChar c = false ∧ isSpace c = false ∧ c ≠ '.'

/-- A key that can be read from its spelling, with space around it. -/
structure Key.WellSpelled (k : Key) : Prop where
  spells : Spells k.spelling k.name
  before : ∀ c ∈ k.inner.1, isSpace c = true
  after : ∀ c ∈ k.inner.2, isSpace c = true

theorem isBareKeyChar_of_isSpace {c : Char} (h : isSpace c = true) : isBareKeyChar c = false := by
  rw [isSpace, Bool.or_eq_true, decide_eq_true_eq, decide_eq_true_eq] at h
  rcases h with rfl | rfl <;> decide

theorem EndsPath.isSpace {rest : List Char} (h : EndsPath rest) :
    ∀ c, rest.head? = some c → isSpace c = false :=
  fun c hc => (h c hc).2.1

theorem endsKey_space_append {a rest : List Char} (ha : ∀ c ∈ a, isSpace c = true)
    (hr : EndsKey rest) : EndsKey (a ++ rest) := by
  intro c hc
  cases a with
  | nil => exact hr c hc
  | cons d a =>
    cases hc
    exact isBareKeyChar_of_isSpace (ha c List.mem_cons_self)

theorem Spells.head_isSpace {spelling name : List Char} (h : Spells spelling name) (r : List Char) :
    ∀ c, (spelling ++ r).head? = some c → isSpace c = false := by
  obtain ⟨d, t, rfl, hd⟩ := h.head
  rintro c ⟨⟩
  rcases hd with hd | rfl | rfl
  · by_contra hs
    rw [isBareKeyChar_of_isSpace (by simpa using hs)] at hd
    exact absurd hd Bool.false_ne_true
  · rfl
  · rfl

variable {b a rest r spelling name : List Char}

theorem spacedKeys?_last (hb : ∀ c ∈ b, isSpace c = true) (ha : ∀ c ∈ a, isSpace c = true)
    (hk : Spells spelling name) (hr : EndsPath rest) :
    spacedKeys? (b ++ (spelling ++ (a ++ rest))) = some ([⟨name, spelling, (b, a), none⟩], rest) := by
  rw [spacedKeys?]
  simp only [takeWhile_append_stop hb (hk.head_isSpace _), dropWhile_append_stop hb (hk.head_isSpace _),
    hk _ (endsKey_space_append ha fun c hc => (hr c hc).1), takeWhile_append_stop ha hr.isSpace,
    dropWhile_append_stop ha hr.isSpace]
  split
  · exact absurd rfl (hr '.' rfl).2.2
  · rfl

theorem spacedKeys?_dot (hb : ∀ c ∈ b, isSpace c = true) (ha : ∀ c ∈ a, isSpace c = true)
    (hk : Spells spelling name) :
    spacedKeys? (b ++ (spelling ++ (a ++ '.' :: r))) =
      (spacedKeys? r).map fun (ks, rest) => (⟨name, spelling, (b, a), none⟩ :: ks, rest) := by
  have hd : ∀ c, ('.' :: r).head? = some c → isSpace c = false := by
    rintro c ⟨⟩
    rfl
  have he : EndsKey ('.' :: r) := by
    rintro c ⟨⟩
    rfl
  rw [spacedKeys?]
  simp only [takeWhile_append_stop hb (hk.head_isSpace _), dropWhile_append_stop hb (hk.head_isSpace _),
    hk _ (endsKey_space_append ha he), takeWhile_append_stop ha hd,
    dropWhile_append_stop ha hd]
  rw [if_pos (by simp only [List.length_append, List.length_cons]; omega)]

def spaced (b a : List Char) : List Key → List Key
  | [] => []
  | [k] => [⟨k.name, k.spelling, (b, a), none⟩]
  | k :: l :: r => ⟨k.name, k.spelling, (b, k.inner.2), none⟩ :: spaced l.inner.1 a (l :: r)

theorem spacedKeys?_innerText {path : List Key} (hp : path ≠ []) (hk : ∀ k ∈ path, k.WellSpelled)
    (hb : ∀ c ∈ b, isSpace c = true) (ha : ∀ c ∈ a, isSpace c = true) (hr : EndsPath rest) :
    spacedKeys? (b ++ (innerText path ++ (a ++ rest))) = some (spaced b a path, rest) := by
  induction path generalizing b with
  | nil => exact absurd rfl hp
  | cons k path ih =>
    have hk' := hk k List.mem_cons_self
    cases path with
    | nil => exact spacedKeys?_last hb ha hk'.spells hr
    | cons l path =>
      have hl := hk l (List.mem_cons_of_mem _ List.mem_cons_self)
      simp only [innerText, List.append_assoc, List.cons_append]
      rw [spacedKeys?_dot hb hk'.after hk'.spells,
        ih (List.cons_ne_nil _ _) (fun k hk'' => hk k (List.mem_cons_of_mem _ hk'')) hl.before]
      rfl

theorem spaced_ne_nil {path : List Key} (hp : path ≠ []) : spaced b a path ≠ [] := by
  match path with
  | [] => exact absurd rfl hp
  | [_] => exact List.cons_ne_nil _ _
  | _ :: _ :: _ => exact List.cons_ne_nil _ _

theorem getLast?_spaced {path : List Key} (hp : path ≠ []) :
    (spaced b a path).getLast?.map (fun k => k.inner.2) = some a := by
  fun_induction spaced b a path with
  | case1 => exact absurd rfl hp
  | case2 => rfl
  | case3 b k l r ih =>
    rw [List.getLast?_cons_of_ne_nil (spaced_ne_nil (List.cons_ne_nil _ _)), ih (List.cons_ne_nil _ _)]

@[simp] theorem names_spaced (b a : List Char) (path : List Key) :
    names (spaced b a path) = names path := by
  fun_induction spaced b a path <;> simp_all [names]

@[simp] theorem length_spaced (b a : List Char) (path : List Key) :
    (spaced b a path).length = path.length := by
  simpa only [names, List.length_map] using congrArg List.length (names_spaced b a path)

theorem names_settle_go (before after : List Char) (first : Bool) (path : List Key) :
    names (settle.go before after first path) = names path := by
  fun_induction settle.go before after first path <;> simp_all [names]

@[simp] theorem names_settle (path : List Key) : names (settle path) = names path :=
  names_settle_go _ _ true path

/-- The path as it is read with some space around it. -/
def reread (around : List Char × List Char) (path : List Key) : List Key :=
  settle (spaced around.1 around.2 path)

@[simp] theorem names_reread (around : List Char × List Char) (path : List Key) :
    names (reread around path) = names path := by
  rw [reread, names_settle, names_spaced]

theorem keyPath?_innerText (around : List Char × List Char) {path : List Key} (hp : path ≠ [])
    (hk : ∀ k ∈ path, k.WellSpelled) (hl : path.length < keyLimit)
    (hb : ∀ c ∈ around.1, isSpace c = true) (ha : ∀ c ∈ around.2, isSpace c = true)
    (hr : EndsPath rest) :
    keyPath? (around.1 ++ (innerText path ++ (around.2 ++ rest))) = some (reread around path, rest) := by
  rw [keyPath?, spacedKeys?_innerText hp hk hb ha hr, Option.bind_some]
  simp only [length_spaced]
  rw [if_pos hl, reread]

theorem keyPath?_eq_none {c : Char} (hs : isSpace c = false) (hb : isBareKeyChar c = false)
    (hm : c ≠ '"' ∧ c ≠ '\'') (r : List Char) : keyPath? (c :: r) = none := by
  have hk : simpleKey? (c :: r) = none := by
    rw [simpleKey?_bare hm, if_pos]
    exact List.takeWhile_cons_of_neg (by simp [hb])
  rw [keyPath?, spacedKeys?, List.dropWhile_cons_of_neg (by simp [hs]), hk]
  rfl

theorem endsPath_cons {c : Char} (hc : c = '=' ∨ c = ']') (r : List Char) : EndsPath (c :: r) := by
  rintro d ⟨⟩
  rcases hc with rfl | rfl <;> decide

theorem innerText_head {path : List Key} (hp : path ≠ []) (hk : ∀ k ∈ path, k.WellSpelled) :
    ∃ c r, innerText path = c :: r ∧ (isBareKeyChar c = true ∨ c = '"' ∨ c = '\'') := by
  match path with
  | [] => exact absurd rfl hp
  | [k] => exact (hk k List.mem_cons_self).spells.head
  | k :: l :: path =>
    obtain ⟨c, r, h, hc⟩ := (hk k List.mem_cons_self).spells.head
    exact ⟨c, _, by rw [innerText, h, List.cons_append, List.cons_append], hc⟩

end Paths

section Reading

theorem spacedKeys?_reads {s r : List Char} {ks : List Key} (h : spacedKeys? s = some (ks, r)) :
    ks ≠ [] ∧ ∀ k ∈ ks, k.WellSpelled ∧ k.outer = none := by
  have read {s name spelling t : List Char}
      (hk : simpleKey? (s.dropWhile isSpace) = some ((name, spelling), t)) :
      Key.WellSpelled ⟨name, spelling, (s.takeWhile isSpace, t.takeWhile isSpace), none⟩ :=
    ⟨(simpleKey?_reads hk).2, fun c hc => List.mem_takeWhile_imp hc,
      fun c hc => List.mem_takeWhile_imp hc⟩
  fun_induction spacedKeys? s generalizing ks with
  | case1 => cases h
  | case2 s before name spelling t hk key r' ht hl =>
    rename_i ih
    obtain ⟨⟨ls, r''⟩, hls, he⟩ := Option.map_eq_some_iff.1 h
    cases he
    refine ⟨List.cons_ne_nil _ _, List.forall_mem_cons.2 ⟨⟨read hk, rfl⟩, (ih hls).2⟩⟩
  | case3 => cases h
  | case4 s before name spelling t hk =>
    cases h
    exact ⟨List.cons_ne_nil _ _, List.forall_mem_cons.2 ⟨⟨read hk, rfl⟩, by simp⟩⟩

/-- A path as it is read: of its keys the first has no space before it, and only the last, for which
`leaf` holds, has ended a path. -/
def Settled (leaf : Key → Prop) (first : Bool) : List Key → Prop
  | [] => False
  | [k] => k.WellSpelled ∧ (first = true → k.inner.1 = []) ∧ leaf k
  | k :: l :: r => k.WellSpelled ∧ (first = true → k.inner.1 = []) ∧ k.outer = none ∧
      Settled leaf false (l :: r)

def Key.Ends (around : List Char × List Char) (k : Key) : Prop :=
  k.inner.2 = [] ∧ k.outer = some around

variable {leaf : Key → Prop} {first : Bool} {path : List Key}

theorem Settled.ne_nil (h : Settled leaf first path) : path ≠ [] := by
  rintro rfl
  exact h

theorem Settled.wellSpelled (h : Settled leaf first path) : ∀ k ∈ path, k.WellSpelled := by
  induction path generalizing first with
  | nil => exact h.elim
  | cons k path ih =>
    cases path with
    | nil => simpa using h.1
    | cons l path => exact List.forall_mem_cons.2 ⟨h.1, ih h.2.2.2⟩

theorem Settled.last (h : Settled leaf first path) :
    ∃ k, path.getLast? = some k ∧ leaf k ∧ ∀ p : Key → Prop, p k → Settled p first path := by
  induction path generalizing first with
  | nil => exact h.elim
  | cons k path ih =>
    cases path with
    | nil => exact ⟨k, rfl, h.2.2, fun p hp => ⟨h.1, h.2.1, hp⟩⟩
    | cons l path =>
      obtain ⟨x, hx, hl, hs⟩ := ih h.2.2.2
      exact ⟨x, by rw [List.getLast?_cons_cons, hx], hl, fun p hp => ⟨h.1, h.2.1, h.2.2.1, hs p hp⟩⟩

theorem Settled.mono {p : Key → Prop} (h : Settled leaf first path) (hp : ∀ k, leaf k → p k) :
    Settled p first path := by
  obtain ⟨k, _, hk, hs⟩ := h.last
  exact hs p (hp k hk)

theorem pathText_of_ends {space around : List Char × List Char}
    (h : Settled (Key.Ends around) first path) :
    pathText space path = around.1 ++ innerText path ++ around.2 := by
  obtain ⟨k, hk, he, _⟩ := h.last
  rw [pathText, hk, Option.bind_some, he.2, Option.getD_some]

theorem settled_go {before after : List Char} (first : Bool) {ks : List Key} (hn : ks ≠ [])
    (hk : ∀ k ∈ ks, k.WellSpelled ∧ k.outer = none) :
    Settled (Key.Ends (before, after)) first (settle.go before after first ks) := by
  fun_induction settle.go before after first ks with
  | case1 => exact absurd rfl hn
  | case2 first k =>
    have h := (hk k List.mem_cons_self).1
    refine ⟨⟨h.spells, ?_, by simp⟩, by rintro rfl; rfl, rfl, rfl⟩
    cases first
    · exact h.before
    · simp
  | case3 first k r hr ih =>
    have h := hk k List.mem_cons_self
    have ih := ih hr fun k hk' => hk k (List.mem_cons_of_mem _ hk')
    obtain ⟨l, r', hl⟩ := List.exists_cons_of_ne_nil ih.ne_nil
    rw [hl] at ih ⊢
    refine ⟨⟨h.1.spells, ?_, h.1.after⟩, by rintro rfl; rfl, h.2, ih⟩
    cases first
    · exact h.1.before
    · simp

/-- A path that has been read is settled, with space around it. -/
theorem keyPath?_reads {s r : List Char} (h : keyPath? s = some (path, r)) :
    path.length < keyLimit ∧ ∃ b a, (∀ c ∈ b, isSpace c = true) ∧ (∀ c ∈ a, isSpace c = true) ∧
      Settled (Key.Ends (b, a)) true path := by
  obtain ⟨⟨ks, t⟩, hk, h⟩ := Option.bind_eq_some_iff.1 h
  dsimp only at h
  split at h
  · next hl =>
    cases h
    obtain ⟨hn, hw⟩ := spacedKeys?_reads hk
    obtain ⟨k, ks', rfl⟩ := List.exists_cons_of_ne_nil hn
    have hlast := List.getLast?_eq_some_getLast hn
    refine ⟨by rw [← List.length_map Key.name, ← names, names_settle, names, List.length_map]; exact hl,
      k.inner.1, ((k :: ks').getLast hn).inner.2, (hw k List.mem_cons_self).1.before,
      (hw _ (List.getLast_mem hn)).1.after, ?_⟩
    rw [settle, hlast]
    exact settled_go true hn hw
  · cases h

theorem go_spaced {before after b : List Char} (h : Settled (Key.Ends (before, after)) first path)
    (hb : first = false → path.head?.map (fun k => k.inner.1) = some b) :
    settle.go before after first (spaced b after path) = path := by
  induction path generalizing first b with
  | nil => exact h.elim
  | cons k path ih =>
    have inner (hf : first = true → k.inner.1 = []) : (if first = true then [] else b) = k.inner.1 := by
      cases first
      · simpa using (hb rfl).symm
      · exact (hf rfl).symm
    cases path with
    | nil =>
      obtain ⟨_, hf, h2, ho⟩ := h
      rw [spaced, settle.go, inner hf, ← ho, ← h2]
    | cons l path =>
      obtain ⟨_, hf, ho, h⟩ := h
      rw [spaced, settle.go, inner hf, ih h fun _ => rfl, ← ho]
      exact spaced_ne_nil (List.cons_ne_nil _ _)

theorem reread_go (around : List Char × List Char) (hn : path ≠ []) :
    reread around path = settle.go around.1 around.2 true (spaced around.1 around.2 path) := by
  have head : ((spaced around.1 around.2 path).head?.map fun k => k.inner.1).getD [] = around.1 := by
    match path, hn with
    | [_], _ => rfl
    | _ :: _ :: _, _ => rfl
  have last : ((spaced around.1 around.2 path).getLast?.map fun k => k.inner.2).getD [] = around.2 := by
    rw [getLast?_spaced hn]
    rfl
  rw [reread, settle, head, last]

theorem reread_eq {around : List Char × List Char} (h : Settled (Key.Ends around) true path) :
    reread around path = path := by
  rw [reread_go around h.ne_nil]
  exact go_spaced h nofun

theorem lead_go (t before after : List Char) (first : Bool) (ks : List Key) :
    lead t (settle.go before after first ks) = settle.go (t ++ before) after first ks := by
  fun_induction settle.go before after first ks with
  | case1 => rfl
  | case2 => rfl
  | case3 first k r hr ih =>
    rw [settle.go, ← ih]
    · obtain ⟨l, r', hl⟩ := List.exists_cons_of_ne_nil (l := settle.go before after false r) (by
        obtain ⟨l, r', rfl⟩ := List.exists_cons_of_ne_nil fun h => hr h
        match r' with
        | [] => exact List.cons_ne_nil _ _
        | _ :: _ => exact List.cons_ne_nil _ _)
      rw [hl, lead]
      rintro ⟨⟩
    · exact hr

theorem lead_reread {t a : List Char} (h : Settled (Key.Ends (t, a)) true path) :
    lead t (reread ([], a) path) = path := by
  rw [reread_go ([], a) h.ne_nil, lead_go, List.append_nil]
  exact go_spaced h nofun

end Reading

end CBuild.Toml
