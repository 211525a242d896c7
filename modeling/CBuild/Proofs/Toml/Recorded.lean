import CBuild.Proofs.Toml.Layout
import CBuild.Proofs.Toml.Rereading
import CBuild.Proofs.Toml.Statements

/-! Lines that have been read are read again from the way they are printed. -/

namespace CBuild.Toml

section Known

def lineLeaf : Leaf := fun k gap v after =>
  (∃ t a, IsTrivia false t ∧ (∀ c ∈ a, isSpace c = true) ∧ k.Ends (t, a)) ∧
    (∀ c ∈ gap, isSpace c = true) ∧ EndsLine after ∧ v.Legible (value? depthLimit)

structure Header.Known (h : Header) : Prop where
  before : IsTrivia false h.before
  path : ∃ b a, (∀ c ∈ b, isSpace c = true) ∧ (∀ c ∈ a, isSpace c = true) ∧
    Settled (Key.Ends (b, a)) true h.path
  short : h.path.length < keyLimit
  after : EndsLine h.after

def Statement.Known : Statement → Prop
  | .header h => h.Known
  | .entry e => e.Known lineLeaf true (keyLimit - 1)

variable {leaf : Key → Prop} {first : Bool} {path : List Key} {t : List Char}

theorem settled_lead {b a : List Char} (h : Settled (Key.Ends (b, a)) first path) (t : List Char) :
    Settled (Key.Ends (t ++ b, a)) first (lead t path) := by
  fun_induction lead t path generalizing first with
  | case1 => exact h
  | case2 k =>
    obtain ⟨hk, hf, hi, ho⟩ := h
    exact ⟨⟨hk.spells, hk.before, hk.after⟩, hf, hi, by rw [ho]; rfl⟩
  | case3 k r hr ih =>
    obtain ⟨l, r', rfl⟩ := List.exists_cons_of_ne_nil fun h => hr h
    obtain ⟨hk, hf, ho, h⟩ := h
    have ih := ih h
    obtain ⟨l', r'', hl⟩ := List.exists_cons_of_ne_nil ih.ne_nil
    rw [hl] at ih ⊢
    exact ⟨hk, hf, ho, ih⟩

@[simp] theorem length_lead (t : List Char) (path : List Key) : (lead t path).length = path.length := by
  fun_induction lead t path <;> simp_all

theorem isPrintable_of_isSpace {c : Char} (h : isSpace c = true) : isPrintable c = true := by
  rcases isSpace_iff.1 h with rfl | rfl <;> decide

theorem isTokenChar_of_isBareKeyChar {c : Char} (h : isBareKeyChar c = true) : isTokenChar c = true := by
  simp only [isBareKeyChar, isTokenChar, Bool.or_eq_true] at h ⊢
  rcases h with (h | h) | h <;> simp [h]

theorem isPrintable_of_isBareKeyChar {c : Char} (h : isBareKeyChar c = true) : isPrintable c = true :=
  isPrintable_of_isTokenChar (isTokenChar_of_isBareKeyChar h)

theorem keyPath?_head {s r : List Char} (h : keyPath? s = some (path, r)) :
    ∃ c u, s = c :: u ∧ isPrintable c = true := by
  obtain ⟨⟨ks, r'⟩, hk, _⟩ := Option.bind_eq_some_iff.1 h
  rw [spacedKeys?] at hk
  dsimp only at hk
  split at hk
  · cases hk
  · next name spelling u hs =>
    have hhead := (simpleKey?_reads hs).2.head
    cases s with
    | nil => simp [simpleKey?] at hs
    | cons c s =>
      refine ⟨c, s, rfl, ?_⟩
      by_cases hc : isSpace c = true
      · exact isPrintable_of_isSpace hc
      · rw [List.dropWhile_cons_of_neg hc] at hs
        obtain ⟨d, v, rfl, hd⟩ := hhead
        have he := (simpleKey?_reads hs).1
        cases he
        rcases hd with hd | rfl | rfl
        · exact isPrintable_of_isBareKeyChar hd
        · decide
        · decide

theorem isTrivia_before {before s r : List Char} (h : trivia false s = (before, r)) {rest : List Char}
    (hp : keyPath? r = some (path, rest)) : IsTrivia false before := by
  obtain ⟨c, u, rfl, hc⟩ := keyPath?_head hp
  exact isTrivia_of_trivia h hc

theorem Entry.read?_known {before s r rest : List Char} {e : Entry} (hb : trivia false s = (before, r))
    (h : Entry.read? before r = some (e, rest)) : e.Known lineLeaf true (keyLimit - 1) := by
  simp only [Entry.read?, Option.bind_eq_bind, Option.bind_eq_some_iff] at h
  obtain ⟨⟨path, r1⟩, hp, r2, _, ⟨v, r3⟩, hv, ⟨behind, rest'⟩, hl, he⟩ := h
  cases he
  obtain ⟨hlt, b, a, hsb, hsa, hs⟩ := keyPath?_reads hp
  refine ⟨(settled_lead hs before).mono fun k hk => ⟨⟨before ++ b, a, ?_, hsa, hk⟩,
    fun c hc => List.mem_takeWhile_imp hc, endsLine_of_lineEnd? hl, value?_legible depthLimit hv⟩, ?_⟩
  · exact (isTrivia_before hb hp).append (isTrivia_of_isSpace hsb)
  · rw [length_lead]
    exact Nat.le_sub_one_of_lt hlt

theorem Header.read?_known {before s rest : List Char} {h : Header} {element : Bool}
    (hb : IsTrivia false before) (hr : Header.read? before element s = some (h, rest)) : h.Known := by
  simp only [Header.read?, Option.bind_eq_bind, Option.bind_eq_some_iff] at hr
  obtain ⟨⟨path, r1⟩, hp, r2, _, ⟨after, rest'⟩, hl, he⟩ := hr
  cases he
  obtain ⟨hlt, b, a, hsb, hsa, hs⟩ := keyPath?_reads hp
  exact ⟨hb, ⟨b, a, hsb, hsa, hs⟩, hlt, endsLine_of_lineEnd? hl⟩

theorem Statement.read?_known {before s r rest : List Char} {st : Statement}
    (hb : trivia false s = (before, r)) (h : Statement.read? before r = some (st, rest)) : st.Known := by
  unfold Statement.read? at h
  split at h
  · obtain ⟨⟨hd, rest'⟩, hr, he⟩ := Option.map_eq_some_iff.1 h
    cases he
    exact Header.read?_known (isTrivia_of_trivia hb (by decide)) hr
  · obtain ⟨⟨hd, rest'⟩, hr, he⟩ := Option.map_eq_some_iff.1 h
    cases he
    exact Header.read?_known (isTrivia_of_trivia hb (by decide)) hr
  · obtain ⟨⟨e, rest'⟩, hr, he⟩ := Option.map_eq_some_iff.1 h
    cases he
    exact Entry.read?_known hb hr

theorem Statement.readAll?_known {s t : List Char} {sts : List Statement}
    (h : Statement.readAll? s = some (sts, t)) : (∀ st ∈ sts, st.Known) ∧ trivia false t = (t, []) := by
  fun_induction Statement.readAll? s generalizing sts t with
  | case1 s before ht =>
    cases h
    exact ⟨by simp, trivia_of_eof ht⟩
  | case2 => cases h
  | case3 s before r ht hr st rest hst hlt ih =>
    obtain ⟨⟨sts', t'⟩, hall, he⟩ := Option.map_eq_some_iff.1 h
    cases he
    exact ⟨List.forall_mem_cons.2 ⟨Statement.read?_known ht hst, (ih hall).1⟩, (ih hall).2⟩
  | case4 => cases h

end Known

section Printed

variable {path : List Key} {after : List Char}

theorem endsValue_of_endsLine (h : EndsLine after) (r : List Char) : EndsValue (after ++ '\n' :: r) := by
  intro c hc
  have h := h r
  rw [lineEnd?] at h
  generalize (after ++ '\n' :: r).dropWhile isSpace = s at h hc
  cases s with
  | nil => cases hc
  | cons d s =>
    cases hc
    by_cases hd : c = '#'
    · simp [hd]
    · rw [List.head?_cons, if_neg (by simpa using hd), List.length_nil, List.drop_zero] at h
      split at h
      · contradiction
      · next he =>
        cases he
        simp
      · next he =>
        cases he
        simp
      · cases h

theorem Entry.spelled_line {e : Entry} (he : e.Known lineLeaf true (keyLimit - 1)) :
    ∃ t u, e.line = t ++ u ∧ Statement.Spelled t u (.entry e) := by
  obtain ⟨path, gap, v, after⟩ := e
  obtain ⟨hs, hlen⟩ := he
  dsimp only at hs hlen
  obtain ⟨k, _, ⟨⟨t, a, ht, ha, hk⟩, hg, haf, hv⟩, hmono⟩ := hs.last
  have hend : Settled (Key.Ends (t, a)) true path := hmono _ hk
  obtain ⟨c, r, hc, hstart⟩ := hv.starts
  have hreads : Reads (value? depthLimit) (fun rest => ∃ r, rest = after ++ '\n' :: r) v.spelling v := by
    rintro _ ⟨r, rfl⟩
    exact hv.reads _ (endsValue_of_endsLine haf r)
  have hspelled := Statement.spelled_entry ht hend.ne_nil hend.wellSpelled
    (Nat.lt_of_le_of_lt hlen (by decide)) ha hg hreads ⟨c, r, hc, not_isSpace_of_startsValue hstart⟩ haf
  rw [lead_reread hend] at hspelled
  refine ⟨t, _, ?_, hspelled⟩
  rw [Entry.line, Entry.text, pathText_of_ends hend]
  simp

theorem readAll?_entries {es : List Entry} (he : ∀ e ∈ es, e.Known lineLeaf true (keyLimit - 1))
    (rest : List Char) :
    Statement.readAll? (es.flatMap Entry.line ++ rest) =
      (Statement.readAll? rest).map fun (sts, t) => (es.map .entry ++ sts, t) := by
  induction es with
  | nil => simp
  | cons e es ih =>
    obtain ⟨t, u, hl, hs⟩ := Entry.spelled_line (he e List.mem_cons_self)
    rw [List.flatMap_cons, hl, List.append_assoc, List.append_assoc, Statement.readAll?_spelled hs,
      ih fun e h => he e (List.mem_cons_of_mem _ h), Option.map_map]
    rfl

def Block.around (b : Block) : List Char × List Char :=
  (b.path.getLast?.bind Key.outer).getD ([], [])

theorem Block.spelled_header {b : Block} {h : Heading} (hb : b.heading = some h)
    (ht : IsTrivia false h.before) (ha : EndsLine h.after) (hn : b.path ≠ [])
    (hk : ∀ k ∈ b.path, k.Upright) (hl : b.path.length < keyLimit) :
    ∃ u, Statement.Spelled h.before u (.header ⟨h.before, b.element, reread b.around b.path, h.after⟩) ∧
      ∀ before, b.text before = h.before ++ (u ++ b.entries.flatMap Entry.line) := by
  obtain ⟨heading, element, path, entries⟩ := b
  dsimp only at hb hn hk hl ⊢
  subst hb
  have hlast := List.getLast?_eq_some_getLast hn
  have hup := hk _ (List.getLast_mem hn)
  generalize hx : Block.around ⟨some h, element, path, entries⟩ = around
  rw [Block.around, hlast, Option.bind_some] at hx
  have hspace : (∀ c ∈ around.1, isSpace c = true) ∧ ∀ c ∈ around.2, isSpace c = true := by
    cases ho : (path.getLast hn).outer with
    | none =>
      rw [ho] at hx
      subst hx
      exact ⟨by simp, by simp⟩
    | some o =>
      rw [ho] at hx
      subst hx
      exact ⟨hup.before _ ho, hup.after _ ho⟩
  have hspelled := Statement.spelled_header ht hn (fun k h => (hk k h).wellSpelled) hl hspace.1 hspace.2
    ha element
  refine ⟨_, hspelled, fun before => ?_⟩
  rw [Block.text, pathText, hlast, Option.bind_some, hx]
  cases element <;> simp [Statement.headerText]

end Printed

end CBuild.Toml
