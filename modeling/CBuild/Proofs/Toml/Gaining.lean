import CBuild.Proofs.Toml.Putting
import CBuild.Proofs.Toml.Continuing
import CBuild.Proofs.Toml.Lines

/-! A document that gains empty lists among the lines of its top table, under keys it has not got, has all
it had. -/

namespace CBuild.Toml

open Children

section Names

variable {cs ds : Children} {name : List Char}

theorem concerns_entry (e : Entry) :
    Concerns (headName e.path) fun cs => cs.define? true (.value e.gap e.value e.after) e.path := by
  match e.path with
  | [] => exact ⟨fun _ => rfl, nofun⟩
  | k :: path => exact concerns_define? true _ k path

theorem isSome_child?_of_open? {h : Header} {rank : Nat} {f : Children → Option Children}
    (hd : h.open? rank f cs = some ds) : (ds.child? (headName h.path)).isSome = true := by
  obtain ⟨before, element, path, after⟩ := h
  unfold Header.open? at hd
  match path with
  | [] => cases hd
  | [k] =>
    cases element with
    | false =>
      simp only [List.getLast?_singleton, List.dropLast_singleton, descend?, Bool.false_eq_true, if_false,
        headTable?] at hd
      split at hd
      · exact isSome_child?_of_map_concat hd
      · exact isSome_child?_of_map_concat hd
      · cases hd
    | true =>
      simp only [List.getLast?_singleton, List.dropLast_singleton, descend?, if_true, headElement?] at hd
      split at hd
      · exact isSome_child?_of_map_concat hd
      · next hk => exact isSome_child?_of_map_put hk hd
      · cases hd
  | k :: l :: path =>
    obtain ⟨x, hx⟩ := Option.ne_none_iff_exists'.1 (show (k :: l :: path).getLast? ≠ none by simp)
    simp only [hx, List.dropLast_cons_cons, descend?] at hd
    split at hd
    · exact isSome_child?_of_map_concat hd
    · cases hd
    · next hk => exact isSome_child?_of_map_put hk hd
    · next hk => exact isSome_child?_of_map_put hk hd

theorem isSome_child?_of_graftAll? {gs : List (Header × Children)} {rank : Nat}
    (h : graftAll? rank cs gs = some ds) :
    (∀ g ∈ gs, (ds.child? (headName g.1.path)).isSome = true) ∧
      ∀ name, (cs.child? name).isSome = true → (ds.child? name).isSome = true := by
  induction gs generalizing rank cs with
  | nil =>
    cases h
    exact ⟨by simp, fun _ h => h⟩
  | cons g gs ih =>
    rw [graftAll?] at h
    obtain ⟨cs', hg, h⟩ := Option.bind_eq_some_iff.1 h
    have hhead := isSome_child?_of_open? hg
    obtain ⟨hall, hkeep⟩ := ih h
    exact ⟨List.forall_mem_cons.2 ⟨hkeep _ hhead, hall⟩,
      fun name hn => hkeep _ ((concerns_graft? rank g).isSome_child? hhead hg hn)⟩

end Names

section Entries

def entriesFor (es : List Entry) (name : List Char) : List Entry :=
  es.filter (headName ·.path = name)

theorem entriesFor_append (es fs : List Entry) (name : List Char) :
    entriesFor (es ++ fs) name = entriesFor es name ++ entriesFor fs name :=
  List.filter_append es fs

def Entry.emptyList (name : List Char) : Entry :=
  ⟨[⟨name, [], ([], []), none⟩], [], ⟨.array [], []⟩, []⟩

theorem entriesFor_emptyList (key name : List Char) :
    entriesFor [.emptyList key] name = if key = name then [.emptyList key] else [] := by
  have hn : headName (Entry.emptyList key).path = key := rfl
  rw [entriesFor, List.filter_cons, hn, List.filter_nil]
  simp only [decide_eq_true_eq]

variable {keys : List (List Char)} {es es' : List Entry} {cs : Children}

theorem defineAll?_of_gains (h : Entry.defineAll? [] es = some cs)
    (ho : ∀ name ∉ keys, entriesFor es' name = entriesFor es name)
    (hl : ∀ name ∈ keys, entriesFor es' name = [.emptyList name]) :
    ∃ cs', Entry.defineAll? [] es' = some cs' ∧ ∀ name ∉ keys, only cs' name = cs.only name := by
  have hrun (es : List Entry) : Entry.defineAll? [] es =
      run (fun e cs => cs.define? true (.value e.gap e.value e.after) e.path) [] es := rfl
  rw [hrun] at h
  have hsome : (Entry.defineAll? [] es').isSome = true := by
    rw [hrun]
    refine isSome_run concerns_entry fun e _ => ?_
    by_cases hk : headName e.path ∈ keys
    · have hf : es'.filter (headName ·.path = headName e.path) = [.emptyList (headName e.path)] := hl _ hk
      rw [only_nil, hf]
      rfl
    · have hf : es'.filter (headName ·.path = headName e.path) =
          es.filter (headName ·.path = headName e.path) := ho _ hk
      rw [hf, run_only concerns_entry h]
      rfl
  obtain ⟨cs', hcs⟩ := Option.isSome_iff_exists.1 hsome
  refine ⟨cs', hcs, fun name hn => ?_⟩
  rw [hrun] at hcs
  have h1 := run_only concerns_entry hcs name
  have h2 := run_only concerns_entry h name
  have hf : es'.filter (headName ·.path = name) = es.filter (headName ·.path = name) := ho name hn
  rw [hf, h2] at h1
  exact (Option.some.inj h1).symm

end Entries

namespace Statement

variable {s r t : List Char} {st : Statement}

def plain : Statement → Statement
  | .header h => .header h.plain
  | .entry e => .entry e.plain

theorem plain_lead (t : List Char) (path : List Key) :
    (lead t path).map Key.plain = path.map Key.plain := by
  fun_induction lead t path <;> simp_all [Key.plain]

theorem plain_behind (t : List Char) (st : Statement) : (st.behind t).plain = st.plain := by
  cases st with
  | header h => rfl
  | entry e => simp only [behind, plain, Entry.plain, plain_lead]

theorem map_plain_allBehind (t : List Char) (p : List Statement × List Char) :
    (allBehind t p).1.map plain = p.1.map plain := by
  obtain ⟨_ | ⟨st, sts⟩, v⟩ := p
  · rfl
  · rw [allBehind, List.map_cons, List.map_cons, plain_behind]

/-- The lines `new` say what `old` say, and that there are empty lists where `old` say nothing. -/
structure Gains (keys : List (List Char)) (old new : List Statement) : Prop where
  tables : (sections new).2 = (sections old).2
  others : ∀ name ∉ keys, entriesFor (sections new).1 name = entriesFor (sections old).1 name
  lists : ∀ name ∈ keys, entriesFor (sections old).1 name = [] →
    entriesFor (sections new).1 name = [.emptyList name]

variable {keys : List (List Char)} {old new sts : List Statement}

theorem Gains.refl (sts : List Statement) : Gains [] sts sts :=
  ⟨rfl, fun _ _ => rfl, nofun⟩

theorem entriesFor_cons (e : Entry) (es : List Entry) (name : List Char) :
    entriesFor (e :: es) name = entriesFor [e] name ++ entriesFor es name := by
  rw [← List.singleton_append, entriesFor_append]

theorem Gains.keep (h : Gains keys old new) (e : Entry) :
    Gains keys (.entry e :: old) (.entry e :: new) := by
  refine ⟨h.tables, fun name hm => ?_, fun name hm he => ?_⟩
  · simp only [sections]
    rw [entriesFor_cons e (sections new).1, entriesFor_cons e (sections old).1, h.others name hm]
  · rw [sections, entriesFor_cons, List.append_eq_nil_iff] at he
    rw [sections, entriesFor_cons, he.1, h.lists name hm he.2, List.nil_append]

theorem Gains.list (h : Gains keys old new) {key : List Char} (hk : key ∉ keys) :
    Gains (key :: keys) old (.entry (.emptyList key) :: new) := by
  refine ⟨h.tables, fun name hm => ?_, fun name hm he => ?_⟩
  · rw [List.mem_cons, not_or] at hm
    rw [sections, entriesFor_cons, entriesFor_emptyList, if_neg (Ne.symm hm.1), h.others name hm.2,
      List.nil_append]
  · rw [sections, entriesFor_cons, entriesFor_emptyList]
    by_cases hname : key = name
    · subst hname
      rw [if_pos rfl, h.others key hk, he, List.append_nil]
    · rw [if_neg hname, h.lists name (List.mem_of_ne_of_mem (Ne.symm hname) hm) he, List.nil_append]

def listEntry (before key : List Char) : Entry :=
  ⟨[Key.opening before key], [' '], arrayValue [], []⟩

/-- A line that is an example of a key, and what stands above it from the line before it that is none. -/
structure Example where
  key : List Char
  above : List Char
  line : List Char

def Example.text (x : Example) : List Char :=
  x.above ++ x.line

def Example.entry (x : Example) : Entry :=
  listEntry x.above x.key

/-- Lines read again with some examples among those of the top table turned into lists. What stands above an
example stands in front of its list, and what stands below it is where it was. -/
inductive Fills : List Example → List Statement × List Char → List Statement × List Char → Prop
  | rest (p : List Statement × List Char) : Fills [] p p
  | keep {xs sts sts' t t'} (e : Entry) (h : Fills xs (sts, t) (sts', t')) :
      Fills xs (.entry e :: sts, t) (.entry e :: sts', t')
  | list {xs p sts' t'} (x : Example) (h : Fills xs p (sts', t')) :
      Fills (x :: xs) (allBehind x.text p) (.entry x.entry :: sts', t')

variable {xs : List Example} {p q : List Statement × List Char}

theorem Fills.gains (h : Fills xs p q) (hn : (xs.map Example.key).Nodup) :
    Gains (xs.map Example.key) (p.1.map plain) (q.1.map plain) := by
  induction h with
  | rest => exact .refl _
  | keep e _ ih => exact (ih hn).keep e.plain
  | list x _ ih =>
    rw [List.map_cons, List.nodup_cons] at hn
    rw [map_plain_allBehind]
    exact (ih hn.2).list hn.1

theorem sections_allBehind (u : List Char) (q : List Statement × List Char) :
    (sections (allBehind u q).1).2 = [] ↔ (sections q.1).2 = [] := by
  obtain ⟨_ | ⟨_ | _, _⟩, _⟩ := q <;> simp [allBehind, behind, sections]

theorem allBehind_follow (u c : List Char) (p q : List Statement × List Char) :
    ((allBehind u q).1 ++ (allBehind ((allBehind u q).2 ++ c) p).1, (allBehind ((allBehind u q).2 ++ c) p).2) =
      allBehind u (q.1 ++ (allBehind (q.2 ++ c) p).1, (allBehind (q.2 ++ c) p).2) := by
  obtain ⟨_ | ⟨st, sts⟩, t⟩ := q
  · rw [allBehind, List.nil_append, List.nil_append, List.append_assoc, allBehind_allBehind]
  · rfl

theorem Fills.insert (h : Fills xs p q) (ho : (sections p.1).2 = []) (key c : List Char)
    (r : List Statement × List Char) :
    Fills (xs ++ [⟨key, q.2, c⟩]) (p.1 ++ (allBehind (p.2 ++ c) r).1, (allBehind (p.2 ++ c) r).2)
      (q.1 ++ .entry (listEntry q.2 key) :: r.1, r.2) := by
  induction h with
  | rest p =>
    obtain ⟨old, t⟩ := p
    induction old with
    | nil => exact .list ⟨key, t, c⟩ (.rest r)
    | cons st old ih =>
      cases st with
      | entry e => exact (ih ho).keep e
      | header hd => cases ho
  | keep e h ih => exact (ih ho).keep e
  | @list xs p sts' t' x h ih =>
    rw [allBehind_follow]
    exact (ih ((sections_allBehind x.text p).1 ho)).list x

theorem sections_plain (sts : List Statement) :
    sections (sts.map plain) = ((sections sts).1.map Entry.plain,
      (sections sts).2.map fun p => (p.1.plain, p.2.map Entry.plain)) := by
  induction sts with
  | nil => rfl
  | cons st sts ih =>
    cases st with
    | entry e => rw [List.map_cons, plain, sections, ih, sections, List.map_cons]
    | header h => rw [List.map_cons, plain, sections, ih, sections, List.map_cons, List.map_nil]

end Statement

theorem ownTables?_plain (ss : List (Header × List Entry)) :
    ownTables? (ss.map fun p => (p.1.plain, p.2.map Entry.plain)) =
      (ownTables? ss).map (List.map plainSection) := by
  induction ss with
  | nil => rfl
  | cons p ss ih =>
    obtain ⟨hd, es⟩ := p
    have hown := defineAll?_plainAll [] es
    rw [plainAll_nil] at hown
    rw [List.map_cons, ownTables?, ownTables?, hown, ih]
    cases Entry.defineAll? [] es with
    | none => rfl
    | some own =>
      simp only [Option.map_some, Option.bind_some, Option.map_map]
      rfl

section Gaining

variable {keys : List (List Char)} {s s' : List Char} {d : Document}

theorem headName_plain (path : List Key) : headName (path.map Key.plain) = headName path := by
  cases path <;> rfl

/-- A text that says as much as a document, and empty lists under keys that the document has not got, is a
document with all that the other has. -/
theorem Document.strict?_of_gains (h : strict? s = some d) (hk : ∀ key ∈ keys, d.top.child? key = none)
    {sts sts' : List Statement} {t t' : List Char} (hs : Statement.readAll? (unmarked s) = some (sts, t))
    (hread' : Statement.readAll? (unmarked s') = some (sts', t'))
    (hg : Statement.Gains keys (sts.map Statement.plain) (sts'.map Statement.plain)) :
    ∃ d', strict? s' = some d' ∧ ∀ name ∉ keys, only (plainAll d'.top) name = only (plainAll d.top) name := by
  obtain ⟨sts₀, top, gs, hread, htop, hgs, hgraft⟩ := strict?_eq_some.1 h
  rw [hs, Option.some.injEq, Prod.mk.injEq] at hread
  obtain ⟨rfl, rfl⟩ := hread
  -- the lines are known without the way they are written, so the tables are built from plain lines
  obtain ⟨htables, hothers, hlists⟩ := hg
  rw [Statement.sections_plain, Statement.sections_plain] at htables hothers hlists
  dsimp only at htables hothers hlists
  obtain ⟨hhead, hkeep⟩ := isSome_child?_of_graftAll? hgraft
  have missing (name : List Char) (hm : name ∈ keys) : ¬ (d.top.child? name).isSome = true := by
    simp [hk name hm]
  have hnone : ∀ name ∈ keys, entriesFor ((Statement.sections sts).1.map Entry.plain) name = [] := by
    intro name hm
    refine List.filter_eq_nil_iff.2 fun e he hn => missing name hm (hkeep name ?_)
    obtain ⟨f, hf, rfl⟩ := List.mem_map.1 he
    rw [← of_decide_eq_true hn, Entry.plain, headName_plain]
    exact (isSome_child?_of_defineAll? htop).1 f hf
  have htop' := defineAll?_plainAll [] (Statement.sections sts).1
  rw [plainAll_nil, htop, Option.map_some] at htop'
  obtain ⟨ptop, hptop, htopOnly⟩ := defineAll?_of_gains htop' hothers fun name hm => hlists name hm (hnone name hm)
  have hdef := defineAll?_plainAll [] (Statement.sections sts').1
  rw [plainAll_nil, hptop] at hdef
  obtain ⟨top', hdef', rfl⟩ := Option.map_eq_some_iff.1 hdef.symm
  have hown := ownTables?_plain (Statement.sections sts').2
  rw [htables, ownTables?_plain, hgs, Option.map_some] at hown
  obtain ⟨gs', hgs', hplain⟩ := Option.map_eq_some_iff.1 hown.symm
  have hrun := graftAll?_plainAll 1 top gs
  rw [hgraft, Option.map_some] at hrun
  have hsections : ∀ g ∈ gs.map plainSection,
      only (plainAll top') (headName g.1.path) = only (plainAll top) (headName g.1.path) ∧
        (gs.map plainSection).filter (fun s => headName s.1.path = headName g.1.path) =
          (gs.map plainSection).filter fun s => headName s.1.path = headName g.1.path := by
    intro g hg
    refine ⟨htopOnly _ fun hm => missing _ hm ?_, rfl⟩
    obtain ⟨x, hx, rfl⟩ := List.mem_map.1 hg
    rw [plainSection, Header.plain, headName_plain]
    exact hhead x hx
  obtain ⟨ds, hds, hagree, _⟩ := run_agree (fun s => concerns_graft? 0 s) hrun.symm hsections
  rw [← hplain, ← graftAll?_plainAll 1] at hds
  obtain ⟨cs', hcs', rfl⟩ := Option.map_eq_some_iff.1 hds
  exact ⟨⟨cs', t'⟩, strict?_eq_some.2 ⟨sts', top', gs', hread', hdef', hgs', hcs'⟩,
    fun name hn => hagree name (htopOnly name hn) rfl⟩

end Gaining

end CBuild.Toml
