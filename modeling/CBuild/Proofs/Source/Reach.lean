import CBuild.Proofs.Source.Following

/-! What the traversal finds, told without it: the least set of records that includes lead to, from the
entry point, from a record in the set and from a companion of one. The traversal gives that set and its
companions, and fails only at a file that they need. -/

namespace CBuild.Source

namespace Index

theorem mem_of_mem_withoutRepeats {a : Record} {l : List Record} (h : a ∈ withoutRepeats l) :
    a ∈ l := by
  fun_induction withoutRepeats l with
  | case1 x y r hxy ih =>
    rcases List.mem_cons.1 (ih h) with rfl | h
    · exact List.mem_cons_self
    · exact List.mem_cons_of_mem _ (List.mem_cons_of_mem _ h)
  | case2 x y r hxy ih =>
    rcases List.mem_cons.1 h with rfl | h
    · exact List.mem_cons_self
    · exact List.mem_cons_of_mem _ (ih h)
  | case3 l => exact h

theorem of_mem_ofFiles {root : Path} {sources : List Path} {r : Record}
    (h : r ∈ (ofFiles root sources).records) : r.relative ∈ sources ∧ record? root r.relative = some r := by
  have hm := mem_of_mem_withoutRepeats h
  rw [List.mem_mergeSort, List.mem_filterMap] at hm
  obtain ⟨p, hmem, hp⟩ := hm
  have hr : r.relative = p := by
    obtain ⟨x, _, rfl⟩ := Option.map_eq_some_iff.1 hp
    rfl
  rw [hr]
  exact ⟨hmem, hp⟩

theorem record?_of_mem_ofFiles {root : Path} {sources : List Path} {r : Record}
    (h : r ∈ (ofFiles root sources).records) : record? root r.relative = some r :=
  (of_mem_ofFiles h).2

/-- The relative path of a record tells which record it is. -/
def Keyed (ix : Index) : Prop :=
  ∀ a ∈ ix.records, ∀ b ∈ ix.records, a.relative = b.relative → a = b

theorem keyed_ofFiles (root : Path) (sources : List Path) : (ofFiles root sources).Keyed := by
  intro a ha b hb h
  have hab := (record?_of_mem_ofFiles ha).symm.trans (h ▸ record?_of_mem_ofFiles hb)
  exact Option.some.inj hab

theorem mem_of_companion? {ix : Index} {r c : Record} (h : ix.companion? r = some c) :
    c ∈ ix.records := by
  rw [companion?] at h
  split at h
  · obtain ⟨s, _, hs⟩ := List.exists_of_findSome?_eq_some h
    exact mem_of_resolve? hs
  · cases h

def Includes (ix : Index) (files : Contents) (p : Path) (r : Record) : Prop :=
  ∃ b, files p = .ok b ∧ ∃ t ∈ targetsIn b, ix.resolve? t = some r

/-- The records that an entry point leads to. -/
inductive Reached (ix : Index) (files : Contents) (entry : Path) : Record → Prop
  | entry {r : Record} : ix.Includes files entry r → Reached ix files entry r
  | record {h r : Record} : Reached ix files entry h → ix.Includes files h.path r →
      Reached ix files entry r
  | companion {h c r : Record} : Reached ix files entry h → ix.companion? h = some c →
      ix.Includes files c.path r → Reached ix files entry r

/-- The files that must be read to know what an entry point leads to. -/
inductive Needed (ix : Index) (files : Contents) (entry : Path) : Path → Prop
  | entry : Needed ix files entry entry
  | record {h : Record} : ix.Reached files entry h → Needed ix files entry h.path
  | companion {h c : Record} : ix.Reached files entry h → ix.companion? h = some c →
      Needed ix files entry c.path

variable {ix : Index} {files : Contents} {entry : Path}

theorem Reached.of_needed {p : Path} {r : Record} (hp : ix.Needed files entry p)
    (hr : ix.Includes files p r) : ix.Reached files entry r := by
  cases hp with
  | entry => exact .entry hr
  | record h => exact .record h hr
  | companion h hc => exact .companion h hc hr

end Index

namespace Resolution

open Index

variable {ix : Index} (files : Contents) (entry : Path)

/-- Nothing has been found, and nothing is to be done, that the entry point does not lead to. -/
structure Sound (s : Resolution) (stack : List (Task ix)) : Prop where
  visited : ∀ v ∈ s.visited, ix.Reached files entry v
  companions : ∀ c ∈ s.companions, ∃ h, ix.Reached files entry h ∧ ix.companion? h = some c
  scans : ∀ p, .scan p ∈ stack → ix.Needed files entry p
  follows : ∀ rest, .follow rest ∈ stack → ∀ r ∈ rest, ix.Reached files entry r.val

/-- The entry point and the files of what has been found. -/
def Due (s : Resolution) (p : Path) : Prop :=
  p = entry ∨ (∃ h ∈ s.visited, h.path = p) ∨ ∃ c ∈ s.companions, c.path = p

/-- The record has been visited, or an include that means it is still to be followed. -/
def Awaited (s : Resolution) (stack : List (Task ix)) (r : ix.Member) : Prop :=
  r.val ∈ s.visited ∨ ∃ rest, .follow rest ∈ stack ∧ r ∈ rest

/-- The file is still to be read, or has been and none of its includes is lost. -/
def Settled (s : Resolution) (stack : List (Task ix)) (p : Path) : Prop :=
  .scan p ∈ stack ∨ ∃ b, files p = .ok b ∧ ∀ r ∈ ix.included b, Awaited s stack r

/-- Every file that is due is settled, and what has been visited has its companion recorded. -/
structure Complete (s : Resolution) (stack : List (Task ix)) : Prop where
  settled : ∀ p, s.Due entry p → Settled files s stack p
  companions : ∀ h ∈ s.visited, ∀ c, ix.companion? h = some c → c ∈ s.companions
  members : (∀ v ∈ s.visited, v ∈ ix.records) ∧ ∀ c ∈ s.companions, c ∈ ix.records

variable {files entry} {s : Resolution} {stack : List (Task ix)} {r : ix.Member}
  {rest : List ix.Member}

theorem Sound.init : Sound files entry {} [(.scan entry : Task ix)] where
  visited := by simp
  companions := by simp
  scans p hp := by
    rw [List.mem_singleton, Task.scan.injEq] at hp
    exact hp ▸ .entry
  follows rest h := by simp at h

theorem Sound.scan {p : Path} {b : Bytes} (hb : files p = .ok b)
    (h : Sound files entry s (.scan p :: stack)) :
    Sound files entry s (.follow (ix.included b) :: stack) where
  visited := h.visited
  companions := h.companions
  scans q hq := h.scans q (List.mem_cons_of_mem _ (List.mem_of_ne_of_mem (by simp) hq))
  follows l hl x hx := by
    rcases List.mem_cons.1 hl with hl | hl
    · cases hl
      have hp := h.scans p List.mem_cons_self
      exact .of_needed hp ⟨b, hb, mem_included.1 hx⟩
    · exact h.follows l (List.mem_cons_of_mem _ hl) x hx

theorem Sound.done (h : Sound files entry s (.follow [] :: stack)) : Sound files entry s stack where
  visited := h.visited
  companions := h.companions
  scans p hp := h.scans p (List.mem_cons_of_mem _ hp)
  follows l hl := h.follows l (List.mem_cons_of_mem _ hl)

theorem Sound.known (h : Sound files entry s (.follow (r :: rest) :: stack)) :
    Sound files entry s (.follow rest :: stack) where
  visited := h.visited
  companions := h.companions
  scans p hp := h.scans p (by simpa using hp)
  follows l hl x hx := by
    rcases List.mem_cons.1 hl with hl | hl
    · cases hl
      exact h.follows (r :: rest) List.mem_cons_self x (List.mem_cons_of_mem _ hx)
    · exact h.follows l (List.mem_cons_of_mem _ hl) x hx

theorem Sound.visit (h : Sound files entry s (.follow (r :: rest) :: stack)) :
    Sound files entry (s.meet r).1 ((s.meet r).2 ++ .follow rest :: stack) := by
  have hr : ix.Reached files entry r.val := h.follows _ List.mem_cons_self r List.mem_cons_self
  have hk := h.known
  refine ⟨?_, ?_, ?_, ?_⟩
  · intro v hv
    rw [visited_meet, List.mem_append, List.mem_singleton] at hv
    rcases hv with hv | rfl
    · exact h.visited v hv
    · exact hr
  · intro c hc
    rcases mem_companions_meet.1 hc with hc | ⟨hc, _⟩
    · exact h.companions c hc
    · exact ⟨r.val, hr, hc⟩
  · intro p hp
    rcases List.mem_append.1 hp with hp | hp
    · rcases mem_tasks_meet.1 hp with hp | ⟨c, hc, _, hp⟩
      · cases hp
        exact .record hr
      · cases hp
        exact .companion hr hc
    · exact hk.scans p hp
  · intro l hl
    rcases List.mem_append.1 hl with hl | hl
    · rcases mem_tasks_meet.1 hl with hl | ⟨_, _, _, hl⟩ <;> cases hl
    · exact hk.follows l hl

theorem Awaited.scan {p : Path} {l : List ix.Member} (h : Awaited s (.scan p :: stack) r) :
    Awaited s (.follow l :: stack) r := by
  refine h.imp_right fun ⟨m, hm, hr⟩ => ⟨m, ?_, hr⟩
  exact List.mem_cons_of_mem _ (List.mem_of_ne_of_mem (by simp) hm)

theorem Awaited.done (h : Awaited s (.follow [] :: stack) r) : Awaited s stack r := by
  refine h.imp_right fun ⟨m, hm, hr⟩ => ⟨m, ?_, hr⟩
  exact List.mem_of_ne_of_mem (by rintro ⟨⟩; simp at hr) hm

theorem Awaited.known {x : ix.Member} (hr : r.val ∈ s.visited)
    (h : Awaited s (.follow (r :: rest) :: stack) x) : Awaited s (.follow rest :: stack) x := by
  rcases h with h | ⟨m, hm, hx⟩
  · exact .inl h
  · rcases List.mem_cons.1 hm with hm | hm
    · cases hm
      rcases List.mem_cons.1 hx with rfl | hx
      · exact .inl hr
      · exact .inr ⟨rest, List.mem_cons_self, hx⟩
    · exact .inr ⟨m, List.mem_cons_of_mem _ hm, hx⟩

theorem Awaited.visit {x : ix.Member} (h : Awaited s (.follow (r :: rest) :: stack) x) :
    Awaited (s.meet r).1 ((s.meet r).2 ++ .follow rest :: stack) x := by
  have hv : ∀ y : Record, y ∈ s.visited ∨ y = r.val → y ∈ (s.meet r).1.visited := fun y hy => by
    rw [visited_meet]
    simpa using hy
  have hk : Awaited (s.meet r).1 (.follow rest :: stack) x :=
    Awaited.known (hv r.val (.inr rfl)) (h.imp_left fun h => hv x.val (.inl h))
  exact hk.imp_right fun ⟨m, hm, hx⟩ => ⟨m, List.mem_append_right _ hm, hx⟩

theorem Complete.init : Complete files entry {} [(.scan entry : Task ix)] where
  settled p hp := by
    rcases hp with rfl | ⟨h, hh, _⟩ | ⟨c, hc, _⟩
    · exact .inl List.mem_cons_self
    · simp at hh
    · simp at hc
  companions := by simp
  members := by simp

theorem Complete.scan {p : Path} {b : Bytes} (hb : files p = .ok b)
    (h : Complete files entry s (.scan p :: stack)) :
    Complete files entry s (.follow (ix.included b) :: stack) where
  settled q hq := by
    rcases h.settled q hq with hs | ⟨b', hb', hr⟩
    · rcases List.mem_cons.1 hs with hs | hs
      · cases hs
        exact .inr ⟨b, hb, fun x hx => .inr ⟨_, List.mem_cons_self, hx⟩⟩
      · exact .inl (List.mem_cons_of_mem _ hs)
    · exact .inr ⟨b', hb', fun x hx => (hr x hx).scan⟩
  companions := h.companions
  members := h.members

theorem Complete.done (h : Complete files entry s (.follow [] :: stack)) :
    Complete files entry s stack where
  settled q hq := by
    rcases h.settled q hq with hs | ⟨b, hb, hr⟩
    · exact .inl (List.mem_of_ne_of_mem (by simp) hs)
    · exact .inr ⟨b, hb, fun x hx => (hr x hx).done⟩
  companions := h.companions
  members := h.members

theorem Complete.known (hv : r.val ∈ s.visited)
    (h : Complete files entry s (.follow (r :: rest) :: stack)) :
    Complete files entry s (.follow rest :: stack) where
  settled q hq := by
    rcases h.settled q hq with hs | ⟨b, hb, hr⟩
    · exact .inl (List.mem_cons_of_mem _ (List.mem_of_ne_of_mem (by simp) hs))
    · exact .inr ⟨b, hb, fun x hx => (hr x hx).known hv⟩
  companions := h.companions
  members := h.members

theorem Complete.mem_visited (key : ix.Keyed) (h : Complete files entry s stack)
    (hr : s.hasVisited r.val) : r.val ∈ s.visited := by
  obtain ⟨v, hv, he⟩ := hasVisited_iff.1 hr
  exact key v (h.members.1 v hv) r.val r.property he ▸ hv

theorem Complete.mem_companions (key : ix.Keyed) (h : Complete files entry s stack) {c : Record}
    (hc : c ∈ ix.records) (hs : s.hasCompanion c) : c ∈ s.companions := by
  obtain ⟨d, hd, he⟩ := hasCompanion_iff.1 hs
  exact key d (h.members.2 d hd) c hc he ▸ hd

/-- The only files that a visit makes due are those that it puts on the stack. -/
theorem Due.of_meet {p : Path} (h : (s.meet r).1.Due entry p) :
    s.Due entry p ∨ .scan p ∈ (s.meet r).2 := by
  rcases h with rfl | ⟨v, hv, rfl⟩ | ⟨c, hc, rfl⟩
  · exact .inl (.inl rfl)
  · rw [visited_meet, List.mem_append, List.mem_singleton] at hv
    rcases hv with hv | rfl
    · exact .inl (.inr (.inl ⟨v, hv, rfl⟩))
    · exact .inr (mem_tasks_meet.2 (.inl rfl))
  · rcases mem_companions_meet.1 hc with hc | ⟨hc, hn⟩
    · exact .inl (.inr (.inr ⟨c, hc, rfl⟩))
    · exact .inr (mem_tasks_meet.2 (.inr ⟨c, hc, hn, rfl⟩))

theorem Complete.visit (key : ix.Keyed)
    (h : Complete files entry s (.follow (r :: rest) :: stack)) :
    Complete files entry (s.meet r).1 ((s.meet r).2 ++ .follow rest :: stack) := by
  refine ⟨?_, ?_, ?_, ?_⟩
  -- what was settled stays so, and what the record brings in is on the stack
  · intro q hq
    rcases hq.of_meet with hq | hq
    · rcases h.settled q hq with hs | ⟨b, hb, hr⟩
      · have hs : Task.scan q ∈ stack := List.mem_of_ne_of_mem (by simp) hs
        exact .inl (List.mem_append_right _ (List.mem_cons_of_mem _ hs))
      · exact .inr ⟨b, hb, fun x hx => (hr x hx).visit⟩
    · exact .inl (List.mem_append_left _ hq)
  · intro v hv c hc
    rw [visited_meet, List.mem_append, List.mem_singleton] at hv
    refine mem_companions_meet.2 ?_
    rcases hv with hv | rfl
    · exact .inl (h.companions v hv c hc)
    · by_cases hs : s.hasCompanion c
      · exact .inl (h.mem_companions key (mem_of_companion? hc) hs)
      · exact .inr ⟨hc, hs⟩
  · intro v hv
    rw [visited_meet, List.mem_append, List.mem_singleton] at hv
    rcases hv with hv | rfl
    · exact h.members.1 v hv
    · exact r.property
  · intro c hc
    rcases mem_companions_meet.1 hc with hc | ⟨hc, _⟩
    · exact h.members.2 c hc
    · exact mem_of_companion? hc

/-- What holds of the answer of a run: either nothing is left to do, or a needed file cannot be read. -/
theorem runOn_found (key : ix.Keyed) (hs : Sound files entry s stack)
    (hc : Complete files entry s stack) :
    match runOn files s stack with
    | .ok s' => Sound files entry s' ([] : List (Task ix)) ∧
        Complete files entry s' ([] : List (Task ix))
    | .error (p, e) => ix.Needed files entry p ∧ files p = .error e := by
  refine runOn_rule files
    (P := fun s stack => Sound files entry s stack ∧ Complete files entry s stack)
    (Q := fun a => match a with
      | .ok s' => Sound files entry s' ([] : List (Task ix)) ∧
          Complete files entry s' ([] : List (Task ix))
      | .error (p, e) => ix.Needed files entry p ∧ files p = .error e)
    ?_ ?_ ?_ ?_ ?_ ?_ s stack ⟨hs, hc⟩
  · exact fun s h => h
  · exact fun s p e stack he h => ⟨h.1.scans p List.mem_cons_self, he⟩
  · exact fun s p b stack hb h => ⟨h.1.scan hb, h.2.scan hb⟩
  · exact fun s stack h => ⟨h.1.done, h.2.done⟩
  · exact fun s r rest stack hv h => ⟨h.1.known, h.2.known (h.2.mem_visited key hv)⟩
  · exact fun s r rest stack _ h => ⟨h.1.visit, h.2.visit key⟩

/-- With nothing left to do, every include of a file that is due has been visited. -/
theorem Complete.mem_of_includes (h : Complete files entry s ([] : List (Task ix))) {p : Path}
    (hp : s.Due entry p) {x : Record} (hx : ix.Includes files p x) : x ∈ s.visited := by
  obtain ⟨b, hb, t, ht, hr⟩ := hx
  rcases h.settled p hp with hs | ⟨b', hb', ha⟩
  · simp at hs
  · obtain rfl : b = b' := Except.ok.inj (hb.symm.trans hb')
    rcases ha ⟨x, mem_of_resolve? hr⟩ (mem_included.2 ⟨t, ht, hr⟩) with hv | ⟨l, hl, _⟩
    · exact hv
    · simp at hl

theorem Complete.mem_of_reached (h : Complete files entry s ([] : List (Task ix))) {x : Record}
    (hx : ix.Reached files entry x) : x ∈ s.visited := by
  induction hx with
  | entry hi => exact h.mem_of_includes (.inl rfl) hi
  | record _ hi ih => exact h.mem_of_includes (.inr (.inl ⟨_, ih, rfl⟩)) hi
  | companion _ hc hi ih =>
    exact h.mem_of_includes (.inr (.inr ⟨_, h.companions _ ih _ hc, rfl⟩)) hi

theorem Complete.readable_of_needed (h : Complete files entry s ([] : List (Task ix))) {p : Path}
    (hp : ix.Needed files entry p) : ∃ b, files p = .ok b := by
  have hd : s.Due entry p := by
    cases hp with
    | entry => exact .inl rfl
    | record hr => exact .inr (.inl ⟨_, h.mem_of_reached hr, rfl⟩)
    | companion hr hc => exact .inr (.inr ⟨_, h.companions _ (h.mem_of_reached hr) _ hc, rfl⟩)
  rcases h.settled p hd with hs | ⟨b, hb, _⟩
  · simp at hs
  · exact ⟨b, hb⟩

end Resolution

open Resolution

/-- The traversal of an index of source files succeeds when all the files it needs can be read, and then
finds what the entry point leads to, no less and no more; otherwise it names a needed file that cannot be
read. -/
theorem traceOn_reached (root : Path) (sources : List Path) (files : Contents) (entry : Path) :
    let ix := Index.ofFiles root sources
    ((∃ s, ix.traceOn files entry = .ok s) ↔ ∀ p, ix.Needed files entry p → ∃ b, files p = .ok b) ∧
    (∀ s, ix.traceOn files entry = .ok s →
      (∀ q, q ∈ s.visited.map Record.relative ↔
        ∃ h, ix.Reached files entry h ∧ h.relative = q) ∧
      ∀ q, q ∈ s.companions.map Record.relative ↔
        ∃ h c, ix.Reached files entry h ∧ ix.companion? h = some c ∧ c.relative = q) ∧
    ∀ p e, ix.traceOn files entry = .error (p, e) →
      ix.Needed files entry p ∧ files p = .error e := by
  intro ix
  have found := runOn_found (Index.keyed_ofFiles root sources)
    (Sound.init : Sound files entry {} [(.scan entry : Task ix)]) .init
  rw [← traceOn_eq_runOn] at found
  refine ⟨⟨?_, ?_⟩, ?_, ?_⟩
  · rintro ⟨s, hs⟩ p hp
    rw [hs] at found
    exact found.2.readable_of_needed hp
  · intro readable
    cases ha : ix.traceOn files entry with
    | ok s => exact ⟨s, rfl⟩
    | error pe =>
      rw [ha] at found
      obtain ⟨b, hb⟩ := readable _ found.1
      cases hb.symm.trans found.2
  · intro s hs
    rw [hs] at found
    refine ⟨fun q => ⟨?_, ?_⟩, fun q => ⟨?_, ?_⟩⟩
    · intro hq
      obtain ⟨v, hv, rfl⟩ := List.mem_map.1 hq
      exact ⟨v, found.1.visited v hv, rfl⟩
    · rintro ⟨h, hh, rfl⟩
      exact List.mem_map_of_mem (found.2.mem_of_reached hh)
    · intro hq
      obtain ⟨c, hc, rfl⟩ := List.mem_map.1 hq
      obtain ⟨h, hh, hp⟩ := found.1.companions c hc
      exact ⟨h, c, hh, hp, rfl⟩
    · rintro ⟨h, c, hh, hc, rfl⟩
      exact List.mem_map_of_mem (found.2.companions h (found.2.mem_of_reached hh) c hc)
  · intro p e hp
    rw [hp] at found
    exact found

end CBuild.Source
