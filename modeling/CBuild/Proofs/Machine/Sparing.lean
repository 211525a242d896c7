import CBuild.Proofs.Machine.Asking

/-! What operations leave as it was. Before a file is written nothing but new directories comes of them, and the
writing changes one file, whichever way a path leads to it. -/

namespace CBuild

open FileTree

namespace FileTree

variable {t u v : FileTree} {here k l : Location} {p q : Path} {b : Bytes} {e : TreeEntry} {ls ks : List Location}

/-- All is as it was but at some locations, except that a directory may be where nothing was. -/
def Spares (ls : List Location) (t u : FileTree) : Prop :=
  ∀ l ∉ ls, u.get? l = t.get? l ∨ t.get? l = none ∧ u.get? l = some .directory

theorem spares_of_eq (h : u = t) : Spares ls t u :=
  fun _ _ => .inl (by rw [h])

theorem spares_of_ne (h : ∀ k ≠ l, u.get? k = t.get? k) : Spares [l] t u :=
  fun k hk => .inl (h k (by simpa using hk))

theorem Spares.trans (h : Spares ls t u) (h' : Spares ks u v) : Spares (ls ++ ks) t v := by
  intro l hl
  rw [List.mem_append, not_or] at hl
  rcases h l hl.1 with hu | ⟨ht, hu⟩
  · rw [← hu]
    exact h' l hl.2
  · rcases h' l hl.2 with hv | ⟨hnone, -⟩
    · exact .inr ⟨ht, hv.trans hu⟩
    · rw [hu] at hnone
      cases hnone

theorem Spares.get? (h : Spares ls t u) (hl : l ∉ ls) (he : t.get? l = some e) : u.get? l = some e := by
  rcases h l hl with hu | ⟨ht, -⟩
  · exact hu.trans he
  · rw [ht] at he
    cases he

theorem Spares.outlines (h : Spares [] t u) : t.Outlines u := by
  intro l e he
  rw [h.get? List.not_mem_nil he]
  rfl

theorem Outlines.trans (h : t.Outlines u) (h' : u.Outlines v) : t.Outlines v := by
  intro l e he
  have hu := h l e he
  rw [Option.map_eq_some_iff] at hu
  obtain ⟨f, hf, hfe⟩ := hu
  rw [h' l f hf, hfe]

theorem Leads.of_spares (h : t.Leads here q k b) (hs : Spares ls t u) (ho : t.Outlines u) (hk : k ∉ ls) :
    u.Leads here q k b := by
  obtain ⟨x, hx⟩ := h.file
  exact ⟨place_of_outlines h.place ho, x, hs.get? hk hx⟩

theorem spares_makeDirectory (h : t.makeDirectory here p = .ok u) : Spares [] t u := by
  rw [makeDirectory] at h
  rcases hp : t.place here (withoutEndSlashes p) false with e | (l | ⟨d, n, asDirectory⟩)
  · rw [hp] at h
    cases h
  · rw [hp] at h
    cases h
  · rw [hp] at h
    have hfree := (walks_of_place hp).get?_free
    obtain ⟨hself, hne⟩ := get?_of_set h
    intro k _
    by_cases hk : k = d ++ [n]
    · rw [hk]
      exact .inr ⟨hfree, hself⟩
    · exact .inl (hne k hk)

theorem spares_removeFile (h : t.removeFile here p = .ok u) :
    ∃ l, t.place here p false = .ok (.found l) ∧ Spares [l] t u := by
  rw [removeFile] at h
  rcases hp : t.place here p false with e | (l | ⟨d, n, asDirectory⟩)
  · rw [hp] at h
    cases h
  · rw [hp] at h
    simp only [bind, Except.bind] at h
    split at h
    · cases h
    next hd =>
      cases h
      exact ⟨l, rfl, spares_of_ne fun k hk => get?_remove_of_ne hd hk⟩
  · rw [hp] at h
    cases h

end FileTree

namespace Machine

variable {α β : Type} {x : StateM Machine α} {f : α → StateM Machine β} {m n k : Machine} {p : Path} {text : String}

/-- On the second machine the files are as on the first but at some locations, and so is what paths lead to. -/
structure Spared (ls : List Location) (m n : Machine) : Prop where
  here : n.here = m.here
  spares : Spares ls m.tree n.tree
  outlines : m.tree.Outlines n.tree

theorem spared_of_eq (htree : n.tree = m.tree) (hhere : n.here = m.here) : Spared [] m n :=
  ⟨hhere, spares_of_eq htree, (spares_of_eq htree).outlines⟩

theorem Spared.trans {ls ks : List Location} (h : Spared ls m n) (h' : Spared ks n k) : Spared (ls ++ ks) m k :=
  ⟨h'.here.trans h.here, h.spares.trans h'.spares, h.outlines.trans h'.outlines⟩

theorem Spared.leads {ls : List Location} {q : Path} {l : Location} {b : Bytes} (h : Spared ls m n)
    (hq : m.tree.Leads m.here q l b) (hl : l ∉ ls) : n.tree.Leads n.here q l b := by
  rw [h.here]
  exact hq.of_spares h.spares h.outlines hl

def Adds (x : StateM Machine α) : Prop :=
  ∀ m, Spared [] m (x.run m).2

theorem Asks.adds (h : Asks x) : Adds x :=
  fun m => spared_of_eq (h m).1 (h m).2

theorem Adds.bind (hx : Adds x) (hf : ∀ a, Adds (f a)) : Adds (x >>= f) := by
  intro m
  rw [StateT.run_bind]
  exact (hx m).trans (hf (x.run m).1 (x.run m).2)

theorem Adds.of_on {a : Action (StateM Machine) α} {r : Except Failure α} (ha : Adds a.run) (h : a.on m = (r, n)) :
    Spared [] m n := by
  have hm := ha m
  rw [Action.on] at h
  rwa [h] at hm

theorem adds_makeDirectory (p : Path) : Adds (Host.makeDirectory p) := by
  intro m
  rw [run_makeDirectory]
  rcases h : m.tree.makeDirectory m.here p with e | t
  · exact spared_of_eq rfl rfl
  · have hspares := spares_makeDirectory h
    exact ⟨rfl, hspares, hspares.outlines⟩

theorem adds_makeAll (ps : List Path) : Adds (Files.makeAll ps) := by
  have settle (p : Path) (e : OsError) : Adds (do
      if ← Host.isDirectory p then return Except.ok () else return Except.error e : StateM Machine _) := by
    refine (asks_isDirectory p).adds.bind fun directory => ?_
    split
    · exact (asks_pure _).adds
    · exact (asks_pure _).adds
  induction ps with
  | nil => exact (asks_pure _).adds
  | cons p above ih =>
    rw [Files.makeAll]
    split
    · exact (asks_pure _).adds
    · refine (adds_makeDirectory p).bind fun made => ?_
      split
      · exact (asks_pure _).adds
      · refine ih.bind fun room => ?_
        split
        · exact (asks_pure _).adds
        · refine (adds_makeDirectory p).bind fun again => ?_
          split
          · exact (asks_pure _).adds
          · exact settle p _
      · exact settle p _

theorem adds_attempt {request : StateM Machine (Except OsError α)} (h : Adds request) (action : FileAction)
    (p : Path) : Adds (Action.attempt action p request).run := by
  intro m
  have hm := h m
  change Spared [] m (Action.on _ m).2
  rw [Action.on_attempt]
  rcases hr : request.run m with ⟨e | a, n⟩
  · rw [hr] at hm
    exact hm
  · rw [hr] at hm
    exact hm

theorem adds_ensureDirectory (p : Path) : Adds (Files.ensureDirectory p).run := by
  intro m
  change Spared [] m (Action.on (Files.ensureDirectory p) m).2
  rw [Files.ensureDirectory, Action.on_bind_ok (on_exists p m)]
  split
  · exact spared_of_eq rfl rfl
  · exact adds_attempt (adds_makeAll _) _ _ m

theorem adds_makeRoom (p : Path) : Adds (makeRoom p).run := by
  rw [makeRoom]
  split
  · split
    · exact adds_ensureDirectory _
    · exact (asks_pure _).adds
  · exact (asks_pure _).adds

/-- A text is written to one file or, after a failure, to none. -/
theorem cases_of_writeText {r : Except Failure Unit} (h : (Files.writeText p text).on m = (r, n)) :
    (∃ e, r = .error e) ∧ Spared [] m n ∨
      r = .ok () ∧ ∃ l, n.tree.Leads n.here p l (kept l (Utf8.encode text)) ∧ Spared [l] m n := by
  rw [writeText_eq] at h
  rcases Action.cases_of_on_bind h with ⟨e, hroom, rfl⟩ | ⟨_, k, hroom, hlast⟩
  · exact .inl ⟨⟨e, rfl⟩, (adds_makeRoom p).of_on hroom⟩
  · have hspared := (adds_makeRoom p).of_on hroom
    rw [Action.on_attempt, run_writeBytes] at hlast
    rcases hw : k.tree.writeFile k.here p (Utf8.encode text) with e | t
    · rw [hw] at hlast
      cases hlast
      exact .inl ⟨⟨_, rfl⟩, hspared⟩
    · rw [hw] at hlast
      cases hlast
      obtain ⟨l, hl, hsame, houtlines⟩ := leads_of_writeFile hw
      exact .inr ⟨rfl, l, hl, hspared.trans ⟨rfl, spares_of_ne hsame, houtlines⟩⟩

end Machine
end CBuild
