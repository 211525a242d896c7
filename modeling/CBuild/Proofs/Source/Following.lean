import CBuild.Source.Resolver

/-! The traversal of includes step by step, while the files stay as they are: what each task on the stack
turns into, and the induction over a whole run that follows from it. -/

namespace CBuild.Source

/-- What reading each file gives. -/
abbrev Contents := Path → Except OsError Bytes

namespace Index

/-- The traversal from an entry point. -/
def traceOn (ix : Index) (files : Contents) (entry : Path) : Except (Path × OsError) Resolution :=
  Id.run (ix.trace (fun p => pure (files p)) (fun _ => pure ()) entry)

theorem mem_included {ix : Index} {b : Bytes} {r : ix.Member} :
    r ∈ ix.included b ↔ ∃ t ∈ targetsIn b, ix.resolve? t = some r.val := by
  simp only [included, List.mem_filterMap]
  refine exists_congr fun t => and_congr_right fun _ => ?_
  split
  · next x hx => simp [hx, Subtype.ext_iff]
  · next hx => simp [hx]

end Index

namespace Resolution

variable {ix : Index}

theorem hasVisited_iff {s : Resolution} {r : Record} :
    s.hasVisited r ↔ ∃ v ∈ s.visited, v.relative = r.relative := by
  rw [hasVisited, ← Std.HashSet.mem_iff_contains, s.visitedPaths_holds, List.mem_map]

theorem hasCompanion_iff {s : Resolution} {r : Record} :
    s.hasCompanion r ↔ ∃ c ∈ s.companions, c.relative = r.relative := by
  rw [hasCompanion, ← Std.HashSet.mem_iff_contains, s.companionPaths_holds, List.mem_map]

/-- What visiting a record adds: the record, its companion when that is new, and the files to read. -/
def meet (s : Resolution) (r : ix.Member) : Resolution × List (Task ix) :=
  match ix.companion? r.val with
  | none => (s.visit r.val, [.scan r.val.path])
  | some c =>
    if s.hasCompanion c then (s.visit r.val, [.scan r.val.path])
    else ((s.visit r.val).addCompanion c, [.scan c.path, .scan r.val.path])

section Meet

variable {s : Resolution} {r : ix.Member}

theorem visited_meet : (s.meet r).1.visited = s.visited ++ [r.val] := by
  rw [meet]
  split
  · rfl
  · split <;> rfl

theorem mem_companions_meet {c : Record} :
    c ∈ (s.meet r).1.companions ↔
      c ∈ s.companions ∨ ix.companion? r.val = some c ∧ ¬s.hasCompanion c := by
  rw [meet]
  split
  · next h => simp [visit, h]
  · next d h =>
    split
    · next hd =>
      refine (or_iff_left ?_).symm
      rintro ⟨hc, hn⟩
      cases h.symm.trans hc
      exact hn hd
    · next hd =>
      refine List.mem_append.trans (or_congr_right (List.mem_singleton.trans ⟨?_, ?_⟩))
      · rintro rfl
        exact ⟨h, hd⟩
      · rintro ⟨hc, _⟩
        exact Option.some.inj (hc.symm.trans h)

theorem mem_tasks_meet {t : Task ix} :
    t ∈ (s.meet r).2 ↔ t = .scan r.val.path ∨
      ∃ c, ix.companion? r.val = some c ∧ ¬s.hasCompanion c ∧ t = .scan c.path := by
  rw [meet]
  split
  · next h => simp [h]
  · next d h =>
    split
    · next hd => simp [h, hd]
    · next hd => simp [h, hd, or_comm]

end Meet

def runOn (files : Contents) (s : Resolution) (stack : List (Task ix)) :
    Except (Path × OsError) Resolution :=
  Id.run (run (fun p => pure (files p)) (fun _ => pure ()) s stack)

theorem traceOn_eq_runOn (files : Contents) (entry : Path) :
    ix.traceOn files entry = runOn files {} [(.scan entry : Task ix)] := rfl

section Steps

variable {files : Contents} {s : Resolution} {stack : List (Task ix)} {r : ix.Member}
  {rest : List ix.Member}

theorem runOn_nil : runOn files s ([] : List (Task ix)) = .ok s := by
  rw [runOn, run, Id.run_pure]

theorem runOn_scan (p : Path) :
    runOn files s (.scan p :: stack) =
      match files p with
      | .error e => .error (p, e)
      | .ok b => runOn files s (.follow (ix.included b) :: stack) := by
  rw [runOn, run, pure_bind]
  split <;> simp [*, runOn]

theorem runOn_done : runOn files s (.follow [] :: stack) = runOn files s stack := by
  rw [runOn, run, runOn]

theorem runOn_known (h : s.hasVisited r.val) :
    runOn files s (.follow (r :: rest) :: stack) = runOn files s (.follow rest :: stack) := by
  rw [runOn, run, dif_pos h, runOn]

theorem runOn_visit (h : ¬s.hasVisited r.val) :
    runOn files s (.follow (r :: rest) :: stack) =
      runOn files (s.meet r).1 ((s.meet r).2 ++ .follow rest :: stack) := by
  rw [runOn, run, dif_neg h, meet]
  cases ix.companion? r.val with
  | none => simp [runOn]
  | some c => cases hn : s.hasCompanion c <;> simp [runOn, hn]

end Steps

/-- What every step of a run keeps holds at its end. -/
theorem runOn_rule (files : Contents) {P : Resolution → List (Task ix) → Prop}
    {Q : Except (Path × OsError) Resolution → Prop}
    (nil : ∀ s, P s [] → Q (.ok s))
    (unreadable : ∀ s p e stack, files p = .error e → P s (.scan p :: stack) → Q (.error (p, e)))
    (scan : ∀ s p b stack, files p = .ok b → P s (.scan p :: stack) →
      P s (.follow (ix.included b) :: stack))
    (done : ∀ s stack, P s (.follow [] :: stack) → P s stack)
    (known : ∀ s r rest stack, s.hasVisited r.val → P s (.follow (r :: rest) :: stack) →
      P s (.follow rest :: stack))
    (visit : ∀ s r rest stack, ¬s.hasVisited r.val → P s (.follow (r :: rest) :: stack) →
      P (s.meet r).1 ((s.meet r).2 ++ .follow rest :: stack))
    (s : Resolution) (stack : List (Task ix)) (h : P s stack) : Q (runOn files s stack) := by
  fun_induction run (m := Id) (fun p => pure (files p)) (fun _ => pure ()) s stack with
  | case1 s =>
    rw [runOn_nil]
    exact nil s h
  | case2 s p stack ih =>
    rw [runOn_scan]
    cases hf : files p with
    | error e => exact unreadable s p e stack hf h
    | ok b => exact ih b (scan s p b stack hf h)
  | case3 s stack ih =>
    rw [runOn_done]
    exact ih (done s stack h)
  | case4 s r rest stack hv ih =>
    rw [runOn_known hv]
    exact ih (known s r rest stack hv h)
  -- a record is visited: its companion is in already, or is added, or there is none
  | case5 s r rest stack hv c hc hn ih =>
    have hm : s.meet r = (s.visit r.val, [.scan r.val.path]) := by simp [meet, hc, hn]
    rw [runOn_visit hv, hm]
    exact ih (by simpa only [hm, List.cons_append, List.nil_append] using visit s r rest stack hv h)
  | case6 s r rest stack hv c hc hn ih =>
    have hm : s.meet r = ((s.visit r.val).addCompanion c, [.scan c.path, .scan r.val.path]) := by
      simp [meet, hc, hn]
    rw [runOn_visit hv, hm]
    exact ih (by simpa only [hm, List.cons_append, List.nil_append] using visit s r rest stack hv h)
  | case7 s r rest stack hv hc ih =>
    have hm : s.meet r = (s.visit r.val, [.scan r.val.path]) := by simp [meet, hc]
    rw [runOn_visit hv, hm]
    exact ih (by simpa only [hm, List.cons_append, List.nil_append] using visit s r rest stack hv h)

end Resolution
end CBuild.Source
