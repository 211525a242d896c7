import CBuild.Proofs.Source.Reach
import Mathlib.Data.List.Nodup
import Mathlib.Data.List.Perm.Subperm
import Mathlib.Logic.Relation

/-! The traversal round by round, where reading a file may give anything and each time something else. Every
round takes a measure down, and keeps account of the files that have been read: one for the entry point, one
for each file visited and one for each companion, less those that are still to be read. -/

namespace CBuild.Source

/-- What the loop holds between two rounds, and how many files it has read. -/
structure Moment (ix : Index) where
  found : Resolution
  stack : List (Task ix)
  reads : Nat

namespace Moment

open Relation

variable {ix : Index}

def start (entry : Path) : Moment ix :=
  ⟨{}, [.scan entry], 0⟩

/-- One round of the loop. A file that is read may hold any bytes. -/
inductive Round : Moment ix → Moment ix → Prop
  | scan (s : Resolution) (p : Path) (b : Bytes) (stack : List (Task ix)) (n : Nat) :
      Round ⟨s, .scan p :: stack, n⟩ ⟨s, .follow (ix.included b) :: stack, n + 1⟩
  | done (s : Resolution) (stack : List (Task ix)) (n : Nat) :
      Round ⟨s, .follow [] :: stack, n⟩ ⟨s, stack, n⟩
  | known {s : Resolution} {r : ix.Member} (rest : List ix.Member) (stack : List (Task ix)) (n : Nat)
      (h : s.hasVisited r.val) :
      Round ⟨s, .follow (r :: rest) :: stack, n⟩ ⟨s, .follow rest :: stack, n⟩
  | visit {s : Resolution} {r : ix.Member} (rest : List ix.Member) (stack : List (Task ix)) (n : Nat)
      (h : ¬s.hasVisited r.val) :
      Round ⟨s, .follow (r :: rest) :: stack, n⟩
        ⟨(s.meet r).1, (s.meet r).2 ++ .follow rest :: stack, n⟩

/-- Where the loop stops, with its answer and the number of files it has read or tried to read. -/
inductive Stops : Moment ix → Except (Path × OsError) Resolution → Nat → Prop
  | finished (s : Resolution) (n : Nat) : Stops ⟨s, [], n⟩ (.ok s) n
  | unreadable (s : Resolution) (p : Path) (e : OsError) (stack : List (Task ix)) (n : Nat) :
      Stops ⟨s, .scan p :: stack, n⟩ (.error (p, e)) (n + 1)

section Termination

/-- The records not visited yet count most, then the files to be read, then the includes to be followed. -/
def measure (c : Moment ix) : Nat × Nat × Nat :=
  (ix.unvisited c.found, c.stack.countP Task.isScan, Task.size c.stack)

theorem unvisited_meet_lt {s : Resolution} {r : ix.Member} (h : ¬s.hasVisited r.val) :
    ix.unvisited (s.meet r).1 < ix.unvisited s := by
  have hlt := Index.unvisited_visit_lt r (by simpa using h)
  rw [Resolution.meet]
  split
  · exact hlt
  · split
    · exact hlt
    · rw [Index.unvisited_addCompanion]
      exact hlt

theorem Round.measure_lt {c d : Moment ix} (h : Round c d) :
    Prod.Lex (· < ·) (Prod.Lex (· < ·) (· < ·)) d.measure c.measure := by
  cases h with
  | scan s p b stack n =>
    simp only [measure, List.countP_cons, Task.isScan, Bool.false_eq_true, if_false, if_true]
    exact .right _ (.left _ _ (by omega))
  | done s stack n =>
    simp only [measure, List.countP_cons, Task.isScan, Bool.false_eq_true, if_false, Task.size]
    exact .right _ (.right _ (by simp))
  | known rest stack n h =>
    simp only [measure, List.countP_cons, Task.isScan, Bool.false_eq_true, if_false, Task.size,
      List.length_cons]
    exact .right _ (.right _ (by omega))
  | visit rest stack n h => exact .left _ _ (unvisited_meet_lt h)

/-- Rounds cannot go on for ever, whatever the files turn out to hold. -/
theorem wellFounded_round : WellFounded fun d c : Moment ix => Round c d := by
  have lex := (Prod.lex Nat.lt_wfRel (Prod.lex Nat.lt_wfRel Nat.lt_wfRel)).wf
  exact Subrelation.wf Round.measure_lt (InvImage.wf measure lex)

end Termination

section Accounting

/-- The books at one moment: every record stands in a list once, all are of the index, and the files read are
the entry point and those found, but for the ones still to be read. -/
structure Balanced (c : Moment ix) : Prop where
  visited_nodup : (c.found.visited.map Record.relative).Nodup
  companions_nodup : (c.found.companions.map Record.relative).Nodup
  visited_mem : ∀ r ∈ c.found.visited, r ∈ ix.records
  companions_mem : ∀ r ∈ c.found.companions, r ∈ ix.records
  account : c.reads + c.stack.countP Task.isScan =
    1 + c.found.visited.length + c.found.companions.length

theorem Balanced.start (entry : Path) : (start entry : Moment ix).Balanced where
  visited_nodup := .nil
  companions_nodup := .nil
  visited_mem := by simp [Moment.start]
  companions_mem := by simp [Moment.start]
  account := rfl

theorem countP_tasks_meet (s : Resolution) (r : ix.Member) :
    (s.meet r).2.countP Task.isScan + s.companions.length = 1 + (s.meet r).1.companions.length := by
  rw [Resolution.meet]
  split
  · rfl
  · split
    · rfl
    · simp only [Resolution.addCompanion, Resolution.visit, List.countP_cons, List.countP_nil, Task.isScan,
        if_true, List.length_append, List.length_singleton]
      omega

theorem companions_meet (s : Resolution) (r : ix.Member) :
    (s.meet r).1.companions = s.companions ∨
      ∃ c ∈ ix.records, ¬s.hasCompanion c ∧ (s.meet r).1.companions = s.companions ++ [c] := by
  rw [Resolution.meet]
  split
  · exact .inl rfl
  · next c hc =>
    split
    · exact .inl rfl
    · next hn => exact .inr ⟨c, Index.mem_of_companion? hc, hn, rfl⟩

theorem nodup_concat {l : List Record} {r : Record} (h : (l.map Record.relative).Nodup)
    (hr : ¬∃ v ∈ l, v.relative = r.relative) : ((l ++ [r]).map Record.relative).Nodup := by
  rw [List.map_append, List.map_singleton, List.nodup_append]
  refine ⟨h, List.nodup_singleton _, ?_⟩
  rintro p hp q hq rfl
  rw [List.mem_singleton] at hq
  obtain ⟨v, hv, rfl⟩ := List.mem_map.1 hp
  exact hr ⟨v, hv, hq⟩

theorem Balanced.round {c d : Moment ix} (hb : c.Balanced) (h : Round c d) : d.Balanced := by
  have account := hb.account
  cases h with
  | scan s p b stack n =>
    refine ⟨hb.visited_nodup, hb.companions_nodup, hb.visited_mem, hb.companions_mem, ?_⟩
    simp only [List.countP_cons, Task.isScan, Bool.false_eq_true, if_false, if_true] at account ⊢
    omega
  | done s stack n => exact ⟨hb.visited_nodup, hb.companions_nodup, hb.visited_mem, hb.companions_mem, account⟩
  | known rest stack n h =>
    exact ⟨hb.visited_nodup, hb.companions_nodup, hb.visited_mem, hb.companions_mem, account⟩
  | @visit s r rest stack n h =>
    -- one scan is put on the stack for the record and one for its companion, if that is new
    have hvisited : (s.meet r).1.visited = s.visited ++ [r.val] := Resolution.visited_meet
    have hcount := countP_tasks_meet s r
    rw [Resolution.hasVisited_iff] at h
    refine ⟨?_, ?_, ?_, ?_, ?_⟩
    · dsimp only
      rw [hvisited]
      exact nodup_concat hb.visited_nodup h
    · rcases companions_meet s r with he | ⟨c, _, hc, he⟩
      · exact he ▸ hb.companions_nodup
      · dsimp only
        rw [he]
        rw [Resolution.hasCompanion_iff] at hc
        exact nodup_concat hb.companions_nodup hc
    · dsimp only
      rw [hvisited]
      exact List.forall_mem_append.2 ⟨hb.visited_mem, by simpa using r.property⟩
    · rcases companions_meet s r with he | ⟨c, hc, _, he⟩
      · exact he ▸ hb.companions_mem
      · dsimp only
        rw [he]
        exact List.forall_mem_append.2 ⟨hb.companions_mem, by simpa using hc⟩
    · simp only [List.countP_append, List.countP_cons, Task.isScan, Bool.false_eq_true, if_false, hvisited,
        List.length_append, List.length_singleton] at account ⊢
      omega

theorem Balanced.rounds {c d : Moment ix} (hb : c.Balanced) (h : ReflTransGen Round c d) : d.Balanced := by
  induction h with
  | refl => exact hb
  | tail _ hr ih => exact ih.round hr

theorem length_le_of_nodup {l m : List Record} (h : (l.map Record.relative).Nodup) (hm : ∀ r ∈ l, r ∈ m) :
    l.length ≤ m.length :=
  ((h.of_map _).subperm hm).length_le

theorem Round.grows {c d : Moment ix} (h : Round c d) :
    c.found.visited <+: d.found.visited ∧ c.found.companions <+: d.found.companions := by
  cases h with
  | scan s p b stack n => exact ⟨List.prefix_rfl, List.prefix_rfl⟩
  | done s stack n => exact ⟨List.prefix_rfl, List.prefix_rfl⟩
  | known rest stack n h => exact ⟨List.prefix_rfl, List.prefix_rfl⟩
  | @visit s r rest stack n h =>
    refine ⟨⟨[r.val], Resolution.visited_meet.symm⟩, ?_⟩
    rcases companions_meet s r with he | ⟨c, _, _, he⟩
    · exact he ▸ List.prefix_rfl
    · exact ⟨[c], he.symm⟩

theorem grows_of_rounds {c d : Moment ix} (h : ReflTransGen Round c d) :
    c.found.visited <+: d.found.visited ∧ c.found.companions <+: d.found.companions := by
  induction h with
  | refl => exact ⟨List.prefix_rfl, List.prefix_rfl⟩
  | tail _ hr ih => exact ⟨ih.1.trans hr.grows.1, ih.2.trans hr.grows.2⟩

end Accounting

end Moment

section Runs

open Moment Relation

variable {ix : Index} {σ : Type} (read : Path → StateM σ (Except OsError Bytes)) (note : Note → StateM σ Unit)

def counted (p : Path) : StateT Nat (StateM σ) (Except OsError Bytes) := do
  modify (· + 1)
  read p

theorem run_counted (p : Path) (n : Nat) (w : σ) :
    ((counted read p).run n).run w = ((((read p).run w).1, n + 1), ((read p).run w).2) := rfl

/-- The answer of the loop in a world where reading a file may change everything, the number of files it has
read or tried to read, and the world after it. -/
def Resolution.runIn (s : Resolution) (stack : List (Task ix)) (n : Nat) (w : σ) :
    (Except (Path × OsError) Resolution × Nat) × σ :=
  ((Resolution.run (counted read) (fun x => note x) s stack).run n).run w

def Index.traceIn (ix : Index) (entry : Path) (w : σ) :
    (Except (Path × OsError) Resolution × Nat) × σ :=
  ((ix.trace (counted read) (fun x => note x) entry).run 0).run w

theorem run_notes {α : Type} (tell : α → Note) (l : List α) (n : Nat) (w : σ) :
    ((l.forM fun a => (note (tell a) : StateT Nat (StateM σ) Unit)).run n).run w =
      (((), n), ((l.forM fun a => note (tell a)).run w).2) := by
  induction l generalizing w with
  | nil => rfl
  | cons a l ih => exact ih ((note (tell a)).run w).2

namespace Moment

def tellMeet (s : Resolution) (r : ix.Member) : StateM σ Unit :=
  match ix.companion? r.val with
  | some c => if s.hasCompanion c then return else note (.pair r.val c)
  | none => return

def round : Moment ix → StateM σ (Moment ix ⊕ (Except (Path × OsError) Resolution × Nat))
  | ⟨s, [], n⟩ => return .inr (.ok s, n)
  | ⟨s, .scan p :: stack, n⟩ => do
    match ← read p with
    | .error e => return .inr (.error (p, e), n + 1)
    | .ok b =>
      (ix.strangers b).forM fun t => note (.stranger t p)
      return .inl ⟨s, .follow (ix.included b) :: stack, n + 1⟩
  | ⟨s, .follow [] :: stack, n⟩ => return .inl ⟨s, stack, n⟩
  | ⟨s, .follow (r :: rest) :: stack, n⟩ =>
    if s.hasVisited r.val then return .inl ⟨s, .follow rest :: stack, n⟩
    else do
      tellMeet note s r
      return .inl ⟨(s.meet r).1, (s.meet r).2 ++ .follow rest :: stack, n⟩

/-- So many rounds, or as many as it takes. -/
def rounds : Nat → Moment ix → StateM σ (Moment ix ⊕ (Except (Path × OsError) Resolution × Nat))
  | 0, c => return .inl c
  | k + 1, c => do
    match ← c.round read note with
    | .inl d => rounds k d
    | .inr answer => return .inr answer

variable {c d : Moment ix} {w w' : σ} {answer : Except (Path × OsError) Resolution × Nat} {k : Nat}

theorem round_of_next (h : (c.round read note).run w = (.inl d, w')) : Round c d := by
  obtain ⟨s, stack, n⟩ := c
  match stack with
  | [] => cases h
  | .scan p :: stack =>
    rw [round, StateT.run_bind] at h
    rcases hread : (read p).run w with ⟨e | b, w''⟩
    · rw [hread] at h
      cases h
    · rw [hread] at h
      cases h
      exact .scan s p b stack n
  | .follow [] :: stack =>
    cases h
    exact .done s stack n
  | .follow (r :: rest) :: stack =>
    rw [round] at h
    split at h
    next hv =>
      cases h
      exact .known rest stack n hv
    next hv =>
      cases h
      exact .visit rest stack n hv

theorem stops_of_answer (h : (c.round read note).run w = (.inr answer, w')) : Stops c answer.1 answer.2 := by
  obtain ⟨s, stack, n⟩ := c
  match stack with
  | [] =>
    cases h
    exact .finished s n
  | .scan p :: stack =>
    rw [round, StateT.run_bind] at h
    rcases hread : (read p).run w with ⟨e | b, w''⟩
    · rw [hread] at h
      cases h
      exact .unreadable s p e stack n
    · rw [hread] at h
      cases h
  | .follow [] :: stack => cases h
  | .follow (r :: rest) :: stack =>
    rw [round] at h
    split at h
    next => cases h
    next => cases h

/-- The loop is a round and, unless this has given the answer, the loop again. -/
theorem runIn_eq_round (c : Moment ix) (w : σ) : c.found.runIn read note c.stack c.reads w =
    match (c.round read note).run w with
    | (.inl d, w') => d.found.runIn read note d.stack d.reads w'
    | (.inr answer, w') => (answer, w') := by
  obtain ⟨s, stack, n⟩ := c
  match stack with
  | [] =>
    dsimp only
    rw [Resolution.runIn, Resolution.run]
    rfl
  | .scan p :: stack =>
    dsimp only
    rw [Resolution.runIn, Resolution.run, StateT.run_bind, StateT.run_bind, run_counted, round, StateT.run_bind]
    rcases h : (read p).run w with ⟨e | b, w'⟩
    · rfl
    · change ((_ >>= fun _ => Resolution.run (counted read) _ s (.follow (ix.included b) :: stack)).run (n + 1)).run w' = _
      rw [StateT.run_bind, StateT.run_bind]
      erw [run_notes note (fun t => .stranger t p) (ix.strangers b) (n + 1) w']
      rfl
  | .follow [] :: stack =>
    dsimp only
    rw [Resolution.runIn, Resolution.run]
    rfl
  | .follow (r :: rest) :: stack =>
    dsimp only
    rw [round]
    by_cases h : s.hasVisited r.val
    · rw [if_pos h, Resolution.runIn, Resolution.run, dif_pos h]
      rfl
    · rw [if_neg h, Resolution.runIn, Resolution.run, dif_neg h, tellMeet, Resolution.meet]
      cases ix.companion? r.val with
      | none => rfl
      | some c =>
        dsimp only
        by_cases hn : s.hasCompanion c
        · rw [if_pos hn, if_pos hn, if_pos hn]
          rfl
        · rw [if_neg hn, if_neg hn, if_neg hn]
          rfl

theorem rounds_of_next (h : (rounds read note k c).run w = (.inl d, w')) :
    ReflTransGen Round c d ∧
      c.found.runIn read note c.stack c.reads w = d.found.runIn read note d.stack d.reads w' := by
  induction k generalizing c w with
  | zero =>
    cases h
    exact ⟨.refl, rfl⟩
  | succ k ih =>
    rw [rounds, StateT.run_bind] at h
    rcases hround : (c.round read note).run w with ⟨e | answer, w''⟩
    · rw [hround] at h
      obtain ⟨hrounds, hrun⟩ := ih h
      refine ⟨.head (round_of_next read note hround) hrounds, ?_⟩
      rw [runIn_eq_round, hround]
      exact hrun
    · rw [hround] at h
      cases h

/-- After finitely many rounds there is an answer, whatever reading does, and it is that of the loop. -/
theorem exists_rounds (c : Moment ix) (w : σ) :
    ∃ k d w', (rounds read note k c).run w = (.inl d, w') ∧
      (d.round read note).run w' = (.inr (c.found.runIn read note c.stack c.reads w).1,
        (c.found.runIn read note c.stack c.reads w).2) := by
  induction c using wellFounded_round.induction generalizing w with
  | _ c ih =>
    rw [runIn_eq_round]
    rcases hround : (c.round read note).run w with ⟨e | answer, w'⟩
    · obtain ⟨k, d, w'', hrounds, hanswer⟩ := ih e (round_of_next read note hround) w'
      refine ⟨k + 1, d, w'', ?_, hanswer⟩
      rw [rounds, StateT.run_bind, hround]
      exact hrounds
    · exact ⟨0, c, w, rfl, hround⟩

end Moment

/-- The search for what an entry point leads to is round after round, and ends, whatever reading gives. When it succeeds it
has read the entry point and each file found once; and at no moment does a list lose anything, hold a file twice or one
that is not in the index, or differ from the set beside it. -/
theorem Index.traceIn_accounted (ix : Index) (entry : Path) (w : σ) :
    WellFounded (fun d c : Moment ix => Round c d) ∧
    (∃ k d w', (rounds read note k (start entry : Moment ix)).run w = (.inl d, w') ∧
      (d.round read note).run w' = (.inr (ix.traceIn read note entry w).1, (ix.traceIn read note entry w).2) ∧
      Stops d (ix.traceIn read note entry w).1.1 (ix.traceIn read note entry w).1.2) ∧
    (∀ k d w', (rounds read note k (start entry : Moment ix)).run w = (.inl d, w') →
      ReflTransGen Round (start entry) d ∧
        ix.traceIn read note entry w = d.found.runIn read note d.stack d.reads w') ∧
    (∀ s n w', ix.traceIn read note entry w = ((.ok s, n), w') →
      n = 1 + s.visited.length + s.companions.length ∧ n ≤ 1 + 2 * ix.records.length) ∧
    ∀ c, ReflTransGen Round (start entry : Moment ix) c →
      (c.found.visited.map Record.relative).Nodup ∧ (c.found.companions.map Record.relative).Nodup ∧
      (∀ r ∈ c.found.visited, r ∈ ix.records) ∧ (∀ r ∈ c.found.companions, r ∈ ix.records) ∧
      (∀ p, p ∈ c.found.visitedPaths ↔ p ∈ c.found.visited.map Record.relative) ∧
      (∀ p, p ∈ c.found.companionPaths ↔ p ∈ c.found.companions.map Record.relative) ∧
      ∀ d, ReflTransGen Round c d →
        c.found.visited <+: d.found.visited ∧ c.found.companions <+: d.found.companions := by
  obtain ⟨k, d, w', hk, hanswer⟩ := (start entry : Moment ix).exists_rounds read note w
  have hrounds := (rounds_of_next read note hk).1
  have hstops : Stops d (ix.traceIn read note entry w).1.1 (ix.traceIn read note entry w).1.2 :=
    stops_of_answer read note hanswer
  refine ⟨wellFounded_round, ⟨k, d, w', hk, hanswer, hstops⟩, fun k d w' h => rounds_of_next read note h, ?_, ?_⟩
  · intro s n w' h
    rw [h] at hstops
    have hb := (Balanced.start entry).rounds hrounds
    cases hstops with
    | finished =>
      have account : n + 0 = 1 + s.visited.length + s.companions.length := hb.account
      have hv := length_le_of_nodup hb.visited_nodup hb.visited_mem
      have hc := length_le_of_nodup hb.companions_nodup hb.companions_mem
      dsimp only at hv hc
      exact ⟨account, by omega⟩
  · intro c hrounds
    have hb := (Balanced.start entry).rounds hrounds
    exact ⟨hb.visited_nodup, hb.companions_nodup, hb.visited_mem, hb.companions_mem,
      c.found.visitedPaths_holds, c.found.companionPaths_holds, fun d hd => grows_of_rounds hd⟩

end Runs
end CBuild.Source
