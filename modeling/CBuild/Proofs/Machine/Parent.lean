import CBuild.Path
import CBuild.Proofs.Text.Lines
import Mathlib.Data.List.DropRight

/-! The spelling of a path with a file name, taken apart: what stands before the name, the name, and what means
nothing behind it. The parent is spelled by what stands before. A path goes up when its parent does, or ends so. -/

namespace CBuild.Path

variable {p q : Path} {n : List Char}

theorem isIdle_iff {part : List Char} : isIdle part = true ↔ part = [] ∨ part = ['.'] :=
  decide_eq_true_iff

theorem dropIdleEnd_append (parts : List (List Char)) :
    ∃ idle, parts = dropIdleEnd parts ++ idle ∧ ∀ part ∈ idle, part = [] ∨ part = ['.'] :=
  ⟨parts.rtakeWhile isIdle, List.rdropWhile_append_rtakeWhile.symm,
    fun _ h => isIdle_iff.1 (List.mem_rtakeWhile_imp h)⟩

theorem slash_not_mem (s : List Char) : ∀ part ∈ s.splitOn '/', '/' ∉ part :=
  Text.not_mem_splitOn '/' s

theorem intercalate_parts (p : Path) : ['/'].intercalate p.parts = p.chars :=
  List.intercalate_splitOn _

theorem parts_intercalate {l m : List (List Char)} (h : p.parts = l ++ m) (hl : l ≠ []) :
    (⟨['/'].intercalate l⟩ : Path).parts = l :=
  List.splitOn_intercalate _ (fun part hp => slash_not_mem p.chars part (by
    change part ∈ p.parts
    rw [h]
    exact List.mem_append_left _ hp)) hl

theorem intercalate_prefix (l m : List (List Char)) : ['/'].intercalate l <+: ['/'].intercalate (l ++ m) := by
  induction l with
  | nil => simp
  | cons a l ih =>
    rcases l with _ | ⟨b, l⟩
    · rcases m with _ | ⟨c, m⟩
      · simp
      · rw [List.intercalate_singleton, List.singleton_append, List.intercalate_cons_cons, List.append_assoc]
        exact List.prefix_append _ _
    · rw [List.cons_append, List.cons_append, List.intercalate_cons_cons, List.intercalate_cons_cons]
      exact (List.prefix_append_right_inj _).2 ih

structure Leading (q p : Path) (pre : List (List Char)) : Prop where
  prefixed : q.chars <+: p.chars
  written : q.chars ≠ []
  spelled : ∃ kept old new, pre = kept ++ old ∧ q.parts = kept ++ new ∧
    (∀ part ∈ old, part = [] ∨ part = ['.']) ∧ ∀ part ∈ new, part = [] ∨ part = ['.']

theorem last_dropIdleEnd {parts kept : List (List Char)} {part : List Char}
    (h : dropIdleEnd parts = kept ++ [part]) : ¬(part = [] ∨ part = ['.']) := by
  have hself : (kept ++ [part]).rdropWhile isIdle = kept ++ [part] := by
    rw [← h]
    exact List.rdropWhile_idempotent _ _
  have hlast := List.rdropWhile_eq_self_iff.1 hself (by simp)
  rwa [List.getLast_append_singleton, isIdle_iff] at hlast

theorem anchored_cases (p : Path) : ∃ idle, p.parts = p.anchored.1 ++ p.anchored.2 ++ idle ∧
    (∀ part ∈ idle, part = [] ∨ part = ['.']) ∧
    (p.isAbsolute ∧ p.anchored.1 = [[]] ∨ ¬p.isAbsolute ∧ (p.anchored.1 = [['.']] ∨ p.anchored.1 = [])) := by
  rw [anchored]
  split
  · next h =>
    obtain ⟨idle, hparts, hidle⟩ := dropIdleEnd_append (p.parts.drop 1)
    refine ⟨idle, ?_, hidle, ?_⟩
    · dsimp only
      rw [List.append_assoc, ← hparts, List.take_append_drop]
    · by_cases ha : p.isAbsolute
      · left
        refine ⟨ha, ?_⟩
        obtain ⟨cs, hcs⟩ := List.head?_eq_some_iff.1 (of_decide_eq_true ha)
        simp [parts, hcs, List.splitOn_cons_eq_if_modifyHead]
      · have hs : p.parts.head? = some ['.'] := of_decide_eq_true (h.resolve_left ha)
        obtain ⟨rest, hrest⟩ := List.head?_eq_some_iff.1 hs
        exact .inr ⟨ha, .inl (by simp [hrest])⟩
  · next h =>
    obtain ⟨idle, hparts, hidle⟩ := dropIdleEnd_append p.parts
    exact ⟨idle, hparts, hidle, .inr ⟨fun ha => h (.inl ha), .inr rfl⟩⟩

theorem exists_of_fileName? (h : p.fileName? = some n) :
    ∃ pre idle, p.parts = pre ++ n :: idle ∧ (∀ part ∈ idle, part = [] ∨ part = ['.']) ∧
      ¬(n = [] ∨ n = ['.']) ∧ n ≠ ['.', '.'] ∧ ∃ q, p.parent? = some q ∧ (q.chars = [] ∨ q.Leading p pre) := by
  obtain ⟨idle, hparts, hidle, hanchor⟩ := p.anchored_cases
  rw [fileName?] at h
  split at h
  case h_2 => cases h
  next part hlast =>
  split at h
  · cases h
  next hup =>
  cases h
  obtain ⟨body, hbody⟩ := List.getLast?_eq_some_iff.1 hlast
  obtain ⟨old, hkept, hold⟩ := dropIdleEnd_append body
  rw [hbody, List.append_assoc, List.append_assoc] at hparts
  refine ⟨p.anchored.1 ++ body, idle, by simpa using hparts, hidle, ?_, hup, ?_⟩
  · rw [anchored] at hbody
    split at hbody <;> exact last_dropIdleEnd hbody
  · rw [parent?]
    dsimp only
    rw [hbody, List.dropLast_concat]
    rcases List.eq_nil_or_concat (dropIdleEnd body) with hk | ⟨kept, part, hk⟩
    · rw [hk, List.nil_append] at hkept
      rw [hk]
      refine ⟨_, if_pos (by simp), ?_⟩
      rcases hanchor with ⟨ha, hone⟩ | ⟨ha, hone | hone⟩
      · obtain ⟨cs, hcs⟩ := List.head?_eq_some_iff.1 (of_decide_eq_true ha)
        rw [if_pos ha, hone]
        refine .inr ⟨⟨cs, hcs.symm⟩, by simp, [[]], body, [[]], rfl, rfl, hkept ▸ hold, by simp⟩
      · rw [if_neg ha, hone]
        refine .inr ⟨?_, by simp, [['.']], body, [], rfl, rfl, hkept ▸ hold, by simp⟩
        rw [← p.intercalate_parts, hparts, hone]
        exact intercalate_prefix [['.']] _
      · rw [if_neg ha, hone]
        exact .inl rfl
    · rw [List.concat_eq_append] at hk
      have hmean := last_dropIdleEnd hk
      obtain ⟨first, others, hcons⟩ := List.exists_cons_of_ne_nil (List.append_ne_nil_of_right_ne_nil kept
        (List.cons_ne_nil part []))
      rw [hk, hcons]
      refine ⟨_, rfl, .inr ?_⟩
      rw [hk] at hkept
      rw [← hcons]
      have hparts : p.parts = (p.anchored.1 ++ (kept ++ [part])) ++ (old ++ ([n] ++ idle)) := by
        rw [hparts, hkept]
        simp only [List.append_assoc]
      have hspelled := parts_intercalate hparts (by simp)
      refine ⟨?_, ?_, _, old, [], ?_, hspelled.trans (List.append_nil _).symm, hold, by simp⟩
      · rw [← p.intercalate_parts, hparts]
        exact intercalate_prefix _ _
      · intro hnil
        dsimp only at hnil
        rw [hnil] at hspelled
        have hlast := congrArg List.getLast? hspelled
        rw [← List.append_assoc, List.getLast?_concat] at hlast
        exact hmean (.inl (Option.some.inj hlast).symm)
      · rw [List.append_assoc, ← hkept]

section Climbing

/-- A path that has a `..` in it. -/
def GoesUp (p : Path) : Prop :=
  Component.parent ∈ p.components

instance (p : Path) : Decidable p.GoesUp :=
  inferInstanceAs (Decidable (_ ∈ _))

theorem goesUp_iff : p.GoesUp ↔ ['.', '.'] ∈ p.parts := by
  have hpart (part : List Char) : Component.ofPart? part = some .parent ↔ part = ['.', '.'] := by
    unfold Component.ofPart?
    split
    next h => rcases h with rfl | rfl <;> simp
    next =>
      split
      next h => simp [h]
      next h => simp [h]
  have hnamed : Component.parent ∈ p.parts.filterMap Component.ofPart? ↔ ['.', '.'] ∈ p.parts := by
    rw [List.mem_filterMap]
    constructor
    · rintro ⟨part, hmem, hp⟩
      rwa [(hpart part).1 hp] at hmem
    · intro hmem
      exact ⟨_, hmem, (hpart _).2 rfl⟩
  unfold GoesUp components
  split
  · simpa using hnamed
  · split
    · simpa using hnamed
    · exact hnamed

/-- Without a name at its end, a path that does not go up is spelled by parts that mean nothing. -/
theorem idle_of_fileName? (h : p.fileName? = none) (hup : ¬p.GoesUp) : ∀ part ∈ p.parts, part = [] ∨ part = ['.'] := by
  obtain ⟨idle, hparts, hidle, hanchor⟩ := p.anchored_cases
  have hbody : p.anchored.2 = [] := by
    unfold fileName? at h
    split at h
    next part hlast =>
      split at h
      next hdots =>
        have hmem : part ∈ p.parts := by
          rw [hparts]
          simp [List.mem_of_getLast? hlast]
        rw [hdots] at hmem
        exact absurd (goesUp_iff.2 hmem) hup
      next => cases h
    next hlast => exact List.getLast?_eq_none_iff.1 hlast
  rw [hbody, List.append_nil] at hparts
  rw [hparts]
  intro part hmem
  rcases List.mem_append.1 hmem with hmem | hmem
  · rcases hanchor with ⟨-, hone⟩ | ⟨-, hone | hone⟩
    · rw [hone] at hmem
      exact .inl (List.mem_singleton.1 hmem)
    · rw [hone] at hmem
      exact .inr (List.mem_singleton.1 hmem)
    · rw [hone] at hmem
      cases hmem
  · exact hidle part hmem

theorem GoesUp.of_parent? (h : q.GoesUp) (hname : p.fileName? = some n) (hq : p.parent? = some q) : p.GoesUp := by
  obtain ⟨pre, idle, hparts, -, -, -, q', hq', hspelled⟩ := exists_of_fileName? hname
  rw [hq] at hq'
  cases hq'
  rcases hspelled with hnil | ⟨-, -, kept, old, new, rfl, hnew, -, hidle⟩
  · have hnone : ¬(Path.mk []).GoesUp := by decide
    rw [show q = ⟨[]⟩ from congrArg Path.mk hnil] at h
    exact absurd h hnone
  · rw [goesUp_iff, hnew, List.mem_append] at h
    rw [goesUp_iff, hparts]
    rcases h with h | h
    · simp [h]
    · rcases hidle _ h with h | h <;> cases h

end Climbing

end CBuild.Path
