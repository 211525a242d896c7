import CBuild.Manifest.Schema
import Mathlib.Tactic.MkIffOfInductiveProp

/-! A configuration is read key by key: what one key gives does not depend on where it stands, nor on what stands
under other keys. -/

namespace CBuild.Manifest

open Toml (Data)

def readAt {α : Type} (read : Data → Except Mismatch α) (es : List (String × Data)) (key : String)
    (default_ : α) : Except Mismatch α :=
  match es.lookup key with
  | some d => read d
  | none => .ok default_

/-- The entries turn the one configuration into the other. -/
@[mk_iff]
structure Reads (es : List (String × Data)) (m c : Manifest) : Prop where
  compiler : readAt textOf es "compiler" m.compiler = .ok c.compiler
  name : readAt textOf es "name" m.name = .ok c.name
  output : readAt textOf es "output" m.output = .ok c.output
  flags : readAt listOf es "flags" m.flags = .ok c.flags
  files : readAt listOf es "files" m.files = .ok c.files
  includes : readAt listOf es "includes" m.includes = .ok c.includes
  libs : readAt listOf es "libs" m.libs = .ok c.libs
  libraries : readAt listOf es "libraries" m.libraries = .ok c.libraries
  shell : readAt ShellHooks.ofData es "shell" m.shell = .ok c.shell

section Entries

variable {α : Type} {read : Data → Except Mismatch α} {es : List (String × Data)} {key other : String}
  {d : Data} {x : α} {m c : Manifest}

theorem readAt_self (read : Data → Except Mismatch α) (es : List (String × Data)) (key : String) (d : Data)
    (x : α) : readAt read ((key, d) :: es) key x = read d := by
  rw [readAt, List.lookup_cons_self]

theorem readAt_other (h : key ≠ other) : readAt read ((other, d) :: es) key x = readAt read es key x := by
  rw [readAt, readAt, List.lookup_cons, beq_eq_false_iff_ne.2 h]

theorem readAt_absent (h : key ∉ es.map Prod.fst) : readAt read es key x = .ok x := by
  have hnone : es.lookup key = none := by
    refine List.lookup_eq_none_iff.2 fun p hp => ?_
    have hne : key ≠ p.1 := fun he => h (he ▸ List.mem_map_of_mem hp)
    simpa using hne
  rw [readAt, hnone]

theorem exists_map_eq_ok {β : Type} (f : α → β) (r : Except Mismatch α) (P : β → Prop) :
    (∃ b, r.map f = .ok b ∧ P b) ↔ ∃ a, r = .ok a ∧ P (f a) := by
  cases r with
  | error e => simp [Except.map]
  | ok a => simp [Except.map]

theorem reads_cons (hk : key ∉ es.map Prod.fst) :
    Reads ((key, d) :: es) m c ↔ ∃ m', set m (key, d) = .ok m' ∧ Reads es m' c := by
  unfold set
  split
  case h_10 hc hn ho hfl hf hi hl hls hs =>
    have other {k : String} (h : ∀ d', (key, d) = (k, d') → False) : k ≠ key := fun he => h d (he ▸ rfl)
    simp only [reads_iff, readAt_other (other hc), readAt_other (other hn), readAt_other (other ho),
      readAt_other (other hfl), readAt_other (other hf), readAt_other (other hi), readAt_other (other hl),
      readAt_other (other hls), readAt_other (other hs), Except.ok.injEq, exists_eq_left']
  all_goals
    next he =>
    cases he
    rw [exists_map_eq_ok]
    simp [reads_iff, readAt_self, readAt_other, readAt_absent hk, and_left_comm]

/-- Entries under different keys are read as a configuration when each key is read as its field. -/
theorem foldlM_set_iff (hd : (es.map Prod.fst).Nodup) : es.foldlM set m = .ok c ↔ Reads es m c := by
  induction es generalizing m with
  | nil =>
    rw [List.foldlM_nil]
    simp only [pure, Except.pure, Except.ok.injEq, reads_iff, readAt, List.lookup_nil]
    cases m
    cases c
    exact Iff.of_eq (mk.injEq ..)
  | cons p es ih =>
    obtain ⟨key, d⟩ := p
    rw [List.map_cons, List.nodup_cons] at hd
    rw [List.foldlM_cons, reads_cons hd.1]
    cases hset : set m (key, d) with
    | error e => simp [bind, Except.bind]
    | ok m' => simpa [bind, Except.bind] using ih hd.2

end Entries

end CBuild.Manifest
