import CBuild.Proofs.Manifest.Editing
import CBuild.Proofs.Toml.Rewriting

/-! Replacing lists once more. What has been edited has all of its lists, so the second edit fills no examples, and
it puts the arrays that are there. -/

namespace CBuild

open Toml

variable {text : List Char} {keys : List (List Char)} {lists : Lists} {d : Document}

theorem fillExamplesIn_nil (lines : List (List Char)) : fillExamplesIn [] lines = lines := by
  induction lines with
  | nil => rfl
  | cons line lines ih =>
    rw [fillExamplesIn, List.find?_nil]
    dsimp only
    rw [ih, ite_self]

theorem fillExamples_nil (text : List Char) : fillExamples text [] = text := by
  rw [fillExamples, fillExamplesIn_nil, Text.flatten_pieces]

theorem Toml.Lists.missing_eq_nil (h : ∀ p ∈ lists, (d.top.child? p.1).isSome = true) : lists.missing d = [] := by
  rw [missing, List.filter_eq_nil_iff]
  intro key hkey
  obtain ⟨p, hp, rfl⟩ := List.mem_map.1 hkey
  rw [Bool.not_eq_true, Option.isNone_eq_false_iff]
  exact h p hp

/-- The text that the arrays are put into is a document in which no dotted key adds to a table that headers make. -/
def editsApart (text : List Char) (lists : Lists) : Bool :=
  (Document.parse? text).all fun d => (Document.strict? (fillExamples text (lists.missing d))).isSome

/-- An edited text stays as it is when the same lists are put into it again. -/
theorem replaceLists?_again {edited : List Char} (hd : (lists.map Prod.fst).Nodup)
    (hapart : editsApart text lists = true) (h : replaceLists? text lists = some edited) :
    replaceLists? edited lists = some edited := by
  cases hparse : Document.parse? text with
  | none =>
    rw [replaceLists?, hparse] at h
    cases h
  | some d =>
    rw [editsApart, hparse, Option.all_some] at hapart
    obtain ⟨filled, hfilled⟩ := Option.isSome_iff_exists.1 hapart
    obtain ⟨⟨top, gs, hapart⟩, htrailing⟩ := Document.readApart hfilled
    obtain ⟨es, hes, hlisted, htext⟩ := hapart.reread_putAll hd htrailing
    rw [replaceLists?_eq hparse, Document.parse?_of_strict? hfilled, Option.map_some, Option.some.injEq] at h
    subst h
    have hagain : Document.parse? (filled.putArrays lists).text = some ⟨es, filled.trailing⟩ :=
      Document.parse?_of_strict? hes
    rw [replaceLists?_eq hagain, Lists.missing_eq_nil hlisted, fillExamples_nil, hagain, Option.map_some,
      Option.some.injEq]
    exact congrArg (· ++ filled.trailing) htext

end CBuild
