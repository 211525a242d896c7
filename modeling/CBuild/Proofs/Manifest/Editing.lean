import CBuild.Proofs.Manifest.Examples
import CBuild.Proofs.Toml.Keyed
import CBuild.Proofs.Toml.Putting
import Mathlib

/-! Replacing lists in a text of any kind. The listed keys have their new arrays, and whatever else the text
tells it tells afterwards, as long as the examples that are turned into lists are comments of the document. -/

namespace CBuild

open Toml

namespace Toml

def Document.dataAt? (d : Document) (name : List Char) : Option Data :=
  (d.top.child? name).map fun p => p.2.data

/-- The listed keys that a document has nothing for. -/
def Lists.missing (lists : Lists) (d : Document) : List (List Char) :=
  (lists.map Prod.fst).filter fun key => (d.top.child? key).isNone

theorem Lists.isBare_of_missing {lists : Lists} {d : Document} (hb : ∀ p ∈ lists, IsBare p.1) :
    ∀ key ∈ lists.missing d, IsBare key := by
  intro key hk
  obtain ⟨p, hp, rfl⟩ := List.mem_map.1 (List.mem_filter.1 hk).1
  exact hb p hp

theorem Document.dataAt?_of_only {d : Document} {cs : Children} {name : List Char}
    (h : Children.only (plainAll d.top) name = plainAll cs) :
    d.dataAt? name = (cs.child? name).map fun p => p.2.data := by
  -- data does not show how things are written, so both sides may be compared as plain trees
  have plain (ds : Children) : (ds.child? name).map (fun p => p.2.data) =
      (Children.child? (plainAll ds) name).map fun p => p.2.data := by
    rw [child?_plainAll, Option.map_map]
    refine congrArg (Option.map · _) (funext fun p => ?_)
    exact (Node.data_plain p.2).symm
  rw [dataAt?, plain d.top, ← Children.child?_only, h, ← plain cs]

theorem lookup_entriesData (d : Document) (name : List Char) :
    (entriesData d.top).lookup (String.ofList name) = d.dataAt? name := by
  have lookup (cs : Children) : (entriesData cs).lookup (String.ofList name) =
      (cs.child? name).map fun p => p.2.data := by
    induction cs with
    | nil => rfl
    | cons p cs ih =>
      obtain ⟨k, n⟩ := p
      have hname : (String.ofList name == String.ofList k.name) = decide (k.name = name) := by
        rw [Bool.eq_iff_iff, beq_iff_eq, decide_eq_true_eq, String.ofList_inj, eq_comm]
      rw [entriesData, List.lookup_cons, hname, Children.child?_cons, ih]
      by_cases h : k.name = name
      · simp [h]
      · simp [h]
  exact lookup d.top

theorem read?_of_strict? {s : List Char} {d : Document} (h : Document.strict? s = some d) :
    read? s = some (.table (entriesData d.top)) := by
  rw [read?, Document.parse?_of_strict? h]
  rfl

theorem nodup_entriesData {s : List Char} {d : Document} (h : Document.strict? s = some d) :
    ((entriesData d.top).map Prod.fst).Nodup :=
  (read?_keyed (read?_of_strict? h)).nodup

end Toml

section Editing

variable {text : List Char} {lists : Lists} {d : Document}

theorem replaceLists?_eq (hparse : Document.parse? text = some d) : replaceLists? text lists =
    (Document.parse? (fillExamples text (lists.missing d))).map fun filled => (filled.putArrays lists).text := by
  rw [replaceLists?, hparse]
  show (Document.parse? (fillExamples text (lists.missing d))).bind _ = _
  cases Document.parse? (fillExamples text (lists.missing d)) with
  | none => rfl
  | some filled => rfl

/-- A document whose examples are filled is one again, with lists more and examples less between its lines. What it
has under other keys is what it had. -/
theorem exists_filled {p : List Statement × List Char} (h : Document.strict? text = some d)
    (hd : (lists.map Prod.fst).Nodup) (hb : ∀ p ∈ lists, IsBare p.1)
    (ha : examplesApart (lists.missing d) [] (Text.pieces text) = true)
    (hread : Statement.readAll? (unmarked text) = some p) :
    ∃ xs p' d', xs.map (fun x => (x.key, x.line)) =
        (examplesIn (lists.missing d) (Text.pieces text)).map (fun l => (l.1, l.2.filter (· ≠ '\r'))) ∧
      (∀ key ∈ xs.map Statement.Example.key, key ∈ lists.missing d) ∧
      Statement.readAll? (unmarked (fillExamples text (lists.missing d))) = some p' ∧ Statement.Fills xs p p' ∧
      (Statement.commentsOf p).Perm (Statement.commentsOf p' ++ xs.flatMap fun x => comments x.line) ∧
      Document.strict? (fillExamples text (lists.missing d)) = some d' ∧
      ∀ name ∉ xs.map Statement.Example.key, Children.only (plainAll d'.top) name = Children.only (plainAll d.top) name := by
  have hmissing : (lists.missing d).Nodup := hd.filter _
  obtain ⟨xs, hxs, p', hread', hfills, hcomments⟩ := fillExamples_fills (Lists.isBare_of_missing (d := d) hb) ha hread
  obtain ⟨hnodup, hkeys⟩ := nodup_examplesIn hmissing (Text.pieces text)
  rw [← examples_keys hxs] at hnodup hkeys
  have hnone : ∀ key ∈ xs.map Statement.Example.key, d.top.child? key = none := fun key hk =>
    Option.isNone_iff_eq_none.1 (List.mem_filter.1 (hkeys key hk)).2
  obtain ⟨d', hd', hkeep⟩ := Document.strict?_of_gains h hnone hread hread' (hfills.gains hnodup)
  exact ⟨xs, p', d', hxs, hkeys, hread', hfills, hcomments, hd', hkeep⟩

theorem strict?_fillExamples (h : Document.strict? text = some d) (hd : (lists.map Prod.fst).Nodup)
    (hb : ∀ p ∈ lists, IsBare p.1) (ha : examplesApart (lists.missing d) [] (Text.pieces text) = true) :
    ∃ d', Document.strict? (fillExamples text (lists.missing d)) = some d' ∧
      ∀ name ∉ lists.map Prod.fst, Children.only (plainAll d'.top) name = Children.only (plainAll d.top) name := by
  obtain ⟨sts, top, gs, hread, -⟩ := Document.strict?_eq_some.1 h
  obtain ⟨xs, p', d', -, hkeys, -, -, -, hd', hkeep⟩ := exists_filled h hd hb ha hread
  exact ⟨d', hd', fun name hn => hkeep name fun hf => hn (List.mem_filter.1 (hkeys name hf)).1⟩

theorem exists_edited (h : Document.strict? text = some d) (hd : (lists.map Prod.fst).Nodup)
    (hb : ∀ p ∈ lists, IsBare p.1) (ha : examplesApart (lists.missing d) [] (Text.pieces text) = true) :
    ∃ edited d', replaceLists? text lists = some edited ∧ Document.strict? edited = some d' ∧
      (∀ name ∉ lists.map Prod.fst, d'.dataAt? name = d.dataAt? name) ∧
      ∀ p ∈ lists, d'.dataAt? p.1 = some (.array (p.2.map fun v => .text (String.ofList v))) := by
  obtain ⟨filled, hfilled, hkeep⟩ := strict?_fillExamples h hd hb ha
  obtain ⟨⟨top, gs, hapart⟩, htrailing⟩ := Document.readApart hfilled
  obtain ⟨d', hd', hother, hlisted⟩ := hapart.strict?_putAll hd htrailing
  refine ⟨(filled.putArrays lists).text, d', ?_, hd', fun name hn => ?_, fun p hp => ?_⟩
  · rw [replaceLists?_eq (Document.parse?_of_strict? h), Document.parse?_of_strict? hfilled, Option.map_some]
  · have hsame : Children.only (plainAll d'.top) name = plainAll (d.top.only name) := by
      rw [hother name hn, ← only_plainAll, hkeep name hn, only_plainAll]
    rw [Document.dataAt?_of_only hsame, Children.child?_only]
    rfl
  · obtain ⟨k, after, honly, hk⟩ := hlisted p hp
    rw [Document.dataAt?_of_only honly, Children.child?_cons, if_pos hk]
    rfl

/-- An edit of a document whose examples stand between its lines succeeds and gives a document. In it each
listed key has its array, each other key what it had before, and no key comes twice. -/
theorem replaceLists?_edits (h : Document.strict? text = some d) (hd : (lists.map Prod.fst).Nodup)
    (hb : ∀ p ∈ lists, IsBare p.1) (ha : examplesApart (lists.missing d) [] (Text.pieces text) = true) :
    ∃ edited old new, replaceLists? text lists = some edited ∧ (Document.strict? edited).isSome = true ∧
      read? text = some (.table old) ∧ read? edited = some (.table new) ∧ (new.map Prod.fst).Nodup ∧
      (∀ name ∉ lists.map Prod.fst, new.lookup (String.ofList name) = old.lookup (String.ofList name)) ∧
      ∀ p ∈ lists, new.lookup (String.ofList p.1) = some (.array (p.2.map fun v => .text (String.ofList v))) := by
  obtain ⟨edited, d', hedited, hd', hother, hlisted⟩ := exists_edited h hd hb ha
  refine ⟨edited, entriesData d.top, entriesData d'.top, hedited, ?_, read?_of_strict? h, read?_of_strict? hd',
    nodup_entriesData hd', fun name hn => ?_, fun p hp => ?_⟩
  · rw [hd']
    rfl
  · rw [lookup_entriesData, lookup_entriesData, hother name hn]
  · rw [lookup_entriesData, hlisted p hp]

def halfFilled : List Char :=
  "s = \"\"\"\nx\n[y]\n\"\"\"\nname = 1 # n\n# files = x\n[t.u]\nfiles = 2\n".toList

theorem replaceLists?_edits_halfFilled :
    ∃ edited old new, replaceLists? halfFilled [("files".toList, ["a".toList]), ("libs".toList, [])] = some edited ∧
      (Document.strict? edited).isSome = true ∧
      read? halfFilled = some (.table old) ∧ read? edited = some (.table new) ∧ (new.map Prod.fst).Nodup ∧
      (∀ name ∉ ["files".toList, "libs".toList], new.lookup (String.ofList name) = old.lookup (String.ofList name)) ∧
      ∀ p ∈ [("files".toList, ["a".toList]), ("libs".toList, [])],
        new.lookup (String.ofList p.1) = some (.array (p.2.map fun v => .text (String.ofList v))) := by
  have hread : ((Document.strict? halfFilled).any fun d => examplesApart
      (Lists.missing [("files".toList, ["a".toList]), ("libs".toList, [])] d) [] (Text.pieces halfFilled)) = true := by cbv
  obtain ⟨d, hd, hapart⟩ := (Option.any_eq_true _ _).1 hread
  have hkeys : ([("files".toList, ["a".toList]), ("libs".toList, [])].map Prod.fst).Nodup := by decide
  have hbare : ∀ p ∈ [("files".toList, ["a".toList]), ("libs".toList, [])], IsBare p.1 := by
    simpa using ⟨⟨by decide, List.all_eq_true.1 (by decide)⟩, by decide, List.all_eq_true.1 (by decide)⟩
  exact replaceLists?_edits hd hkeys hbare hapart

end Editing

end CBuild
