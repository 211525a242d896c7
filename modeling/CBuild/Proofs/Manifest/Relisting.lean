import CBuild.Proofs.Manifest.Editing
import CBuild.Proofs.Manifest.Reading
import CBuild.Proofs.Manifest.Replacing

/-! A configuration whose text is edited is the same configuration with the new lists. -/

namespace CBuild.Manifest

open Toml (Data Document Children)

variable {lists : Lists} {c : Manifest}

section Entries

variable {es es' : List (String × Data)}

theorem readAt_congr {α : Type} (read : Data → Except Mismatch α) {key : String}
    (h : es'.lookup key = es.lookup key) (x : α) : readAt read es' key x = readAt read es key x := by
  rw [readAt, readAt, h]

theorem Reads.withLists (h : Reads es {} c)
    (hkeys : ∀ p ∈ lists, p.1 ∈ ["flags", "files", "includes", "libs", "libraries"])
    (hother : ∀ key, lists.lookup key = none → es'.lookup key = es.lookup key)
    (hlisted : ∀ key new, lists.lookup key = some new → es'.lookup key = some (.array (new.map .text))) :
    Reads es' {} (c.withLists lists) := by
  have unlisted {key : String} (hk : key ∉ ["flags", "files", "includes", "libs", "libraries"]) :
      lists.lookup key = none := by
    rw [← Option.not_isSome_iff_eq_none, Option.isSome_iff_exists, ← mem_keys_iff]
    intro hm
    obtain ⟨p, hp, rfl⟩ := List.mem_map.1 hm
    exact hk (hkeys p hp)
  have kept {α : Type} {read : Data → Except Mismatch α} {key : String} {x y : α}
      (hk : key ∉ ["flags", "files", "includes", "libs", "libraries"]) (hr : readAt read es key x = .ok y) :
      readAt read es' key x = .ok y :=
    (readAt_congr read (hother key (unlisted hk)) x).trans hr
  have given {key : String} {old : List String} (hr : readAt listOf es key [] = .ok old) :
      readAt listOf es' key [] = .ok ((lists.lookup key).getD old) := by
    cases hl : lists.lookup key with
    | none => exact (readAt_congr listOf (hother key hl) []).trans hr
    | some new =>
      rw [readAt, hlisted key new hl]
      exact listOf_texts new
  exact ⟨kept (by decide) h.compiler, kept (by decide) h.name, kept (by decide) h.output, given h.flags,
    given h.files, given h.includes, given h.libs, given h.libraries, kept (by decide) h.shell⟩

end Entries

section Texts

variable {d : Document} {text : String}

theorem parse_of_strict? (h : Document.strict? text.toList = some d) (hr : Reads (Toml.entriesData d.top) {} c) :
    parse text = .ok c := by
  rw [parse, Toml.read?_of_strict? h]
  dsimp only
  rw [ofEntries, (foldlM_set_iff (Toml.nodup_entriesData h)).2 hr]
  rfl

theorem reads_of_parse (h : Document.strict? text.toList = some d) (hc : parse text = .ok c) :
    Reads (Toml.entriesData d.top) {} c := by
  rw [parse, Toml.read?_of_strict? h] at hc
  dsimp only at hc
  rw [← foldlM_set_iff (Toml.nodup_entriesData h)]
  cases hr : ofEntries (Toml.entriesData d.top) with
  | error e =>
    rw [hr] at hc
    cases hc
  | ok c' =>
    rw [hr] at hc
    cases hc
    exact hr

theorem isBare_of_key {key : String} (h : key ∈ ["flags", "files", "includes", "libs", "libraries"]) :
    Toml.IsBare key.toList := by
  have hslot : key ∈ slots.map Slot.key := h
  obtain ⟨s, hs, rfl⟩ := List.mem_map.1 hslot
  exact isBare_key s hs

/-- Editing the text of a configuration makes it the text of the same configuration with the new lists. -/
theorem parse_replaceLists? (h : Document.strict? text.toList = some d) (hc : parse text = .ok c)
    (hd : (lists.map Prod.fst).Nodup)
    (hkeys : ∀ p ∈ lists, p.1 ∈ ["flags", "files", "includes", "libs", "libraries"])
    (ha : examplesApart (lists.toChars.missing d) [] (Text.pieces text.toList) = true) :
    ∃ edited, replaceLists? text.toList lists.toChars = some edited ∧
      parse (String.ofList edited) = .ok (c.withLists lists) := by
  have hbare : ∀ p ∈ lists.toChars, Toml.IsBare p.1 := by
    intro p hp
    obtain ⟨q, hq, rfl⟩ := List.mem_map.1 hp
    exact isBare_of_key (hkeys q hq)
  obtain ⟨edited, d', hedited, hd', hother, hlisted⟩ := exists_edited h (nodup_toChars hd) hbare ha
  refine ⟨edited, hedited, ?_⟩
  have hstrict : Document.strict? (String.ofList edited).toList = some d' := by rw [String.toList_ofList, hd']
  refine parse_of_strict? hstrict ((reads_of_parse h hc).withLists hkeys (fun key hk => ?_) fun key new hk => ?_)
  · rw [← String.ofList_toList (s := key), Toml.lookup_entriesData, Toml.lookup_entriesData]
    refine hother _ fun hm => ?_
    rw [mem_keys_toChars, mem_keys_iff, hk] at hm
    simp at hm
  · have hmem : (key, new) ∈ lists := by
      obtain ⟨before, after, he, -⟩ := List.lookup_eq_some_iff.1 hk
      simp [he]
    have hm : (key.toList, new.map String.toList) ∈ lists.toChars := List.mem_map_of_mem hmem
    rw [← String.ofList_toList (s := key), Toml.lookup_entriesData, hlisted _ hm]
    simp

end Texts

end CBuild.Manifest
