import Mathlib
import CBuild.Proofs.Manifest.Apart
import CBuild.Proofs.Manifest.Editing
import CBuild.Proofs.Manifest.Turning
import CBuild.Proofs.Toml.Retaining

/-! What replacing lists keeps of a text: every line that is not turned into a list, and every comment that does
not go with one that is turned or replaced. -/

namespace CBuild

open Toml Children

namespace Toml

section Arrays

variable {cs ds : Children} {lists : Lists} {name : List Char} {e : Entry} {k : Key} {n : Node}

theorem isArray_plain (n : Node) : n.plain.isArray = n.isArray := by
  cases n with
  | value gap v after =>
    obtain ⟨d, spelling⟩ := v
    cases d <;> rfl
  | table how cs => rfl
  | tables es => rfl

theorem all_isArray_of_only (h : only (plainAll ds) name = only (plainAll cs) name) :
    (ds.child? name).all (fun c => c.2.isArray) = (cs.child? name).all fun c => c.2.isArray := by
  have plain (cs : Children) : (cs.child? name).all (fun c => c.2.isArray) =
      (child? (only (plainAll cs) name) name).all fun c => c.2.isArray := by
    rw [child?_only, child?_plainAll, Option.all_map]
    exact congrArg (Option.all · _) (funext fun c => (isArray_plain c.2).symm)
  have hsame := plain ds
  rw [h] at hsame
  exact hsame.trans (plain cs).symm

theorem child?_of_mem_printedEntries (hd : (childNames cs).Nodup) (he : e ∈ cs.printedEntries)
    (hn : names e.path = [name]) : ∃ k, cs.child? name = some (k, .value e.gap e.value e.after) := by
  obtain ⟨p, hp, he⟩ : ∃ p ∈ cs, e ∈ printedEntries [p] := by
    clear hd
    induction cs with
    | nil => cases he
    | cons p cs ih =>
      rw [← List.singleton_append, printedEntries_append, List.mem_append] at he
      rcases he with he | he
      · exact ⟨p, List.mem_cons_self, he⟩
      · obtain ⟨q, hq, he⟩ := ih he
        exact ⟨q, List.mem_cons_of_mem p hq, he⟩
  obtain ⟨k, n⟩ := p
  cases n with
  | value gap v after =>
    rw [printedEntries_value, List.mem_singleton] at he
    subst he
    have hname : k.name = name := (List.cons.inj hn).1
    exact ⟨k, by rw [← hname]; exact child?_of_mem hd hp⟩
  | table how sub =>
    have hlong : ∀ es : List (Key × Node), e ∉ entriesUnder [k] es := by
      intro es hm
      rw [entriesUnder_cons] at hm
      obtain ⟨f, hf, rfl⟩ := List.mem_map.1 hm
      have hne := entriesUnder_path_ne_nil [] es f hf
      rw [Entry.under, names, List.map_cons] at hn
      exact hne (List.map_eq_nil_iff.1 (List.cons.inj hn).2)
    cases how with
    | dotted =>
      rw [printedEntries, printedPart, ownPart_single, Node.ownUnder, List.map_singleton, closeChild_table,
        entriesUnder, Node.entries, entriesUnder, List.append_nil] at he
      exact absurd he (hlong _)
    | implied => cases he
    | headed hdg => cases he
  | tables es => cases he

theorem Document.child?_of_entry {s t : List Char} {d : Document} {sts : List Statement}
    (h : Document.strict? s = some d) (hread : Statement.readAll? (unmarked s) = some (sts, t))
    (he : e ∈ (Statement.sections sts).1) (hn : names e.path = [name]) :
    ∃ k, d.top.child? name = some (k, .value e.gap e.value e.after) := by
  obtain ⟨sts₀, top, gs, hread₀, htop, hgs, hgraft⟩ := Document.strict?_eq_some.1 h
  rw [hread, Option.some.injEq, Prod.mk.injEq] at hread₀
  obtain ⟨rfl, rfl⟩ := hread₀
  obtain ⟨hes, hss⟩ := Statement.sections_known (Statement.readAll?_known hread).1
  have hapart : ReadApart top gs d.top := ⟨grown_of_defineAll? hes htop, ownTables?_read hss hgs, hgraft⟩
  obtain ⟨fs, hfs, hperm⟩ := kept_of_defineAll? hes htop
  obtain ⟨f, hf, hk⟩ := exists_of_forall₂ hfs he
  have hprinted : f ∈ d.top.printedEntries := by
    rw [hapart.printedEntries_eq]
    exact hperm.symm.subset hf
  obtain ⟨k, hc⟩ := child?_of_mem_printedEntries hapart.layout.1.nodup hprinted (hk.names.trans hn)
  rw [hk.gap, hk.value, hk.after] at hc
  exact ⟨k, hc⟩

end Arrays

end Toml

section Retaining

theorem Toml.Document.isSome_readAll? {s : List Char} {d : Document} (h : Document.parse? s = some d) :
    (Statement.readAll? (unmarked s)).isSome = true := by
  obtain ⟨p, hp, -⟩ := Option.bind_eq_some_iff.1 h
  exact Option.isSome_iff_exists.2 ⟨p, hp⟩

theorem comments_unmarked (s : List Char) : comments (unmarked s) = comments s := by
  cases s with
  | nil => rfl
  | cons c s =>
    rw [unmarked_cons]
    split
    · next hc =>
      subst hc
      rw [comments_cons (by decide)]
    · rfl

variable {text edited : List Char} {lists : Lists} {d : Document} {xs ys zs ws : List Statement.Example}

/-- A document whose examples have been turned into lists takes lists as it did before. -/
theorem takes_of_fills {p p' : List Statement × List Char} {s : List Char} {d' : Document}
    (hfills : Contents.Fills ys zs ws (told p) (told p')) (hd' : Document.strict? s = some d')
    (hread : Statement.readAll? (unmarked s) = some p')
    (hkeep : ∀ name ∉ (ys ++ zs ++ ws).map Statement.Example.key,
      only (plainAll d'.top) name = only (plainAll d.top) name)
    (ht : d.top.takes lists = true) : d'.top.takes lists = true := by
  refine List.all_eq_true.2 fun p hp => ?_
  by_cases hk : p.1 ∈ (ys ++ zs ++ ws).map Statement.Example.key
  · obtain ⟨fs, -, hperm⟩ := hfills.top
    obtain ⟨x, hx, hkey⟩ := List.mem_map.1 hk
    have hname : names x.entry.path = [p.1] := congrArg (fun k => [k]) hkey
    have hentry := hperm.symm.subset (List.mem_append_right fs (List.mem_map_of_mem hx))
    obtain ⟨k, hc⟩ := Document.child?_of_entry hd' hread hentry hname
    rw [hc]
    rfl
  · rw [all_isArray_of_only (hkeep p.1 hk)]
    exact List.all_eq_true.1 ht p hp

/-- Replacing lists leaves every line of the text as it is written, if no other line writes the keys that it shares in
another way, and where it is as to what stands in front of it. Of that no more goes than the examples that the missing
keys take, and what is above such an example is in front of the list that stands for it. No comment is lost but those
of these examples, and those inside the arrays that are replaced. -/
theorem replaceLists?_retains (h : Document.strict? text = some d) (hd : (lists.map Prod.fst).Nodup)
    (hb : ∀ p ∈ lists, IsBare p.1) (ht : d.top.takes lists = true) (hone : oneLine text = true)
    (hmark : hidesHeader text = false) (hr : replaceLists? text lists = some edited) :
    ∃ p p' ys zs ws, contents? text = some p ∧ contents? edited = some p' ∧ Contents.Retained lists ys zs ws p p' ∧
      AreTaken (lists.missing d) (Text.pieces text) (ys ++ zs ++ ws) ∧
      (comments text).Perm
        (comments edited ++ (ys ++ zs ++ ws).flatMap (fun x => comments x.line) ++ p.1.replaced lists) := by
  rw [replaceLists?_eq (Document.parse?_of_strict? h)] at hr
  obtain ⟨d₁, hparse, rfl⟩ := Option.map_eq_some_iff.1 hr
  obtain ⟨sts, top, gs, hread, htop, hgs, hgraft⟩ := Document.strict?_eq_some.1 h
  have hbare := Lists.isBare_of_missing (d := d) hb
  have hmissing : (lists.missing d).Nodup := hd.filter _
  have ha := examplesApart_of_fillExamples hbare hone hmark (by rw [hread]; rfl) (Document.isSome_readAll? hparse)
  obtain ⟨xs, ⟨sts₁, t₁⟩, d₁', hxs, hkeys, hread₁, hfills, hcomments, hstrict, hkeep⟩ := exists_filled h hd hb ha hread
  obtain rfl : d₁' = d₁ := Option.some.inj ((Document.parse?_of_strict? hstrict).symm.trans hparse)
  have htaken := areTaken_of_examplesIn hbare hmissing hxs
  obtain ⟨ys, zs, ws, rfl, hcontents⟩ := contents_fills hfills
  have ht₁ : d₁'.top.takes lists = true := takes_of_fills hcontents hstrict hread₁ hkeep ht
  obtain ⟨sts₂, new, hread₂, hnew, hrecurs⟩ := Document.recurs hstrict hread₁ hd ht₁
  obtain ⟨hes, hss⟩ := Statement.sections_known (Statement.readAll?_known hread₁).1
  obtain ⟨hheads, hkept⟩ := isSome_child?_of_graftAll? hgraft
  have present {key : List Char} (hc : (d.top.child? key).isSome = true) :
      key ∉ (ys ++ zs ++ ws).map Statement.Example.key := fun hk => by
    rw [Option.isNone_iff_eq_none.1 (List.mem_filter.1 (hkeys key hk)).2] at hc
    cases hc
  have hretained : Contents.Retained lists ys zs ws (told (sts, d.trailing)) (told (sts₂, t₁)) := by
    refine hcontents.retained hrecurs rfl hnew hes (fun s hs => (hss s hs).2) (fun e he => ?_) fun s hs => ?_
    · exact present (hkept _ ((isSome_child?_of_defineAll? htop).1 e he))
    · obtain ⟨g, hg, he, -⟩ := exists_of_forall₂ (forall₂_ownTables? hgs) hs
      exact present (he ▸ hheads g hg)
  refine ⟨_, _, ys, zs, ws, by rw [contents?, hread]; rfl, ?_, hretained, htaken, ?_⟩
  · rw [contents?, Statement.unmarked_of_readAll? hread₂, hread₂]
    rfl
  · have htext := Statement.comments_perm hread
    have hedited := Statement.comments_perm hread₂
    have hlines := hrecurs.comments_perm hnew
    have hreplaced := hcontents.replaced_perm lists
    rw [comments_unmarked] at htext
    rw [commentsOf_eq] at hedited
    rw [commentsOf_eq sts₁] at hcomments
    rw [List.perm_iff_count] at *
    intro a
    have h1 := htext a
    have h2 := hcomments a
    have h3 := hlines a
    have h4 := hreplaced a
    have h5 := hedited a
    simp only [told, List.count_append] at h1 h2 h3 h4 h5 ⊢
    omega

theorem replaceLists?_retains_noted :
    ∃ d p p' ys zs ws,
      Document.strict? "# m\nx.y = 1 # n\n\n# files = 1\n[t]\n# files = 2\n".toList = some d ∧
      contents? "# m\nx.y = 1 # n\n\n# files = 1\n[t]\n# files = 2\n".toList = some p ∧
      contents? "# m\nx.y = 1 # n\n\nfiles = [\"a\"]\n[t]\n# files = 2\n".toList = some p' ∧
      Contents.Retained [("files".toList, ["a".toList])] ys zs ws p p' ∧
      AreTaken (Lists.missing [("files".toList, ["a".toList])] d)
        (Text.pieces "# m\nx.y = 1 # n\n\n# files = 1\n[t]\n# files = 2\n".toList) (ys ++ zs ++ ws) ∧
      (comments "# m\nx.y = 1 # n\n\n# files = 1\n[t]\n# files = 2\n".toList).Perm
        (comments "# m\nx.y = 1 # n\n\nfiles = [\"a\"]\n[t]\n# files = 2\n".toList ++
          (ys ++ zs ++ ws).flatMap (fun x => comments x.line) ++ p.1.replaced [("files".toList, ["a".toList])]) := by
  have htakes : ((Document.strict? "# m\nx.y = 1 # n\n\n# files = 1\n[t]\n# files = 2\n".toList).any
      fun d => d.top.takes [("files".toList, ["a".toList])]) = true := by cbv
  obtain ⟨d, hd, ht⟩ := (Option.any_eq_true _ _).1 htakes
  have hedited : replaceLists? "# m\nx.y = 1 # n\n\n# files = 1\n[t]\n# files = 2\n".toList
      [("files".toList, ["a".toList])] =
        some "# m\nx.y = 1 # n\n\nfiles = [\"a\"]\n[t]\n# files = 2\n".toList := by cbv
  have hkeys : ([("files".toList, ["a".toList])].map Prod.fst).Nodup := List.nodup_singleton _
  have hbare : ∀ p ∈ [("files".toList, ["a".toList])], IsBare p.1 := by
    simpa using ⟨by decide, List.all_eq_true.1 (by decide)⟩
  obtain ⟨p, p', ys, zs, ws, h⟩ := replaceLists?_retains hd hkeys hbare ht (by cbv) (by decide) hedited
  exact ⟨d, p, p', ys, zs, ws, hd, h⟩

end Retaining

end CBuild
