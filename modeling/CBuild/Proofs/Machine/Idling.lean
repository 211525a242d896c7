import CBuild.Proofs.Machine.Onward
import CBuild.Proofs.Path.Retracing
import Mathlib.Tactic.Push

/-! Paths that end in what means nothing lead to directories only. Any other path leads to the files that its words lead
to, as long as there is room for it. -/

namespace CBuild

namespace Path

variable {p q : Path} {part : List Char}

/-- Whether a path ends in what means nothing, so that it can lead to a directory only. -/
def EndsIdle (p : Path) : Prop :=
  ∀ part ∈ p.parts.getLast?, part = [] ∨ part = ['.']

theorem parts_ne_nil (p : Path) : p.parts ≠ [] :=
  List.splitOn_ne_nil _ _

theorem exists_of_not_endsIdle (h : ¬p.EndsIdle) :
    ∃ pre part, p.parts = pre ++ [part] ∧ ¬(part = [] ∨ part = ['.']) := by
  rw [EndsIdle] at h
  push Not at h
  obtain ⟨part, hlast, hname⟩ := h
  obtain ⟨pre, hparts⟩ := List.getLast?_eq_some_iff.1 hlast
  exact ⟨pre, part, hparts, not_or.2 hname⟩

theorem ne_nil_of_slash {pre : List (List Char)} (h : '/' ∈ p.chars) (hparts : p.parts = pre ++ [part]) : pre ≠ [] := by
  rintro rfl
  have hchars := intercalate_parts p
  rw [hparts, List.nil_append, List.intercalate_singleton] at hchars
  exact slash_not_mem p.chars part (by rw [← parts, hparts]; simp) (hchars ▸ h)

theorem words_concat {pre : List (List Char)} (hparts : p.parts = pre ++ [part]) (hpart : ¬(part = [] ∨ part = ['.'])) :
    p.words = pre.filter (fun part => !isIdle part) ++ [part] := by
  have hkeep : [part].filter (fun part => !isIdle part) = [part] :=
    List.filter_cons_of_pos (by simpa [isIdle] using hpart)
  rw [words, hparts, List.filter_append, hkeep]

theorem components_of_idle_head {rest : List (List Char)} (hparts : p.parts = part :: rest) (hrest : rest ≠ [])
    (hidle : part = [] ∨ part = ['.']) : ∃ c, p.components = c :: p.parts.filterMap Component.ofPart? := by
  rcases hidle with rfl | rfl
  · have habsolute : p.isAbsolute = true := by
      obtain ⟨next, rest, rfl⟩ := List.exists_cons_of_ne_nil hrest
      have hchars := intercalate_parts p
      rw [hparts] at hchars
      rw [isAbsolute, ← hchars]
      simp
    exact ⟨.root, components_of_isAbsolute habsolute⟩
  · have hrelative : p.isAbsolute = false := by
      rw [Bool.eq_false_iff]
      intro habsolute
      have hhead := head?_parts_of_isAbsolute habsolute
      rw [hparts] at hhead
      cases hhead
    have hstarts : p.startsHere = true := by
      rw [startsHere, hparts]
      rfl
    refine ⟨.current, ?_⟩
    unfold components
    dsimp only
    rw [hrelative, hstarts, if_neg Bool.false_ne_true, if_pos rfl]

theorem one_lt_length_components (h : '/' ∈ p.chars) (hend : ¬p.EndsIdle) : 1 < p.components.length := by
  obtain ⟨pre, last, hparts, hlast⟩ := exists_of_not_endsIdle hend
  have hnamed : (p.parts.filterMap Component.ofPart?).length = (pre.filter fun part => !isIdle part).length + 1 := by
    have htext : (p.parts.filterMap Component.ofPart?).map Component.text = p.words := map_text_filterMap p.parts
    rw [← List.length_map Component.text, htext, words_concat hparts hlast, List.length_append, List.length_singleton]
  obtain ⟨first, rest, rfl⟩ := List.exists_cons_of_ne_nil (ne_nil_of_slash h hparts)
  by_cases hidle : first = [] ∨ first = ['.']
  · have hcons : p.parts = first :: (rest ++ [last]) := hparts
    obtain ⟨c, hc⟩ := components_of_idle_head hcons (by simp) hidle
    rw [hc, List.length_cons, hnamed]
    omega
  · rw [components_eq_lead, List.length_append, hnamed, List.filter_cons_of_pos (by simpa [isIdle] using hidle),
      List.length_cons]
    omega

theorem plain_eq (h : p.isAbsolute = false) : Host.plain p = ofNames p.words := by
  have hkeep : (p.parts.filterMap Component.ofPart?).dropWhile (· = .current) =
      p.parts.filterMap Component.ofPart? := by
    refine List.dropWhile_eq_self_iff.2 fun hlength hcurrent => ?_
    obtain hup | ⟨n, hn, -⟩ := Component.parent_or_name (List.getElem_mem hlength)
    · rw [hup] at hcurrent
      cases hcurrent
    · rw [hn] at hcurrent
      cases hcurrent
  have hnamed : p.components.dropWhile (· = .current) = p.parts.filterMap Component.ofPart? := by
    rw [components_eq_lead, lead, h, if_neg Bool.false_ne_true]
    split
    · rw [List.singleton_append, List.dropWhile_cons_of_pos (by simp), hkeep]
    · exact hkeep
  have htext : (p.parts.filterMap Component.ofPart?).map Component.text = p.words := map_text_filterMap p.parts
  rw [Host.plain, h, if_neg Bool.false_ne_true, hnamed, ofComponents_eq, htext]
  intro c hc
  refine isPart_of_mem_words (p := p) ?_
  rw [← htext]
  exact List.mem_map_of_mem hc

theorem slash_mem_div (hp : p.chars ≠ []) (q : Path) : '/' ∈ (p / q).chars := by
  cases hq : q.isAbsolute with
  | true =>
    have hself : p / q = q := if_pos hq
    rw [hself]
    exact List.mem_of_head? (of_decide_eq_true hq)
  | false =>
    rw [chars_div hq]
    split
    next hopen =>
      have hlast : p.chars.getLast? = some '/' := (of_decide_eq_true hopen).resolve_left hp
      exact List.mem_append_left _ (List.mem_of_getLast? hlast)
    next => exact List.mem_append_right _ List.mem_cons_self

end Path

namespace FileTree

variable {t : FileTree} {here l : Location} {links : Nat} {p : Path} {parts kept : List (List Char)} {last : List Char}
  {b : Bytes} {x : Bool} {e : TreeEntry}

theorem Thinned.split (h : Thinned parts (part :: kept)) : ∃ idle rest, parts = idle ++ part :: rest ∧
    (∀ i ∈ idle, i = [] ∨ i = ['.']) ∧ Thinned rest kept := by
  generalize hq : part :: kept = ks at h
  induction h with
  | nil => cases hq
  | @keep part' parts kept' h =>
    cases hq
    exact ⟨[], parts, rfl, List.forall_mem_nil _, h⟩
  | @drop i parts kept' hidle h ih =>
    obtain ⟨idle, rest, rfl, hall, hrest⟩ := ih hq
    exact ⟨i :: idle, rest, rfl, List.forall_mem_cons.2 ⟨hidle, hall⟩, hrest⟩

theorem Thinned.idle (h : Thinned parts []) : ∀ part ∈ parts, part = [] ∨ part = ['.'] := by
  generalize hq : ([] : List (List Char)) = ks at h
  induction h with
  | nil => exact List.forall_mem_nil _
  | keep => cases hq
  | drop hidle _ ih => exact List.forall_mem_cons.2 ⟨hidle, ih hq⟩

theorem Walks.ahead {idle : List (List Char)} {q : Place} (h : Walks t true links here parts q)
    (hidle : ∀ part ∈ idle, part = [] ∨ part = ['.']) : Walks t true links here (idle ++ parts) q :=
  .of_eq_ok ((walk_ahead hidle parts).trans h.eq_ok)

theorem Thinned.step {d : Location} {part : List Char} {rest : List (List Char)} {q : Place} (ht : Thinned parts kept)
    (hk : kept ++ [last] = part :: rest) (hw : Walks t true links d rest q)
    (hstep : ∀ rs, Walks t true links d rs q → Walks t true links here (part :: rs) q)
    (ih : ∀ ps ks, Thinned ps ks → ks ++ [last] = rest → Walks t true links d (ps ++ [last]) q) :
    Walks t true links here (parts ++ [last]) q := by
  cases kept with
  | nil =>
    cases hk
    exact (hstep [] hw).ahead ht.idle
  | cons k kept =>
    obtain ⟨rfl, rfl⟩ := List.cons.inj hk
    obtain ⟨idle, rest, rfl, hidle, hrest⟩ := ht.split
    rw [List.append_assoc]
    exact (hstep _ (ih rest kept hrest rfl)).ahead hidle

theorem Walks.thicken (h : Walks t true links here (kept ++ [last]) (.found l)) (ht : Thinned parts kept) :
    Walks t true links here (parts ++ [last]) (.found l) := by
  generalize hk : kept ++ [last] = ks at h
  generalize hq : Place.found l = q at h ⊢
  induction h generalizing kept parts with
  | stay => simp at hk
  | idle hpart hw ih => exact ht.step hk hw (fun _ => .idle hpart) fun _ _ ht' hk' => ih ht' hk' hq
  | up hw ih => exact ht.step hk hw (fun _ => .up) fun _ _ ht' hk' => ih ht' hk' hq
  | absent => cases hq
  | directory hn hg hw ih => exact ht.step hk hw (fun _ => .directory hn hg) fun _ _ ht' hk' => ih ht' hk' hq
  | file hn hg =>
    cases kept with
    | nil =>
      cases hk
      exact (Walks.file hn hg).ahead ht.idle
    | cons k kept => simp at hk
  | itself _ _ hf => cases hf
  | @link _ _ part rest _ target hn hg hr hw ih =>
    cases kept with
    | nil =>
      cases hk
      exact (Walks.link hn hg hr hw).ahead ht.idle
    | cons k kept =>
      obtain ⟨rfl, rfl⟩ := List.cons.inj hk
      obtain ⟨idle, rest, rfl, hidle, hrest⟩ := ht.split
      have ih := ih (hrest.behind target.parts) (List.append_assoc ..) hq
      rw [List.append_assoc] at ih ⊢
      exact (Walks.link hn hg (.inr rfl) ih).ahead hidle

theorem find_of_endsIdle (hend : p.EndsIdle) (hstart : t.IsDirectory (startOf here p))
    (h : t.find here p = .ok (l, e)) : e = .directory := by
  obtain ⟨hplace, hl⟩ := find_eq_ok_iff.1 h
  have hdirectory : t.get? l = some .directory := (walks_of_place hplace).isDirectory hstart hend
  exact Option.some.inj (hl.symm.trans hdirectory)

theorem find_of_plain (hstart : t.IsDirectory (startOf here p)) (h : t.find here (Host.plain p) = .ok (l, .file b x))
    (y : Location × TreeEntry) : t.find here p = .ok y ↔ y = (l, .file b x) ∧ Spelled p ∧ ¬p.EndsIdle := by
  obtain ⟨hplace, hl⟩ := find_eq_ok_iff.1 h
  cases hp : p.isAbsolute with
  | true =>
    have hself : Host.plain p = p := if_pos hp
    rw [hself] at h hplace
    have hend : ¬p.EndsIdle := fun hend => nomatch find_of_endsIdle hend hstart h
    rw [h, Except.ok.injEq]
    exact ⟨fun he => ⟨he.symm, spelled_of_place hplace, hend⟩, fun hy => hy.1.symm⟩
  | false =>
    have hhere : startOf here p = here := by rw [startOf, hp, if_neg Bool.false_ne_true]
    have hplain : startOf here (Host.plain p) = here := by
      rw [startOf, Path.plain_eq hp, Path.isAbsolute_ofNames fun part => Path.isPart_of_mem_words,
        if_neg Bool.false_ne_true]
    have hwords : Walks t true linkLimit here p.words (.found l) := by
      have hw := walks_of_place hplace
      have hne : p.words ≠ [] := by
        intro hnil
        have hnone := (spelled_of_place hplace).written
        rw [Path.plain_eq hp, hnil] at hnone
        exact hnone rfl
      rwa [hplain, Path.plain_eq hp, Path.parts_ofNames (fun part => Path.isPart_of_mem_words) hne] at hw
    constructor
    · intro hy
      obtain ⟨l', e⟩ := y
      obtain ⟨hplace', hl'⟩ := find_eq_ok_iff.1 hy
      have hw := walks_of_place hplace'
      rw [hhere] at hw
      have hsame : l' = l := by
        have hthin := (hw.thin (thinned_filter p.parts)).eq_ok
        have hboth := hthin.symm.trans hwords.eq_ok
        cases hboth
        rfl
      rw [hsame, hl] at hl'
      cases hl'
      rw [hsame] at hy ⊢
      refine ⟨rfl, spelled_of_place hplace', fun hend => ?_⟩
      cases find_of_endsIdle hend hstart hy
    · rintro ⟨rfl, hs, hend⟩
      refine find_eq_ok_iff.2 ⟨?_, hl⟩
      obtain ⟨pre, last, hparts, hlast⟩ := Path.exists_of_not_endsIdle hend
      rw [Path.words_concat hparts hlast] at hwords
      rw [place_eq_walk hs, hhere, hparts]
      exact (hwords.thicken (thinned_filter pre)).eq_ok

end FileTree

end CBuild
