import CBuild.Proofs.Machine.Parent
import CBuild.Proofs.Machine.Walking

/-! What requests do at a path that leads to a file: reading gives what the file holds, writing changes nothing
else, and taking the path away leaves room for a new file in the same directory. -/

namespace CBuild.FileTree

variable {t u : FileTree} {here d l : Location} {p q : Path} {n : List Char} {b c : Bytes}

section Places

structure Spelled (p : Path) : Prop where
  no_nul : ¬p.chars.contains '\x00'
  written : p.chars ≠ []
  fits : ¬byteLength p.chars > pathLimit

def startOf (here : Location) (p : Path) : Location :=
  if p.isAbsolute then [] else here

theorem place_eq_walk (h : Spelled p) (follow : Bool) :
    t.place here p follow = t.walk follow linkLimit (startOf here p) p.parts := by
  rw [place, if_neg h.no_nul, if_neg h.written, if_neg h.fits]
  rfl

theorem spelled_of_place {follow : Bool} {r : Place} (h : t.place here p follow = .ok r) : Spelled p := by
  rw [place] at h
  split at h
  · cases h
  next h₁ =>
  split at h
  · cases h
  next h₂ =>
  split at h
  · cases h
  next h₃ => exact ⟨h₁, h₂, h₃⟩

theorem walks_of_place {follow : Bool} {r : Place} (h : t.place here p follow = .ok r) :
    Walks t follow linkLimit (startOf here p) p.parts r := by
  rw [place_eq_walk (spelled_of_place h)] at h
  exact .of_eq_ok h

theorem place_of_outlines {follow : Bool} (h : t.place here p follow = .ok (.found l)) (ho : t.Outlines u) :
    u.place here p follow = .ok (.found l) := by
  rw [place_eq_walk (spelled_of_place h)]
  exact ((walks_of_place h).of_outlines ho).eq_ok

theorem place_congr (ho : t.Outlines u) (hback : u.Outlines t) (follow : Bool) :
    u.place here p follow = t.place here p follow := by
  rw [place, place, walk_congr ho hback]

theorem find_eq_ok_iff {e : TreeEntry} :
    t.find here p = .ok (l, e) ↔ t.place here p true = .ok (.found l) ∧ t.get? l = some e := by
  constructor
  · intro h
    unfold find at h
    rcases hplace : t.place here p true with f | (k | ⟨d, n, asDirectory⟩)
    · rw [hplace] at h
      cases h
    · rcases hk : t.get? k with _ | f
      · simp only [hplace, bind, Except.bind, hk] at h
        cases h
      · simp only [hplace, bind, Except.bind, hk] at h
        cases h
        exact ⟨rfl, hk⟩
    · rw [hplace] at h
      cases h
  · rintro ⟨hplace, hl⟩
    unfold find
    simp only [hplace, bind, Except.bind, hl]
    rfl

theorem byteLength_append (s r : List Char) : byteLength (s ++ r) = byteLength s + byteLength r := by
  have shift (r : List Char) (k : Nat) : r.foldl (fun n c => n + c.utf8Size) k = k + byteLength r := by
    induction r generalizing k with
    | nil => rfl
    | cons c r ih =>
      rw [byteLength, List.foldl_cons, List.foldl_cons, ih, ih (0 + c.utf8Size)]
      omega
  rw [byteLength, List.foldl_append, shift]
  rfl

theorem byteLength_cons (c : Char) (s : List Char) : byteLength (c :: s) = c.utf8Size + byteLength s := by
  rw [← List.singleton_append, byteLength_append]
  exact congrArg (· + byteLength s) (Nat.zero_add _)

theorem byteLength_le {s r : List Char} (h : s.Sublist r) : byteLength s ≤ byteLength r := by
  induction h with
  | slnil => exact Nat.le_refl _
  | @cons s r c h ih =>
    rw [byteLength_cons]
    omega
  | @cons_cons s r c h ih =>
    rw [byteLength_cons, byteLength_cons]
    omega

theorem Spelled.of_sublist (h : Spelled p) (hq : q.chars.Sublist p.chars) (hw : q.chars ≠ []) : Spelled q := by
  have hfits : byteLength q.chars ≤ byteLength p.chars := byteLength_le hq
  refine ⟨fun hc => h.no_nul ?_, hw, fun hlong => h.fits (by omega)⟩
  rw [List.contains_iff_mem] at hc ⊢
  exact hq.subset hc

theorem Spelled.of_prefix (h : Spelled p) (hq : q.chars <+: p.chars) (hw : q.chars ≠ []) : Spelled q :=
  h.of_sublist hq.sublist hw

end Places

/-- A path that leads, links followed, to the file at a location, and what the file holds. -/
structure Leads (t : FileTree) (here : Location) (p : Path) (l : Location) (b : Bytes) : Prop where
  place : t.place here p true = .ok (.found l)
  file : ∃ x, t.get? l = some (.file b x)

theorem Leads.find (h : t.Leads here p l b) : ∃ x, t.find here p = .ok (l, .file b x) := by
  obtain ⟨x, hx⟩ := h.file
  refine ⟨x, ?_⟩
  rw [FileTree.find, h.place]
  simp only [hx, bind, Except.bind]
  rfl

theorem Leads.readFile (h : t.Leads here p l b) : t.readFile here p = .ok b := by
  obtain ⟨x, hx⟩ := h.find
  rw [FileTree.readFile, hx]
  rfl

theorem Leads.of_outlines (h : t.Leads here p l b) (ho : t.Outlines u) : ∃ c, u.Leads here p l c := by
  obtain ⟨x, hx⟩ := h.file
  obtain ⟨c, y, hy⟩ := ho.file hx
  exact ⟨c, place_of_outlines h.place ho, y, hy⟩

theorem leads_of_names {x : Bool} (h : t.place here p false = .ok (.found l)) (hl : t.get? l = some (.file b x)) :
    t.Leads here p l b := by
  refine ⟨?_, x, hl⟩
  rw [place_eq_walk (spelled_of_place h)]
  exact ((walks_of_place h).follows (by simp [hl])).eq_ok

section Writing

/-- What a file holds after writing: nothing is kept of what is written nowhere. -/
def kept (l : Location) (b : Bytes) : Bytes :=
  if l = nowhere then [] else b

theorem exists_concat {e : TreeEntry} (h : t.get? l = some e) (he : e ≠ .directory) : ∃ d n, l = d ++ [n] := by
  rcases List.eq_nil_or_concat l with rfl | ⟨d, n, rfl⟩
  · exact absurd (Option.some.inj (h.symm.trans isDirectory_nil)) he
  · exact ⟨d, n, List.concat_eq_append⟩

theorem exists_set_file {x : Bool} (h : t.get? l = some (.file b x)) (c : Bytes) :
    ∃ u, t.set l (.file c x) = .ok u ∧ u.get? l = some (.file c x) ∧ ∀ k ≠ l, u.get? k = t.get? k := by
  obtain ⟨d, n, rfl⟩ := exists_concat h (by simp)
  exact exists_set _ (isDirectory_of_get? h) (by simp [IsDirectory, h])

theorem append_of_file {x : Bool} (h : t.get? l = some (.file b x)) (c : Bytes) :
    (t.append l c).get? l = some (.file (b ++ c) x) ∧ ∀ k ≠ l, (t.append l c).get? k = t.get? k := by
  obtain ⟨u, hu, hself, hne⟩ := exists_set_file h (b ++ c)
  rw [append, h]
  dsimp only
  rw [hu]
  exact ⟨hself, hne⟩

theorem writeFile_of_openFile {x : Bool} (ho : t.openFile here p true true = .ok (u, l))
    (h : u.get? l = some (.file [] x)) (c : Bytes) :
    ∃ v, t.writeFile here p c = .ok v ∧ v.get? l = some (.file (kept l c) x) ∧ ∀ k ≠ l, v.get? k = u.get? k := by
  rw [writeFile, ho]
  by_cases hl : l = nowhere
  · refine ⟨u, ?_, ?_, fun _ _ => rfl⟩
    · simp only [bind, Except.bind, if_pos hl]
      rfl
    · rw [h, kept, if_pos hl]
  · obtain ⟨hself, hne⟩ := append_of_file h c
    refine ⟨u.append l c, ?_, ?_, hne⟩
    · simp only [bind, Except.bind, if_neg hl]
      rfl
    · rw [hself, kept, if_neg hl]
      rfl

theorem outlines_of_get?_eq {x y : Bool} (ht : t.get? l = some (.file b x)) (hu : u.get? l = some (.file c y))
    (hne : ∀ k ≠ l, u.get? k = t.get? k) : t.Outlines u := by
  intro k e he
  by_cases hk : k = l
  · subst hk
    rw [ht] at he
    cases he
    rw [hu]
    rfl
  · rw [hne k hk, he]
    rfl

/-- Writing to a file that is there succeeds, and changes what it holds but nothing else. -/
theorem Leads.exists_writeFile (h : t.Leads here p l b) (c : Bytes) :
    ∃ u, t.writeFile here p c = .ok u ∧ u.Leads here p l (kept l c) ∧ (∀ k ≠ l, u.get? k = t.get? k) ∧
      ∀ x, t.get? l = some (.file b x) → u.get? l = some (.file (kept l c) x) := by
  obtain ⟨x, hx⟩ := h.file
  obtain ⟨u, hu, hself, hne⟩ := exists_set_file hx []
  have ho : t.openFile here p true true = .ok (u, l) := by
    rw [openFile, h.place]
    simp only [hx, if_true, bind, Except.bind, hu]
    rfl
  obtain ⟨v, hv, hlast, hrest⟩ := writeFile_of_openFile ho hself c
  have hsame (k : Location) (hk : k ≠ l) : v.get? k = t.get? k := (hrest k hk).trans (hne k hk)
  have hplace := place_of_outlines h.place (outlines_of_get?_eq hx hlast hsame)
  refine ⟨v, hv, ⟨hplace, x, hlast⟩, hsame, ?_⟩
  intro y hy
  rw [hx] at hy
  cases hy
  exact hlast

/-- Where one file holds something else, every path reads as before, except those that lead to this file. -/
theorem readFile_of_ne {x y : Bool} (ht : t.get? l = some (.file b x)) (hu : u.get? l = some (.file c y))
    (hne : ∀ k ≠ l, u.get? k = t.get? k) (hp : ¬t.Leads here p l b) : u.readFile here p = t.readFile here p := by
  have ho := outlines_of_get?_eq ht hu hne
  have hback := outlines_of_get?_eq hu ht fun k hk => (hne k hk).symm
  rw [readFile, readFile, FileTree.find, FileTree.find, place_congr ho hback]
  rcases hplace : t.place here p true with e | (k | ⟨d, n, asDirectory⟩)
  · rfl
  · have hk : k ≠ l := by
      rintro rfl
      exact hp ⟨hplace, x, ht⟩
    simp only [bind, Except.bind, hne k hk]
  · rfl

theorem writeFile_of_set {e : Bool} (h : t.place here p true = .ok (.free d n e))
    (hu : t.set (d ++ [n]) (.file [] false) = .ok u) (he : e = false) (c : Bytes) :
    ∃ v, t.writeFile here p c = .ok v ∧ v.Leads here p (d ++ [n]) (kept (d ++ [n]) c) ∧
      ∀ k ≠ d ++ [n], v.get? k = t.get? k := by
  subst he
  obtain ⟨hself, hne⟩ := get?_of_set hu
  have ho : t.openFile here p true true = .ok (u, d ++ [n]) := by
    rw [openFile, h]
    simp only [hu, bind, Except.bind]
    rfl
  obtain ⟨v, hv, hlast, hrest⟩ := writeFile_of_openFile ho hself c
  have hsame (k : Location) (hk : k ≠ d ++ [n]) : v.get? k = t.get? k := (hrest k hk).trans (hne k hk)
  refine ⟨v, hv, ⟨?_, _, hlast⟩, hsame⟩
  rw [place_eq_walk (spelled_of_place h)]
  exact ((walks_of_place h).fill hlast hsame).eq_ok

theorem exists_writeFile_of_free (h : t.place here p true = .ok (.free d n false)) (hd : t.IsDirectory d)
    (c : Bytes) : ∃ u, t.writeFile here p c = .ok u ∧ u.Leads here p (d ++ [n]) (kept (d ++ [n]) c) := by
  have hfree := (walks_of_place h).get?_free
  have hnew : ¬t.IsDirectory (d ++ [n]) := by simp [IsDirectory, hfree]
  obtain ⟨u, hu, -, -⟩ := exists_set (.file [] false) hd hnew
  obtain ⟨v, hv, hleads, -⟩ := writeFile_of_set h hu rfl c
  exact ⟨v, hv, hleads⟩

theorem outlines_of_absent (ht : t.get? l = none) (hne : ∀ k ≠ l, u.get? k = t.get? k) : t.Outlines u := by
  intro k e he
  have hk : k ≠ l := by
    rintro rfl
    rw [ht] at he
    cases he
  rw [hne k hk, he]
  rfl

/-- Wherever writing succeeds, the path leads to what has been written, and nothing else has changed. -/
theorem leads_of_writeFile (h : t.writeFile here p c = .ok u) :
    ∃ l, u.Leads here p l (kept l c) ∧ (∀ k ≠ l, u.get? k = t.get? k) ∧ t.Outlines u := by
  rcases hp : t.place here p true with e | (l | ⟨d, n, e⟩)
  · simp [writeFile, openFile, hp, bind, Except.bind] at h
  · rcases hl : t.get? l with _ | (⟨b, x⟩ | target | _)
    · simp [writeFile, openFile, hp, hl, bind, Except.bind] at h
    · have hleads : t.Leads here p l b := ⟨hp, x, hl⟩
      obtain ⟨v, hv, hnew, hsame, hself⟩ := hleads.exists_writeFile c
      rw [h] at hv
      cases hv
      exact ⟨l, hnew, hsame, outlines_of_get?_eq hl (hself x hl) hsame⟩
    · simp [writeFile, openFile, hp, hl, bind, Except.bind] at h
    · simp [writeFile, openFile, hp, hl, bind, Except.bind] at h
  · cases e with
    | true => simp [writeFile, openFile, hp, bind, Except.bind] at h
    | false =>
      rcases hs : t.set (d ++ [n]) (.file [] false) with e | v
      · simp [writeFile, openFile, hp, hs, bind, Except.bind] at h
      · obtain ⟨w, hw, hnew, hsame⟩ := writeFile_of_set hp hs rfl c
        rw [h] at hw
        cases hw
        exact ⟨d ++ [n], hnew, hsame, outlines_of_absent (walks_of_place hp).get?_free hsame⟩

end Writing

section Removing

theorem Walks.last_name {links : Nat} {idle : List (List Char)} {x : Bool}
    (h : Walks t true links d (n :: idle) (.found l)) (hl : t.get? l = some (.file b x))
    (hi : ∀ part ∈ idle, part = [] ∨ part = ['.']) (hn : ¬(n = [] ∨ n = ['.'])) (hup : n ≠ ['.', '.']) :
    idle = [] ∧ IsName n ∧ t.IsDirectory d ∧ ¬t.IsDirectory (d ++ [n]) ∧
      ∀ k, t.walk false k d [n] = .ok (.found (d ++ [n])) := by
  have hdirectory : ¬t.IsDirectory l := by simp [IsDirectory, hl]
  cases h with
  | idle h => exact absurd h hn
  | up => exact absurd rfl hup
  | directory hm hg w =>
    exact absurd (w.isDirectory hg fun part hp => hi part (List.mem_of_getLast? hp)) hdirectory
  | file hm hg =>
    refine ⟨rfl, hm, isDirectory_of_get? hg, by simp [IsDirectory, hg], fun k => ?_⟩
    rw [walk_file hm hg, if_pos rfl]
  | itself _ _ hf => cases hf
  | link hm hg hr w =>
    have hd := isDirectory_of_get? hg
    have hidle : idle = [] := by
      by_contra hne
      refine hdirectory (w.isDirectory ?_ ?_)
      · split
        · exact isDirectory_nil
        · exact hd
      · rw [List.getLast?_append, Option.or_of_isSome (by simpa using hne)]
        exact fun part hp => hi part (List.mem_of_getLast? hp)
    exact ⟨hidle, hm, hd, by simp [IsDirectory, hg], fun k => walk_itself hm hg⟩

theorem startOf_of_leading {pre : List (List Char)} (h : q.Leading p pre) : startOf here q = startOf here p := by
  obtain ⟨r, hr⟩ := h.prefixed
  unfold startOf Path.isAbsolute
  rw [← hr, List.head?_append_of_ne_nil _ h.written]

theorem place_of_leading {pre : List (List Char)} (hq : q.Leading p pre) (hp : Spelled p)
    (h : Walks t true linkLimit (startOf here p) pre (.found d)) (hd : t.IsDirectory d) :
    t.place here q true = .ok (.found d) := by
  have hs := hp.of_prefix hq.prefixed hq.written
  obtain ⟨kept, old, new, rfl, hnew, ho, hn⟩ := hq.spelled
  rw [place_eq_walk hs, startOf_of_leading hq, hnew]
  exact (h.idle_end hd ho hn).eq_ok

def ParentFound (t : FileTree) (here : Location) (p : Path) : Prop :=
  ∀ q, p.parent? = some q → q.chars ≠ [] → ∃ d, t.place here q true = .ok (.found d) ∧ t.IsDirectory d

theorem Leads.parentFound (h : t.Leads here p l b) (hname : p.fileName? = some n) : t.ParentFound here p := by
  obtain ⟨pre, idle, hparts, hidle, hn, hup, q, hq, hspelled⟩ := Path.exists_of_fileName? hname
  have hw := walks_of_place h.place
  rw [hparts] at hw
  obtain ⟨d, k, ⟨hpre, -⟩, hwalk⟩ := hw.split (u := t) (fun h => hn (.inl h)) fun _ _ => .inl rfl
  obtain ⟨x, hx⟩ := h.file
  have hlast := Walks.of_eq_ok ((hwalk true).1.symm.trans hw.eq_ok)
  obtain ⟨-, -, hd, -⟩ := hlast.last_name hx hidle hn hup
  intro q' hq' hne
  rw [hq] at hq'
  cases hq'
  have hleading := hspelled.resolve_left hne
  exact ⟨d, place_of_leading hleading (spelled_of_place h.place) hpre hd, hd⟩

theorem Leads.exists_removeFile (h : t.Leads here p l b) (hname : p.fileName? = some n) :
    ∃ u d, t.removeFile here p = .ok u ∧ u.place here p true = .ok (.free d n false) ∧ u.IsDirectory d ∧
      u.ParentFound here p := by
  obtain ⟨pre, idle, hparts, hidle, hn, hup, q, hq, hspelled⟩ := Path.exists_of_fileName? hname
  have hw := walks_of_place h.place
  have hs := spelled_of_place h.place
  have hne : n ≠ [] := fun h => hn (.inl h)
  rw [hparts] at hw
  obtain ⟨x, hx⟩ := h.file
  obtain ⟨d, k, ⟨hpre, -⟩, hwalk⟩ := hw.split (u := t) hne fun _ _ => .inl rfl
  have hlast := Walks.of_eq_ok ((hwalk true).1.symm.trans hw.eq_ok)
  obtain ⟨rfl, hm, hd, hnd, hitself⟩ := hlast.last_name hx hidle hn hup
  have hdead := hlast.deadEnd hd hx
  have hremove : t.removeFile here p = .ok (t.remove (d ++ [n]) hnd) := by
    rw [removeFile, place_eq_walk hs, hparts, (hwalk false).1, hitself]
    simp [bind, Except.bind, hnd, pure, Except.pure]
  have hu {k : Location} (hk : k ≠ d ++ [n]) := get?_remove_of_ne hnd hk
  have hdu : (t.remove (d ++ [n]) hnd).IsDirectory d := by
    rw [IsDirectory, hu (by simp)]
    exact hd
  -- the directory is walked to as before, for no walk goes on behind what is taken away
  obtain ⟨d', k', ⟨hpre', hpreu⟩, hwalk'⟩ := hw.split (u := t.remove (d ++ [n]) hnd) hne fun here part => by
    by_cases hk : here ++ [part] = d ++ [n]
    · obtain ⟨rfl, hpart⟩ := List.append_inj' hk rfl
      cases hpart
      exact .inr hdead
    · exact .inl (hu hk)
  cases hpre.eq_ok.symm.trans hpre'.eq_ok
  refine ⟨_, d, hremove, ?_, hdu, ?_⟩
  · rw [place_eq_walk hs, hparts, (hwalk' true).2, walk_absent hm (get?_remove_self (by simp) hnd)]
    rfl
  · intro q' hq' hne
    rw [hq] at hq'
    cases hq'
    exact ⟨d, place_of_leading (hspelled.resolve_left hne) hs hpreu hdu, hdu⟩

end Removing

end CBuild.FileTree
