import CBuild.Path.Relative
import CBuild.Proofs.Path.Names

/-! Joined paths. The parts of both stand one behind the other, so the way from a path to what is seen from it is told
by the words of the latter: its parts less those that mean nothing. -/

namespace CBuild.Path

variable {p q : Path} {part : List Char} {ks ls : List (List Char)} {cs ds : List Component}

def words (p : Path) : List (List Char) :=
  p.parts.filter fun part => !isIdle part

theorem mem_words : part ∈ p.words ↔ part ∈ p.parts ∧ ¬(part = [] ∨ part = ['.']) := by
  unfold words
  rw [List.mem_filter, Bool.not_eq_true', ← Bool.not_eq_true, isIdle_iff]

theorem isPart_of_mem_words (h : part ∈ p.words) : IsPart part := by
  obtain ⟨hmem, hidle⟩ := mem_words.1 h
  exact ⟨fun hnil => hidle (.inl hnil), slash_not_mem p.chars part hmem⟩

section Joining

theorem chars_div (hq : q.isAbsolute = false) :
    (p / q).chars = if p.endsOpen then p.chars ++ q.chars else p.chars ++ '/' :: q.chars := by
  change (join p q).chars = _
  rw [join, hq, if_neg Bool.false_ne_true]
  split
  · rfl
  · rfl

theorem exists_chars_div (p : Path) : ∃ front, (front = p.chars ∨ front = p.chars ++ ['/']) ∧
    ∀ q : Path, q.isAbsolute = false → (p / q).chars = front ++ q.chars := by
  by_cases hopen : p.endsOpen
  · refine ⟨p.chars, .inl rfl, fun q hq => ?_⟩
    rw [chars_div hq, if_pos hopen]
  · refine ⟨p.chars ++ ['/'], .inr rfl, fun q hq => ?_⟩
    rw [chars_div hq, if_neg hopen, List.append_assoc]
    rfl

theorem chars_div_ne_nil (hp : p.chars ≠ []) (hq : q.isAbsolute = false) : (p / q).chars ≠ [] := by
  obtain ⟨front, hfront, hchars⟩ := p.exists_chars_div
  rw [hchars q hq]
  rcases hfront with rfl | rfl
  · simp [hp]
  · simp

theorem isAbsolute_div (hp : p.chars ≠ []) (hq : q.isAbsolute = false) : (p / q).isAbsolute = p.isAbsolute := by
  obtain ⟨front, hfront, hchars⟩ := p.exists_chars_div
  unfold isAbsolute
  rw [hchars q hq]
  rcases hfront with rfl | rfl
  · rw [List.head?_append_of_ne_nil _ hp]
  · rw [List.append_assoc, List.head?_append_of_ne_nil _ hp]

theorem parts_div (hp : p.chars ≠ []) : ∃ pre idle, p.parts = pre ++ idle ∧ pre ≠ [] ∧ (∀ part ∈ idle, part = []) ∧
    ∀ q : Path, q.isAbsolute = false → (p / q).parts = pre ++ q.parts := by
  by_cases hopen : p.endsOpen
  · have hlast : p.chars.getLast? = some '/' := (of_decide_eq_true hopen : _ ∨ _).resolve_left hp
    obtain ⟨front, hfront⟩ := List.getLast?_eq_some_iff.1 hlast
    have hparts (s : List Char) : (front ++ '/' :: s).splitOn '/' = front.splitOn '/' ++ s.splitOn '/' :=
      List.splitOn_append_cons_self ..
    refine ⟨front.splitOn '/', [[]], ?_, List.splitOn_ne_nil _ _, by simp, fun q hq => ?_⟩
    · rw [parts, hfront, hparts]
      rfl
    · rw [parts, chars_div hq, if_pos hopen, hfront, List.append_assoc]
      exact hparts q.chars
  · refine ⟨p.parts, [], by simp, List.splitOn_ne_nil _ _, by simp, fun q hq => ?_⟩
    rw [parts, chars_div hq, if_neg hopen]
    exact List.splitOn_append_cons_self ..

theorem components_div (hp : p.chars ≠ []) (hq : q.isAbsolute = false) :
    (p / q).components = p.components ++ q.parts.filterMap Component.ofPart? := by
  obtain ⟨pre, idle, hparts, hne, hidle, hdiv⟩ := parts_div hp
  have hnone : idle.filterMap Component.ofPart? = [] := by
    rw [List.filterMap_eq_nil_iff]
    intro part hpart
    rw [hidle part hpart]
    rfl
  have hstarts : (p / q).startsHere = p.startsHere := by
    unfold startsHere
    rw [hdiv q hq, hparts, List.head?_append_of_ne_nil _ hne, List.head?_append_of_ne_nil _ hne]
  unfold components
  rw [isAbsolute_div hp hq, hstarts, hdiv q hq, hparts]
  simp only [List.filterMap_append, hnone, List.append_nil]
  split
  · rfl
  · split
    · rfl
    · rfl

end Joining

section Relating

theorem steps_append_left (ds cs bs : List Component) : steps false (ds ++ cs) (ds ++ bs) = steps false cs bs := by
  induction ds with
  | nil => rfl
  | cons d ds ih =>
    conv => enter [1]; unfold steps
    simpa using ih

theorem steps_append (ds cs : List Component) : steps false (ds ++ cs) ds = some cs := by
  have hsteps := steps_append_left ds cs []
  rw [List.append_nil] at hsteps
  rw [hsteps]
  cases cs <;> rfl

theorem text_of_ofPart? {c : Component} (h : Component.ofPart? part = some c) : c.text = part := by
  unfold Component.ofPart? at h
  split at h
  · cases h
  · split at h
    next hup =>
      cases h
      exact hup.symm
    next =>
      cases h
      rfl

theorem map_text_filterMap (ls : List (List Char)) :
    (ls.filterMap Component.ofPart?).map Component.text = ls.filter fun part => !isIdle part := by
  induction ls with
  | nil => rfl
  | cons part ls ih =>
    by_cases hidle : part = [] ∨ part = ['.']
    · have hnone : Component.ofPart? part = none := if_pos hidle
      rw [List.filterMap_cons_none hnone, List.filter_cons_of_neg (by simp [isIdle, hidle]), ih]
    · obtain ⟨c, hc⟩ : ∃ c, Component.ofPart? part = some c := by
        unfold Component.ofPart?
        rw [if_neg hidle]
        split
        · exact ⟨_, rfl⟩
        · exact ⟨_, rfl⟩
      rw [List.filterMap_cons_some hc, List.filter_cons_of_pos (by simpa [isIdle] using hidle), List.map_cons, ih,
        text_of_ofPart? hc]

theorem ofComponents_eq (h : ∀ c ∈ cs, IsPart c.text) : ofComponents cs = ofNames (cs.map Component.text) := by
  induction cs using List.reverseRecOn with
  | nil => rfl
  | append_singleton cs c ih =>
    have hparts : ∀ x ∈ cs.map Component.text ++ [c.text], IsPart x := by
      intro x hx
      rw [← List.map_singleton, ← List.map_append] at hx
      obtain ⟨d, hd, rfl⟩ := List.mem_map.1 hx
      exact h d hd
    have hfold : ofComponents (cs ++ [c]) = ofComponents cs / ofName c.text := List.foldl_concat ..
    rw [hfold, ih fun d hd => h d (List.mem_append_left _ hd), List.map_append, List.map_singleton,
      ofNames_concat hparts]

theorem relativeTo_div (hp : p.chars ≠ []) (hq : q.isAbsolute = false) : (p / q).relativeTo p = ofNames q.words := by
  have htext : (q.parts.filterMap Component.ofPart?).map Component.text = q.words := map_text_filterMap q.parts
  unfold relativeTo
  rw [if_pos (isAbsolute_div hp hq), components_div hp hq, steps_append]
  dsimp only
  rw [ofComponents_eq, htext]
  intro c hc
  apply isPart_of_mem_words
  rw [← htext]
  exact List.mem_map_of_mem hc

theorem mem_of_steps {moved : Bool} {target base : List Component} (h : steps moved target base = some cs) :
    ∀ c ∈ cs, c = .parent ∨ c ∈ target := by
  fun_induction steps moved target base generalizing cs
  case case1 =>
    cases h
    exact List.forall_mem_nil _
  case case2 target hne =>
    cases h
    exact fun c hc => .inr hc
  case case3 b base ih =>
    obtain ⟨ds, hds, rfl⟩ := Option.map_eq_some_iff.1 h
    exact List.forall_mem_cons.2 ⟨.inl rfl, ih hds⟩
  case case4 moved target base c hsame ih =>
    exact fun d hd => (ih h d hd).imp_right (List.mem_cons_of_mem _)
  case case5 moved c target base hmoved ih =>
    obtain ⟨ds, hds, rfl⟩ := Option.map_eq_some_iff.1 h
    exact List.forall_mem_cons.2 ⟨.inr List.mem_cons_self, fun d hd => (ih hds d hd).imp_right (List.mem_cons_of_mem _)⟩
  case case6 => cases h
  case case7 moved c target b base _ _ _ =>
    cases h
    intro d hd
    rcases List.mem_append.1 hd with hd | hd
    · rcases List.mem_cons.1 hd with rfl | hd
      · exact .inl rfl
      · obtain ⟨b, -, rfl⟩ := List.mem_map.1 hd
        exact .inl rfl
    · exact .inr hd

structure IsWord (k : List Char) : Prop where
  part : IsPart k
  not_idle : ¬(k = [] ∨ k = ['.'])

theorem isWord_of_mem_words (h : part ∈ p.words) : IsWord part :=
  ⟨isPart_of_mem_words h, (mem_words.1 h).2⟩

theorem words_ofNames (h : ∀ k ∈ ks, IsWord k) : (ofNames ks).words = ks := by
  by_cases hnil : ks = []
  · rw [hnil]
    rfl
  · unfold words
    rw [parts_ofNames (fun k hk => (h k hk).part) hnil, List.filter_eq_self]
    intro k hk
    rw [Bool.not_eq_true', ← Bool.not_eq_true, isIdle_iff]
    exact (h k hk).not_idle

theorem components_of_isAbsolute (h : p.isAbsolute = true) :
    p.components = .root :: p.parts.filterMap Component.ofPart? :=
  if_pos h

theorem root_mem_components : .root ∈ p.components ↔ p.isAbsolute = true := by
  have hnamed : Component.root ∉ p.parts.filterMap Component.ofPart? := by
    intro hmem
    obtain ⟨part, -, hpart⟩ := List.mem_filterMap.1 hmem
    have htext : ['/'] = part := text_of_ofPart? hpart
    rw [← htext] at hpart
    cases hpart
  unfold components
  dsimp only
  split
  next habsolute => exact iff_of_true List.mem_cons_self habsolute
  next hrelative =>
    split
    · exact iff_of_false (by simpa using hnamed) hrelative
    · exact iff_of_false hnamed hrelative

theorem relativeTo_cases (hp : p.chars ≠ []) (q : Path) : ((p / q).relativeTo p).isAbsolute = true ∨
    ∃ ks, (p / q).relativeTo p = ofNames ks ∧ ∀ k ∈ ks, IsWord k ∧ (k = ['.', '.'] ∨ k ∈ (p / q).parts) := by
  cases hq : q.isAbsolute with
  | false =>
    right
    refine ⟨q.words, relativeTo_div hp hq, fun k hk => ⟨isWord_of_mem_words hk, .inr ?_⟩⟩
    obtain ⟨pre, -, -, -, -, hdiv⟩ := parts_div hp
    rw [hdiv q hq]
    exact List.mem_append_right _ (mem_words.1 hk).1
  | true =>
    have hself : p / q = q := if_pos hq
    rw [hself]
    unfold relativeTo
    split
    next hsame =>
      rw [components_of_isAbsolute hq, components_of_isAbsolute (hsame.symm.trans hq)]
      have hstep (cs ds : List Component) : steps false (.root :: cs) (.root :: ds) = steps false cs ds := by
        conv => enter [1]; unfold steps
        simp
      rw [hstep]
      split
      next cs hsteps =>
        right
        have hword : ∀ c ∈ cs, IsWord c.text ∧ (c.text = ['.', '.'] ∨ c.text ∈ q.parts) := by
          intro c hc
          rcases mem_of_steps hsteps c hc with rfl | hmem
          · exact ⟨⟨⟨by decide, by decide⟩, by decide⟩, .inl rfl⟩
          · have hwords : c.text ∈ q.words := by
              unfold words
              rw [← map_text_filterMap]
              exact List.mem_map_of_mem hmem
            exact ⟨isWord_of_mem_words hwords, .inr (mem_words.1 hwords).1⟩
        refine ⟨cs.map Component.text, ofComponents_eq fun c hc => (hword c hc).1.part, ?_⟩
        intro k hk
        obtain ⟨c, hc, rfl⟩ := List.mem_map.1 hk
        exact hword c hc
      next => exact .inl hq
    next => exact .inl hq

end Relating

section Shortening

theorem intercalate_sublist (h : ks.Sublist ls) : (['/'].intercalate ks).Sublist (['/'].intercalate ls) := by
  induction h with
  | slnil => exact List.Sublist.refl _
  | @cons ks ls part h ih =>
    cases ls with
    | nil =>
      rw [List.sublist_nil.1 h]
      exact List.nil_sublist _
    | cons l ls =>
      rw [List.intercalate_cons_cons]
      exact ih.trans (List.sublist_append_right _ _)
  | @cons_cons ks ls part h ih =>
    cases ks with
    | nil =>
      rw [List.intercalate_singleton]
      cases ls with
      | nil =>
        rw [List.intercalate_singleton]
      | cons l ls =>
        rw [List.intercalate_cons_cons, List.append_assoc]
        exact List.sublist_append_left _ _
    | cons k ks =>
      cases ls with
      | nil => cases h
      | cons l ls =>
        rw [List.intercalate_cons_cons, List.intercalate_cons_cons]
        exact ih.append_left _

theorem sublist_of_mem_parts (h : part ∈ p.parts) : part.Sublist p.chars := by
  have hone : [part].Sublist p.parts := List.singleton_sublist.2 h
  have hchars : (['/'].intercalate [part]).Sublist (['/'].intercalate p.parts) := intercalate_sublist hone
  rwa [List.intercalate_singleton, intercalate_parts] at hchars

theorem chars_words_sublist (p : Path) : (ofNames p.words).chars.Sublist p.chars := by
  have hwords : p.words.Sublist p.parts := List.filter_sublist
  rw [← p.intercalate_parts]
  exact intercalate_sublist hwords

end Shortening

end CBuild.Path
