import CBuild.Proofs.Path.Joining

/-! The way from one path to another, and where it leads. When neither path goes up, the way leads to the other path, unless a
dot in front of the first alone is taken for a name of the second. -/

namespace CBuild

namespace Component

variable {c : Component} {cs ds kept : List Component}

def IsStep : Component → Prop
  | root => False
  | name n => Path.IsFileName n
  | _ => True

theorem IsStep.isPart (h : c.IsStep) : Path.IsPart c.text := by
  cases c with
  | root => cases h
  | current => exact ⟨by decide, by decide⟩
  | parent => exact ⟨by decide, by decide⟩
  | name n => exact Path.IsFileName.isPart h

theorem parent_or_name {p : Path} (h : c ∈ p.parts.filterMap ofPart?) :
    c = parent ∨ ∃ n, c = name n ∧ Path.IsFileName n := by
  obtain ⟨part, hpart, hc⟩ := List.mem_filterMap.1 h
  unfold ofPart? at hc
  split at hc
  next => cases hc
  next hidle =>
    split at hc
    next =>
      cases hc
      exact .inl rfl
    next hup =>
      cases hc
      exact .inr ⟨part, rfl, hidle, hup, Path.slash_not_mem p.chars part hpart⟩

theorem filterMap_text (h : ∀ c ∈ cs, c.IsStep) : (cs.map text).filterMap ofPart? = cs.filter (· ≠ current) := by
  induction cs with
  | nil => rfl
  | cons c cs ih =>
    rw [List.forall_mem_cons] at h
    rw [List.map_cons, List.filter_cons, ← ih h.2]
    cases c with
    | root => cases h.1
    | current => rfl
    | parent => rfl
    | name n => exact List.filterMap_cons_some (Path.IsFileName.ofPart? h.1)

def push (kept : List Component) : Component → List Component
  | current => kept
  | parent =>
    match kept with
    | name _ :: rest => rest
    | _ => parent :: kept
  | c => c :: kept

/-- The components without dots, and without the names that steps up take back. -/
def settle (cs : List Component) : List Component :=
  (cs.foldl push []).reverse

theorem foldl_push_filter (cs kept : List Component) : (cs.filter (· ≠ current)).foldl push kept = cs.foldl push kept := by
  induction cs generalizing kept with
  | nil => rfl
  | cons c cs ih =>
    rw [List.filter_cons]
    split
    next => exact ih _
    next hc =>
      have hdot : c = current := by simpa using hc
      rw [hdot]
      exact ih _

theorem foldl_push_names (h : ∀ c ∈ cs, c.isName = true) (kept : List Component) :
    cs.foldl push kept = cs.reverse ++ kept := by
  induction cs generalizing kept with
  | nil => rfl
  | cons c cs ih =>
    rw [List.forall_mem_cons] at h
    cases c with
    | name n => rw [List.foldl_cons, ih h.2, List.reverse_cons, List.append_assoc]; rfl
    | _ => cases h.1

theorem foldl_push_up (h : ∀ c ∈ cs, c.isName = true) (kept : List Component) :
    (List.replicate cs.length parent).foldl push (cs ++ kept) = kept := by
  induction cs with
  | nil => rfl
  | cons c cs ih =>
    rw [List.forall_mem_cons] at h
    cases c with
    | name n => exact ih h.2
    | _ => cases h.1

theorem foldl_push_back (h : ∀ c ∈ cs, c.isName = true) (kept : List Component) :
    (cs ++ List.replicate cs.length parent).foldl push kept = kept := by
  have hback : (List.replicate cs.reverse.length parent).foldl push (cs.reverse ++ kept) = kept :=
    foldl_push_up (fun c hc => h c (List.mem_reverse.1 hc)) kept
  rw [List.length_reverse] at hback
  rw [List.foldl_append, foldl_push_names h, hback]

theorem settle_of_names (h : ∀ c ∈ cs, c.isName = true) : settle cs = cs := by
  rw [settle, foldl_push_names h, List.append_nil, List.reverse_reverse]

theorem settle_retraced {lead same up down : List Component} (hlead : lead.length ≤ 1 ∧ .parent ∉ lead)
    (hsame : ∀ c ∈ same, c.isName = true) (hup : ∀ c ∈ up, c.isName = true) (hdown : ∀ c ∈ down, c.isName = true) :
    settle (lead ++ (same ++ up) ++ (List.replicate up.length parent ++ down)) =
      lead.filter (· ≠ current) ++ (same ++ down) := by
  have hbegun : lead.foldl push [] = (lead.filter (· ≠ current)).reverse := by
    match lead, hlead with
    | [], _ => rfl
    | [root], _ => rfl
    | [current], _ => rfl
    | [name _], _ => rfl
    | [parent], ⟨_, hparent⟩ => exact absurd List.mem_cons_self hparent
  have hregroup : lead ++ (same ++ up) ++ (List.replicate up.length parent ++ down) =
      lead ++ (same ++ ((up ++ List.replicate up.length parent) ++ down)) := by
    simp only [List.append_assoc]
  rw [settle, hregroup, List.foldl_append, List.foldl_append, List.foldl_append, hbegun, foldl_push_names hsame,
    foldl_push_back hup, foldl_push_names hdown]
  simp only [List.reverse_append, List.reverse_reverse, List.append_assoc]

end Component

namespace Path

open Component

variable {p q base : Path} {cs ts bs : List Component} {c : Component}

section Steps

theorem steps_other {moved : Bool} {b : Component} (hc : (!moved && decide (c = b)) = false) (hb : b.isName = true) :
    steps moved (c :: ts) (b :: bs) = some (.parent :: List.replicate bs.length .parent ++ c :: ts) := by
  have hcurrent : b ≠ .current := by
    rintro rfl
    cases hb
  have hparent : b ≠ .parent := by
    rintro rfl
    cases hb
  rw [steps, hc, if_neg Bool.false_ne_true, if_neg hcurrent, if_neg hparent, List.map_const']

theorem steps_moved (hb : ∀ b ∈ bs, b.isName = true) (ts : List Component) :
    steps true ts bs = some (List.replicate bs.length .parent ++ ts) := by
  induction bs with
  | nil => cases ts <;> rfl
  | cons b bs ih =>
    rw [List.forall_mem_cons] at hb
    cases ts with
    | nil =>
      have hrest : steps true [] (b :: bs) = (steps true [] bs).map (.parent :: ·) := rfl
      rw [hrest, ih hb.2]
      rfl
    | cons c ts => exact steps_other rfl hb.1

theorem exists_steps (ht : ∀ c ∈ ts, c.isName = true) (hb : ∀ b ∈ bs, b.isName = true) :
    ∃ same down up, ts = same ++ down ∧ bs = same ++ up ∧
      steps false ts bs = some (List.replicate up.length .parent ++ down) := by
  induction bs generalizing ts with
  | nil => exact ⟨[], ts, [], rfl, rfl, by cases ts <;> rfl⟩
  | cons b bs ih =>
    rw [List.forall_mem_cons] at hb
    cases ts with
    | nil =>
      have hrest : steps false [] (b :: bs) = (steps true [] bs).map (.parent :: ·) := rfl
      refine ⟨[], [], b :: bs, rfl, rfl, ?_⟩
      rw [hrest, steps_moved hb.2]
      rfl
    | cons c ts =>
      rw [List.forall_mem_cons] at ht
      by_cases hc : c = b
      · obtain ⟨same, down, up, rfl, rfl, hsteps⟩ := ih ht.2 hb.2
        refine ⟨b :: same, down, up, by rw [hc]; rfl, rfl, ?_⟩
        rw [hc]
        exact (steps_append_left [b] _ _).trans hsteps
      · exact ⟨[], c :: ts, b :: bs, rfl, rfl, steps_other (by simpa using hc) hb.1⟩

end Steps

section Joining

def lead (p : Path) : List Component :=
  if p.isAbsolute then [.root] else if p.startsHere then [.current] else []

theorem components_eq_lead (p : Path) : p.components = p.lead ++ p.parts.filterMap Component.ofPart? := by
  unfold components lead
  dsimp only
  split
  · rfl
  · split
    · rfl
    · rfl

theorem settle_lead_append (h : p.isAbsolute = false) (cs : List Component) : settle (p.lead ++ cs) = settle cs := by
  rw [lead, h, if_neg Bool.false_ne_true]
  split
  · rfl
  · rfl

theorem settle_append_filter (cs ds : List Component) : settle (cs ++ ds.filter (· ≠ .current)) = settle (cs ++ ds) := by
  rw [settle, settle, List.foldl_append, List.foldl_append, foldl_push_filter]

/-- Where the components lead from a path. -/
theorem settle_div (base : Path) (hcs : ∀ c ∈ cs, c.IsStep) :
    settle (base / ofComponents cs).components = settle (base.components ++ cs) := by
  have hparts : ∀ part ∈ cs.map Component.text, IsPart part := by
    intro part hpart
    obtain ⟨c, hc, rfl⟩ := List.mem_map.1 hpart
    exact (hcs c hc).isPart
  have hrelative : (ofNames (cs.map Component.text)).isAbsolute = false := isAbsolute_ofNames hparts
  have hsteps : (ofNames (cs.map Component.text)).parts.filterMap Component.ofPart? = cs.filter (· ≠ .current) := by
    by_cases hnil : cs = []
    · rw [hnil]
      rfl
    · rw [parts_ofNames hparts (by simpa using hnil), filterMap_text hcs]
  rw [ofComponents_eq fun c hc => (hcs c hc).isPart]
  by_cases hbase : base.chars = []
  · have hself : base / ofNames (cs.map Component.text) = ofNames (cs.map Component.text) := by
      have hchars := chars_div (p := base) hrelative
      rw [if_pos (by simp [endsOpen, hbase]), hbase, List.nil_append] at hchars
      exact congrArg Path.mk hchars
    have hnone : base.components = [] := by
      obtain rfl : base = ⟨[]⟩ := congrArg Path.mk hbase
      rfl
    rw [hself, hnone, components_eq_lead, settle_lead_append hrelative, hsteps]
    exact settle_append_filter [] cs
  · rw [components_div hbase hrelative, hsteps, settle_append_filter]

end Joining

section Returning

/-- A dot that only `base` begins with is taken for a first name that `p` does not share with it. -/
def Astray (base p : Path) : Prop :=
  base.components.head? = some .current ∧ p.components.head? ≠ some .current ∧
    (p.components = [] ∨ ∃ c, base.components[1]? = some c ∧ p.components.head? ≠ some c)

theorem isName_of_mem_parts (h : .parent ∉ p.components) : ∀ c ∈ p.parts.filterMap Component.ofPart?, c.isName = true := by
  intro c hc
  obtain rfl | ⟨n, rfl, -⟩ := parent_or_name hc
  · rw [components_eq_lead] at h
    exact absurd (List.mem_append_right _ hc) h
  · rfl

theorem filter_names (h : ∀ c ∈ cs, c.isName = true) : cs.filter (· ≠ .current) = cs := by
  refine List.filter_eq_self.2 fun c hc => ?_
  cases c with
  | name n => rfl
  | _ => cases h _ hc

theorem settle_steps_alike {lead : List Component} (hlead : lead.length ≤ 1 ∧ .parent ∉ lead)
    (ht : ∀ c ∈ ts, c.isName = true) (hb : ∀ b ∈ bs, b.isName = true) :
    ∃ cs, steps false ts bs = some cs ∧ settle (lead ++ bs ++ cs) = (lead ++ ts).filter (· ≠ .current) := by
  obtain ⟨same, down, up, rfl, rfl, hsteps⟩ := exists_steps ht hb
  refine ⟨List.replicate up.length .parent ++ down, hsteps, ?_⟩
  rw [List.forall_mem_append] at ht hb
  rw [settle_retraced hlead hb.1 hb.2 ht.2, List.filter_append, filter_names (List.forall_mem_append.2 ht)]

theorem settle_steps_dotted (ht : ∀ c ∈ ts, c.isName = true) (hb : ∀ b ∈ bs, b.isName = true) :
    ∃ cs, steps false (.current :: ts) bs = some cs ∧ settle (bs ++ cs) = ts := by
  refine ⟨List.replicate bs.length .parent ++ .current :: ts, ?_, ?_⟩
  · cases bs with
    | nil => rfl
    | cons b bs =>
      have hother : (!false && decide (Component.current = b)) = false := by
        have := hb b List.mem_cons_self
        cases b <;> first | rfl | cases this
      exact steps_other hother (hb b List.mem_cons_self)
  · rw [← List.append_assoc, settle, List.foldl_append, foldl_push_back hb]
    exact settle_of_names ht

/-- A dot that only the base begins with uses up the first name of the other path. -/
theorem settle_steps_undotted (ht : ∀ c ∈ ts, c.isName = true) (hb : ∀ b ∈ bs, b.isName = true) :
    ∃ cs, steps false ts (.current :: bs) = some cs ∧
      (settle (.current :: bs ++ cs) = ts ↔ ¬(ts = [] ∨ ∃ b, bs.head? = some b ∧ ts.head? ≠ some b)) := by
  cases ts with
  | nil =>
    have hrest : steps false [] (.current :: bs) = (steps true [] bs).map (.parent :: ·) := rfl
    rw [hrest, steps_moved hb]
    refine ⟨_, rfl, ?_⟩
    have hup : Component.parent :: (List.replicate bs.length .parent ++ []) =
        List.replicate bs.length Component.parent ++ [.parent] := by
      rw [List.append_nil, ← List.replicate_succ, List.replicate_succ']
    have hled : settle (.current :: bs ++ Component.parent :: (List.replicate bs.length .parent ++ [])) = [.parent] := by
      rw [hup, List.cons_append, ← List.append_assoc]
      change ((bs ++ List.replicate bs.length Component.parent ++ [parent]).foldl push []).reverse = _
      rw [List.foldl_append, foldl_push_back hb]
      rfl
    rw [hled]
    simp
  | cons t ts =>
    rw [List.forall_mem_cons] at ht
    have htaken : steps false (t :: ts) (.current :: bs) = (steps true ts bs).map (t :: ·) := by
      have hother : decide (t = Component.current) = false := by
        have := ht.1
        cases t <;> first | rfl | cases this
      rw [steps, hother]
      rfl
    rw [htaken, steps_moved hb]
    refine ⟨_, rfl, ?_⟩
    cases bs with
    | nil =>
      refine iff_of_true ?_ (by simp)
      exact settle_of_names (List.forall_mem_cons.2 ht)
    | cons b bs =>
      have hled : settle (.current :: (b :: bs) ++ t :: (List.replicate (b :: bs).length .parent ++ ts)) = b :: ts := by
        rw [List.forall_mem_cons] at hb
        have hlast : ∀ c ∈ bs ++ [t], c.isName = true := List.forall_mem_append.2 ⟨hb.2, by simpa using ht.1⟩
        have hled : settle ([b] ++ ([] ++ (bs ++ [t])) ++ (List.replicate (bs ++ [t]).length parent ++ ts)) =
            [b].filter (· ≠ .current) ++ ([] ++ ts) :=
          settle_retraced ⟨Nat.le_refl 1, by rw [List.mem_singleton]; rintro rfl; cases hb.1⟩ (by simp) hlast ht.2
        rw [filter_names (by simpa using hb.1), List.length_append] at hled
        have hdot : settle (.current :: (b :: bs) ++ t :: (List.replicate (b :: bs).length parent ++ ts)) =
            settle (b :: (bs ++ t :: (List.replicate (bs.length + 1) parent ++ ts))) := rfl
        rw [hdot]
        simpa using hled
      rw [hled]
      simp [eq_comm]

theorem isStep_of_steps {moved : Bool} (hts : ∀ c ∈ ts, c = .current ∨ c ∈ p.parts.filterMap Component.ofPart?)
    (h : steps moved ts bs = some cs) : ∀ c ∈ cs, c.IsStep := by
  intro c hc
  obtain rfl | hmem := mem_of_steps h c hc
  · trivial
  · obtain rfl | hnamed := hts c hmem
    · trivial
    · obtain rfl | ⟨n, rfl, hn⟩ := parent_or_name hnamed
      · trivial
      · exact hn

theorem lead_cases (h : p.isAbsolute = base.isAbsolute) : p.lead = base.lead ∨
    (p.lead = [.current] ∧ base.lead = []) ∨ (p.lead = [] ∧ base.lead = [.current]) := by
  unfold lead
  rw [h]
  split
  · exact .inl rfl
  · split
    · split
      · exact .inl rfl
      · exact .inr (.inl ⟨rfl, rfl⟩)
    · split
      · exact .inr (.inr ⟨rfl, rfl⟩)
      · exact .inl rfl

theorem lead_begins (p : Path) : p.lead.length ≤ 1 ∧ .parent ∉ p.lead := by
  unfold lead
  split
  · simp
  · split <;> simp

theorem exists_steps_components (hsame : p.isAbsolute = base.isAbsolute) (hp : .parent ∉ p.components)
    (hb : .parent ∉ base.components) : ∃ cs, steps false p.components base.components = some cs ∧
      (∀ c ∈ cs, c.IsStep) ∧
        (settle (base.components ++ cs) = p.components.filter (· ≠ .current) ↔ ¬Astray base p) := by
  have ht := isName_of_mem_parts hp
  have hbs := isName_of_mem_parts hb
  have hundotted : ∀ {cs : List Component}, (∀ c ∈ cs, c.isName = true) → cs.head? ≠ some .current := by
    intro cs hcs hhead
    cases hcs _ (List.mem_of_head? hhead)
  unfold Astray
  rw [components_eq_lead p, components_eq_lead base]
  obtain hlead | ⟨hdotted, hplain⟩ | ⟨hplain, hdotted⟩ := lead_cases hsame
  · obtain ⟨cs, hsteps, hled⟩ := settle_steps_alike (lead_begins base) ht hbs
    rw [hlead, steps_append_left]
    refine ⟨cs, hsteps, isStep_of_steps (fun c hc => .inr hc) hsteps, iff_of_true hled ?_⟩
    rintro ⟨hhere, hnot, -⟩
    match hl : base.lead with
    | [] =>
      rw [hl] at hhere
      exact hundotted hbs hhere
    | c :: cs =>
      rw [hl] at hhere hnot
      exact hnot hhere
  · obtain ⟨cs, hsteps, hled⟩ := settle_steps_dotted ht hbs
    rw [hdotted, hplain]
    refine ⟨cs, hsteps, isStep_of_steps (fun c hc => List.mem_cons.1 hc) hsteps, iff_of_true ?_ ?_⟩
    · exact hled.trans (filter_names ht).symm
    · exact fun hastray => hundotted hbs hastray.1
  · obtain ⟨cs, hsteps, hled⟩ := settle_steps_undotted ht hbs
    rw [hdotted, hplain]
    refine ⟨cs, hsteps, isStep_of_steps (fun c hc => .inr hc) hsteps, ?_⟩
    rw [List.nil_append, filter_names ht]
    refine hled.trans (not_congr ?_)
    rw [List.head?_eq_getElem? (l := base.parts.filterMap Component.ofPart?)]
    exact ⟨fun h => ⟨rfl, hundotted ht, h⟩, fun h => h.2.2⟩

/-- The way from one path to another leads there from the first, unless the dot in front of the first leads it astray. -/
theorem settle_div_relativeTo (hsame : p.isAbsolute = base.isAbsolute) (hp : .parent ∉ p.components)
    (hb : .parent ∉ base.components) :
    settle (base / p.relativeTo base).components = p.components.filter (· ≠ .current) ↔ ¬Astray base p := by
  obtain ⟨cs, hsteps, hcs, hled⟩ := exists_steps_components hsame hp hb
  rw [relativeTo, if_pos hsame, hsteps]
  dsimp only
  rw [settle_div base hcs, hled]

theorem settle_div_relativeTo_sibling :
    (ofString "./a/c").relativeTo (ofString "./a/b") = ofString "../c" ∧
      settle (ofString "./a/b" / (ofString "./a/c").relativeTo (ofString "./a/b")).components =
        (ofString "./a/c").components.filter (· ≠ .current) :=
  ⟨by decide, (settle_div_relativeTo (by decide) (by decide) (by decide)).2 fun h => h.2.1 (by decide)⟩

example : (ofString "a").relativeTo (ofString "./x") = ofString "a/.." := by decide

end Returning

end Path

end CBuild
