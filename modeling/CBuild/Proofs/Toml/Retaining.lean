import Mathlib.Data.List.Perm.Basic
import CBuild.Proofs.Toml.Comments
import CBuild.Proofs.Toml.Gaining
import CBuild.Proofs.Toml.Recurring

/-! What an edit keeps of the lines of a text. An example in front of a line may become a list, which what stands
above the example goes with; then each line is printed again, and a list may be put in the place of an array. -/

namespace CBuild.Toml

open Children Statement

section Sharing

variable {α β γ δ : Type}

/-- The things of the first list go to the pairs of the two others, some to each and one after another. -/
inductive Sharing (R : List δ → α → β → Prop) : List δ → List α → List β → Prop
  | nil : Sharing R [] [] []
  | cons {x y a b as bs} (h : R x a b) (hs : Sharing R y as bs) : Sharing R (x ++ y) (a :: as) (b :: bs)

variable {R : List δ → α → β → Prop} {xs : List δ} {as : List α} {bs : List β} {cs : List γ}

theorem Sharing.same {R : List δ → α → α → Prop} (h : ∀ a, R [] a a) (as : List α) : Sharing R [] as as := by
  induction as with
  | nil => exact .nil
  | cons a as ih => exact .cons (h a) ih

theorem Sharing.forall₂ (h : Sharing R xs as bs) : List.Forall₂ (fun a b => ∃ ys, R ys a b) as bs := by
  induction h with
  | nil => exact .nil
  | cons h _ ih => exact .cons ⟨_, h⟩ ih

theorem Sharing.trans {S : β → γ → Prop} {T : List δ → α → γ → Prop} (hr : Sharing R xs as bs)
    (hs : List.Forall₂ S bs cs) (h : ∀ ys, ∀ a ∈ as, ∀ b ∈ bs, ∀ c, R ys a b → S b c → T ys a c) :
    Sharing T xs as cs := by
  induction hr generalizing cs with
  | nil =>
    cases hs
    exact .nil
  | cons hab _ ih =>
    cases hs with
    | cons hbc hs =>
      refine .cons (h _ _ List.mem_cons_self _ List.mem_cons_self _ hab hbc) (ih hs fun ys a ha b hb c => ?_)
      exact h ys a (List.mem_cons_of_mem _ ha) b (List.mem_cons_of_mem _ hb) c

theorem forall₂_same {R : α → α → Prop} (h : ∀ a, R a a) (l : List α) : List.Forall₂ R l l :=
  List.forall₂_same.2 fun a _ => h a

end Sharing

section Leading

def Entry.led (t : List Char) (e : Entry) : Entry :=
  { e with path := lead t e.path }

def Header.led (t : List Char) (h : Header) : Header :=
  { h with before := t ++ h.before }

def texts (xs : List Example) : List Char :=
  xs.flatMap Example.text

variable {t : List Char} {p q : List Key} {e : Entry}

theorem led_nil (e : Entry) : e.led [] = e := by
  rw [Entry.led, lead_nil]

theorem led_led (t u : List Char) (e : Entry) : (e.led u).led t = e.led (t ++ u) := by
  rw [Entry.led, Entry.led, Entry.led, lead_lead]

@[simp] theorem names_lead (t : List Char) (path : List Key) : names (lead t path) = names path := by
  fun_induction lead t path <;> simp_all [names]

theorem writtenAlike_lead (t : List Char) (p q : List Key) : writtenAlike (lead t p) q = writtenAlike p q := by
  induction p generalizing q with
  | nil => rfl
  | cons k p ih =>
    cases q with
    | nil => cases p <;> rfl
    | cons l q =>
      cases p with
      | nil => rfl
      | cons k' p => rw [lead_cons_cons, writtenAlike, writtenAlike, ih]

theorem writtenAlike_comm (p q : List Key) : writtenAlike p q = writtenAlike q p := by
  induction p generalizing q with
  | nil => cases q <;> rfl
  | cons k p ih =>
    cases q with
    | nil => rfl
    | cons l q =>
      simp only [writtenAlike, ih q, eq_comm (a := l.spelling), eq_comm (a := l.inner), ne_comm (a := l.name)]

theorem writtenAlike_of_headName (h : headName p ≠ headName q) : writtenAlike p q = true := by
  cases p with
  | nil => cases q <;> rfl
  | cons k p =>
    cases q with
    | nil => rfl
    | cons l q =>
      have hne : k.name ≠ l.name := h
      rw [writtenAlike, decide_eq_true hne, Bool.true_or]

theorem headName_lead (t : List Char) (path : List Key) : headName (lead t path) = headName path := by
  fun_induction lead t path <;> rfl

theorem relisted_led (lists : Lists) (t : List Char) (e : Entry) :
    (e.led t).relisted lists = (e.relisted lists).led t := by
  rw [Entry.relisted, Entry.relisted, Entry.led, names_lead]
  split <;> rfl

theorem before_led (h : e.Known lineLeaf true (keyLimit - 1)) (t : List Char) :
    (e.led t).before = t ++ e.before := by
  obtain ⟨k, hlast, ⟨⟨b, a, -, -, -, hout⟩, -⟩, -⟩ := h.1.last
  have hspace : pathSpace e.path = some (b, a) := by rw [pathSpace, hlast, Option.bind_some, hout]
  rw [Entry.before, Entry.before, Entry.led, pathSpace_lead, hspace, Option.map_some, Option.getD_some,
    Option.getD_some]

end Leading

section Filling

/-- Lines, and what trails behind them, when examples among the lines of the top table have become lists. The
examples are shared out among the entries in front of which they stood, then among the headers, and the last of them
stood in what trails. -/
structure Contents.Fills (ys zs ws : List Example) (p q : Contents × List Char) : Prop where
  top : ∃ fs, Sharing (fun xs e f => e = f.led (texts xs)) ys p.1.1 fs ∧
    q.1.1.Perm (fs ++ (ys ++ zs ++ ws).map Example.entry)
  below : Sharing (fun xs s s' => s.1 = s'.1.led (texts xs) ∧ s'.2 = s.2) zs p.1.2 q.1.2
  last : p.2 = texts ws ++ q.2

variable {xs : List Example} {p q : List Statement × List Char}

def told (p : List Statement × List Char) : Contents × List Char :=
  (sections p.1, p.2)

/-- The lines of a text and what trails behind them, if all of it reads. -/
def contents? (s : List Char) : Option (Contents × List Char) :=
  (readAll? (unmarked s)).map told

theorem Contents.Fills.refl (p : Contents × List Char) : Contents.Fills [] [] [] p p where
  top := ⟨p.1.1, .same (fun e => (led_nil e).symm) _, by simp⟩
  below := .same (fun _ => ⟨rfl, rfl⟩) _
  last := rfl

theorem Contents.Fills.list {ys zs ws : List Example} {q : Contents × List Char} (x : Example)
    (h : Contents.Fills ys zs ws (told p) q) :
    ∃ ys' zs' ws', x :: (ys ++ zs ++ ws) = ys' ++ zs' ++ ws' ∧
      Contents.Fills ys' zs' ws' (told (allBehind x.text p)) ((x.entry :: q.1.1, q.1.2), q.2) := by
  obtain ⟨⟨fs, hfs, hperm⟩, hbelow, hlast⟩ := h
  have hentries : (x.entry :: q.1.1).Perm (fs ++ (x :: (ys ++ zs ++ ws)).map Example.entry) :=
    (hperm.cons x.entry).trans List.perm_middle.symm
  obtain ⟨_ | ⟨st, sts⟩, t⟩ := p
  · cases hfs
    obtain ⟨⟨es, ss⟩, u⟩ := q
    cases hbelow
    refine ⟨[], [], x :: ws, rfl, ⟨[], .nil, hentries⟩, .nil, ?_⟩
    show x.text ++ t = texts (x :: ws) ++ u
    rw [show t = texts ws ++ u from hlast, texts, texts, List.flatMap_cons, List.append_assoc]
  · cases st with
    | entry e =>
      change Sharing _ ys (e :: (sections sts).1) fs at hfs
      generalize hes : e :: (sections sts).1 = es at hfs
      cases hfs with
      | nil => cases hes
      | @cons y ys _ f _ fs hf hfs =>
        cases hes
        refine ⟨x :: y ++ ys, zs, ws, rfl, ⟨f :: fs, .cons (x := x :: y) ?_ hfs, hentries⟩, hbelow, hlast⟩
        rw [texts, List.flatMap_cons, ← texts, ← led_led, ← hf]
        rfl
    | header hd =>
      change Sharing _ ys [] fs at hfs
      cases hfs
      change Sharing _ zs ((hd, (sections sts).1) :: (sections sts).2) q.1.2 at hbelow
      generalize hss : (hd, (sections sts).1) :: (sections sts).2 = ss at hbelow
      generalize hq : q.1.2 = ss' at hbelow
      cases hbelow with
      | nil => cases hss
      | @cons z zs _ s' _ ss' hs hbelow =>
        cases hss
        refine ⟨[], x :: z ++ zs, ws, rfl, ⟨[], .nil, hentries⟩, ?_, hlast⟩
        refine .cons (x := x :: z) ⟨?_, hs.2⟩ hbelow
        have hhead : hd = s'.1.led (texts z) := hs.1
        subst hhead
        simp [Header.led, texts]

theorem contents_fills (h : Fills xs p q) :
    ∃ ys zs ws, xs = ys ++ zs ++ ws ∧ Contents.Fills ys zs ws (told p) (told q) := by
  induction h with
  | rest p => exact ⟨[], [], [], rfl, .refl _⟩
  | keep e _ ih =>
    obtain ⟨ys, zs, ws, rfl, ⟨fs, hfs, hperm⟩, hbelow, hlast⟩ := ih
    exact ⟨ys, zs, ws, rfl, ⟨e :: fs, .cons (x := []) (led_nil e).symm hfs, hperm.cons e⟩, hbelow, hlast⟩
  | list x _ ih =>
    obtain ⟨ys, zs, ws, rfl, hfills⟩ := ih
    obtain ⟨ys', zs', ws', hxs, hfills'⟩ := hfills.list x
    exact ⟨ys', zs', ws', hxs, hfills'⟩

end Filling

section Retaining

/-- The entry stands again with the array that is listed for its key, if there is one, and behind what stood in front
of it, the examples `xs` there and what is above them apart. It is written as it was where the others of its table
write the keys that they share in the same way. -/
structure Entry.Retained (lists : Lists) (es : List Entry) (xs : List Example) (e e' : Entry) : Prop where
  names : names e'.path = names e.path
  before : e.before = texts xs ++ e'.before
  gap : e'.gap = (e.relisted lists).gap
  value : e'.value = (e.relisted lists).value
  after : e'.after = e.after
  same : (∀ f ∈ es, writtenAlike e.path f.path = true) → e.relisted lists = e'.led (texts xs)

/-- No line of the text writes a key that it shares with the header in another way. -/
structure Header.Alike (c : Contents) (h : Header) : Prop where
  keys : ∀ p ∈ c.paths, writtenAlike h.path p = true
  space : ∀ s ∈ c.2, names s.1.path = names h.path → pathSpace s.1.path = pathSpace h.path

/-- The header stands again behind what stood in front of it, the examples `xs` there and what is above them apart. It
is written as it was where no other line writes its keys in another way. -/
structure Header.Retained (c : Contents) (xs : List Example) (h h' : Header) : Prop where
  element : h'.element = h.element
  names : names h'.path = names h.path
  before : h.before = texts xs ++ h'.before
  after : h'.after = h.after
  same : h.Alike c → h = h'.led (texts xs)

/-- All lines and what trails behind them stand again: the headers in their order, and the entries of each table in
some order. Besides them the top table has the lists that stand for the examples, each behind what stood above its
example, and entries of listed keys that nothing stands in front of. -/
structure Contents.Retained (lists : Lists) (ys zs ws : List Example) (p p' : Contents × List Char) : Prop where
  top : ∃ fs new, Sharing (Entry.Retained lists p.1.1) ys p.1.1 fs ∧
    p'.1.1.Perm (fs ++ (ys ++ zs ++ ws).map (fun x => x.entry.relisted lists) ++ new) ∧
      ∀ e ∈ new, ∃ l ∈ lists, e = .fresh l.1 l.2
  sections : Sharing (fun xs s s' => s.1.Retained p.1 xs s'.1 ∧
    ∃ fs, List.Forall₂ (Entry.Retained [] s.2 []) s.2 fs ∧ s'.2.Perm fs) zs p.1.2 p'.1.2
  last : p.2 = texts ws ++ p'.2

variable {m : Nat} {lists : Lists} {p p₁ p₂ : Contents × List Char} {es es₁ : List Entry} {e f g : Entry}
  {xs ys zs ws : List Example} {h h₁ h₂ : Header} {t : List Char}

theorem relisted_gap (hk : f.Kept es g) (lists : Lists) :
    (g.relisted lists).gap = (f.relisted lists).gap ∧ (g.relisted lists).value = (f.relisted lists).value ∧
      (g.relisted lists).after = (f.relisted lists).after := by
  rw [Entry.relisted, Entry.relisted, hk.names]
  split
  · exact ⟨rfl, rfl, hk.after⟩
  · exact ⟨hk.gap, hk.value, hk.after⟩

theorem relisted_path (lists : Lists) (e : Entry) : (e.relisted lists).path = e.path ∧
    (e.relisted lists).after = e.after := by
  rw [Entry.relisted]
  split <;> exact ⟨rfl, rfl⟩

theorem Entry.Kept.before_eq (h : e.Kept es g) : g.before = e.before := by
  rw [before, before, pathSpace, pathSpace, h.last]

theorem Entry.Kept.eq_of_entry {x : Example} (h : x.entry.Kept es g) : g = x.entry := by
  obtain ⟨path, gap, v, after⟩ := g
  obtain ⟨hnames, hlast, rfl, rfl, rfl, -⟩ := h
  obtain ⟨k, hk⟩ : ∃ k, path = [k] := by
    refine List.length_eq_one_iff.1 ?_
    have hlength := congrArg List.length hnames
    rwa [Toml.names, List.length_map] at hlength
  subst hk
  rw [show k = Key.opening x.above x.key from Option.some.inj hlast]
  rfl

theorem eq_entries_of_kept {gs : List Entry} (h : List.Forall₂ (Entry.Kept es) (xs.map Example.entry) gs) :
    gs = xs.map Example.entry := by
  induction xs generalizing gs with
  | nil =>
    cases h
    rfl
  | cons x xs ih =>
    cases h with
    | cons hx h => rw [hx.eq_of_entry, ih h, List.map_cons]

theorem Entry.Kept.retained (hk : f.Kept es₁ g)
    (hknown : ∀ x ∈ es₁, x.Known lineLeaf true (keyLimit - 1)) (hf : f ∈ es₁) (xs : List Example)
    (hes : (∀ x ∈ es, writtenAlike f.path x.path = true) → ∀ x ∈ es₁, writtenAlike f.path x.path = true) :
    (f.led (texts xs)).Retained lists es xs (g.relisted lists) := by
  obtain ⟨hgap, hvalue, hafter⟩ := relisted_gap hk lists
  refine ⟨?_, ?_, ?_, ?_, ?_, fun halike => ?_⟩
  · rw [(relisted_path lists g).1, hk.names, led, names_lead]
  · have hbefore : (g.relisted lists).before = g.before := by
      rw [before, before, (relisted_path lists g).1]
    rw [hbefore, hk.before_eq, before_led (hknown f hf)]
  · rw [hgap, relisted_led]
    rfl
  · rw [hvalue, relisted_led]
    rfl
  · rw [hafter, (relisted_path lists f).2]
    rfl
  · have hsame := hk.eq_self hknown (hknown f hf) (hes fun x hx => by
      rw [← writtenAlike_lead (texts xs)]
      exact halike x hx)
    rw [hsame, relisted_led]

theorem Contents.Fills.alike (hf : Contents.Fills ys zs ws p p₁) {q : List Key}
    (hq : headName q ∉ (ys ++ zs ++ ws).map Example.key) :
    ((∀ x ∈ p.1.1, writtenAlike q x.path = true) → ∀ x ∈ p₁.1.1, writtenAlike q x.path = true) ∧
      ((∀ a ∈ p.1.paths, writtenAlike q a = true) → ∀ a ∈ p₁.1.paths, writtenAlike q a = true) := by
  obtain ⟨⟨fs, hfs, hperm⟩, hbelow, -⟩ := hf
  have top (halike : ∀ x ∈ p.1.1, writtenAlike q x.path = true) : ∀ x ∈ p₁.1.1, writtenAlike q x.path = true := by
    intro x hx
    rcases List.mem_append.1 (hperm.subset hx) with hx | hx
    · obtain ⟨e, he, vs, rfl⟩ := exists_of_forall₂ hfs.forall₂.flip hx
      rw [writtenAlike_comm, ← writtenAlike_lead (texts vs), writtenAlike_comm]
      exact halike _ he
    · obtain ⟨v, hv, rfl⟩ := List.mem_map.1 hx
      refine writtenAlike_of_headName fun he => hq ?_
      rw [he]
      exact List.mem_map_of_mem hv
  refine ⟨top, fun halike a ha => ?_⟩
  rcases List.mem_append.1 ha with ha | ha
  · obtain ⟨x, hx, rfl⟩ := List.mem_map.1 ha
    exact top (fun x hx => halike _ (List.mem_append_left _ (List.mem_map_of_mem hx))) x hx
  · obtain ⟨s₁, hs₁, ha⟩ := List.mem_flatMap.1 ha
    obtain ⟨s, hs, vs, hhead, hes⟩ := exists_of_forall₂ hbelow.forall₂.flip hs₁
    refine halike a (List.mem_append_right _ (List.mem_flatMap.2 ⟨s, hs, ?_⟩))
    rw [hhead, ← hes]
    exact ha

theorem Header.Recurs.retained (hr : h₁.Recurs p₁.1 h₂) (hf : Contents.Fills ys zs ws p p₁)
    (hq : headName h₁.path ∉ (ys ++ zs ++ ws).map Example.key) (xs : List Example) :
    (h₁.led (texts xs)).Retained p.1 xs h₂ := by
  refine ⟨hr.element, hr.names, ?_, hr.after, fun halike => ?_⟩
  · rw [hr.before]
    rfl
  · rw [hr.same ((hf.alike hq).2 halike.keys) fun s₁ hs₁ hn => ?_]
    obtain ⟨s, hs, vs, hhead, -⟩ := exists_of_forall₂ hf.below.forall₂.flip hs₁
    have hspace := halike.space s hs
    rw [hhead] at hspace
    exact hspace hn

/-- Examples turned into lists, and then each line printed again. -/
theorem Contents.Fills.retained {new : List Entry} (hf : Contents.Fills ys zs ws p p₁)
    (hr : Contents.Recurs lists new p₁.1 p₂.1) (hlast : p₂.2 = p₁.2)
    (hnew : ∀ e ∈ new, ∃ l ∈ lists, e = .fresh l.1 l.2)
    (htop : ∀ e ∈ p₁.1.1, e.Known lineLeaf true (keyLimit - 1))
    (hown : ∀ s ∈ p₁.1.2, ∀ e ∈ s.2, e.Known lineLeaf true (keyLimit - 1))
    (hentries : ∀ e ∈ p.1.1, headName e.path ∉ (ys ++ zs ++ ws).map Example.key)
    (hheaders : ∀ s ∈ p.1.2, headName s.1.path ∉ (ys ++ zs ++ ws).map Example.key) :
    Contents.Retained lists ys zs ws p p₂ := by
  have hfills := hf
  obtain ⟨⟨fs, hfs, hperm⟩, hbelow, hends⟩ := hf
  obtain ⟨⟨gs, hgs, hperm₂⟩, hbelow₂⟩ := hr
  refine ⟨?_, ?_, by rw [hends, hlast]⟩
  · obtain ⟨gs', hgs', hp⟩ := List.perm_comp_forall₂ hperm.symm hgs
    have hold := (List.forall₂_take_append _ _ _ hgs'.flip).flip
    have hlists := (List.forall₂_drop_append _ _ _ hgs'.flip).flip
    rw [← List.take_append_drop fs.length gs'] at hp
    generalize gs'.take fs.length = gs₁ at hold hp
    generalize gs'.drop fs.length = gs₂ at hlists hp
    obtain rfl := eq_entries_of_kept hlists
    refine ⟨gs₁.map (Entry.relisted lists), new, ?_, ?_, hnew⟩
    · have hprinted : List.Forall₂ (fun f g => ∃ k, f.Kept p₁.1.1 k ∧ g = k.relisted lists) fs
          (gs₁.map (Entry.relisted lists)) :=
        List.forall₂_map_right_iff.2 (hold.imp fun f g hk => ⟨g, hk, rfl⟩)
      refine hfs.trans hprinted fun vs e he f hmem g hled hk => ?_
      obtain ⟨k, hk, rfl⟩ := hk
      have hname := hentries e he
      subst hled
      rw [Entry.led, headName_lead] at hname
      exact hk.retained htop (hperm.symm.subset (List.mem_append_left _ hmem)) vs (hfills.alike hname).1
    · refine hperm₂.trans (List.Perm.append_right new ?_)
      have hmap := hp.symm.map (Entry.relisted lists)
      rwa [List.map_append, List.map_map] at hmap
  · refine hbelow.trans hbelow₂ fun vs s hs s₁ hs₁ s₂ h₁ h₂ => ?_
    obtain ⟨hhead, hes⟩ := h₁
    obtain ⟨hrecurs, gs, hgs, hp⟩ := h₂
    have hname := hheaders s hs
    have hown := hown s₁ hs₁
    rw [hhead] at hname ⊢
    rw [hes] at hgs hown
    refine ⟨hrecurs.retained hfills hname vs, gs, ?_, hp⟩
    have hmem := (List.forall₂_and_left (p := (· ∈ s.2)) s.2 gs).2 ⟨fun _ he => he, hgs⟩
    refine hmem.imp fun e g hk => ?_
    have hretained : (e.led (texts [])).Retained [] s.2 [] g := hk.2.retained hown hk.1 [] id
    rwa [texts, List.flatMap_nil, led_nil] at hretained

end Retaining

section Comments

def Contents.comments (c : Contents) : List (List Char) :=
  c.1.flatMap Entry.comments ++ c.2.flatMap fun s => s.1.comments ++ s.2.flatMap Entry.comments

/-- The comments inside a value that a list replaces. -/
def Entry.replaced (lists : Lists) (e : Entry) : List (List Char) :=
  if ∃ p ∈ lists, names e.path = [p.1] then Toml.comments e.value.spelling else []

def Contents.replaced (lists : Lists) (c : Contents) : List (List Char) :=
  c.1.flatMap (Entry.replaced lists)

variable {lists : Lists} {c c' : Contents} {e e' : Entry} {es fs new : List Entry}

theorem commentsOf_eq (sts : List Statement) (t : List Char) :
    commentsOf (sts, t) = Contents.comments (sections sts) ++ Toml.comments t := by
  have hsts : sts.flatMap Statement.comments = Contents.comments (sections sts) := by
    induction sts with
    | nil => rfl
    | cons st sts ih =>
      rw [List.flatMap_cons, ih]
      cases st with
      | entry e => simp only [Statement.comments, sections, Contents.comments, List.flatMap_cons, List.append_assoc]
      | header h =>
        simp only [Statement.comments, sections, Contents.comments, List.flatMap_nil, List.flatMap_cons,
          List.nil_append, List.append_assoc]
  rw [commentsOf, hsts]

theorem Entry.Kept.comments_eq (h : e.Kept es e') : e'.comments = e.comments := by
  rw [Entry.comments, Entry.comments, before, before, pathSpace, pathSpace, h.last, h.value, h.after]

theorem Entry.Kept.replaced_eq (h : e.Kept es e') (lists : Lists) : e'.replaced lists = e.replaced lists := by
  rw [replaced, replaced, h.names, h.value]

theorem replaced_led (lists : Lists) (t : List Char) (e : Entry) : (e.led t).replaced lists = e.replaced lists := by
  rw [Entry.replaced, Entry.replaced, Entry.led, names_lead]

theorem comments_relisted (lists : Lists) (e : Entry) :
    e.comments.Perm ((e.relisted lists).comments ++ e.replaced lists) := by
  by_cases h : ∃ p ∈ lists, names e.path = [p.1]
  · have hsome : (lists.find? fun p => names e.path = [p.1]) ≠ none := by
      intro hn
      obtain ⟨p, hp, he⟩ := h
      exact absurd (decide_eq_true he) (List.find?_eq_none.1 hn p hp)
    obtain ⟨p, hp⟩ := Option.ne_none_iff_exists'.1 hsome
    have hempty : Toml.comments (arrayValue p.2).spelling = [] := comments_arrayText p.2
    rw [Entry.relisted, hp, Entry.replaced, if_pos h, Entry.comments, Entry.comments, hempty, List.append_nil,
      List.append_assoc, List.append_assoc]
    exact List.perm_append_comm.append_left _
  · have hnone : (lists.find? fun p => names e.path = [p.1]) = none :=
      List.find?_eq_none.2 fun p hp he => h ⟨p, hp, of_decide_eq_true he⟩
    rw [Entry.relisted, hnone, Entry.replaced, if_neg h, List.append_nil]

theorem comments_fresh (name : List Char) (values : List (List Char)) : (Entry.fresh name values).comments = [] := by
  have hempty : Toml.comments (arrayValue values).spelling = [] := comments_arrayText values
  have hbefore : (Entry.fresh name values).before = [] := rfl
  rw [Entry.comments, hbefore, Entry.fresh, hempty, comments_nil]
  rfl

theorem perm_flatMap_of_forall₂ {α β γ : Type} {R : α → β → Prop} {as : List α} {bs : List β} {f : α → List γ}
    {g : β → List γ} (h : List.Forall₂ R as bs) (hf : ∀ a b, R a b → (f a).Perm (g b)) :
    (as.flatMap f).Perm (bs.flatMap g) := by
  induction h with
  | nil => exact .refl _
  | cons hab _ ih => exact (hf _ _ hab).append ih

theorem Contents.Recurs.comments_perm (h : Contents.Recurs lists new c c')
    (hnew : ∀ e ∈ new, ∃ p ∈ lists, e = .fresh p.1 p.2) : c.comments.Perm (c'.comments ++ c.replaced lists) := by
  obtain ⟨⟨fs, hfs, hperm⟩, hsections⟩ := h
  have hnone : new.flatMap Entry.comments = [] := by
    refine List.flatMap_eq_nil_iff.2 fun e he => ?_
    obtain ⟨p, -, rfl⟩ := hnew e he
    exact comments_fresh p.1 p.2
  have htop : (c.1.flatMap Entry.comments).Perm (c'.1.flatMap Entry.comments ++ c.replaced lists) := by
    rw [flatMap_eq_of_forall₂ (g := Entry.comments) hfs fun e f hk => hk.comments_eq.symm, Contents.replaced,
      flatMap_eq_of_forall₂ (g := Entry.replaced lists) hfs fun e f hk => (hk.replaced_eq lists).symm]
    refine List.Perm.trans ?_ ((hperm.flatMap_right Entry.comments).symm.append_right _)
    rw [List.flatMap_append, hnone, List.append_nil, List.flatMap_map]
    exact (List.Perm.flatMap_left fs fun e _ => comments_relisted lists e).trans (List.flatMap_append_perm _ _ _).symm
  have hbelow : (c.2.flatMap fun s => s.1.comments ++ s.2.flatMap Entry.comments).Perm
      (c'.2.flatMap fun s => s.1.comments ++ s.2.flatMap Entry.comments) := by
    refine perm_flatMap_of_forall₂ hsections fun s s' hs => ?_
    obtain ⟨hh, fs, hfs, hp⟩ := hs
    rw [Header.comments, Header.comments, hh.before, hh.after,
      flatMap_eq_of_forall₂ (g := Entry.comments) hfs fun e f hk => hk.comments_eq.symm]
    exact (hp.flatMap_right _).symm.append_left _
  rw [Contents.comments, Contents.comments, List.append_assoc]
  refine (htop.append hbelow).trans ?_
  rw [List.append_assoc]
  exact List.perm_append_comm.append_left _

theorem Contents.Fills.replaced_perm {ys zs ws : List Example} {p q : Contents × List Char}
    (h : Contents.Fills ys zs ws p q) (lists : Lists) : (q.1.replaced lists).Perm (p.1.replaced lists) := by
  obtain ⟨⟨fs, hfs, hperm⟩, -, -⟩ := h
  have hnone : ((ys ++ zs ++ ws).map Example.entry).flatMap (Entry.replaced lists) = [] := by
    refine List.flatMap_eq_nil_iff.2 fun l hl => ?_
    obtain ⟨x, -, rfl⟩ := List.mem_map.1 hl
    have hempty : Toml.comments (arrayValue []).spelling = [] := comments_arrayText []
    rw [Entry.replaced, Example.entry, listEntry, hempty, ite_self]
  have hsame : p.1.1.flatMap (Entry.replaced lists) = fs.flatMap (Entry.replaced lists) := by
    refine flatMap_eq_of_forall₂ hfs.forall₂ fun e f he => ?_
    obtain ⟨vs, rfl⟩ := he
    exact replaced_led lists (texts vs) f
  refine (hperm.flatMap_right _).trans ?_
  rw [List.flatMap_append, hnone, List.append_nil, ← hsame]
  exact .refl _

end Comments

end CBuild.Toml
