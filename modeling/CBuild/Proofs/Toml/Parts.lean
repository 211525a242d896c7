import CBuild.Toml.Document
import CBuild.Proofs.Toml.Tables

/-! A line of a document concerns one key of the top table: what stands under the other keys stays, and what
becomes of the key depends on nothing else. So a run of lines can be told apart key by key. -/

namespace CBuild.Toml

namespace Children

section Only

variable {cs ds : Children} {k : Key} {n : Node} {name other : List Char}

/-- What stands under a name. -/
def only (cs : Children) (name : List Char) : Children :=
  cs.filter fun (k, _) => k.name = name

@[simp] theorem only_nil (name : List Char) : only [] name = [] := rfl

theorem only_cons (p : Key × Node) (cs : Children) (name : List Char) :
    only (p :: cs) name = if p.1.name = name then p :: cs.only name else cs.only name := by
  rw [only, List.filter_cons]
  simp only [decide_eq_true_eq]
  rfl

theorem only_append (cs ds : Children) (name : List Char) :
    only (cs ++ ds) name = cs.only name ++ ds.only name := by
  rw [only, List.filter_append]
  rfl

theorem only_self (k : Key) (n : Node) : only [(k, n)] k.name = [(k, n)] := by
  rw [only_cons, if_pos rfl, only_nil]

theorem only_other (h : other ≠ k.name) (n : Node) : only [(k, n)] other = [] := by
  rw [only_cons, if_neg (Ne.symm h), only_nil]

theorem child?_only (cs : Children) (name : List Char) : child? (cs.only name) name = cs.child? name := by
  induction cs with
  | nil => rfl
  | cons p cs ih =>
    rw [only_cons, child?_cons]
    by_cases h : p.1.name = name
    · rw [if_pos h, if_pos h, child?_cons, if_pos h]
    · rw [if_neg h, if_neg h, ih]

theorem put_only (cs : Children) (name : List Char) (n : Node) :
    put (cs.only name) name n = only (cs.put name n) name := by
  induction cs with
  | nil => rfl
  | cons p cs ih =>
    rw [only_cons, put_cons, only_cons]
    by_cases h : p.1.name = name
    · rw [if_pos h, if_pos h, put_cons, if_pos h, if_pos h, ih]
    · rw [if_neg h, if_neg h, if_neg h, ih]

theorem only_put (h : other ≠ name) (cs : Children) (n : Node) :
    only (cs.put name n) other = cs.only other := by
  induction cs with
  | nil => rfl
  | cons p cs ih =>
    rw [put_cons, only_cons, only_cons, ih]
    by_cases hp : p.1.name = name
    · rw [if_pos hp, if_neg (hp ▸ Ne.symm h), if_neg (hp ▸ Ne.symm h)]
    · rw [if_neg hp]

theorem erase_only (cs : Children) (name : List Char) :
    erase (cs.only name) name = only (cs.erase name) name := by
  simp only [erase, only, List.filter_filter, Bool.and_comm]

theorem only_erase (h : other ≠ name) (cs : Children) : only (cs.erase name) other = cs.only other := by
  rw [erase, only, only, List.filter_filter]
  refine List.filter_congr fun p _ => ?_
  by_cases hp : p.1.name = other
  · simp [hp, h]
  · simp [hp]

end Only

/-- The change concerns one name: what it makes of that name comes from what stands under it, and what stands
under any other name stays. -/
structure Concerns (name : List Char) (change : Children → Option Children) : Prop where
  within : ∀ cs, change (cs.only name) = (change cs).map fun ds => ds.only name
  beside : ∀ {cs ds other}, change cs = some ds → other ≠ name → ds.only other = cs.only other

section Changes

variable {β : Type} {cs ds : Children} {k : Key} {name other : List Char}

theorem map_concat_only (x : Option β) (mk : β → Node) (cs : Children) (k : Key) :
    (x.map fun b => cs.only k.name ++ [(k, mk b)]) =
      (x.map fun b => cs ++ [(k, mk b)]).map fun ds => only ds k.name := by
  rw [Option.map_map]
  refine congrArg (Option.map · x) (funext fun b => ?_)
  rw [Function.comp_apply, only_append, only_self]

theorem only_of_map_concat {x : Option β} {mk : β → Node}
    (h : (x.map fun b => cs ++ [(k, mk b)]) = some ds) (hne : other ≠ k.name) :
    ds.only other = cs.only other := by
  obtain ⟨n, _, rfl⟩ := Option.map_eq_some_iff.1 h
  rw [only_append, only_other hne, List.append_nil]

theorem map_put_only (x : Option β) (mk : β → Node) (cs : Children) (name : List Char) :
    (x.map fun b => put (cs.only name) name (mk b)) =
      (x.map fun b => cs.put name (mk b)).map fun ds => only ds name := by
  rw [Option.map_map]
  refine congrArg (Option.map · x) (funext fun b => ?_)
  rw [Function.comp_apply, put_only]

theorem only_of_map_put {x : Option β} {mk : β → Node}
    (h : (x.map fun b => cs.put name (mk b)) = some ds) (hne : other ≠ name) :
    ds.only other = cs.only other := by
  obtain ⟨n, _, rfl⟩ := Option.map_eq_some_iff.1 h
  exact only_put hne cs _

theorem map_replace_only (x : Option β) (mk : β → Node) (cs : Children) (k : Key) :
    (x.map fun b => erase (cs.only k.name) k.name ++ [(k, mk b)]) =
      (x.map fun b => cs.erase k.name ++ [(k, mk b)]).map fun ds => only ds k.name := by
  rw [Option.map_map]
  refine congrArg (Option.map · x) (funext fun b => ?_)
  rw [Function.comp_apply, only_append, only_self, erase_only]

theorem only_of_map_replace {x : Option β} {mk : β → Node}
    (h : (x.map fun b => cs.erase k.name ++ [(k, mk b)]) = some ds) (hne : other ≠ k.name) :
    ds.only other = cs.only other := by
  obtain ⟨n, _, rfl⟩ := Option.map_eq_some_iff.1 h
  rw [only_append, only_other hne, List.append_nil, only_erase hne]

theorem isSome_child?_of_map_concat {x : Option β} {mk : β → Node}
    (h : (x.map fun b => cs ++ [(k, mk b)]) = some ds) : (ds.child? k.name).isSome = true := by
  obtain ⟨b, _, rfl⟩ := Option.map_eq_some_iff.1 h
  rw [child?_append, child?_cons, if_pos rfl, Option.isSome_or, Option.isSome_some, Bool.or_true]

theorem isSome_child?_of_map_put {x : Option β} {mk : β → Node} {p : Key × Node}
    (hp : cs.child? name = some p) (h : (x.map fun b => cs.put name (mk b)) = some ds) :
    (ds.child? name).isSome = true := by
  obtain ⟨b, _, rfl⟩ := Option.map_eq_some_iff.1 h
  rw [Option.isSome_iff_ne_none, ne_eq, child?_put_eq_none, hp]
  exact Option.some_ne_none p

theorem Concerns.isSome_child? {change : Children → Option Children} (hc : Concerns name change)
    (hs : (ds.child? name).isSome = true) (h : change cs = some ds)
    (ho : (cs.child? other).isSome = true) : (ds.child? other).isSome = true := by
  by_cases hn : other = name
  · exact hn ▸ hs
  · rwa [← child?_only, hc.beside h hn, child?_only]

theorem concerns_define? (holds : Bool) (n : Node) (k : Key) (path : List Key) :
    Concerns k.name fun cs => cs.define? holds n (k :: path) := by
  cases path with
  | nil =>
    constructor
    · intro cs
      rw [define?, define?, child?_only]
      split
      · rfl
      · exact map_concat_only (some ()) (fun _ => n) cs k
    · intro cs ds other h hne
      rw [define?] at h
      split at h
      · cases h
      · have hd : ((some n).map fun m => cs ++ [(k, m)]) = some ds := h
        exact only_of_map_concat hd hne
  | cons l path =>
    constructor
    · intro cs
      have hne : l :: path = [] → False := nofun
      rw [define?.eq_3 cs holds n k _ hne, define?.eq_3 (cs.only k.name) holds n k _ hne, child?_only]
      cases cs.child? k.name with
      | none => exact map_concat_only _ (.table .dotted) cs k
      | some p =>
        obtain ⟨_, m⟩ := p
        cases m with
        | value gap v after => rfl
        | table how sub =>
          cases how with
          | headed h => rfl
          | dotted => exact map_put_only _ (.table .dotted) cs k.name
          | implied => exact map_put_only _ (.table .implied) cs k.name
        | tables es => exact map_put_only _ .tables cs k.name
    · intro cs ds other h hne
      rw [define?] at h
      · split at h
        · exact only_of_map_concat h hne
        · cases h
        · cases h
        · exact only_of_map_put h hne
        · exact only_of_map_put h hne
        · exact only_of_map_put h hne
      · simp

theorem concerns_descend? (f : Children → Option Children) (k : Key) (path : List Key) :
    Concerns k.name fun cs => cs.descend? f (k :: path) := by
  constructor
  · intro cs
    rw [descend?, descend?, child?_only]
    cases cs.child? k.name with
    | none => exact map_concat_only _ (.table .implied) cs k
    | some p =>
      obtain ⟨_, m⟩ := p
      cases m with
      | value gap v after => rfl
      | table how sub => exact map_put_only _ (.table how) cs k.name
      | tables es => exact map_put_only _ .tables cs k.name
  · intro cs ds other h hne
    rw [descend?] at h
    split at h
    · exact only_of_map_concat h hne
    · cases h
    · exact only_of_map_put h hne
    · exact only_of_map_put h hne

theorem concerns_headTable? (k : Key) (h : Heading) (body : Children → Option Children) :
    Concerns k.name (headTable? k h body) := by
  constructor
  · intro cs
    rw [headTable?, headTable?, child?_only]
    cases cs.child? k.name with
    | none => exact map_concat_only _ (.table (.headed h)) cs k
    | some p =>
      obtain ⟨_, m⟩ := p
      cases m with
      | value gap v after => rfl
      | table how sub =>
        cases how with
        | headed h => rfl
        | dotted => rfl
        | implied => exact map_replace_only _ (.table (.headed h)) cs k
      | tables es => rfl
  · intro cs ds other hd hne
    rw [headTable?] at hd
    split at hd
    · exact only_of_map_concat hd hne
    · exact only_of_map_replace hd hne
    · cases hd

theorem concerns_headElement? (k : Key) (h : Heading) (body : Children → Option Children) :
    Concerns k.name (headElement? k h body) := by
  constructor
  · intro cs
    rw [headElement?, headElement?, child?_only]
    cases cs.child? k.name with
    | none => exact map_concat_only _ (fun b => .tables [(h, b)]) cs k
    | some p =>
      obtain ⟨_, m⟩ := p
      cases m with
      | value gap v after => rfl
      | table how sub => cases how <;> rfl
      | tables es => exact map_put_only _ (fun b => .tables (es ++ [(h, b)])) cs k.name
  · intro cs ds other hd hne
    rw [headElement?] at hd
    split at hd
    · exact only_of_map_concat hd hne
    · exact only_of_map_put hd hne
    · cases hd

def headName (path : List Key) : List Char :=
  (path.head?.map Key.name).getD []

theorem concerns_open? (h : Header) (rank : Nat) (f : Children → Option Children) :
    Concerns (headName h.path) (h.open? rank f) := by
  obtain ⟨before, element, path, after⟩ := h
  unfold Header.open?
  match path with
  | [] => exact ⟨fun _ => rfl, nofun⟩
  | [k] =>
    cases element with
    | false => exact concerns_headTable? k _ f
    | true => exact concerns_headElement? k _ f
  | k :: l :: path =>
    have hlast : (k :: l :: path).getLast? = some ((l :: path).getLast (List.cons_ne_nil _ _)) := by
      rw [List.getLast?_cons_cons, List.getLast?_eq_some_getLast (List.cons_ne_nil _ _)]
    simp only [hlast, List.dropLast_cons_cons]
    exact concerns_descend? _ k _

end Changes

section Runs

variable {α : Type} {name : α → List Char} {change : α → Children → Option Children}

def run (change : α → Children → Option Children) (cs : Children) (as : List α) : Option Children :=
  as.foldlM (fun cs a => change a cs) cs

theorem run_cons (cs : Children) (a : α) (as : List α) :
    run change cs (a :: as) = (change a cs).bind fun ds => run change ds as := rfl

theorem run_only (hc : ∀ a, Concerns (name a) (change a)) {cs ds : Children} {as : List α}
    (h : run change cs as = some ds) (m : List Char) :
    run change (cs.only m) (as.filter (name · = m)) = some (ds.only m) := by
  induction as generalizing cs with
  | nil =>
    cases h
    rfl
  | cons a as ih =>
    rw [run_cons] at h
    obtain ⟨es, ha, h⟩ := Option.bind_eq_some_iff.1 h
    rw [List.filter_cons]
    by_cases hm : name a = m
    · have hw := (hc a).within cs
      rw [hm, ha, Option.map_some] at hw
      rw [if_pos (by simpa using hm), run_cons, hw, Option.bind_some, ih h]
    · rw [if_neg (by simpa using hm), ← (hc a).beside ha (Ne.symm hm), ih h]

theorem isSome_run (hc : ∀ a, Concerns (name a) (change a)) {cs : Children} {as : List α}
    (h : ∀ a ∈ as, (run change (cs.only (name a)) (as.filter (name · = name a))).isSome = true) :
    (run change cs as).isSome = true := by
  induction as generalizing cs with
  | nil => rfl
  | cons a as ih =>
    have hfirst := h a List.mem_cons_self
    rw [List.filter_cons_of_pos (by simp), run_cons, (hc a).within] at hfirst
    rw [run_cons]
    cases ha : change a cs with
    | none =>
      rw [ha] at hfirst
      exact hfirst
    | some ds =>
      rw [ha, Option.map_some, Option.bind_some] at hfirst
      rw [Option.bind_some]
      refine ih fun b hb => ?_
      by_cases hm : name b = name a
      · rw [hm]
        exact hfirst
      · have hb := h b (List.mem_cons_of_mem _ hb)
        rwa [List.filter_cons_of_neg (by simpa using Ne.symm hm), ← (hc a).beside ha hm] at hb

/-- Two runs that agree in the names of the second: the second succeeds like the first, and they agree in
what they make of every name in which they start alike. -/
theorem run_agree (hc : ∀ a, Concerns (name a) (change a)) {cs cs' ds : Children} {as bs : List α}
    (h : run change cs as = some ds)
    (hb : ∀ b ∈ bs, cs'.only (name b) = cs.only (name b) ∧
      bs.filter (name · = name b) = as.filter (name · = name b)) :
    ∃ ds', run change cs' bs = some ds' ∧
      (∀ m, cs'.only m = cs.only m → bs.filter (name · = m) = as.filter (name · = m) →
        ds'.only m = ds.only m) ∧
      ∀ m, (∀ b ∈ bs, name b ≠ m) → ds'.only m = cs'.only m := by
  have hsome : (run change cs' bs).isSome = true := by
    refine isSome_run hc fun b hm => ?_
    obtain ⟨hcs, hfilter⟩ := hb b hm
    rw [hcs, hfilter, run_only hc h]
    rfl
  obtain ⟨ds', hds⟩ := Option.isSome_iff_exists.1 hsome
  refine ⟨ds', hds, fun m hcs hfilter => ?_, fun m hm => ?_⟩
  · have h' := run_only hc hds m
    rw [hcs, hfilter, run_only hc h] at h'
    exact (Option.some.inj h').symm
  · have h' := run_only hc hds m
    rw [List.filter_eq_nil_iff.2 (by simpa using hm)] at h'
    exact (Option.some.inj h').symm

end Runs

end Children

end CBuild.Toml
