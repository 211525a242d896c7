import CBuild.Proofs.Toml.Editing
import CBuild.Proofs.Toml.Lines

/-! Arrays put into a document that is composed line by line: the same lines, with other values under the listed
keys, and no other text than these. -/

namespace CBuild.Toml

namespace Line

variable {before name : List Char} {values : List (List Char)} {ls : List Line} {l : Line}

section Printing

theorem lines_children (before : List Char) (ls : List Line) :
    (entriesUnder [] (children before ls)).flatMap Entry.line ++ left before ls = before ++ ls.flatMap text := by
  fun_induction children before ls with
  | case1 => simp [entriesUnder, left]
  | case2 before t r ih => rw [left, ih, List.flatMap_cons, text, List.append_assoc]
  | case3 before name v after r ih =>
    rw [entriesUnder, Node.entries, List.flatMap_append, List.append_assoc, left, ih, List.flatMap_cons]
    simp [Entry.line, Entry.text, pathText, innerText, Key.opening, text]

theorem blocks_children (path : List Key) (before : List Char) (ls : List Line) :
    blocksUnder path (children before ls) = [] := by
  fun_induction children before ls with
  | case1 => rfl
  | case2 _ _ _ ih => exact ih
  | case3 before name v after r ih => rw [blocksUnder, Node.blocks, ih, List.nil_append]

theorem child?_children_eq_none :
    (children before ls).child? name = none ↔ name ∉ (assigned ls).map Prod.fst := by
  rw [← names_children before, ← not_mem_childNames]
  rfl

end Printing

section Putting

/-- The line with an array under the name, if it assigns to it. -/
def refit (name : List Char) (values : List (List Char)) : Line → Line
  | note t => note t
  | assignment other v after =>
    if other = name then assignment other (arrayValue values) [] else assignment other v after

def IsList : Line → Prop
  | note _ => True
  | assignment _ v after => after = [] ∧ ∃ xs, v.data = .array xs

theorem children_refit (before name : List Char) (values : List (List Char)) (ls : List Line) :
    (children before ls).put name (.value [' '] (arrayValue values) []) =
      children before (ls.map (refit name values)) := by
  fun_induction children before ls with
  | case1 => rfl
  | case2 before t r ih =>
    rw [List.map_cons, refit, children]
    exact ih
  | case3 before other v after r ih =>
    rw [Children.put_cons, ih, List.map_cons, refit]
    by_cases h : other = name
    · simp [h, Key.opening, children]
    · simp [h, Key.opening, children]

theorem left_refit (before name : List Char) (values : List (List Char)) (ls : List Line) :
    left before (ls.map (refit name values)) = left before ls := by
  fun_induction left before ls with
  | case1 => rfl
  | case2 before t r ih => exact ih
  | case3 before other v after r ih =>
    rw [List.map_cons, refit]
    split <;> exact ih

theorem names_refit (name : List Char) (values : List (List Char)) (ls : List Line) :
    (assigned (ls.map (refit name values))).map Prod.fst = (assigned ls).map Prod.fst := by
  fun_induction assigned ls with
  | case1 => rfl
  | case2 t r ih => exact ih
  | case3 other v after r ih =>
    rw [List.map_cons, refit]
    split <;> exact congrArg (other :: ·) ih

theorem exists_child? (hm : name ∈ (assigned ls).map Prod.fst)
    (hl : ∀ l ∈ ls, (∃ v after, l = assignment name v after) → l.IsList) (before : List Char) :
    ∃ k n, (children before ls).child? name = some (k, n) ∧ n.kept = [] := by
  fun_induction children before ls with
  | case1 => simp [assigned] at hm
  | case2 before t r ih =>
    exact ih hm fun l h => hl l (List.mem_cons_of_mem _ h)
  | case3 before other v after r ih =>
    rw [Children.child?_cons]
    by_cases h : other = name
    · subst h
      obtain ⟨rfl, xs, hxs⟩ := hl _ List.mem_cons_self ⟨v, after, rfl⟩
      refine ⟨Key.opening before other, .value [' '] v [], if_pos rfl, ?_⟩
      obtain ⟨data, spelling⟩ := v
      cases hxs
      rfl
    · rw [if_neg (by simpa [Key.opening] using h)]
      refine ih ?_ fun l hr => hl l (List.mem_cons_of_mem _ hr)
      rw [assigned, List.map_cons, List.mem_cons] at hm
      exact hm.resolve_left fun he => h he.symm

theorem putArray_children {more : Children} (hm : name ∈ (assigned ls).map Prod.fst)
    (hl : ∀ l ∈ ls, (∃ v after, l = assignment name v after) → l.IsList) (hn : more.child? name = none)
    (before : List Char) (values : List (List Char)) :
    (children before ls ++ more).putArray name values = children before (ls.map (refit name values)) ++ more := by
  obtain ⟨k, n, hc, hkept⟩ := exists_child? hm hl before
  rw [Children.putArray, Children.child?_append, hc]
  simp only [Option.some_or]
  rw [hkept, Children.put_append, children_refit, Children.put_eq_self hn]

def refitAll (lists : Lists) (l : Line) : Line :=
  lists.foldl (fun l p => l.refit p.1 p.2) l

theorem refitAll_note (lists : Lists) (t : List Char) : refitAll lists (note t) = note t := by
  induction lists with
  | nil => rfl
  | cons p lists ih => exact ih

/-- Of the arrays that are put one after the other, the one under the name of the line stays. -/
theorem refitAll_assignment {lists : Lists} (hd : (lists.map Prod.fst).Nodup) (name : List Char) (v : Value)
    (after : List Char) : refitAll lists (assignment name v after) =
      match lists.lookup name with
      | some new => assignment name (arrayValue new) []
      | none => assignment name v after := by
  -- an array that is put makes another value of the line, so the value is free
  induction lists generalizing v after with
  | nil => rfl
  | cons p lists ih =>
    obtain ⟨other, new⟩ := p
    rw [List.map_cons, List.nodup_cons] at hd
    rw [refitAll, List.foldl_cons, ← refitAll, refit]
    by_cases h : name = other
    · subst h
      have hnone : lists.lookup name = none :=
        List.lookup_eq_none_iff.2 fun q hq => by
          have hne : name ≠ q.1 := fun he => hd.1 (List.mem_map.2 ⟨q, hq, he.symm⟩)
          simpa using hne
      rw [if_pos rfl, ih hd.2, hnone, List.lookup_cons_self]
    · rw [if_neg h, ih hd.2, List.lookup_cons, beq_eq_false_iff_ne.2 h]

end Putting

end Line

theorem Document.text_lines (top below : List Line) (name : List Char) :
    (⟨Line.children [] top ++
        [(⟨name, name, ([], []), some ([], [])⟩,
          .table (.headed ⟨1, Line.left [] top, []⟩) (Line.children [] below))], Line.left [] below⟩ :
      Document).text = top.flatMap Line.text ++ (Line.headerText name ++ below.flatMap Line.text) := by
  have htop := Line.lines_children [] top
  have hbelow := Line.lines_children [] below
  rw [List.nil_append] at htop hbelow
  let k : Key := ⟨name, name, ([], []), some ([], [])⟩
  let b : Block := ⟨some ⟨1, Line.left [] top, []⟩, false, [k], entriesUnder [] (Line.children [] below)⟩
  have hblocks : blocksUnder [] (Line.children [] top ++ [(k, .table (.headed ⟨1, Line.left [] top, []⟩)
      (Line.children [] below))]) = [b] := by
    rw [blocksUnder_append, Line.blocks_children, List.nil_append, blocksUnder, blocksUnder, Node.blocks,
      Line.blocks_children]
    rfl
  have hordered : Block.ordered [b] = [b] := by simp [Block.ordered, Block.ranked]
  have hvisible : [b].filter Block.isVisible = [b] := rfl
  have htext (before : List Char) : b.text before = Line.left [] top ++ (Line.headerText name ++
      (entriesUnder [] (Line.children [] below)).flatMap Entry.line) := by
    simp [b, k, Block.text, pathText, innerText, Line.headerText]
  rw [Document.text, Children.text, hblocks, hordered, hvisible, List.foldl_cons, List.foldl_nil, htext,
    entriesUnder_append, ← htop, ← hbelow]
  simp [entriesUnder, Node.entries]

end CBuild.Toml
