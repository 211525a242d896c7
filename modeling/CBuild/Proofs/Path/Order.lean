import CBuild.Path
import Mathlib.Data.List.Sort

/-! The order of paths. Paths are ordered by their components, of which none but equal ones are at one place. -/

namespace CBuild

namespace Component

def compareNames : List Char → List Char → Ordering :=
  List.compareLex (compareOn Char.val)

instance : Std.LawfulEqCmp (compareOn Char.val) where
  eq_of_compare h := Char.ext (Std.LawfulEqCmp.eq_of_compare h)

instance : Std.TransCmp compareNames :=
  inferInstanceAs (Std.TransCmp (List.compareLex (compareOn Char.val)))

instance : Std.LawfulEqCmp compareNames :=
  inferInstanceAs (Std.LawfulEqCmp (List.compareLex (compareOn Char.val)))

theorem compare_name (a b : List Char) : compare (name a) (name b) = compareNames a b := rfl

instance : Std.TransCmp compare where
  eq_swap {a b} := by
    cases a <;> cases b
    case name.name a b =>
      rw [compare_name, compare_name]
      exact Std.OrientedCmp.eq_swap
    all_goals rfl
  isLE_trans {a b c} hab hbc := by
    cases a <;> cases b <;> cases c
    case name.name.name a b c =>
      rw [compare_name] at hab hbc ⊢
      exact Std.TransCmp.isLE_trans hab hbc
    all_goals first | rfl | exact absurd hab Bool.false_ne_true | exact absurd hbc Bool.false_ne_true

instance : Std.LawfulEqCmp compare where
  compare_self {a} := by
    cases a
    case name a =>
      rw [compare_name]
      exact Std.ReflCmp.compare_self
    all_goals rfl
  eq_of_compare {a b} h := by
    cases a <;> cases b
    case name.name a b =>
      rw [compare_name] at h
      rw [Std.LawfulEqCmp.eq_of_compare h]
    all_goals first | rfl | cases h

end Component

namespace Path

instance : Std.TransCmp compare where
  eq_swap {p q} := by
    rw [compare, compare]
    exact Std.OrientedCmp.eq_swap
  isLE_trans {p q r} hpq hqr := by
    rw [compare] at hpq hqr ⊢
    exact Std.TransCmp.isLE_trans hpq hqr

theorem same_iff {p q : Path} : p.same q = true ↔ compare p q = .eq := by
  rw [same, decide_eq_true_iff, compare, Std.LawfulEqCmp.compare_eq_iff_eq]

theorem le_trans {p q r : Path} (h : p.le q = true) (h' : q.le r = true) : p.le r = true :=
  Std.TransCmp.isLE_trans h h'

theorem le_total (p q : Path) : (p.le q || q.le p) = true := by
  have hswap : compare q p = (compare p q).swap := Std.OrientedCmp.eq_swap
  rw [le, le, hswap]
  cases compare p q <;> rfl

theorem lt_of_lt_of_le {p q r : Path} (h : compare p q = .lt) (h' : q.le r = true) : compare p r = .lt :=
  Std.TransCmp.lt_of_lt_of_isLE h h'

def Before (p q : Path) : Prop :=
  compare p q = .lt

theorem not_before_self (p : Path) : ¬Before p p := by
  intro h
  have hself : compare p p = .eq := Std.ReflCmp.compare_self
  rw [Before, hself] at h
  cases h

theorem Before.not_before {p q : Path} (h : Before p q) : ¬Before q p := by
  intro h'
  have hswap : compare q p = .gt := Std.OrientedCmp.gt_of_lt h
  rw [Before, hswap] at h'
  cases h'

instance : Std.Irrefl Before where
  irrefl := not_before_self

instance : Std.Antisymm Before where
  antisymm _ _ h h' := absurd h' h.not_before

end Path

end CBuild
