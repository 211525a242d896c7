import CBuild.Glob.Expand
import CBuild.Proofs.Path.Order

/-! The list that comes out for a pattern: sorted, and of the paths at one place only the first. -/

namespace CBuild.Glob

variable {l l' : List Path} {p : Path}

theorem mem_of_mem_dedup (h : p ∈ files.dedup l) : p ∈ l := by
  fun_induction files.dedup l with
  | case1 a b r hab ih =>
    rcases List.mem_cons.1 (ih h) with rfl | hr
    · exact List.mem_cons_self
    · exact List.mem_cons_of_mem _ (List.mem_cons_of_mem _ hr)
  | case2 a b r hab ih =>
    rcases List.mem_cons.1 h with rfl | hr
    · exact List.mem_cons_self
    · exact List.mem_cons_of_mem _ (ih hr)
  | case3 l hl => exact h

theorem exists_mem_dedup (h : p ∈ l) : ∃ q ∈ files.dedup l, q.same p = true := by
  have hself (p : Path) : p.same p = true := decide_eq_true rfl
  have htrans {p q r : Path} (h : p.same q = true) (h' : q.same r = true) : p.same r = true :=
    decide_eq_true ((of_decide_eq_true h).trans (of_decide_eq_true h'))
  fun_induction files.dedup l generalizing p with
  | case1 a b r hab ih =>
    rcases List.mem_cons.1 h with rfl | hr
    · exact ih List.mem_cons_self
    · rcases List.mem_cons.1 hr with rfl | hr
      · obtain ⟨q, hq, hsame⟩ := ih List.mem_cons_self
        exact ⟨q, hq, htrans hsame hab⟩
      · exact ih (List.mem_cons_of_mem _ hr)
  | case2 a b r hab ih =>
    rcases List.mem_cons.1 h with rfl | hr
    · exact ⟨p, List.mem_cons_self, hself p⟩
    · obtain ⟨q, hq, hsame⟩ := ih hr
      exact ⟨q, List.mem_cons_of_mem _ hq, hsame⟩
  | case3 l hl => exact ⟨p, h, hself p⟩

theorem before_dedup (h : l.Pairwise fun p q => p.le q = true) : (files.dedup l).Pairwise Path.Before := by
  fun_induction files.dedup l with
  | case1 a b r hab ih =>
    have hsub : (a :: r).Sublist (a :: b :: r) := .cons_cons a (.cons b (.refl r))
    exact ih (h.sublist hsub)
  | case2 a b r hab ih =>
    obtain ⟨ha, hb⟩ := List.pairwise_cons.1 h
    refine List.pairwise_cons.2 ⟨fun x hx => ?_, ih hb⟩
    have hlt : Path.compare a b = .lt := by
      have hle := ha b List.mem_cons_self
      rw [Path.same_iff] at hab
      exact (Ordering.isLE_iff_eq_lt_or_eq_eq.1 hle).resolve_right hab
    rcases List.mem_cons.1 (mem_of_mem_dedup hx) with rfl | hx
    · exact hlt
    · exact Path.lt_of_lt_of_le hlt ((List.pairwise_cons.1 hb).1 x hx)
  | case3 l hl =>
    rcases l with _ | ⟨a, _ | ⟨b, r⟩⟩
    · exact .nil
    · exact List.pairwise_singleton _ a
    · exact absurd rfl (hl a b r)

/-- Sorted and without repeats, lists of the same paths are the same, when no two of the paths are at one place. -/
theorem dedup_eq_of_mem_iff (h : ∀ p, p ∈ l ↔ p ∈ l')
    (hone : ∀ p ∈ l, ∀ q ∈ l, p.same q = true → p = q) :
    files.dedup (l.mergeSort Path.le) = files.dedup (l'.mergeSort Path.le) := by
  have hsorted (l : List Path) : (l.mergeSort Path.le).Pairwise fun p q => p.le q = true := by
    apply List.pairwise_mergeSort
    · intro a b c
      exact Path.le_trans
    · exact Path.le_total
  have hkept {l : List Path} (hone : ∀ p ∈ l, ∀ q ∈ l, p.same q = true → p = q) (p : Path) :
      p ∈ files.dedup (l.mergeSort Path.le) ↔ p ∈ l := by
    constructor
    · exact fun hp => List.mem_mergeSort.1 (mem_of_mem_dedup hp)
    · intro hp
      obtain ⟨q, hq, hsame⟩ := exists_mem_dedup (List.mem_mergeSort.2 hp : p ∈ l.mergeSort Path.le)
      have hql : q ∈ l := List.mem_mergeSort.1 (mem_of_mem_dedup hq)
      rwa [hone q hql p hp hsame] at hq
  have hone' : ∀ p ∈ l', ∀ q ∈ l', p.same q = true → p = q := fun p hp q hq =>
    hone p ((h p).2 hp) q ((h q).2 hq)
  apply List.Pairwise.eq_of_mem_iff (before_dedup (hsorted l)) (before_dedup (hsorted l'))
  intro p
  rw [hkept hone, hkept hone', h]

end CBuild.Glob
