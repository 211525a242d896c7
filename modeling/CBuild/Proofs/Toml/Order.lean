import CBuild.Proofs.Toml.Layout
import Mathlib.Data.List.Nodup

/-! Tables are printed in the order of their headers, whatever order the tree keeps them in. -/

namespace CBuild.Toml

section Order

def Sheet.rank (s : Sheet) : Nat :=
  (s.heading.map Heading.rank).getD 0

theorem map_snd_ranked (last : Nat) (bs : List Block) : (Block.ranked last bs).map Prod.snd = bs := by
  induction bs generalizing last with
  | nil => rfl
  | cons b bs ih => rw [Block.ranked, List.map_cons, ih]

theorem fst_of_mem_ranked {last : Nat} {bs : List Block} {p : Nat × Block}
    (h : p ∈ Block.ranked last bs) (hs : p.2.heading.isSome = true) : p.1 = p.2.sheet.rank := by
  induction bs generalizing last with
  | nil => cases h
  | cons b bs ih =>
    rw [Block.ranked] at h
    rcases List.mem_cons.1 h with rfl | h
    · obtain ⟨hd, hb⟩ := Option.isSome_iff_exists.1 hs
      dsimp only at hb ⊢
      rw [Sheet.rank, Block.sheet, hb]
      rfl
    · exact ih h

theorem eq_of_rank_eq {S : List Sheet} (hr : S.Pairwise fun a b => a.rank < b.rank) {a b : Sheet}
    (ha : a ∈ S) (hb : b ∈ S) (h : a.rank = b.rank) : a = b := by
  have hn : (S.map Sheet.rank).Nodup := by
    rw [List.Nodup, List.pairwise_map]
    exact hr.imp Nat.ne_of_lt
  exact List.inj_on_of_nodup_map hn ha hb h

/-- The tables that are printed stand in the order of their headers. -/
theorem map_sheet_ordered {bs : List Block} {S : List Sheet}
    (hp : List.Perm ((bs.map Block.sheet).filter Sheet.isVisible) S)
    (hh : ∀ s ∈ S, s.heading.isSome = true) (hr : S.Pairwise fun a b => a.rank < b.rank) :
    ((Block.ordered bs).filter Block.isVisible).map Block.sheet = S := by
  have hfilter (R : List (Nat × Block)) :
      ((R.map Prod.snd).filter Block.isVisible).map Block.sheet =
        (R.filter fun p => p.2.isVisible).map fun p => p.2.sheet := by
    rw [List.filter_map, List.map_map]
    rfl
  -- sorting permutes the sheets, and their ranks leave one order only
  have hle : ((Block.ranked 0 bs).mergeSort fun a b => a.1 ≤ b.1).Pairwise
      fun a b => decide (a.1 ≤ b.1) = true := by
    refine List.pairwise_mergeSort (fun a b c hab hbc => ?_) (fun a b => ?_) _
    · simp only [decide_eq_true_eq] at hab hbc ⊢
      exact Nat.le_trans hab hbc
    · simpa using Nat.le_total a.1 b.1
  have hperm := List.mergeSort_perm (Block.ranked 0 bs) fun a b => a.1 ≤ b.1
  have hS : List.Perm (((Block.ordered bs).filter Block.isVisible).map Block.sheet) S := by
    rw [Block.ordered, hfilter]
    refine ((hperm.filter _).map _).trans ?_
    rw [← hfilter, map_snd_ranked]
    refine (List.Perm.of_eq ?_).trans hp
    rw [List.filter_map]
    rfl
  have hheads : ∀ p ∈ (List.mergeSort (Block.ranked 0 bs) fun a b => a.1 ≤ b.1).filter
      (fun p => p.2.isVisible), p.1 = p.2.sheet.rank := by
    intro p hp
    refine fst_of_mem_ranked (hperm.subset (List.mem_filter.1 hp).1) (hh p.2.sheet (hS.subset ?_))
    rw [Block.ordered, hfilter]
    exact List.mem_map_of_mem hp
  have hsorted : (((Block.ordered bs).filter Block.isVisible).map Block.sheet).Pairwise
      fun a b => a.rank ≤ b.rank := by
    rw [Block.ordered, hfilter, List.pairwise_map]
    refine (hle.filter _).imp_of_mem ?_
    intro a b ha hb hab
    rw [← hheads a ha, ← hheads b hb]
    simpa using hab
  refine List.Perm.eq_of_pairwise ?_ hsorted (hr.imp Nat.le_of_lt) hS
  intro a b ha hb hab hba
  exact eq_of_rank_eq hr (hS.subset ha) hb (Nat.le_antisymm hab hba)

theorem rank_of_mem_sectionSheets {gs : List (Header × Children)} {rank : Nat} {s : Sheet}
    (h : s ∈ sectionSheets rank gs) : s.heading.isSome = true ∧ rank ≤ s.rank := by
  induction gs generalizing rank with
  | nil => cases h
  | cons g gs ih =>
    rw [sectionSheets] at h
    rcases List.mem_cons.1 h with rfl | h
    · exact ⟨rfl, Nat.le_refl _⟩
    · exact ⟨(ih h).1, Nat.le_of_succ_le (ih h).2⟩

theorem pairwise_sectionSheets (rank : Nat) (gs : List (Header × Children)) :
    (sectionSheets rank gs).Pairwise fun a b => a.rank < b.rank := by
  induction gs generalizing rank with
  | nil => exact .nil
  | cons g gs ih =>
    rw [sectionSheets]
    refine .cons (fun s hs => ?_) (ih (rank + 1))
    exact (rank_of_mem_sectionSheets hs).2

end Order

end CBuild.Toml
