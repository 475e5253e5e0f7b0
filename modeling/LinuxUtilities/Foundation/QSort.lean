import Mathlib.Data.List.Sort
import Mathlib.Tactic

/-! The contract of C's `qsort`: a permutation that its comparator puts in order. How
equal items end up is left open. -/

structure QSort {α : Type*} (cmp : α → α → ℤ) where
  sort : List α → List α
  perm : ∀ l, (sort l).Perm l
  sorted : ∀ l, (sort l).Pairwise fun a b => cmp a b ≤ 0

namespace QSort
variable {α κ : Type*} [LinearOrder κ] {cmp : α → α → ℤ}

/-- A sort for a comparator that orders items by a key. -/
def byKey (key : α → κ) (h : ∀ a b, cmp a b ≤ 0 ↔ key a ≤ key b) : QSort cmp where
  sort l := l.mergeSort fun a b => decide (key a ≤ key b)
  perm l := List.mergeSort_perm l _
  sorted l := by
    have hsorted := @List.pairwise_mergeSort α (fun a b => decide (key a ≤ key b))
      (fun a b c hab hbc => by
        simp only [decide_eq_true_eq] at hab hbc ⊢
        exact hab.trans hbc)
      (fun a b => by simpa using le_total (key a) (key b)) l
    apply hsorted.imp
    intro a b hab
    exact (h a b).mpr (by simpa using hab)

theorem mem_sort (q : QSort cmp) {l : List α} {a : α} : a ∈ q.sort l ↔ a ∈ l :=
  (q.perm l).mem_iff

/-- When ties are equal items, neither the sort nor the order of its input can be seen. -/
theorem sort_eq_of_perm (q q' : QSort cmp) {l l' : List α} (hp : l.Perm l')
    (hanti : ∀ a ∈ l, ∀ b ∈ l, cmp a b ≤ 0 → cmp b a ≤ 0 → a = b) : q.sort l = q'.sort l' := by
  have hperm : (q.sort l).Perm (q'.sort l') := (q.perm l).trans (hp.trans (q'.perm l').symm)
  apply hperm.eq_of_pairwise _ (q.sorted l) (q'.sorted l')
  intro a b ha hb
  exact hanti a (q.mem_sort.mp ha) b (hp.mem_iff.mpr (q'.mem_sort.mp hb))

/-- Items with different keys are put in strict order. -/
theorem pairwise_lt (q : QSort cmp) {key : α → κ} (h : ∀ a b, cmp a b ≤ 0 ↔ key a ≤ key b)
    {l : List α} (hnodup : (l.map key).Nodup) :
    (q.sort l).Pairwise fun a b => key a < key b := by
  have hne : (q.sort l).Pairwise fun a b => key a ≠ key b := by
    rw [← List.pairwise_map]
    exact ((q.perm l).map key).nodup_iff.mpr hnodup
  apply ((q.sorted l).and hne).imp
  rintro a b ⟨hle, hkey⟩
  exact lt_of_le_of_ne ((h a b).mp hle) hkey

end QSort
