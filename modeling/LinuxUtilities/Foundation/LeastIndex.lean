import Mathlib.Order.Bounds.Basic
import Mathlib.Order.MinMax
import Mathlib.Data.List.Nodup

/-! A list that keeps, for each key that was seen, the least index at which it was. -/
namespace LeastIndex
variable {κ ι : Type} [LinearOrder ι]

/-- The list has the least index of every key that was `seen`, once. -/
structure Notes (seen : κ → ι → Prop) (es : List (κ × ι)) : Prop where
  nodup : (es.map Prod.fst).Nodup
  sound : ∀ key index, (key, index) ∈ es → seen key index
  least : ∀ key index, seen key index → ∃ i ≤ index, (key, i) ∈ es

namespace Notes
variable {seen seen' : κ → ι → Prop} {es : List (κ × ι)}

theorem nil : Notes (fun (_ : κ) (_ : ι) => False) [] where
  nodup := List.nodup_nil
  sound _ _ h := absurd h List.not_mem_nil
  least _ _ h := h.elim

theorem congr (h : Notes seen es) (hseen : ∀ key index, seen key index ↔ seen' key index) :
    Notes seen' es where
  nodup := h.nodup
  sound key index hmem := (hseen key index).mp (h.sound key index hmem)
  least key index hs := h.least key index ((hseen key index).mpr hs)

theorem unique (h : Notes seen es) {key : κ} {i j : ι} (hi : (key, i) ∈ es)
    (hj : (key, j) ∈ es) : i = j :=
  congrArg Prod.snd (List.inj_on_of_nodup_map h.nodup hi hj rfl)

/-- The index of a key is the least at which it was seen. -/
theorem mem_iff (h : Notes seen es) (key : κ) (index : ι) :
    (key, index) ∈ es ↔ IsLeast {i | seen key i} index := by
  constructor
  · intro hmem
    refine ⟨h.sound key index hmem, fun i hi => ?_⟩
    obtain ⟨j, hj, hmem'⟩ := h.least key i hi
    exact (h.unique hmem hmem').trans_le hj
  · intro hleast
    obtain ⟨j, hj, hmem⟩ := h.least key index hleast.1
    rwa [hj.antisymm (hleast.2 (h.sound key j hmem))] at hmem

end Notes

section Note
variable [DecidableEq κ]

/-- Note that a key is seen at an index. -/
def note (key : κ) (index : ι) : List (κ × ι) → List (κ × ι)
  | [] => [(key, index)]
  | e :: es => if e.1 = key then (key, min e.2 index) :: es else e :: note key index es

theorem of_mem_note {key : κ} {index : ι} {e : κ × ι} {es : List (κ × ι)}
    (h : e ∈ note key index es) : e ∈ es ∨ e = (key, index) := by
  induction es with
  | nil => exact .inr (List.mem_singleton.mp h)
  | cons e' es ih =>
    unfold note at h
    split at h
    next hkey =>
      rcases List.mem_cons.mp h with rfl | hmem
      · rcases min_choice e'.2 index with hmin | hmin
        · left
          rw [hmin, ← hkey]
          exact List.mem_cons_self
        · right
          rw [hmin]
      · exact .inl (List.mem_cons_of_mem _ hmem)
    next hkey =>
      rcases List.mem_cons.mp h with rfl | hmem
      · exact .inl List.mem_cons_self
      · exact (ih hmem).imp_left (List.mem_cons_of_mem _)

theorem note_le_self (key : κ) (index : ι) (es : List (κ × ι)) :
    ∃ i ≤ index, (key, i) ∈ note key index es := by
  induction es with
  | nil => exact ⟨index, le_rfl, List.mem_singleton_self _⟩
  | cons e es ih =>
    unfold note
    split
    · exact ⟨_, min_le_right _ _, List.mem_cons_self⟩
    · obtain ⟨i, hi, hmem⟩ := ih
      exact ⟨i, hi, List.mem_cons_of_mem _ hmem⟩

theorem note_le_mem (key : κ) (index : ι) {k : κ} {i : ι} {es : List (κ × ι)}
    (h : (k, i) ∈ es) : ∃ j ≤ i, (k, j) ∈ note key index es := by
  induction es with
  | nil => exact absurd h List.not_mem_nil
  | cons e es ih =>
    unfold note
    split
    next hkey =>
      rcases List.mem_cons.mp h with rfl | hmem
      · obtain rfl : k = key := hkey
        exact ⟨_, min_le_left _ _, List.mem_cons_self⟩
      · exact ⟨i, le_rfl, List.mem_cons_of_mem _ hmem⟩
    next hkey =>
      rcases List.mem_cons.mp h with rfl | hmem
      · exact ⟨i, le_rfl, List.mem_cons_self⟩
      · obtain ⟨j, hj, hmem⟩ := ih hmem
        exact ⟨j, hj, List.mem_cons_of_mem _ hmem⟩

theorem note_nodup (key : κ) (index : ι) {es : List (κ × ι)} (h : (es.map Prod.fst).Nodup) :
    ((note key index es).map Prod.fst).Nodup := by
  induction es with
  | nil => exact List.nodup_singleton _
  | cons e es ih =>
    obtain ⟨hhead, htail⟩ := List.nodup_cons.mp h
    unfold note
    split
    next hkey => exact List.nodup_cons.mpr ⟨hkey ▸ hhead, htail⟩
    next hkey =>
      refine List.nodup_cons.mpr ⟨fun hmem => ?_, ih htail⟩
      obtain ⟨e', he', hfst⟩ := List.mem_map.mp hmem
      rcases of_mem_note he' with he' | rfl
      · exact hhead (hfst ▸ List.mem_map_of_mem he')
      · exact hkey hfst.symm

/-- One more sight. -/
theorem Notes.note {seen : κ → ι → Prop} {es : List (κ × ι)} (h : Notes seen es) (key : κ)
    (index : ι) :
    Notes (fun k i => seen k i ∨ k = key ∧ i = index) (LeastIndex.note key index es) where
  nodup := note_nodup key index h.nodup
  sound k i hmem := by
    rcases of_mem_note hmem with hmem | heq
    · exact .inl (h.sound k i hmem)
    · exact .inr (Prod.mk.inj heq)
  least k i hs := by
    rcases hs with hs | ⟨rfl, rfl⟩
    · obtain ⟨j, hj, hmem⟩ := h.least k i hs
      obtain ⟨j', hj', hmem'⟩ := note_le_mem key index hmem
      exact ⟨j', hj'.trans hj, hmem'⟩
    · exact note_le_self k i es

end Note

end LeastIndex
