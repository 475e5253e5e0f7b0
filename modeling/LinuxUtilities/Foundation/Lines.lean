import Mathlib.Tactic

/-! A stream as terminated lines and what follows the last terminator. -/
namespace Lines
variable {α : Type*} (sep : α)

/-- Terminated lines, then a rest without terminator. -/
def join (lines : List (List α)) (last : List α) : List α := lines.flatMap (· ++ [sep]) ++ last

@[simp] theorem join_nil (last : List α) : join sep [] last = last := rfl

theorem join_cons (l : List α) (lines : List (List α)) (last : List α) :
    join sep (l :: lines) last = l ++ sep :: join sep lines last := by
  simp [join]

theorem length_join_perm {lines lines' : List (List α)} (h : lines.Perm lines') (last : List α) :
    (join sep lines last).length = (join sep lines' last).length := by
  simp only [join, List.length_append]
  rw [(h.flatMap_right (· ++ [sep])).length_eq]

theorem mem_join {lines : List (List α)} {last : List α} {a : α} (h : a ≠ sep) :
    a ∈ join sep lines last ↔ (∃ l ∈ lines, a ∈ l) ∨ a ∈ last := by
  simp [join, h]

/-- Put an item in front of the first line. -/
def prepend (ch : α) : List (List α) × List α → List (List α) × List α
  | ([], last) => ([], ch :: last)
  | (l :: lines, last) => ((ch :: l) :: lines, last)

variable [DecidableEq α]

def split : List α → List (List α) × List α
  | [] => ([], [])
  | ch :: rest =>
    if ch = sep then ([] :: (split rest).1, (split rest).2) else prepend ch (split rest)

theorem join_split (s : List α) : join sep (split sep s).1 (split sep s).2 = s := by
  induction s with
  | nil => rfl
  | cons ch rest ih =>
    unfold split
    split
    next hch => simp [join_cons, ih, hch]
    next hch =>
      revert ih
      obtain ⟨_ | ⟨l, lines⟩, last⟩ := split sep rest <;> intro ih
      · simpa [prepend] using ih
      · simpa [prepend, join_cons] using ih

theorem split_append_sep (l : List α) (hl : sep ∉ l) (rest : List α) :
    split sep (l ++ sep :: rest) = (l :: (split sep rest).1, (split sep rest).2) := by
  induction l with
  | nil => simp [split]
  | cons ch l ih =>
    have hch : ch ≠ sep := fun h => hl (by simp [h])
    have hl' : sep ∉ l := fun h => hl (List.mem_cons_of_mem _ h)
    rw [List.cons_append, split, ih hl', if_neg hch]
    rfl

theorem split_of_notMem {l : List α} (hl : sep ∉ l) : split sep l = ([], l) := by
  induction l with
  | nil => rfl
  | cons ch l ih =>
    have hch : ch ≠ sep := fun h => hl (by simp [h])
    have hl' : sep ∉ l := fun h => hl (List.mem_cons_of_mem _ h)
    rw [split, ih hl', if_neg hch]
    rfl

/-- Lines without terminators inside are found again. -/
theorem split_join {lines : List (List α)} {last : List α} (hlines : ∀ l ∈ lines, sep ∉ l)
    (hlast : sep ∉ last) : split sep (join sep lines last) = (lines, last) := by
  induction lines with
  | nil => exact split_of_notMem sep hlast
  | cons l lines ih =>
    rw [join_cons, split_append_sep sep l (hlines l List.mem_cons_self),
      ih fun m hm => hlines m (List.mem_cons_of_mem _ hm)]

theorem notMem_split (s : List α) :
    (∀ l ∈ (split sep s).1, sep ∉ l) ∧ sep ∉ (split sep s).2 := by
  induction s with
  | nil => simp [split]
  | cons ch rest ih =>
    unfold split
    split
    next => simpa using ih
    next hch =>
      revert ih
      obtain ⟨_ | ⟨l, lines⟩, last⟩ := split sep rest <;> intro ih
      · simpa [prepend, Ne.symm hch] using ih
      · simpa [prepend, Ne.symm hch] using ih

end Lines
