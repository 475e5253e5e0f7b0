import Mathlib.Data.List.Infix
import Mathlib.Tactic

/-! Occurrences of a separator in a text: the first one, and how many there are. -/
namespace Separator
variable {α : Type*} (sep : List α)

/-- Before the text `after`, no occurrence begins within `before`. -/
def Clear : List α → List α → Prop
  | [], _ => True
  | b :: before, after => ¬ sep <+: b :: (before ++ after) ∧ Clear before after

section
variable {sep}

theorem clear_append {u v t : List α} :
    Clear sep (u ++ v) t ↔ Clear sep u (v ++ t) ∧ Clear sep v t := by
  induction u with
  | nil => simp [Clear]
  | cons b u ih => simp only [List.cons_append, Clear, ih, List.append_assoc, and_assoc]

theorem clear_of_notMem {c : α} {rest u t : List α} (h : c ∉ u) : Clear (c :: rest) u t := by
  induction u with
  | nil => exact trivial
  | cons b u ih =>
    rw [List.mem_cons, not_or] at h
    refine ⟨?_, ih h.2⟩
    intro hpre
    exact h.1 (List.cons_prefix_cons.mp hpre).1

theorem Clear.mono {sep' u t : List α} (hsep : sep <+: sep') (h : Clear sep u t) :
    Clear sep' u t := by
  induction u with
  | nil => exact trivial
  | cons b u ih => exact ⟨fun hpre => h.1 (hsep.trans hpre), ih h.2⟩

theorem Clear.not_infix {u : List α} (hne : sep ≠ []) (h : Clear sep u []) : ¬ sep <:+: u := by
  rintro ⟨s, t, rfl⟩
  rw [List.append_assoc, clear_append] at h
  cases hsep : sep with
  | nil => exact hne hsep
  | cons c sep' =>
    have hclear := h.2
    rw [hsep] at hclear
    exact hclear.1 ⟨t, by simp⟩

end

variable [DecidableEq α]

/-- What precedes the first occurrence of the separator, and what follows it. -/
def splitFirst : List α → Option (List α × List α)
  | [] => if sep = [] then some ([], []) else none
  | b :: text =>
    if sep <+: b :: text then some ([], (b :: text).drop sep.length)
    else (splitFirst text).map fun r => (b :: r.1, r.2)

/-- The number of positions at which the separator occurs. -/
def occurrences : List α → ℕ
  | [] => if sep = [] then 1 else 0
  | b :: text => (if sep <+: b :: text then 1 else 0) + occurrences text

variable {sep}

/-- A text is taken apart at its first separator. -/
theorem Clear.splitFirst {u t : List α} (hne : sep ≠ []) (h : Clear sep u (sep ++ t)) :
    splitFirst sep (u ++ (sep ++ t)) = some (u, t) := by
  induction u with
  | nil =>
    cases hsep : sep with
    | nil => exact absurd hsep hne
    | cons c sep' =>
      have hpre : c :: sep' <+: c :: (sep' ++ t) := ⟨t, rfl⟩
      simp [Separator.splitFirst, hpre]
  | cons b u ih => simp [Separator.splitFirst, h.1, ih h.2]

theorem Clear.occurrences {u t : List α} (h : Clear sep u t) :
    occurrences sep (u ++ t) = occurrences sep t := by
  induction u with
  | nil => rfl
  | cons b u ih => simp [Separator.occurrences, h.1, ih h.2]

end Separator
