import Mathlib.Data.List.Basic
import Mathlib.Tactic

/-! Lists of rules in which the last one that matches decides, and the loop that goes through such
a list with the verdict so far. -/
namespace LastMatch
variable {α : Type*} {matched : α → Prop} {rules : List α} {r r' : α}

/-- A rule that matches, with none after it that does. -/
def Decides (matched : α → Prop) (rules : List α) (r : α) : Prop :=
  ∃ pre post, rules = pre ++ r :: post ∧ matched r ∧ ∀ r' ∈ post, ¬ matched r'

theorem not_decides_nil : ¬ Decides matched [] r := by
  rintro ⟨pre, post, heq, -⟩
  simp at heq

theorem Decides.mem (h : Decides matched rules r) : r ∈ rules := by
  obtain ⟨pre, post, rfl, -⟩ := h
  simp

/-- A last rule that matches decides, whatever comes before it. -/
theorem decides_concat_of_matched (h : matched r) : Decides matched (rules ++ [r]) r' ↔ r' = r := by
  constructor
  · rintro ⟨pre, post, heq, -, hpost⟩
    cases post using List.reverseRecOn with
    | nil => exact (List.singleton_inj.mp (List.append_inj' heq rfl).2).symm
    | append_singleton post last =>
      have hlast : r = last := by
        rw [← List.cons_append, ← List.append_assoc] at heq
        exact List.singleton_inj.mp (List.append_inj' heq rfl).2
      exact absurd (hlast ▸ h) (hpost last (by simp))
  · rintro rfl
    exact ⟨rules, [], rfl, h, by simp⟩

/-- A last rule that does not match leaves the decision to those before it. -/
theorem decides_concat_of_not_matched (h : ¬ matched r) :
    Decides matched (rules ++ [r]) r' ↔ Decides matched rules r' := by
  constructor
  · rintro ⟨pre, post, heq, hr', hpost⟩
    cases post using List.reverseRecOn with
    | nil =>
      have hlast : r = r' := List.singleton_inj.mp (List.append_inj' heq rfl).2
      exact absurd (hlast ▸ hr') h
    | append_singleton post last =>
      rw [← List.cons_append, ← List.append_assoc] at heq
      exact ⟨pre, post, (List.append_inj' heq rfl).1, hr',
        fun x hx => hpost x (List.mem_append_left _ hx)⟩
  · rintro ⟨pre, post, rfl, hr', hpost⟩
    refine ⟨pre, post ++ [r], by simp, hr', fun x hx => ?_⟩
    rcases List.mem_append.mp hx with hx | hx
    · exact hpost x hx
    · rwa [List.mem_singleton.mp hx]

/-- Only what the rules of the list match counts. -/
theorem Decides.congr {matched' : α → Prop} (h : ∀ r ∈ rules, matched r ↔ matched' r) :
    Decides matched rules r ↔ Decides matched' rules r := by
  constructor
  · rintro ⟨pre, post, rfl, hr, hpost⟩
    exact ⟨pre, post, rfl, (h r (by simp)).mp hr,
      fun x hx => mt (h x (by simp [hx])).mpr (hpost x hx)⟩
  · rintro ⟨pre, post, rfl, hr, hpost⟩
    exact ⟨pre, post, rfl, (h r (by simp)).mpr hr,
      fun x hx => mt (h x (by simp [hx])).mp (hpost x hx)⟩

/-- The loop ends with the verdict of the rule that decides, and false where none does. -/
theorem foldl_eq_true_iff [DecidablePred matched] (verdict : α → Bool) (rules : List α) :
    rules.foldl (fun answer r => if matched r then verdict r else answer) false = true ↔
      ∃ r, Decides matched rules r ∧ verdict r = true := by
  induction rules using List.reverseRecOn with
  | nil => simp [not_decides_nil]
  | append_singleton rules r ih =>
    rw [List.foldl_append, List.foldl_cons, List.foldl_nil]
    split
    next h => simp [decides_concat_of_matched h]
    next h => simpa only [decides_concat_of_not_matched h] using ih

end LastMatch
