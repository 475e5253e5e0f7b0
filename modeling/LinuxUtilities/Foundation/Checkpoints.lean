import Mathlib.Tactic

/-! Computations that stop at the first of their checkpoints that fails, and keep its code
in their state. -/
namespace Checkpoints
variable {σ κ : Type*} {code : σ → Option κ} {failures failures' : List (Option κ)}
  {good good' bad bad' : σ → Prop} {x : Except σ σ} {f : σ → Except σ σ} {s : σ}

/-- Of the checkpoints in order the first that fails ends the computation with its code;
when none fails it succeeds. -/
def Passes (code : σ → Option κ) (failures : List (Option κ)) (good bad : σ → Prop)
    (x : Except σ σ) : Prop :=
  match failures.findSome? id with
  | none => ∃ s, x = .ok s ∧ good s
  | some c => ∃ s, x = .error s ∧ code s = some c ∧ bad s

theorem Passes.ok (h : good s) : Passes code [] good bad (.ok s) := ⟨s, rfl, h⟩

theorem Passes.error {c : κ} (hcode : code s = some c) (h : bad s) :
    Passes code [some c] good bad (.error s) := ⟨s, rfl, hcode, h⟩

theorem Passes.imp (hx : Passes code failures good bad x) (hgood : ∀ s, good s → good' s)
    (hbad : ∀ s, bad s → bad' s) : Passes code failures good' bad' x := by
  unfold Passes at *
  split
  next h =>
    rw [h] at hx
    obtain ⟨s, hs, hpost⟩ := hx
    exact ⟨s, hs, hgood s hpost⟩
  next c h =>
    rw [h] at hx
    obtain ⟨s, hs, hcode, hpost⟩ := hx
    exact ⟨s, hs, hcode, hbad s hpost⟩

theorem Passes.bind (hx : Passes code failures good bad x)
    (hf : ∀ s, good s → Passes code failures' good' bad (f s)) :
    Passes code (failures ++ failures') good' bad (x >>= f) := by
  unfold Passes at *
  rw [List.findSome?_append]
  cases h : failures.findSome? id with
  | none =>
    rw [h] at hx
    obtain ⟨s, rfl, hpost⟩ := hx
    exact hf s hpost
  | some c =>
    rw [h] at hx
    obtain ⟨s, rfl, hcode, hpost⟩ := hx
    exact ⟨s, rfl, hcode, hpost⟩

/-- A condition that has to hold before the rest. -/
theorem Passes.check {p : Prop} [Decidable p] {c : κ} (hbad : ¬ p → code s = some c ∧ bad s)
    (hrest : p → Passes code failures good bad x) :
    Passes code ((if p then none else some c) :: failures) good bad
      (if ¬ p then .error s else x) := by
  by_cases h : p
  · simp only [h, not_true_eq_false, ↓reduceIte]
    exact hrest h
  · simp only [h, not_false_eq_true, ↓reduceIte]
    exact ⟨s, rfl, hbad h⟩

/-- How the computation ended tells whether a checkpoint failed. -/
theorem Passes.cases (hx : Passes code failures good bad x) :
    (failures.findSome? id = none ∧ ∃ s, x = .ok s ∧ good s) ∨
      ∃ c s, failures.findSome? id = some c ∧ x = .error s ∧ code s = some c ∧ bad s := by
  unfold Passes at hx
  split at hx
  next h => exact .inl ⟨h, hx⟩
  next c h =>
    obtain ⟨s, hs⟩ := hx
    exact .inr ⟨c, s, h, hs⟩

end Checkpoints
