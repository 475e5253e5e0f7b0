import Mathlib.Data.List.Chain
import Mathlib.Tactic

/-! Readings of a clock that never goes back, taken at most a given period apart: an alarm that
is looked for at each reading is at most that period late. -/
namespace SteadyClock

/-- Each reading is at least the one before it, and at most `period` more. -/
def Steady (period start : ℕ) (times : List ℕ) : Prop :=
  List.IsChain (fun earlier later => earlier ≤ later ∧ later ≤ earlier + period) (start :: times)

instance (period start : ℕ) (times : List ℕ) : Decidable (Steady period start times) :=
  inferInstanceAs (Decidable (List.IsChain _ _))

variable {period start bound t : ℕ} {times quiet rest : List ℕ}

theorem steady_cons : Steady period start (t :: times) ↔
    (start ≤ t ∧ t ≤ start + period) ∧ Steady period t times :=
  List.isChain_cons_cons

/-- The readings from one of them on. -/
theorem Steady.after (h : Steady period start (quiet ++ t :: rest)) : Steady period t rest := by
  induction quiet generalizing start with
  | nil => exact (steady_cons.mp h).2
  | cons s quiet ih => exact ih (steady_cons.mp h).2

theorem Steady.of_isPrefix (h : Steady period start times) (hfirst : quiet <+: times) :
    Steady period start quiet := by
  induction quiet generalizing start times with
  | nil => exact List.isChain_singleton start
  | cons s quiet ih =>
    obtain ⟨rest, rfl⟩ := hfirst
    obtain ⟨hs, hrest⟩ := steady_cons.mp h
    exact steady_cons.mpr ⟨hs, ih hrest (List.prefix_append quiet rest)⟩

/-- No reading is before the start. -/
theorem Steady.start_le (h : Steady period start times) (ht : t ∈ times) : start ≤ t := by
  induction times generalizing start with
  | nil => contradiction
  | cons s times ih =>
    obtain ⟨hs, hrest⟩ := steady_cons.mp h
    rcases List.mem_cons.mp ht with rfl | ht
    · exact hs.1
    · exact hs.1.trans (ih hrest ht)

/-- The first readings are no later than the one that follows them. -/
theorem Steady.le_of_mem (h : Steady period start (quiet ++ t :: rest)) {s : ℕ}
    (hs : s ∈ quiet) : s ≤ t := by
  induction quiet generalizing start with
  | nil => contradiction
  | cons u quiet ih =>
    obtain ⟨-, hrest⟩ := steady_cons.mp h
    rcases List.mem_cons.mp hs with rfl | hs
    · exact hrest.start_le (by simp)
    · exact ih hrest hs

/-- An alarm that none of the readings before has passed is at most a period late. -/
theorem Steady.late (h : Steady period start (quiet ++ t :: rest)) (hstart : start ≤ bound)
    (hquiet : ∀ s ∈ quiet, s < bound) : t ≤ bound + period := by
  induction quiet generalizing start with
  | nil =>
    have ht : t ≤ start + period := (steady_cons.mp h).1.2
    omega
  | cons s quiet ih =>
    have hs : s < bound := hquiet s List.mem_cons_self
    exact ih (steady_cons.mp h).2 hs.le fun u hu => hquiet u (List.mem_cons_of_mem s hu)

end SteadyClock
