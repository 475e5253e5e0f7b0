import Mathlib.Data.List.Infix
import Mathlib.Tactic

/-! Views of a file tree, and mounts over them: at a path stands what was mounted last at the path
or above it. -/
namespace MountTable
variable {α β : Type*}

/-- What stands at each path. -/
abbrev View (α β : Type*) := List α → β

/-- Where a mount is seen, and what stands at the paths below. -/
structure Mount (α β : Type*) where
  target : List α
  content : View α β

def Mount.Covers (m : Mount α β) (path : List α) : Prop := m.target <+: path

/-- What a mount shows at a path that it covers. -/
def Mount.shows (m : Mount α β) (path : List α) : β := m.content (path.drop m.target.length)

variable [DecidableEq α]

instance (m : Mount α β) (path : List α) : Decidable (m.Covers path) := by
  unfold Mount.Covers
  infer_instance

def mount (view : View α β) (m : Mount α β) : View α β := fun path =>
  if m.Covers path then m.shows path else view path

/-- One mount after the other. -/
def mountAll (view : View α β) (mounts : List (Mount α β)) : View α β := mounts.foldl mount view

variable {view : View α β} {mounts : List (Mount α β)} {path : List α}

theorem mountAll_cons (m : Mount α β) :
    mountAll view (m :: mounts) = mountAll (mount view m) mounts := rfl

theorem mount_of_covers {m : Mount α β} (h : m.Covers path) : mount view m path = m.shows path :=
  if_pos h

theorem mount_of_not_covers {m : Mount α β} (h : ¬ m.Covers path) : mount view m path = view path :=
  if_neg h

/-- What no mount covers stands as before. -/
theorem mountAll_of_none (h : ∀ m ∈ mounts, ¬ m.Covers path) :
    mountAll view mounts path = view path := by
  induction mounts generalizing view with
  | nil => rfl
  | cons m mounts ih =>
    rw [List.forall_mem_cons] at h
    rw [mountAll_cons, ih h.2, mount_of_not_covers h.1]

/-- Where the mounts over a path all show the same, it does not matter which is the last. -/
theorem mountAll_of_some {b : β} (hsome : ∃ m ∈ mounts, m.Covers path)
    (hall : ∀ m ∈ mounts, m.Covers path → m.shows path = b) :
    mountAll view mounts path = b := by
  induction mounts generalizing view with
  | nil =>
    obtain ⟨m, hm, -⟩ := hsome
    exact absurd hm List.not_mem_nil
  | cons m mounts ih =>
    rw [List.forall_mem_cons] at hall
    rw [mountAll_cons]
    by_cases hlater : ∃ m' ∈ mounts, m'.Covers path
    · exact ih hlater hall.2
    · push Not at hlater
      rw [mountAll_of_none hlater]
      obtain ⟨m', hm', hcovers⟩ := hsome
      rcases List.mem_cons.mp hm' with rfl | hm'
      · rw [mount_of_covers hcovers, hall.1 hcovers]
      · exact absurd hcovers (hlater m' hm')

end MountTable
