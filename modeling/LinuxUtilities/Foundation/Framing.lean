import Mathlib.Data.List.Basic
import Mathlib.Tactic

/-! Records written one after another as a head of fixed length, a body of any length
and a terminator, and when they can be read back. -/
namespace Framing
variable {α : Type*} (t : α) (Head : List α → Prop)

/-- What can stand before a body: all heads have one length, none has the terminator. -/
structure Heads (n : ℕ) : Prop where
  length : ∀ h, Head h → h.length = n
  clear : ∀ h, Head h → t ∉ h

/-- A body in which a terminator is followed by something that reads as a head. -/
def Hides (body : List α) : Prop :=
  ∃ before head after, Head head ∧ body = before ++ t :: (head ++ after)

/-- One record: its head, its body and the terminator. -/
def frame (r : List α × List α) : List α := r.1 ++ (r.2 ++ [t])

/-- A record that can be read back. -/
structure Plain (r : List α × List α) : Prop where
  head : Head r.1
  body : ¬ Hides t Head r.2

variable {t Head}

/-- A body does not run over the terminator of a shorter one into the next records. -/
theorem Plain.no_overrun {n : ℕ} (heads : Heads t Head n) {xs : List (List α × List α)}
    (hx : ∀ r ∈ xs, Plain t Head r) {body extra tail : List α}
    (hbody : ¬ Hides t Head (body ++ extra))
    (h : t :: xs.flatMap (frame t) = extra ++ t :: tail) : extra = [] := by
  cases extra with
  | nil => rfl
  | cons b extra =>
    obtain ⟨rfl, hrest⟩ := List.cons.inj h
    cases xs with
    | nil => simp at hrest
    | cons x xs =>
      have hhead := (hx x List.mem_cons_self).head
      rw [List.flatMap_cons, frame, List.append_assoc] at hrest
      rcases List.append_eq_append_iff.mp hrest with ⟨after, hextra, -⟩ | ⟨cut, hcut, htail⟩
      · -- the longer body holds the whole head of the next record
        exact (hbody ⟨body, x.1, after, hhead, by rw [hextra]⟩).elim
      · cases cut with
        | nil =>
          rw [List.append_nil] at hcut
          exact (hbody ⟨body, x.1, [], hhead, by rw [List.append_nil, hcut]⟩).elim
        | cons c cut =>
          -- the terminator would stand in the head
          obtain ⟨rfl, -⟩ := List.cons.inj htail
          refine (heads.clear x.1 hhead ?_).elim
          rw [hcut]
          simp

/-- Records that hide no head are read back from their concatenation. -/
theorem frames_injective {n : ℕ} (heads : Heads t Head n) {xs ys : List (List α × List α)}
    (hx : ∀ r ∈ xs, Plain t Head r) (hy : ∀ r ∈ ys, Plain t Head r)
    (h : xs.flatMap (frame t) = ys.flatMap (frame t)) : xs = ys := by
  induction xs generalizing ys with
  | nil =>
    cases ys with
    | nil => rfl
    | cons y ys => simp [frame] at h
  | cons x xs ih =>
    cases ys with
    | nil => simp [frame] at h
    | cons y ys =>
      have hpx := hx x List.mem_cons_self
      have hpy := hy y List.mem_cons_self
      have hxs : ∀ r ∈ xs, Plain t Head r := fun r hr => hx r (List.mem_cons_of_mem x hr)
      have hys : ∀ r ∈ ys, Plain t Head r := fun r hr => hy r (List.mem_cons_of_mem y hr)
      simp only [List.flatMap_cons, frame, List.append_assoc, List.singleton_append] at h
      obtain ⟨hhead, hrest⟩ := List.append_inj h
        ((heads.length _ hpx.head).trans (heads.length _ hpy.head).symm)
      have hbody : x.2 = y.2 := by
        rcases List.append_eq_append_iff.mp hrest with
          ⟨extra, hextra, htail⟩ | ⟨extra, hextra, htail⟩
        · have hnil := Plain.no_overrun heads hxs (hextra ▸ hpy.body) htail
          rw [hextra, hnil, List.append_nil]
        · have hnil := Plain.no_overrun heads hys (hextra ▸ hpx.body) htail
          rw [hextra, hnil, List.append_nil]
      rw [hbody] at hrest
      obtain ⟨-, htail⟩ := List.cons.inj (List.append_cancel_left hrest)
      rw [Prod.ext hhead hbody, ih hxs hys htail]

end Framing
