import Mathlib.Data.List.Perm.Basic
import Mathlib.Tactic

/-! Traces of the operations on handles: each that is opened has to be closed, once, with
nothing done to it afterwards, and few of them may be open at a time. -/
namespace Handles
variable {ι : Type} [DecidableEq ι]

inductive Event (ι : Type) where
  | opened (h : ι)
  | used (h : ι)
  | closed (h : ι)
  deriving DecidableEq

namespace Event

def handle : Event ι → ι
  | opened h => h
  | used h => h
  | closed h => h

/-- The handle that an event opens. -/
def opens : Event ι → Option ι
  | opened h => some h
  | _ => none

end Event

/-- The handles that are open after a trace. -/
def openAfter (es : List (Event ι)) : List ι :=
  (es.filterMap Event.opens).filter fun h => .closed h ∉ es

/-- The discipline of a whole trace. -/
structure Disciplined (bound : ℕ) (es : List (Event ι)) : Prop where
  closed : ∀ h, .opened h ∈ es → es.count (.closed h) = 1
  silent : ∀ before after h, es = before ++ .closed h :: after → ∀ e ∈ after, e.handle ≠ h
  bounded : ∀ before, before <+: es → (openAfter before).length ≤ bound

theorem not_disciplined_of_closed {bound : ℕ} {es : List (Event ι)} {h : ι}
    (hclosed : .closed h ∈ es) : ¬ Disciplined bound (es ++ [.closed h]) := by
  intro hdisciplined
  obtain ⟨before, after, rfl⟩ := List.append_of_mem hclosed
  refine hdisciplined.silent before (after ++ [.closed h]) h (by simp) (.closed h) ?_ rfl
  exact List.mem_append_right _ List.mem_cons_self

/-- Traces that are in order so far, with the handles still to be closed. The `foreign`
handles were there before: they may be used. -/
inductive Ledger (foreign : ι → Prop) (bound : ℕ) : List (Event ι) → List ι → Prop
  | start : Ledger foreign bound [] []
  | opens {es : List (Event ι)} {held : List ι} {h : ι} (hledger : Ledger foreign bound es held)
      (hfresh : ∀ e ∈ es, e.handle ≠ h) (hown : ¬ foreign h) (hbound : held.length < bound) :
      Ledger foreign bound (es ++ [.opened h]) (held ++ [h])
  | uses {es : List (Event ι)} {held : List ι} {h : ι} (hledger : Ledger foreign bound es held)
      (husable : h ∈ held ∨ foreign h) : Ledger foreign bound (es ++ [.used h]) held
  | closes {es : List (Event ι)} {held : List ι} {h : ι} (hledger : Ledger foreign bound es held)
      (hheld : h ∈ held) : Ledger foreign bound (es ++ [.closed h]) (held.erase h)

theorem mem_openAfter {es : List (Event ι)} {h : ι} :
    h ∈ openAfter es ↔ .opened h ∈ es ∧ .closed h ∉ es := by
  rw [openAfter, List.mem_filter, List.mem_filterMap, decide_eq_true_eq]
  refine and_congr_left fun _ => ?_
  constructor
  · rintro ⟨e, he, hopens⟩
    cases e with
    | opened h' => exact Option.some.inj hopens ▸ he
    | used h' => contradiction
    | closed h' => contradiction
  · exact fun he => ⟨_, he, rfl⟩

theorem openAfter_opened {es : List (Event ι)} {h : ι} (hfresh : ∀ e ∈ es, e.handle ≠ h) :
    openAfter (es ++ [.opened h]) = openAfter es ++ [h] := by
  have hclosed : (.closed h : Event ι) ∉ es := fun he => hfresh _ he rfl
  simp [openAfter, Event.opens, List.filterMap_append, List.filter_append, hclosed]

theorem openAfter_used (es : List (Event ι)) (h : ι) :
    openAfter (es ++ [.used h]) = openAfter es := by
  simp [openAfter, Event.opens, List.filterMap_append]

theorem openAfter_closed (es : List (Event ι)) (h : ι) :
    openAfter (es ++ [.closed h]) = (openAfter es).filter (· ≠ h) := by
  simp only [openAfter, List.filterMap_append, List.filterMap_cons, List.filterMap_nil,
    Event.opens, List.append_nil, List.filter_filter]
  congr 1
  funext k
  simp [and_comm, eq_comm]

namespace Ledger
variable {foreign : ι → Prop} {bound : ℕ} {es : List (Event ι)} {held : List ι} {h : ι}
  {e : Event ι}

/-- The handles still to be closed are those that are open. -/
theorem openAfter_perm (hl : Ledger foreign bound es held) :
    (openAfter es).Nodup ∧ (openAfter es).Perm held := by
  induction hl with
  | start => exact ⟨List.nodup_nil, List.Perm.refl _⟩
  | @opens es held h hledger hfresh hown hbound ih =>
    rw [openAfter_opened hfresh]
    refine ⟨List.nodup_append'.mpr ⟨ih.1, List.nodup_singleton h, ?_⟩, ih.2.append_right _⟩
    rw [List.disjoint_singleton, mem_openAfter]
    exact fun hopen => hfresh _ hopen.1 rfl
  | @uses es held h hledger husable ih =>
    rw [openAfter_used]
    exact ih
  | @closes es held h hledger hheld ih =>
    rw [openAfter_closed]
    refine ⟨ih.1.filter _, ?_⟩
    have hsame : ∀ k ∈ openAfter es, decide (k ≠ h) = (k != h) := by
      intro k _
      by_cases hk : k = h <;> simp [hk]
    rw [List.filter_congr hsame, ← ih.1.erase_eq_filter]
    exact ih.2.erase h

theorem nodup (hl : Ledger foreign bound es held) : held.Nodup :=
  hl.openAfter_perm.2.nodup_iff.mp hl.openAfter_perm.1

/-- The handle that was opened last is closed. -/
theorem closes_last (hl : Ledger foreign bound es (held ++ [h])) :
    Ledger foreign bound (es ++ [.closed h]) held := by
  have hnotMem : h ∉ held := List.disjoint_singleton.mp (List.nodup_append'.mp hl.nodup).2.2
  have hcloses := hl.closes (List.mem_append_right held (List.mem_singleton_self h))
  rwa [List.erase_append_right _ hnotMem, List.erase_cons_head, List.append_nil] at hcloses

theorem mem_held (hl : Ledger foreign bound es held) :
    h ∈ held ↔ .opened h ∈ es ∧ .closed h ∉ es := by
  rw [← mem_openAfter, hl.openAfter_perm.2.mem_iff]

/-- What the trace opened is its own. -/
theorem own (hl : Ledger foreign bound es held) (hopened : .opened h ∈ es) : ¬ foreign h := by
  induction hl with
  | start => exact absurd hopened List.not_mem_nil
  | opens hledger hfresh hown hbound ih =>
    rcases List.mem_append.mp hopened with hopened | hopened
    · exact ih hopened
    · obtain rfl := Event.opened.inj (List.mem_singleton.mp hopened)
      exact hown
  | uses hledger husable ih => exact ih (by simpa using hopened)
  | closes hledger hheld ih => exact ih (by simpa using hopened)

/-- Only what was opened is closed. -/
theorem opened_of_closed (hl : Ledger foreign bound es held) (hclosed : .closed h ∈ es) :
    .opened h ∈ es := by
  induction hl with
  | start => exact absurd hclosed List.not_mem_nil
  | opens hledger hfresh hown hbound ih =>
    exact List.mem_append_left _ (ih (by simpa using hclosed))
  | uses hledger husable ih => exact List.mem_append_left _ (ih (by simpa using hclosed))
  | closes hledger hheld ih =>
    apply List.mem_append_left
    rcases List.mem_append.mp hclosed with hclosed | hclosed
    · exact ih hclosed
    · obtain rfl := Event.closed.inj (List.mem_singleton.mp hclosed)
      exact (hledger.mem_held.mp hheld).1

theorem count_closed (hl : Ledger foreign bound es held) (h : ι) :
    es.count (.closed h) ≤ 1 := by
  induction hl with
  | start => exact Nat.zero_le _
  | opens hledger hfresh hown hbound ih => simpa [List.count_append] using ih
  | uses hledger husable ih => simpa [List.count_append] using ih
  | @closes es held h' hledger hheld ih =>
    rw [List.count_append, List.count_singleton]
    by_cases heq : h' = h
    · subst heq
      rw [List.count_eq_zero_of_not_mem (hledger.mem_held.mp hheld).2]
      simp
    · simpa [heq] using ih

/-- Nothing is done to a handle that was closed. -/
theorem handle_ne (hl : Ledger foreign bound (es ++ [e]) held) (hclosed : .closed h ∈ es) :
    e.handle ≠ h := by
  generalize hes : es ++ [e] = es' at hl
  cases hl with
  | start => simp at hes
  | opens hledger hfresh hown hbound =>
    obtain ⟨rfl, rfl⟩ := List.append_singleton_inj.mp hes
    exact fun heq => hfresh _ hclosed heq.symm
  | uses hledger husable =>
    obtain ⟨rfl, rfl⟩ := List.append_singleton_inj.mp hes
    rintro rfl
    rcases husable with hheld | hforeign
    · exact (hledger.mem_held.mp hheld).2 hclosed
    · exact hledger.own (hledger.opened_of_closed hclosed) hforeign
  | closes hledger hheld =>
    obtain ⟨rfl, rfl⟩ := List.append_singleton_inj.mp hes
    rintro rfl
    exact (hledger.mem_held.mp hheld).2 hclosed

/-- Every beginning of a trace in order is in order. -/
theorem init (hl : Ledger foreign bound (es ++ [e]) held) :
    ∃ held', Ledger foreign bound es held' := by
  generalize hes : es ++ [e] = es' at hl
  cases hl with
  | start => simp at hes
  | opens hledger hfresh hown hbound =>
    obtain ⟨rfl, -⟩ := List.append_singleton_inj.mp hes
    exact ⟨_, hledger⟩
  | uses hledger husable =>
    obtain ⟨rfl, -⟩ := List.append_singleton_inj.mp hes
    exact ⟨_, hledger⟩
  | closes hledger hheld =>
    obtain ⟨rfl, -⟩ := List.append_singleton_inj.mp hes
    exact ⟨_, hledger⟩

theorem silent {before after : List (Event ι)}
    (hl : Ledger foreign bound (before ++ .closed h :: after) held) :
    ∀ e ∈ after, e.handle ≠ h := by
  induction after using List.reverseRecOn generalizing held with
  | nil => exact fun e he => absurd he List.not_mem_nil
  | append_singleton after e ih =>
    rw [← List.cons_append, ← List.append_assoc] at hl
    obtain ⟨held', hl'⟩ := hl.init
    intro e' he'
    rcases List.mem_append.mp he' with he' | he'
    · exact ih hl' e' he'
    · rw [List.mem_singleton.mp he']
      exact hl.handle_ne (List.mem_append_right _ List.mem_cons_self)

theorem length_le (hl : Ledger foreign bound es held) : (openAfter es).length ≤ bound := by
  rw [hl.openAfter_perm.2.length_eq]
  induction hl with
  | start => exact Nat.zero_le _
  | opens hledger hfresh hown hbound ih =>
    rw [List.length_append]
    exact hbound
  | uses hledger husable ih => exact ih
  | closes hledger hheld ih => exact (List.length_erase_le).trans ih

theorem bounded {before after : List (Event ι)}
    (hl : Ledger foreign bound (before ++ after) held) : (openAfter before).length ≤ bound := by
  induction after using List.reverseRecOn generalizing held with
  | nil => exact (List.append_nil before ▸ hl).length_le
  | append_singleton after e ih =>
    rw [← List.append_assoc] at hl
    obtain ⟨held', hl'⟩ := hl.init
    exact ih hl'

/-- A trace that has closed all its handles is disciplined. -/
theorem disciplined (hl : Ledger foreign bound es []) : Disciplined bound es where
  closed h hopened := by
    apply (hl.count_closed h).antisymm
    rw [Nat.one_le_iff_ne_zero, ← Nat.pos_iff_ne_zero, List.count_pos_iff]
    by_contra hclosed
    exact absurd (hl.mem_held.mpr ⟨hopened, hclosed⟩) List.not_mem_nil
  silent before after h heq := by
    rw [heq] at hl
    exact hl.silent
  bounded before hbefore := by
    obtain ⟨after, rfl⟩ := hbefore
    exact hl.bounded

end Ledger

end Handles
