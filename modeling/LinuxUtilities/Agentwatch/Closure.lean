import LinuxUtilities.Agentwatch.SignalTree

/-! The marking loop of `scan_descendants`, for arbitrary identities: cycles of parents, numbers
that occur more than once, and parents that are not there. -/
namespace Agentwatch

/-- The parent chain of an identity, over the retained ones, ends below the root. -/
def ChainTo (root : ℕ) (items : List Identity) (a : Identity) : Prop :=
  ∃ chain : List Identity, (∀ b ∈ chain, b ∈ items) ∧
    (a :: chain).IsChain (fun a b => a.ppid = b.pid) ∧
      ((a :: chain).getLast (List.cons_ne_nil a chain)).ppid = root

theorem joined_iff_chainTo {root : ℕ} {items : List Identity} {a : Identity} :
    Saturation.Joined (fun a => decide (a.ppid = root)) (fun a b => decide (a.ppid = b.pid))
      items a ↔ ChainTo root items a := by
  rw [Saturation.joined_iff_exists_chain]
  unfold ChainTo
  simp only [decide_eq_true_eq]

/-- The loop comes to an end. It keeps the items in their places, and marks those with a chain
to the root and no others. -/
theorem connect_exact (root : ℕ) (items : List Identity) :
    Saturation.Runs (fun a => decide (a.ppid = root)) (fun a b => decide (a.ppid = b.pid))
        (items.map (·, false)) (connect root items) ∧
      (connect root items).map Prod.fst = items ∧
        ∀ item ∈ connect root items, item.2 = true ↔ ChainTo root items item.1 := by
  refine ⟨Saturation.saturate_runs _ _ _, Saturation.saturate_unmarked_map_fst _ _ items, ?_⟩
  intro item hitem
  rw [← joined_iff_chainTo]
  exact Saturation.saturate_marked_iff items item hitem

/-- Two processes in a cycle, one of them twice, and a child of the root. -/
example : connect 7 [⟨1, 2, 0⟩, ⟨2, 1, 0⟩, ⟨9, 8, 0⟩, ⟨8, 7, 0⟩, ⟨1, 2, 5⟩] =
    [(⟨1, 2, 0⟩, false), (⟨2, 1, 0⟩, false), (⟨9, 8, 0⟩, true), (⟨8, 7, 0⟩, true),
      (⟨1, 2, 5⟩, false)] := by decide

end Agentwatch
