import Mathlib.Data.List.Count
import Mathlib.Tactic

/-! Marking loops: sweeps over a list that mark seeds and items linked to marked items, until a
sweep marks nothing. What is marked in the end is the least closed set. -/
namespace Saturation
variable {α : Type} (seed : α → Bool) (link : α → α → Bool)

/-- A chain of links over items of the list joins an item to a seed. -/
inductive Joined (items : List α) : α → Prop where
  | base {a : α} : seed a = true → Joined items a
  | step {a b : α} : link a b = true → b ∈ items → Joined items b → Joined items a

/-- Whether an item is to be marked. -/
def marks (items : List (α × Bool)) (a : α) : Bool :=
  seed a || items.any fun y => y.2 && link a y.1

/-- A sweep over the items `todo`, after the items `done`: the items, and whether one was
marked. Each item is checked against all others as they are then. -/
def sweep : List (α × Bool) → List (α × Bool) → List (α × Bool) × Bool
  | done, [] => (done, false)
  | done, x :: todo =>
    if x.2 then sweep (done ++ [x]) todo
    else if marks seed link (done ++ x :: todo) x.1 then
      ((sweep (done ++ [(x.1, true)]) todo).1, true)
    else sweep (done ++ [x]) todo

def saturateFor : ℕ → List (α × Bool) → List (α × Bool)
  | 0, items => items
  | fuel + 1, items =>
    if (sweep seed link [] items).2 then saturateFor fuel (sweep seed link [] items).1
    else (sweep seed link [] items).1

def unmarked (items : List (α × Bool)) : ℕ := items.countP fun x => !x.2

/-- The loop. Each sweep but the last marks an item. -/
def saturate (items : List (α × Bool)) : List (α × Bool) :=
  saturateFor seed link (unmarked items + 1) items

/-- The loop as it runs: a sweep, and again for as long as the last one marked an item. -/
inductive Runs : List (α × Bool) → List (α × Bool) → Prop
  | last {items : List (α × Bool)} (h : (sweep seed link [] items).2 = false) :
      Runs items (sweep seed link [] items).1
  | again {items result : List (α × Bool)} (h : (sweep seed link [] items).2 = true)
      (hruns : Runs (sweep seed link [] items).1 result) : Runs items result

variable {seed link}

theorem marks_of_seed {items : List (α × Bool)} {a : α} (h : seed a = true) :
    marks seed link items a = true := by
  simp [marks, h]

theorem marks_of_link {items : List (α × Bool)} {a : α} {y : α × Bool} (hy : y ∈ items)
    (hmarked : y.2 = true) (h : link a y.1 = true) : marks seed link items a = true := by
  simp only [marks, Bool.or_eq_true, List.any_eq_true, Bool.and_eq_true]
  exact Or.inr ⟨y, hy, hmarked, h⟩

/-- A sweep keeps the items, and their order. -/
theorem sweep_map_fst (done todo : List (α × Bool)) :
    (sweep seed link done todo).1.map Prod.fst = (done ++ todo).map Prod.fst := by
  induction todo generalizing done with
  | nil => simp [sweep]
  | cons x todo ih =>
    unfold sweep
    split
    · simpa using ih (done ++ [x])
    split
    · simpa using ih (done ++ [(x.1, true)])
    · simpa using ih (done ++ [x])

/-- A sweep that marks an item leaves fewer unmarked. -/
theorem sweep_unmarked (seed : α → Bool) (link : α → α → Bool)
    (done todo : List (α × Bool)) :
    unmarked (sweep seed link done todo).1 + (if (sweep seed link done todo).2 then 1 else 0) ≤
      unmarked (done ++ todo) := by
  induction todo generalizing done with
  | nil => simp [sweep, unmarked]
  | cons x todo ih =>
    unfold sweep
    split
    · simpa using ih (done ++ [x])
    next hx =>
      split
      · have h := ih (done ++ [(x.1, true)])
        simp only [unmarked, List.countP_append, List.countP_cons, List.countP_nil] at h ⊢
        simp only [hx, Bool.not_true, Bool.not_false, if_true, if_false, Bool.false_eq_true] at h ⊢
        omega
      · simpa using ih (done ++ [x])

/-- What a sweep marks is joined to a seed, if what was marked before it is. -/
theorem sweep_joined {items : List α} (done todo : List (α × Bool))
    (hitems : ∀ x ∈ done ++ todo, x.1 ∈ items)
    (h : ∀ x ∈ done ++ todo, x.2 = true → Joined seed link items x.1) :
    ∀ x ∈ (sweep seed link done todo).1, x.2 = true → Joined seed link items x.1 := by
  induction todo generalizing done with
  | nil => simpa [sweep] using h
  | cons x todo ih =>
    unfold sweep
    split
    · exact ih (done ++ [x]) (by simpa using hitems) (by simpa using h)
    split
    next hmarks =>
      have hx : Joined seed link items x.1 := by
        simp only [marks, Bool.or_eq_true, List.any_eq_true, Bool.and_eq_true] at hmarks
        rcases hmarks with hseed | ⟨y, hy, hmarked, hlink⟩
        · exact .base hseed
        · exact .step hlink (hitems y hy) (h y hy hmarked)
      refine ih (done ++ [(x.1, true)]) ?_ ?_
      · intro y hy
        simp only [List.append_assoc, List.singleton_append, List.mem_append,
          List.mem_cons] at hy hitems
        rcases hy with hy | rfl | hy
        · exact hitems y (.inl hy)
        · exact hitems x (.inr (.inl rfl))
        · exact hitems y (.inr (.inr hy))
      · intro y hy hmarked
        simp only [List.append_assoc, List.singleton_append, List.mem_append,
          List.mem_cons] at hy h
        rcases hy with hy | rfl | hy
        · exact h y (.inl hy) hmarked
        · exact hx
        · exact h y (.inr (.inr hy)) hmarked
    · exact ih (done ++ [x]) (by simpa using hitems) (by simpa using h)

/-- A sweep that marks nothing found nothing to mark. -/
theorem sweep_unchanged (done todo : List (α × Bool)) (h : (sweep seed link done todo).2 = false) :
    (sweep seed link done todo).1 = done ++ todo ∧
      ∀ x ∈ todo, x.2 = false → marks seed link (done ++ todo) x.1 = false := by
  induction todo generalizing done with
  | nil => simp [sweep]
  | cons x todo ih =>
    unfold sweep at h ⊢
    split
    next hx =>
      simp only [hx, if_true] at h
      obtain ⟨heq, hrest⟩ := ih (done ++ [x]) h
      refine ⟨by simpa using heq, ?_⟩
      intro y hy hmarked
      rcases List.mem_cons.mp hy with rfl | hy
      · simp [hx] at hmarked
      · simpa using hrest y hy hmarked
    next hx =>
      simp only [hx, if_false, Bool.false_eq_true] at h
      split at h
      · contradiction
      next hmarks =>
        obtain ⟨heq, hrest⟩ := ih (done ++ [x]) h
        rw [if_neg hmarks]
        refine ⟨by simpa using heq, ?_⟩
        intro y hy hmarked
        rcases List.mem_cons.mp hy with rfl | hy
        · simpa using hmarks
        · simpa using hrest y hy hmarked

theorem saturateFor_map_fst (fuel : ℕ) (items : List (α × Bool)) :
    (saturateFor seed link fuel items).map Prod.fst = items.map Prod.fst := by
  induction fuel generalizing items with
  | zero => rfl
  | succ fuel ih =>
    unfold saturateFor
    split
    · rw [ih, sweep_map_fst, List.nil_append]
    · rw [sweep_map_fst, List.nil_append]

theorem saturateFor_joined {all : List α} (fuel : ℕ) {items : List (α × Bool)}
    (hitems : items.map Prod.fst = all)
    (h : ∀ x ∈ items, x.2 = true → Joined seed link all x.1) :
    ∀ x ∈ saturateFor seed link fuel items, x.2 = true → Joined seed link all x.1 := by
  induction fuel generalizing items with
  | zero => exact h
  | succ fuel ih =>
    have hmem : ∀ x ∈ [] ++ items, x.1 ∈ all := by
      intro x hx
      rw [← hitems]
      exact List.mem_map_of_mem hx
    have hsweep := sweep_joined [] items hmem h
    unfold saturateFor
    split
    · exact ih (by rw [sweep_map_fst, List.nil_append, hitems]) hsweep
    · exact hsweep

/-- With fuel for more sweeps than there are unmarked items, the loop ends in a sweep that
marks nothing. -/
theorem saturateFor_closed (seed : α → Bool) (link : α → α → Bool)
    {fuel : ℕ} {items : List (α × Bool)} (h : unmarked items < fuel) :
    ∀ x ∈ saturateFor seed link fuel items, x.2 = false →
      marks seed link (saturateFor seed link fuel items) x.1 = false := by
  induction fuel generalizing items with
  | zero => omega
  | succ fuel ih =>
    unfold saturateFor
    split
    next hchanged =>
      refine ih ?_
      have hsweep := sweep_unmarked seed link [] items
      simp only [hchanged, if_true, List.nil_append] at hsweep
      omega
    next hchanged =>
      obtain ⟨heq, hclosed⟩ := sweep_unchanged [] items (by simpa using hchanged)
      rw [heq]
      exact hclosed

/-- With that fuel the loop runs to its end. -/
theorem saturateFor_runs (seed : α → Bool) (link : α → α → Bool) {fuel : ℕ}
    {items : List (α × Bool)} (h : unmarked items < fuel) :
    Runs seed link items (saturateFor seed link fuel items) := by
  induction fuel generalizing items with
  | zero => omega
  | succ fuel ih =>
    unfold saturateFor
    split
    next hchanged =>
      refine .again hchanged (ih ?_)
      have hsweep := sweep_unmarked seed link [] items
      simp only [hchanged, if_true, List.nil_append] at hsweep
      omega
    next hchanged => exact .last (by simpa using hchanged)

theorem saturate_runs (seed : α → Bool) (link : α → α → Bool) (items : List (α × Bool)) :
    Runs seed link items (saturate seed link items) :=
  saturateFor_runs seed link (Nat.lt_succ_self _)

/-- An item stays joined when the items joined in a list are kept. -/
theorem Joined.mono_of_joined {items kept : List α} {a : α} (h : Joined seed link items a)
    (hkept : ∀ b ∈ items, Joined seed link items b → b ∈ kept) : Joined seed link kept a := by
  induction h with
  | base hseed => exact .base hseed
  | step hlink hb hjoined ih => exact .step hlink (hkept _ hb hjoined) ih

/-- Joined items are those at the start of a chain to a seed. -/
theorem joined_iff_exists_chain {items : List α} {a : α} :
    Joined seed link items a ↔ ∃ chain : List α, (∀ b ∈ chain, b ∈ items) ∧
      (a :: chain).IsChain (link · · = true) ∧
        seed ((a :: chain).getLast (List.cons_ne_nil a chain)) = true := by
  constructor
  · intro h
    induction h with
    | @base a hseed => exact ⟨[], by simp, List.isChain_singleton a, hseed⟩
    | @step a b hlink hb _ ih =>
      obtain ⟨chain, hitems, hchain, hseed⟩ := ih
      refine ⟨b :: chain, ?_, List.isChain_cons_cons.mpr ⟨hlink, hchain⟩, ?_⟩
      · simpa using ⟨hb, hitems⟩
      · rwa [List.getLast_cons (List.cons_ne_nil b chain)]
  · rintro ⟨chain, hitems, hchain, hseed⟩
    induction chain generalizing a with
    | nil => exact .base hseed
    | cons b chain ih =>
      obtain ⟨hlink, hchain⟩ := List.isChain_cons_cons.mp hchain
      rw [List.getLast_cons (List.cons_ne_nil b chain)] at hseed
      exact .step hlink (hitems b (by simp)) (ih (fun c hc => hitems c (by simp [hc])) hchain hseed)

/-- The loop keeps the items, and their order. -/
theorem saturate_map_fst (items : List (α × Bool)) :
    (saturate seed link items).map Prod.fst = items.map Prod.fst :=
  saturateFor_map_fst _ items

theorem saturate_unmarked_map_fst (seed : α → Bool) (link : α → α → Bool)
    (items : List α) :
    (saturate seed link (items.map (·, false))).map Prod.fst = items := by
  rw [saturate_map_fst]
  simp [Function.comp_def]

theorem mem_of_mem_saturate {items : List α} {x : α × Bool}
    (h : x ∈ saturate seed link (items.map (·, false))) : x.1 ∈ items := by
  rw [← saturate_unmarked_map_fst seed link items]
  exact List.mem_map_of_mem h

theorem exists_mem_saturate (seed : α → Bool) (link : α → α → Bool)
    {items : List α} {a : α} (h : a ∈ items) :
    ∃ x ∈ saturate seed link (items.map (·, false)), x.1 = a := by
  rw [← saturate_unmarked_map_fst seed link items] at h
  exact List.mem_map.mp h

/-- From unmarked items, the loop marks those that are joined to a seed and no others. -/
theorem saturate_marked_iff (items : List α) :
    ∀ x ∈ saturate seed link (items.map (·, false)),
      x.2 = true ↔ Joined seed link items x.1 := by
  have hfst : (items.map (·, false)).map Prod.fst = items := by simp [Function.comp_def]
  intro x hx
  constructor
  · refine saturateFor_joined _ hfst ?_ x hx
    intro y hy hmarked
    obtain ⟨a, -, rfl⟩ := List.mem_map.mp hy
    contradiction
  · intro hjoined
    have hclosed := saturateFor_closed seed link
      (Nat.lt_succ_self (unmarked (items.map (·, false))))
    -- along the chain, each item is marked because the next one is
    have hmarked : ∀ a, Joined seed link items a →
        ∀ y ∈ saturate seed link (items.map (·, false)), y.1 = a → y.2 = true := by
      intro a ha
      induction ha with
      | base hseed =>
        rintro y hy rfl
        by_contra hfalse
        have hnot := hclosed y hy (by simpa using hfalse)
        simp [marks_of_seed hseed] at hnot
      | @step a b hlink hb _ ih =>
        rintro y hy rfl
        by_contra hfalse
        have hnot := hclosed y hy (by simpa using hfalse)
        obtain ⟨z, hz, rfl⟩ := exists_mem_saturate seed link hb
        have hmarks : marks seed link _ y.1 = true := marks_of_link hz (ih z hz rfl) hlink
        exact Bool.noConfusion (hmarks.symm.trans hnot)
    exact hmarked x.1 hjoined x hx rfl

end Saturation
