import Mathlib.Tactic

/-! Greedy partition of a sequence: items are put into the current chunk until it
closes, and the next item starts a new chunk. -/
namespace GreedyPartition
variable {α : Type*}

/-- The greedy partition of `items`: runs of consecutive items, none empty, each closed
at the first item at which `closes` holds; only the last may still be open. -/
structure IsGreedy (closes : List α → Bool) (items : List α) (chunks : List (List α)) : Prop where
  flatten : chunks.flatten = items
  ne_nil : ∀ c ∈ chunks, c ≠ []
  closed : ∀ c ∈ chunks.dropLast, closes c
  first : ∀ c ∈ chunks, ∀ a b, c = a ++ b → a ≠ [] → b ≠ [] → ¬ closes a

/-- The closed chunks and the items of the open one. -/
structure Filling (α : Type*) where
  closed : List (List α)
  current : List α

namespace Filling

def empty : Filling α := ⟨[], []⟩

def push (closes : List α → Bool) (f : Filling α) (a : α) : Filling α :=
  if closes (f.current ++ [a]) then ⟨f.closed ++ [f.current ++ [a]], []⟩
  else ⟨f.closed, f.current ++ [a]⟩

/-- The chunks when no item follows: what is open is the last of them. -/
def chunks (f : Filling α) : List (List α) :=
  if f.current = [] then f.closed else f.closed ++ [f.current]

theorem push_closes {closes : List α → Bool} {f : Filling α} {a : α}
    (h : closes (f.current ++ [a]) = true) :
    f.push closes a = ⟨f.closed ++ [f.current ++ [a]], []⟩ := by
  simp [push, h]

theorem push_open {closes : List α → Bool} {f : Filling α} {a : α}
    (h : closes (f.current ++ [a]) = false) :
    f.push closes a = ⟨f.closed, f.current ++ [a]⟩ := by
  simp [push, h]

theorem length_chunks_le (f : Filling α) : f.chunks.length ≤ f.closed.length + 1 := by
  unfold chunks
  split <;> simp

theorem length_closed_lt_chunks {f : Filling α} (h : f.current ≠ []) :
    f.closed.length < f.chunks.length := by
  simp [chunks, h]

end Filling

/-- Fill chunks with the items from left to right. -/
def fill (closes : List α → Bool) (items : List α) : Filling α :=
  items.foldl (Filling.push closes) .empty

theorem fill_concat (closes : List α → Bool) (l : List α) (a : α) :
    fill closes (l ++ [a]) = (fill closes l).push closes a := by
  rw [fill, List.foldl_append, List.foldl_cons, List.foldl_nil, fill]

/-- The last item is in the last chunk, whether or not it closes it. -/
theorem chunks_concat (closes : List α → Bool) (l : List α) (a : α) :
    (fill closes (l ++ [a])).chunks =
      (fill closes l).closed ++ [(fill closes l).current ++ [a]] := by
  rw [fill_concat]
  cases h : closes ((fill closes l).current ++ [a]) with
  | true => simp [Filling.push_closes h, Filling.chunks]
  | false => simp [Filling.push_open h, Filling.chunks]

/-- What holds while chunks are filled: the chunks cover the items, a closed chunk closes
at its last item and no sooner, and the open one does not close. -/
structure Filled (closes : List α → Bool) (items : List α) (f : Filling α) : Prop where
  flatten : f.closed.flatten ++ f.current = items
  ne_nil : ∀ c ∈ f.closed, c ≠ []
  closed : ∀ c ∈ f.closed, closes c
  first : ∀ c ∈ f.closed, ∀ a b, c = a ++ b → a ≠ [] → b ≠ [] → ¬ closes a
  current : ∀ a b, f.current = a ++ b → a ≠ [] → ¬ closes a

theorem Filled.push {closes : List α → Bool} {items : List α} {f : Filling α}
    (h : Filled closes items f) (x : α) : Filled closes (items ++ [x]) (f.push closes x) := by
  -- a proper initial part of the extended chunk is one of the open chunk
  have hpart : ∀ a b, f.current ++ [x] = a ++ b → a ≠ [] → b ≠ [] → ¬ closes a := by
    intro a b hab ha hb
    obtain ⟨b', y, rfl⟩ := (List.eq_nil_or_concat' b).resolve_left hb
    rw [← List.append_assoc] at hab
    have hinit := (List.append_inj' hab rfl).1
    exact h.current a b' hinit ha
  cases hc : closes (f.current ++ [x]) with
  | true =>
    rw [Filling.push_closes hc]
    constructor
    · simp [← h.flatten]
    · intro c hmem
      obtain hold | rfl := by simpa using hmem
      · exact h.ne_nil c hold
      · simp
    · intro c hmem
      obtain hold | rfl := by simpa using hmem
      · exact h.closed c hold
      · exact hc
    · intro c hmem
      obtain hold | rfl := by simpa using hmem
      · exact h.first c hold
      · exact hpart
    · simp
  | false =>
    rw [Filling.push_open hc]
    constructor
    · simp [← h.flatten]
    · exact h.ne_nil
    · exact h.closed
    · exact h.first
    · intro a b hab ha
      by_cases hb : b = []
      · subst hb
        simp only [List.append_nil] at hab
        simp [← hab, hc]
      · exact hpart a b hab ha hb

theorem fill_filled (closes : List α → Bool) (items : List α) :
    Filled closes items (fill closes items) := by
  induction items using List.reverseRecOn with
  | nil => constructor <;> simp [fill, Filling.empty]
  | append_singleton l x ih =>
    rw [fill_concat]
    exact ih.push x

theorem mem_of_mem_current {closes : List α → Bool} {items : List α} {a : α}
    (h : a ∈ (fill closes items).current) : a ∈ items := by
  rw [← (fill_filled closes items).flatten]
  exact List.mem_append_right _ h

theorem isGreedy_chunks (closes : List α → Bool) (items : List α) :
    IsGreedy closes items (fill closes items).chunks := by
  have h := fill_filled closes items
  unfold Filling.chunks
  split
  next hnil =>
    have hflat := h.flatten
    rw [hnil, List.append_nil] at hflat
    exact ⟨hflat, h.ne_nil, fun c hc => h.closed c (List.mem_of_mem_dropLast hc), h.first⟩
  next hne =>
    constructor
    · simpa using h.flatten
    · intro c hmem
      obtain hold | rfl := by simpa using hmem
      · exact h.ne_nil c hold
      · exact hne
    · simpa using h.closed
    · intro c hmem
      obtain hold | rfl := by simpa using hmem
      · exact h.first c hold
      · intro a b hab ha _
        exact h.current a b hab ha

end GreedyPartition
