import LinuxUtilities.Foundation.GreedyPartition

/-! What the greedy partition is good for: it is a fixed point of itself, a partition that
refines it is its own concatenation, and no partition within the same limit has fewer parts. -/
namespace GreedyPartition
variable {α : Type*} {closes : List α → Bool}

/-- Put items into the chunks there are. -/
def Filling.pushAll (closes : List α → Bool) (f : Filling α) (items : List α) : Filling α :=
  items.foldl (Filling.push closes) f

theorem Filling.pushAll_concat (f : Filling α) (l : List α) (x : α) :
    f.pushAll closes (l ++ [x]) = (f.pushAll closes l).push closes x := by
  rw [pushAll, List.foldl_append, List.foldl_cons, List.foldl_nil, pushAll]

theorem fill_append (l m : List α) : fill closes (l ++ m) = (fill closes l).pushAll closes m :=
  List.foldl_append

section Restart

/-- The closed chunks do not matter for the ones that follow. -/
theorem Filling.pushAll_closed (closed : List (List α)) (current items : List α) :
    (Filling.mk closed current).pushAll closes items =
      ⟨closed ++ ((Filling.mk [] current).pushAll closes items).closed,
        ((Filling.mk [] current).pushAll closes items).current⟩ := by
  induction items using List.reverseRecOn with
  | nil => simp [pushAll]
  | append_singleton l x ih =>
    rw [pushAll_concat, pushAll_concat, ih]
    cases h : closes (((Filling.mk [] current).pushAll closes l).current ++ [x]) with
    | true => simp [push, h]
    | false => simp [push, h]

/-- Behind a chunk that just closed the partition starts anew. -/
theorem chunks_append {l : List α} (h : (fill closes l).current = []) (m : List α) :
    (fill closes (l ++ m)).chunks = (fill closes l).chunks ++ (fill closes m).chunks := by
  have hl : fill closes l = ⟨(fill closes l).closed, []⟩ := by
    rw [← h]
  have hm : (Filling.mk [] []).pushAll closes m = fill closes m := rfl
  rw [fill_append, hl, Filling.pushAll_closed, hm]
  simp only [Filling.chunks, ↓reduceIte]
  split <;> simp

theorem chunks_flatten {parts : List (List α)}
    (h : ∀ c ∈ parts.dropLast, (fill closes c).current = []) :
    (fill closes parts.flatten).chunks = parts.flatMap fun c => (fill closes c).chunks := by
  induction parts with
  | nil => rfl
  | cons c parts ih =>
    rw [List.flatten_cons, List.flatMap_cons]
    cases parts with
    | nil => simp
    | cons d parts =>
      rw [List.dropLast_cons_cons, List.forall_mem_cons] at h
      rw [chunks_append h.1, ih h.2]

/-- Where every closed chunk ends at an end of the finer partition, the finer partition is
that of the chunks, one after the other. -/
theorem chunks_refine {coarse fine : List α → Bool} {items : List α}
    (h : ∀ c ∈ (fill coarse items).closed, (fill fine c).current = []) :
    (fill fine items).chunks =
      (fill coarse items).chunks.flatMap fun c => (fill fine c).chunks := by
  have hflat : (fill coarse items).chunks.flatten = items := (isGreedy_chunks coarse items).flatten
  have hdrop : ∀ c ∈ (fill coarse items).chunks.dropLast, c ∈ (fill coarse items).closed := by
    intro c hc
    unfold Filling.chunks at hc
    split at hc
    · exact List.mem_of_mem_dropLast hc
    · simpa using hc
  have hchunks := @chunks_flatten α fine (fill coarse items).chunks fun c hc => h c (hdrop c hc)
  rwa [hflat] at hchunks

end Restart

section Within

/-- The items do not go on past the first point at which they close. -/
def Within (closes : List α → Bool) (c : List α) : Prop :=
  ∀ a b, c = a ++ b → a ≠ [] → b ≠ [] → closes a = false

theorem Within.left {a b : List α} (h : Within closes (a ++ b)) : Within closes a := by
  intro x y hxy hx hy
  exact h x (y ++ b) (by rw [hxy, List.append_assoc]) hx (by simp [hy])

theorem Within.mono {closes closes' : List α → Bool} (h : ∀ a, closes' a = true → closes a = true)
    {c : List α} (hc : Within closes c) : Within closes' c := by
  intro a b hab ha hb
  cases hclose : closes' a with
  | false => rfl
  | true => exact absurd (h a hclose) (by simp [hc a b hab ha hb])

theorem IsGreedy.within {items : List α} {chunks : List (List α)}
    (h : IsGreedy closes items chunks) {c : List α} (hc : c ∈ chunks) : Within closes c := by
  intro a b hab ha hb
  simpa using h.first c hc a b hab ha hb

/-- Items within the limit fill one chunk. -/
theorem fill_within {c : List α} (hc : Within closes c) (hne : c ≠ []) :
    fill closes c = if closes c then ⟨[c], []⟩ else ⟨[], c⟩ := by
  induction c using List.reverseRecOn with
  | nil => exact absurd rfl hne
  | append_singleton l x ih =>
    have hl : fill closes l = ⟨[], l⟩ := by
      by_cases hnil : l = []
      · rw [hnil]
        rfl
      · rw [ih hc.left hnil, hc l [x] rfl hnil (by simp)]
        rfl
    rw [fill_concat, hl, Filling.push, List.nil_append]

theorem chunks_within {c : List α} (hc : Within closes c) (hne : c ≠ []) :
    (fill closes c).chunks = [c] := by
  rw [fill_within hc hne]
  split <;> simp [Filling.chunks, hne]

/-- Where only the number of items counts, the open chunk holds the remainder. -/
theorem length_current_fill {k : ℕ} (h : ∀ a, closes a = decide (k ≤ a.length)) (hk : 0 < k)
    (items : List α) : (fill closes items).current.length = items.length % k := by
  induction items using List.reverseRecOn with
  | nil => simp [fill, Filling.empty]
  | append_singleton l x ih =>
    have hlt := Nat.mod_lt l.length hk
    have hdiv := Nat.div_add_mod l.length k
    rw [fill_concat, Filling.push, h, List.length_append, List.length_append,
      List.length_singleton, ih]
    split
    next hle =>
      simp only [decide_eq_true_eq] at hle
      have hlast : l.length % k + 1 = k := by omega
      have hnext : l.length + 1 = k * (l.length / k + 1) := by
        rw [Nat.mul_add_one]
        omega
      rw [hnext, Nat.mul_mod_right]
      rfl
    next hlt' =>
      simp only [decide_eq_true_eq] at hlt'
      have hnext : l.length + 1 = k * (l.length / k) + (l.length % k + 1) := by omega
      rw [hnext, Nat.mul_add_mod, Nat.mod_eq_of_lt (by omega)]
      simp [ih]

end Within

section Minimal
variable (hclose : ∀ a b : List α, closes b = true → closes (a ++ b) = true)

/-- While a part within the limit goes into chunks that were `n` closed ones before it: at
most one chunk closes before its last item, and after that the open chunk is a piece of it. -/
structure Behind (n : ℕ) (seen : List α) (f : Filling α) : Prop where
  closed : f.closed.length ≤ n + 1
  piece : f.closed.length = n + 1 → ∃ a, seen = a ++ f.current

include hclose in
/-- A part can close two chunks only with its last item. -/
theorem Behind.push {n : ℕ} {seen rest : List α} {f : Filling α} {x : α}
    (h : Behind n seen f) (hpart : Within closes (seen ++ x :: rest)) :
    Behind n (seen ++ [x]) (f.push closes x) ∨
      (rest = [] ∧ (f.push closes x).closed.length = n + 2 ∧ (f.push closes x).current = []) := by
  cases hc : closes (f.current ++ [x]) with
  | false =>
    rw [Filling.push_open hc]
    refine .inl ⟨h.closed, fun heq => ?_⟩
    obtain ⟨a, ha⟩ := h.piece heq
    exact ⟨a, by rw [ha, List.append_assoc]⟩
  | true =>
    rw [Filling.push_closes hc]
    by_cases heq : f.closed.length = n + 1
    · obtain ⟨a, ha⟩ := h.piece heq
      have hall : closes (seen ++ [x]) = true := by
        rw [ha, List.append_assoc]
        exact hclose a _ hc
      have hrest : rest = [] := by
        by_contra hne
        have hopen := hpart (seen ++ [x]) rest (by simp) (by simp) hne
        rw [hopen] at hall
        contradiction
      exact .inr ⟨hrest, by simp [heq], rfl⟩
    · have hle := h.closed
      refine .inl ⟨by simp; omega, fun _ => ⟨seen ++ [x], by simp⟩⟩

include hclose in
theorem Behind.pushAll {n : ℕ} {seen rest : List α} {f : Filling α} (h : Behind n seen f)
    (hpart : Within closes (seen ++ rest)) :
    (f.pushAll closes rest).closed.length ≤ n + 2 ∧
      ((f.pushAll closes rest).closed.length = n + 2 → (f.pushAll closes rest).current = []) := by
  induction rest generalizing seen f with
  | nil =>
    have hle := h.closed
    exact ⟨by simp [Filling.pushAll]; omega, fun heq => by simp [Filling.pushAll] at heq; omega⟩
  | cons x rest ih =>
    obtain hnext | ⟨rfl, hlen, hcur⟩ := h.push hclose hpart
    · exact ih hnext (by simpa using hpart)
    · exact ⟨hlen.le, fun _ => hcur⟩

/-- The greedy partition is ahead of one with `n` parts. -/
structure Ahead (n : ℕ) (f : Filling α) : Prop where
  closed : f.closed.length ≤ n
  current : f.closed.length = n → f.current = []

include hclose in
theorem Ahead.pushAll {n : ℕ} {part : List α} {f : Filling α} (h : Ahead n f)
    (hpart : Within closes part) : Ahead (n + 1) (f.pushAll closes part) := by
  by_cases heq : f.closed.length = n
  · have hcur := h.current heq
    have hf : f = ⟨f.closed, []⟩ := by rw [← hcur]
    have hempty : (Filling.mk [] []).pushAll closes part = fill closes part := rfl
    by_cases hne : part = []
    · subst hne
      exact ⟨by simp [Filling.pushAll, heq], fun hlen => by simp [Filling.pushAll, heq] at hlen⟩
    · rw [hf, Filling.pushAll_closed, hempty, fill_within hpart hne]
      split
      · exact ⟨by simp [heq], fun _ => rfl⟩
      · exact ⟨by simp [heq], fun hlen => by simp [heq] at hlen⟩
  · have hle := h.closed
    obtain ⟨m, hm⟩ : ∃ m, n = m + 1 := ⟨n - 1, by omega⟩
    have hbehind : Behind m [] f := ⟨by omega, fun hlen => absurd hlen (by omega)⟩
    obtain ⟨hlen, hcur⟩ := hbehind.pushAll hclose hpart
    rw [hm]
    exact ⟨hlen, hcur⟩

include hclose in
theorem ahead_flatten {parts : List (List α)} (hparts : ∀ c ∈ parts, Within closes c) :
    Ahead parts.length (fill closes parts.flatten) := by
  induction parts using List.reverseRecOn with
  | nil => exact ⟨le_rfl, fun _ => rfl⟩
  | append_singleton parts part ih =>
    rw [List.flatten_append, List.flatten_singleton, fill_append, List.length_append,
      List.length_singleton]
    exact (ih fun c hc => hparts c (by simp [hc])).pushAll hclose (hparts part (by simp))

include hclose in
/-- No partition within the limit has fewer parts than the greedy one. -/
theorem length_chunks_le_of_within {parts : List (List α)}
    (hparts : ∀ c ∈ parts, Within closes c) :
    (fill closes parts.flatten).chunks.length ≤ parts.length := by
  have h := ahead_flatten hclose hparts
  have hlen := h.closed
  unfold Filling.chunks
  split
  · exact hlen
  next hne =>
    have hlt : (fill closes parts.flatten).closed.length ≠ parts.length := fun heq =>
      hne (h.current heq)
    rw [List.length_append, List.length_singleton]
    omega

end Minimal

end GreedyPartition
