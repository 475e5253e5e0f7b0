import Mathlib.Data.List.Basic
import Mathlib.Tactic

/-! Cutting a list into blocks of one size, and consuming it piece by piece: what
does not fill a block waits for the next piece. -/
namespace Blocks
variable {α σ : Type*}

/-- The full blocks of `n` items, in order; what is left over is dropped. -/
def blocks (n : ℕ) (l : List α) : List (List α) :=
  if 0 < n ∧ n ≤ l.length then l.take n :: blocks n (l.drop n) else []
termination_by l.length
decreasing_by simp only [List.length_drop]; omega

/-- What is left over after the last full block. -/
def rest (n : ℕ) (l : List α) : List α := l.drop (l.length / n * n)

theorem blocks_of_lt {n : ℕ} {l : List α} (h : l.length < n) : blocks n l = [] := by
  rw [blocks, if_neg (by omega)]

theorem rest_of_lt {n : ℕ} {l : List α} (h : l.length < n) : rest n l = l := by
  rw [rest, Nat.div_eq_of_lt h, Nat.zero_mul, List.drop_zero]

theorem blocks_cons {n : ℕ} (hn : 0 < n) {b : List α} (hb : b.length = n) (l : List α) :
    blocks n (b ++ l) = b :: blocks n l := by
  rw [blocks, if_pos (by simp [hn, hb]), List.take_left' hb, List.drop_left' hb]

theorem rest_cons {n : ℕ} (hn : 0 < n) {b : List α} (hb : b.length = n) (l : List α) :
    rest n (b ++ l) = rest n l := by
  have hquot : (b ++ l).length / n = l.length / n + 1 := by
    rw [List.length_append, hb, Nat.add_comm, Nat.add_div_right _ hn]
  rw [rest, hquot, Nat.add_mul, Nat.one_mul, Nat.add_comm, ← List.drop_drop,
    List.drop_left' hb, rest]

@[simp] theorem length_rest (n : ℕ) (l : List α) : (rest n l).length = l.length % n := by
  rw [rest, List.length_drop, Nat.mod_eq_sub_div_mul]

/-- Cutting a list that arrives after another: first the blocks of the one before,
then those of its leftover followed by the new list. -/
theorem blocks_append {n : ℕ} (hn : 0 < n) (xs ys : List α) :
    blocks n (xs ++ ys) = blocks n xs ++ blocks n (rest n xs ++ ys) := by
  fun_induction blocks n xs with
  | case1 xs hxs ih =>
    have hlen := List.length_take_of_le hxs.2
    have hrest := rest_cons hn hlen (xs.drop n)
    have hcut := blocks_cons hn hlen (xs.drop n ++ ys)
    rw [List.take_append_drop] at hrest
    rw [← List.append_assoc, List.take_append_drop] at hcut
    rw [hcut, ih, hrest, List.cons_append]
  | case2 xs hxs => rw [rest_of_lt (by omega), List.nil_append]

theorem rest_append {n : ℕ} (hn : 0 < n) (xs ys : List α) :
    rest n (xs ++ ys) = rest n (rest n xs ++ ys) := by
  fun_induction blocks n xs with
  | case1 xs hxs ih =>
    have hlen := List.length_take_of_le hxs.2
    have hrest := rest_cons hn hlen (xs.drop n)
    have hcut := rest_cons hn hlen (xs.drop n ++ ys)
    rw [List.take_append_drop] at hrest
    rw [← List.append_assoc, List.take_append_drop] at hcut
    rw [hcut, ih, hrest]
  | case2 xs hxs => rw [rest_of_lt (l := xs) (by omega)]

/-- The loop that consumes full blocks from the front and leaves the rest. -/
def absorb (n : ℕ) (f : σ → List α → σ) (s : σ) (l : List α) : σ × List α :=
  if 0 < n ∧ n ≤ l.length then absorb n f (f s (l.take n)) (l.drop n) else (s, l)
termination_by l.length
decreasing_by simp only [List.length_drop]; omega

theorem absorb_eq {n : ℕ} (hn : 0 < n) (f : σ → List α → σ) (s : σ) (l : List α) :
    absorb n f s l = ((blocks n l).foldl f s, rest n l) := by
  fun_induction absorb n f s l with
  | case1 s l hl ih =>
    have hlen := List.length_take_of_le hl.2
    have hblocks := blocks_cons hn hlen (l.drop n)
    have hrest := rest_cons hn hlen (l.drop n)
    rw [List.take_append_drop] at hblocks hrest
    rw [ih, hblocks, hrest, List.foldl_cons]
  | case2 s l hl => rw [blocks_of_lt (by omega), rest_of_lt (by omega), List.foldl_nil]

/-- What a buffered consumer holds after some input: the state after the full
blocks so far, and the items that wait. -/
def consumed (n : ℕ) (f : σ → List α → σ) (s : σ) (input : List α) : σ × List α :=
  ((blocks n input).foldl f s, rest n input)

theorem consumed_append {n : ℕ} (hn : 0 < n) (f : σ → List α → σ) (s : σ)
    (input piece : List α) :
    consumed n f s (input ++ piece) =
      consumed n f (consumed n f s input).1 ((consumed n f s input).2 ++ piece) := by
  rw [consumed, blocks_append hn input piece, rest_append hn input piece, List.foldl_append]
  rfl

end Blocks
