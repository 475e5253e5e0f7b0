import Mathlib.Data.List.Basic
import Mathlib.Tactic

/-! Binary hash trees over an arbitrary hash: the level-by-level reduction with
promotion of an odd node, the tree it computes, and root binding up to a
collision among the messages that were hashed. -/
namespace MerkleTree

section Levels
variable {α β : Type*}

/-- One level: neighbours are combined, an odd last node is promoted. -/
def pairLevel (f : α → α → α) : List α → List α
  | a :: b :: rest => f a b :: pairLevel f rest
  | l => l

@[simp] theorem length_pairLevel (f : α → α → α) (l : List α) :
    (pairLevel f l).length = (l.length + 1) / 2 := by
  fun_induction pairLevel f l with
  | case1 a b rest ih =>
    simp only [List.length_cons, ih]
    omega
  | case2 l h =>
    match l, h with
    | [], _ => simp
    | [_], _ => simp
    | a :: b :: rest, h => exact (h a b rest rfl).elim

/-- Repeat `pairLevel` while more than one node is left. -/
def reduce (f : α → α → α) (l : List α) : List α :=
  if 1 < l.length then reduce f (pairLevel f l) else l
termination_by l.length
decreasing_by simp only [length_pairLevel]; omega

theorem reduce_of_le {f : α → α → α} {l : List α} (h : l.length ≤ 1) : reduce f l = l := by
  rw [reduce, if_neg (by omega)]

theorem reduce_of_lt {f : α → α → α} {l : List α} (h : 1 < l.length) :
    reduce f l = reduce f (pairLevel f l) := by
  rw [reduce, if_pos h]

theorem reduce_singleton (f : α → α → α) {l : List α} (h : l ≠ []) :
    ∃ a, reduce f l = [a] := by
  fun_induction reduce f l with
  | case1 l hl ih =>
    apply ih
    intro hnil
    have hlen := congrArg List.length hnil
    simp only [length_pairLevel, List.length_nil] at hlen
    omega
  | case2 l hl =>
    have hpos := List.length_pos_iff.mpr h
    exact List.length_eq_one_iff.mp (by omega)

theorem map_pairLevel {f : α → α → α} {f' : β → β → β} {g : α → β}
    (h : ∀ a b, g (f a b) = f' (g a) (g b)) (l : List α) :
    (pairLevel f l).map g = pairLevel f' (l.map g) := by
  fun_induction pairLevel f l with
  | case1 a b rest ih => simp [pairLevel, h, ih]
  | case2 l hl =>
    match l, hl with
    | [], _ => rfl
    | [_], _ => rfl
    | a :: b :: rest, hl => exact (hl a b rest rfl).elim

theorem map_reduce {f : α → α → α} {f' : β → β → β} {g : α → β}
    (h : ∀ a b, g (f a b) = f' (g a) (g b)) (l : List α) :
    (reduce f l).map g = reduce f' (l.map g) := by
  fun_induction reduce f l with
  | case1 l hl ih => rw [ih, map_pairLevel h, ← reduce_of_lt (by simpa using hl)]
  | case2 l hl => rw [reduce_of_le (by simpa using hl)]

/-- The largest power of two below `n`. -/
def splitPoint (n : ℕ) : ℕ := 2 ^ Nat.log 2 (n - 1)

theorem splitPoint_lt {n : ℕ} (h : 1 < n) : splitPoint n < n := by
  have hle := Nat.pow_log_le_self 2 (x := n - 1) (by omega)
  rw [splitPoint]
  omega

theorem le_two_mul_splitPoint (n : ℕ) : n ≤ 2 * splitPoint n := by
  have hlt := Nat.lt_pow_succ_log_self (b := 2) (by decide) (n - 1)
  rw [Nat.pow_succ] at hlt
  rw [splitPoint]
  omega

theorem splitPoint_pos (n : ℕ) : 0 < splitPoint n := Nat.two_pow_pos _

/-- A power of two `k` with `k < n ≤ 2 * k` is the split point. -/
theorem splitPoint_eq {n i : ℕ} (hlt : 2 ^ i < n) (hle : n ≤ 2 * 2 ^ i) :
    splitPoint n = 2 ^ i := by
  have hlog : Nat.log 2 (n - 1) = i :=
    Nat.log_eq_of_pow_le_of_lt_pow (by omega) (by rw [Nat.pow_succ]; omega)
  rw [splitPoint, hlog]

/-- Halving the leaves, rounded up, halves the split point. -/
theorem splitPoint_half {n : ℕ} (h : 2 < n) :
    splitPoint n = 2 * splitPoint ((n + 1) / 2) := by
  have hlt := splitPoint_lt (n := (n + 1) / 2) (by omega)
  have hle := le_two_mul_splitPoint ((n + 1) / 2)
  have hpow : 2 ^ (Nat.log 2 ((n + 1) / 2 - 1) + 1) = 2 * splitPoint ((n + 1) / 2) := by
    rw [splitPoint, Nat.pow_succ, Nat.mul_comm]
  rw [← hpow]
  apply splitPoint_eq <;> omega

/-- The root of a list of leaves by its recursive definition: the leaf itself, or the
combination of the root of the first `splitPoint` leaves and the root of the others. -/
def mth (f : α → α → α) (l : List α) (h : l ≠ []) : α :=
  if hlen : 1 < l.length then
    f (mth f (l.take (splitPoint l.length)) (by
        have := splitPoint_pos l.length
        simp [h]
        omega))
      (mth f (l.drop (splitPoint l.length)) (by
        have := splitPoint_lt hlen
        simpa using this))
  else l.head h
termination_by l.length
decreasing_by
  · have := splitPoint_lt hlen
    simp only [List.length_take]
    omega
  · have := splitPoint_pos l.length
    simp only [List.length_drop]
    omega

theorem mth_of_le {f : α → α → α} {l : List α} {h : l ≠ []} (hlen : l.length ≤ 1) :
    mth f l h = l.head h := by
  rw [mth, dif_neg (by omega)]

theorem mth_append (f : α → α → α) {xs ys : List α} (hx : xs ≠ []) (hy : ys ≠ [])
    (hsplit : splitPoint (xs ++ ys).length = xs.length) :
    mth f (xs ++ ys) (List.append_ne_nil_of_left_ne_nil hx ys) = f (mth f xs hx) (mth f ys hy) := by
  have hxpos := List.length_pos_iff.mpr hx
  have hypos := List.length_pos_iff.mpr hy
  rw [mth, dif_pos (by rw [List.length_append]; omega)]
  simp only [hsplit, List.take_left, List.drop_left]

theorem pairLevel_ne_nil (f : α → α → α) {l : List α} (h : l ≠ []) : pairLevel f l ≠ [] := by
  have hpos := List.length_pos_iff.mpr h
  apply List.length_pos_iff.mp
  rw [length_pairLevel]
  omega

/-- Pairs do not cross a cut at an even position. -/
theorem pairLevel_append (f : α → α → α) {xs : List α} (ys : List α) (h : Even xs.length) :
    pairLevel f (xs ++ ys) = pairLevel f xs ++ pairLevel f ys := by
  fun_induction pairLevel f xs with
  | case1 a b rest ih =>
    have heven : Even rest.length := by
      simpa [Nat.even_add_one] using h
    simp only [List.cons_append, pairLevel, ih heven]
  | case2 l hl =>
    match l, hl with
    | [], _ => rfl
    | [a], _ => exact absurd h (by simp)
    | a :: b :: rest, hl => exact (hl a b rest rfl).elim

/-- One level leaves the root unchanged: it halves both sides of the split. -/
theorem mth_pairLevel (f : α → α → α) {l : List α} (h : l ≠ []) :
    mth f (pairLevel f l) (pairLevel_ne_nil f h) = mth f l h := by
  induction hn : l.length using Nat.strong_induction_on generalizing l with
  | _ n ih =>
    have hpos := List.length_pos_iff.mpr h
    by_cases hone : n = 1
    · obtain ⟨a, rfl⟩ := List.length_eq_one_iff.mp (hn.trans hone)
      rfl
    by_cases htwo : n = 2
    · obtain ⟨a, b, rfl⟩ := List.length_eq_two.mp (hn.trans htwo)
      have hsplit := mth_append f (List.cons_ne_nil a []) (List.cons_ne_nil b []) rfl
      rw [mth_of_le List.length_singleton.le, mth_of_le List.length_singleton.le] at hsplit
      rw [mth_of_le (by simp)]
      exact hsplit.symm
    · have hlt := splitPoint_lt (show 1 < n by omega)
      have hhalf := splitPoint_half (show 2 < n by omega)
      have hsplit := splitPoint_pos n
      obtain ⟨xs, ys, rfl, hxs⟩ : ∃ xs ys, l = xs ++ ys ∧ xs.length = splitPoint n :=
        ⟨_, _, (List.take_append_drop (splitPoint n) l).symm, by simp; omega⟩
      rw [List.length_append] at hn
      have hx : xs ≠ [] := List.length_pos_iff.mp (by omega)
      have hy : ys ≠ [] := List.length_pos_iff.mp (by omega)
      have heven : Even xs.length := by
        rw [hxs, hhalf]
        exact even_two_mul _
      have hcut : splitPoint (pairLevel f xs ++ pairLevel f ys).length =
          (pairLevel f xs).length := by
        rw [← pairLevel_append f ys heven, length_pairLevel, length_pairLevel,
          List.length_append, hn]
        omega
      simp only [pairLevel_append f ys heven]
      rw [mth_append f (pairLevel_ne_nil f hx) (pairLevel_ne_nil f hy) hcut,
        mth_append f hx hy (by rw [List.length_append, hn, hxs]),
        ih xs.length (by omega) hx rfl, ih ys.length (by omega) hy rfl]

/-- The reduction of a non-empty list ends in its recursive root. -/
theorem reduce_eq_mth (f : α → α → α) {l : List α} (h : l ≠ []) : reduce f l = [mth f l h] := by
  fun_induction reduce f l with
  | case1 l hl ih => rw [ih (pairLevel_ne_nil f h), mth_pairLevel f h]
  | case2 l hl =>
    have hpos := List.length_pos_iff.mpr h
    obtain ⟨a, rfl⟩ := List.length_eq_one_iff.mp (show l.length = 1 by omega)
    rw [mth_of_le (by simp), List.head_singleton]

theorem mth_map {f : α → α → α} (k : β → β → β) {g : α → β}
    (hg : ∀ a b, g (f a b) = k (g a) (g b)) {l : List α} (h : l ≠ []) :
    g (mth f l h) = mth k (l.map g) (by simpa using h) := by
  have hmap := map_reduce hg l
  rw [reduce_eq_mth f h, reduce_eq_mth k (by simpa using h)] at hmap
  exact (List.cons.inj hmap).1

end Levels

/-- The shape a reduction builds, with the hashed message at every leaf. -/
inductive HashTree (P : Type*) where
  | leaf (message : P)
  | node (left right : HashTree P)

variable {P D : Type*} (H : P → D) (join : D → D → P)

namespace HashTree

def digest : HashTree P → D
  | .leaf p => H p
  | .node l r => H (join l.digest r.digest)

def leaves : HashTree P → List P
  | .leaf p => [p]
  | .node l r => l.leaves ++ r.leaves

/-- Every message hashed for the digest: leaves and joined children. -/
def messages : HashTree P → List P
  | .leaf p => [p]
  | .node l r => join (l.digest H join) (r.digest H join) :: (l.messages ++ r.messages)

end HashTree

/-- Two different messages, one from each list, with one digest. -/
def Collision (ps qs : List P) : Prop := ∃ p ∈ ps, ∃ q ∈ qs, p ≠ q ∧ H p = H q

variable {H join}

theorem Collision.mono {ps ps' qs qs' : List P} (h : Collision H ps qs)
    (hp : ps ⊆ ps') (hq : qs ⊆ qs') : Collision H ps' qs' := by
  obtain ⟨p, hpm, q, hqm, hne, he⟩ := h
  exact ⟨p, hp hpm, q, hq hqm, hne, he⟩

/-- Equal roots of two trees of any shapes reveal equal trees or a collision, as
long as no leaf message is itself the join of two digests. -/
theorem HashTree.binding (hjoin : ∀ a b c d, join a b = join c d → a = c ∧ b = d)
    {t u : HashTree P} (ht : ∀ p ∈ t.leaves, ∀ a b, p ≠ join a b)
    (hu : ∀ p ∈ u.leaves, ∀ a b, p ≠ join a b)
    (h : t.digest H join = u.digest H join) :
    t = u ∨ Collision H (t.messages H join) (u.messages H join) := by
  induction t generalizing u with
  | leaf p =>
    cases u with
    | leaf q =>
      by_cases hpq : p = q
      · exact .inl (by rw [hpq])
      · exact .inr ⟨p, by simp [messages], q, by simp [messages], hpq, h⟩
    | node l r =>
      exact .inr ⟨p, by simp [messages], _, List.mem_cons_self,
        ht p (by simp [leaves]) _ _, h⟩
  | node l r ihl ihr =>
    cases u with
    | leaf q =>
      exact .inr ⟨_, List.mem_cons_self, q, by simp [messages],
        (hu q (by simp [leaves]) _ _).symm, h⟩
    | node l' r' =>
      by_cases hm : join (l.digest H join) (r.digest H join) =
          join (l'.digest H join) (r'.digest H join)
      · obtain ⟨hl, hr⟩ := hjoin _ _ _ _ hm
        simp only [leaves, List.mem_append] at ht hu
        -- both children agree, so a collision below is a collision here
        rcases ihl (fun p hp => ht p (.inl hp)) (fun p hp => hu p (.inl hp)) hl with rfl | hc
        · rcases ihr (fun p hp => ht p (.inr hp)) (fun p hp => hu p (.inr hp)) hr with rfl | hc
          · exact .inl rfl
          · refine .inr (hc.mono ?_ ?_) <;> simp [messages]
        · refine .inr (hc.mono ?_ ?_) <;>
            exact fun x hx => List.mem_cons_of_mem _ (List.mem_append_left _ hx)
      · exact .inr ⟨_, List.mem_cons_self, _, List.mem_cons_self, hm, h⟩

variable (H join)

/-- The joined children hashed on one level. -/
def pairMessages : List D → List P
  | a :: b :: rest => join a b :: pairMessages rest
  | _ => []

/-- The joined children hashed by the whole reduction, level by level. -/
def reduceMessages (l : List D) : List P :=
  if 1 < l.length then
    pairMessages join l ++ reduceMessages (pairLevel (fun a b => H (join a b)) l)
  else []
termination_by l.length
decreasing_by simp only [length_pairLevel]; omega

variable {H join}

theorem leaves_pairLevel (ts : List (HashTree P)) :
    (pairLevel HashTree.node ts).flatMap HashTree.leaves = ts.flatMap HashTree.leaves := by
  fun_induction pairLevel HashTree.node ts with
  | case1 a b rest ih => simp [HashTree.leaves, ih]
  | case2 l hl => rfl

theorem leaves_reduce (ts : List (HashTree P)) :
    (reduce HashTree.node ts).flatMap HashTree.leaves = ts.flatMap HashTree.leaves := by
  fun_induction reduce HashTree.node ts with
  | case1 l hl ih => rw [ih, leaves_pairLevel]
  | case2 l hl => rfl

theorem messages_pairLevel (ts : List (HashTree P)) :
    (pairLevel HashTree.node ts).flatMap (HashTree.messages H join) ⊆
      ts.flatMap (HashTree.messages H join) ++
        pairMessages join (ts.map (HashTree.digest H join)) := by
  fun_induction pairLevel HashTree.node ts with
  | case1 a b rest ih =>
    intro p hp
    simp only [List.flatMap_cons, HashTree.messages, List.cons_append, List.append_assoc,
      List.mem_cons, List.mem_append] at hp
    simp only [List.flatMap_cons, List.map_cons, pairMessages, List.mem_append, List.mem_cons]
    rcases hp with hp | hp | hp | hp
    · exact .inr (.inl hp)
    · exact .inl (.inl hp)
    · exact .inl (.inr (.inl hp))
    · rcases List.mem_append.mp (ih hp) with hp | hp
      · exact .inl (.inr (.inr hp))
      · exact .inr (.inr hp)
  | case2 l hl => exact List.subset_append_left _ _

theorem messages_reduce (ts : List (HashTree P)) :
    (reduce HashTree.node ts).flatMap (HashTree.messages H join) ⊆
      ts.flatMap (HashTree.messages H join) ++
        reduceMessages H join (ts.map (HashTree.digest H join)) := by
  fun_induction reduce HashTree.node ts with
  | case1 l hl ih =>
    intro p hp
    rw [reduceMessages, if_pos (by simpa using hl),
      ← map_pairLevel (f := HashTree.node) (g := HashTree.digest H join) (fun a b => rfl),
      ← List.append_assoc]
    rcases List.mem_append.mp (ih hp) with hp | hp
    · exact List.mem_append_left _ (messages_pairLevel _ hp)
    · exact List.mem_append_right _ hp
  | case2 l hl => exact List.subset_append_left _ _

/-- The tree that the reduction of a non-empty list of leaf messages computes. -/
theorem reduce_tree {ps : List P} (h : ps ≠ []) :
    ∃ t : HashTree P, reduce (fun a b => H (join a b)) (ps.map H) = [t.digest H join] ∧
      t.leaves = ps ∧
      t.messages H join ⊆ ps ++ reduceMessages H join (ps.map H) := by
  obtain ⟨t, ht⟩ := reduce_singleton HashTree.node (l := ps.map HashTree.leaf) (by simpa using h)
  have hmap : (ps.map HashTree.leaf).map (HashTree.digest H join) = ps.map H := by
    simp [Function.comp_def, HashTree.digest]
  refine ⟨t, ?_, ?_, ?_⟩
  · rw [← hmap, ← map_reduce (f := HashTree.node) (fun a b => rfl), ht, List.map_singleton]
  · have hl := leaves_reduce (ps.map HashTree.leaf)
    rw [ht] at hl
    simpa [List.flatMap_map, HashTree.leaves] using hl
  · have hm := @messages_reduce P D H join (ps.map HashTree.leaf)
    rw [ht, hmap] at hm
    simpa [List.flatMap_map, HashTree.messages] using hm

end MerkleTree
