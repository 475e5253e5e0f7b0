import Mathlib.Order.Basic
import Mathlib.Tactic

/-! The difference of two finite maps in key order, and the merge of two sorted lists of
pairs that computes it. -/
namespace MapDifference
variable {κ ν : Type*}

/-- What happens to one key between two maps. -/
inductive Delta (κ ν : Type*) where
  | removed (key : κ) (value : ν)
  | added (key : κ) (value : ν)
  | changed (key : κ) (old new : ν)

namespace Delta

def key : Delta κ ν → κ
  | removed k _ => k
  | added k _ => k
  | changed k _ _ => k

@[simp] theorem key_removed (k : κ) (v : ν) : (removed k v).key = k := rfl

@[simp] theorem key_added (k : κ) (v : ν) : (added k v).key = k := rfl

@[simp] theorem key_changed (k : κ) (v w : ν) : (changed k v w).key = k := rfl

/-- A delta describes its key in the two maps, which are given by their pairs. -/
def Holds (before after : Set (κ × ν)) : Delta κ ν → Prop
  | removed k v => (k, v) ∈ before ∧ ∀ w, (k, w) ∉ after
  | added k v => (k, v) ∈ after ∧ ∀ w, (k, w) ∉ before
  | changed k v w => (k, v) ∈ before ∧ (k, w) ∈ after ∧ v ≠ w

theorem Holds.key_mem {before after : Set (κ × ν)} {d : Delta κ ν} (h : d.Holds before after) :
    ∃ v, (d.key, v) ∈ before ∨ (d.key, v) ∈ after := by
  cases d with
  | removed k v => exact ⟨v, .inl h.1⟩
  | added k v => exact ⟨v, .inr h.1⟩
  | changed k v w => exact ⟨v, .inl h.1⟩

/-- Only the pairs at the key of a delta decide it. -/
theorem holds_congr {before before' after after' : Set (κ × ν)} {d : Delta κ ν}
    (hb : ∀ v, (d.key, v) ∈ before ↔ (d.key, v) ∈ before')
    (ha : ∀ v, (d.key, v) ∈ after ↔ (d.key, v) ∈ after') :
    d.Holds before after ↔ d.Holds before' after' := by
  cases d with
  | removed k v =>
    exact and_congr (hb v) (forall_congr' fun w => not_congr (ha w))
  | added k v =>
    exact and_congr (ha v) (forall_congr' fun w => not_congr (hb w))
  | changed k v w =>
    exact and_congr (hb v) (and_congr_left' (ha w))

end Delta

/-- The pairs of a list as a set. -/
def pairs (l : List (κ × ν)) : Set (κ × ν) := {p | p ∈ l}

theorem mem_pairs {l : List (κ × ν)} {p : κ × ν} : p ∈ pairs l ↔ p ∈ l := Iff.rfl

theorem mem_cons_iff_of_ne {x p : κ × ν} {l : List (κ × ν)} (h : p.1 ≠ x.1) :
    p ∈ x :: l ↔ p ∈ l := by
  rw [List.mem_cons]
  apply or_iff_right
  rintro rfl
  exact h rfl

/-- The delta at a key with these values in the two maps. -/
def deltaAt [DecidableEq ν] (k : κ) : Option ν → Option ν → List (Delta κ ν)
  | none, none => []
  | some v, none => [.removed k v]
  | none, some w => [.added k w]
  | some v, some w => if v = w then [] else [.changed k v w]

theorem deltaAt_pairwise [DecidableEq ν] (k : κ) (b a : Option ν)
    (r : Delta κ ν → Delta κ ν → Prop) : (deltaAt k b a).Pairwise r := by
  unfold deltaAt
  split
  · exact List.Pairwise.nil
  · exact List.pairwise_singleton _ _
  · exact List.pairwise_singleton _ _
  · split
    · exact List.Pairwise.nil
    · exact List.pairwise_singleton _ _

theorem key_of_mem_deltaAt [DecidableEq ν] {k : κ} {b a : Option ν} {d : Delta κ ν}
    (h : d ∈ deltaAt k b a) :
    d.key = k := by
  unfold deltaAt at h
  split at h <;> simp_all

theorem mem_deltaAt [DecidableEq ν] {before after : Set (κ × ν)} {k : κ} {b a : Option ν}
    (hb : ∀ v, (k, v) ∈ before ↔ b = some v) (ha : ∀ v, (k, v) ∈ after ↔ a = some v)
    {d : Delta κ ν} (hd : d.key = k) : d ∈ deltaAt k b a ↔ d.Holds before after := by
  subst hd
  cases d <;> cases b <;> cases a <;> simp_all [deltaAt, Delta.Holds] <;> grind

variable [LinearOrder κ]

/-- The differences of two maps, one for each key at which they differ, by key. -/
structure IsDifference (before after : Set (κ × ν)) (l : List (Delta κ ν)) : Prop where
  sorted : l.Pairwise fun d e => d.key < e.key
  mem_iff : ∀ d, d ∈ l ↔ d.Holds before after

theorem IsDifference.unique {before after : Set (κ × ν)} {l m : List (Delta κ ν)}
    (hl : IsDifference before after l) (hm : IsDifference before after m) : l = m := by
  have hnodup : ∀ {n : List (Delta κ ν)}, IsDifference before after n → n.Nodup := by
    intro n hn
    apply hn.sorted.imp
    rintro d _ hlt rfl
    exact lt_irrefl _ hlt
  have hperm : l.Perm m := by
    rw [List.perm_ext_iff_of_nodup (hnodup hl) (hnodup hm)]
    intro d
    rw [hl.mem_iff, hm.mem_iff]
  apply hperm.eq_of_pairwise _ hl.sorted hm.sorted
  intro d e _ _ hde hed
  exact absurd (hde.trans hed) (lt_irrefl _)

/-- Strictly sorted by key, as the pairs of a map are. -/
def Sorted (l : List (κ × ν)) : Prop := l.Pairwise fun p q => p.1 < q.1

theorem Sorted.tail {p : κ × ν} {l : List (κ × ν)} (h : Sorted (p :: l)) : Sorted l :=
  List.Pairwise.of_cons h

theorem Sorted.lt_of_mem {p q : κ × ν} {l : List (κ × ν)} (h : Sorted (p :: l)) (hq : q ∈ l) :
    p.1 < q.1 :=
  List.rel_of_pairwise_cons h hq

/-- A pair of a sorted list at the key of its head is its head. -/
theorem Sorted.mem_cons_iff {p : κ × ν} {l : List (κ × ν)} (h : Sorted (p :: l)) (v : ν) :
    (p.1, v) ∈ p :: l ↔ some p.2 = some v := by
  rw [List.mem_cons, Option.some_inj]
  constructor
  · intro hmem
    obtain heq | hmem := hmem
    · exact (congrArg Prod.snd heq).symm
    · exact absurd (h.lt_of_mem hmem) (lt_irrefl _)
  · rintro rfl
    exact .inl rfl

/-- A sorted list holds no key below that of its head. -/
theorem Sorted.notMem_of_lt {p : κ × ν} {l : List (κ × ν)} (h : Sorted (p :: l)) {k : κ}
    (hk : k < p.1) (v : ν) : (k, v) ∈ p :: l ↔ (none : Option ν) = some v := by
  simp only [reduceCtorEq, iff_false, List.mem_cons, not_or]
  constructor
  · rintro rfl
    exact lt_irrefl _ hk
  · intro hmem
    exact lt_irrefl _ (hk.trans (h.lt_of_mem hmem))

variable [DecidableEq ν]

/-- Walk two sorted lists of pairs together. -/
def diff : List (κ × ν) → List (κ × ν) → List (Delta κ ν)
  | [], [] => []
  | [], y :: ys => .added y.1 y.2 :: diff [] ys
  | x :: xs, [] => .removed x.1 x.2 :: diff xs []
  | x :: xs, y :: ys =>
    if x.1 = y.1 then
      if x.2 = y.2 then diff xs ys else .changed x.1 x.2 y.2 :: diff xs ys
    else if x.1 < y.1 then .removed x.1 x.2 :: diff xs (y :: ys)
    else .added y.1 y.2 :: diff (x :: xs) ys
termination_by xs ys => xs.length + ys.length

/-- One step of the walk: the least key `k` has the values `b` and `a` in the two maps, and
what lies above it is left. -/
theorem IsDifference.step {k : κ} {b a : Option ν} {before before' after after' : List (κ × ν)}
    {l : List (Delta κ ν)} (hl : IsDifference (pairs before') (pairs after') l)
    (hb : ∀ v, (k, v) ∈ before ↔ b = some v) (ha : ∀ v, (k, v) ∈ after ↔ a = some v)
    (hbk : ∀ p : κ × ν, p.1 ≠ k → (p ∈ before ↔ p ∈ before'))
    (hak : ∀ p : κ × ν, p.1 ≠ k → (p ∈ after ↔ p ∈ after'))
    (hb' : ∀ p ∈ before', k < p.1) (ha' : ∀ p ∈ after', k < p.1) :
    IsDifference (pairs before) (pairs after) (deltaAt k b a ++ l) := by
  have hlater : ∀ d ∈ l, k < d.key := by
    intro d hd
    obtain ⟨v, hv | hv⟩ := ((hl.mem_iff d).mp hd).key_mem
    · exact hb' _ hv
    · exact ha' _ hv
  constructor
  · rw [List.pairwise_append]
    refine ⟨deltaAt_pairwise k b a _, hl.sorted, fun d hd e he => ?_⟩
    rw [key_of_mem_deltaAt hd]
    exact hlater e he
  · intro d
    rw [List.mem_append]
    by_cases hd : d.key = k
    · have hnot : d ∉ l := fun hmem => (hlater d hmem).ne' hd
      rw [or_iff_left hnot]
      exact mem_deltaAt hb ha hd
    · have hnot : d ∉ deltaAt k b a := fun hmem => hd (key_of_mem_deltaAt hmem)
      have hcongr : d.Holds (pairs before) (pairs after) ↔
          d.Holds (pairs before') (pairs after') :=
        Delta.holds_congr (fun v => hbk (d.key, v) hd) (fun v => hak (d.key, v) hd)
      rw [or_iff_right hnot, hl.mem_iff, hcongr]

/-- The walk computes the difference. -/
theorem diff_isDifference {xs ys : List (κ × ν)} (hxs : Sorted xs) (hys : Sorted ys) :
    IsDifference (pairs xs) (pairs ys) (diff xs ys) := by
  -- what is left of either list when the walk passes the key of its head, or a smaller one
  have hskip : ∀ {x : κ × ν} {l : List (κ × ν)} (p : κ × ν), p.1 ≠ x.1 → (p ∈ x :: l ↔ p ∈ l) :=
    fun p hp => mem_cons_iff_of_ne hp
  have habove : ∀ {x : κ × ν} {l : List (κ × ν)} {k : κ}, Sorted (x :: l) → k < x.1 →
      ∀ p ∈ x :: l, k < p.1 := by
    intro x l k hs hk p hp
    obtain rfl | hp := List.mem_cons.mp hp
    · exact hk
    · exact hk.trans (hs.lt_of_mem hp)
  fun_induction diff xs ys with
  | case1 =>
    constructor
    · exact List.Pairwise.nil
    · intro d
      cases d <;> simp [Delta.Holds, pairs]
  | case2 y ys ih =>
    exact (ih hxs hys.tail).step (k := y.1) (b := none) (a := some y.2) (by simp) hys.mem_cons_iff
      (fun _ _ => Iff.rfl) hskip (by simp) (fun _ => hys.lt_of_mem)
  | case3 x xs ih =>
    exact (ih hxs.tail hys).step (k := x.1) (b := some x.2) (a := none) hxs.mem_cons_iff (by simp)
      hskip (fun _ _ => Iff.rfl) (fun _ => hxs.lt_of_mem) (by simp)
  | case4 x xs y ys hkey hval ih =>
    have hdelta : deltaAt x.1 (some x.2) (some y.2) = [] := by simp [deltaAt, hval]
    have hstep := (ih hxs.tail hys.tail).step hxs.mem_cons_iff (hkey ▸ hys.mem_cons_iff) hskip
      (hkey ▸ hskip) (fun _ => hxs.lt_of_mem) (hkey ▸ fun _ => hys.lt_of_mem)
    rwa [hdelta] at hstep
  | case5 x xs y ys hkey hval ih =>
    have hdelta : deltaAt x.1 (some x.2) (some y.2) = [.changed x.1 x.2 y.2] := by
      simp [deltaAt, hval]
    have hstep := (ih hxs.tail hys.tail).step hxs.mem_cons_iff (hkey ▸ hys.mem_cons_iff) hskip
      (hkey ▸ hskip) (fun _ => hxs.lt_of_mem) (hkey ▸ fun _ => hys.lt_of_mem)
    rwa [hdelta] at hstep
  | case6 x xs y ys hkey hlt ih =>
    exact (ih hxs.tail hys).step (k := x.1) (b := some x.2) (a := none) hxs.mem_cons_iff
      (hys.notMem_of_lt hlt) hskip (fun _ _ => Iff.rfl) (fun _ => hxs.lt_of_mem) (habove hys hlt)
  | case7 x xs y ys hkey hlt ih =>
    have hlt' : y.1 < x.1 := lt_of_le_of_ne (not_lt.mp hlt) (Ne.symm hkey)
    exact (ih hxs hys.tail).step (k := y.1) (b := none) (a := some y.2) (hxs.notMem_of_lt hlt')
      hys.mem_cons_iff (fun _ _ => Iff.rfl) hskip (habove hxs hlt') (fun _ => hys.lt_of_mem)

end MapDifference
