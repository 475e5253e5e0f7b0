import Mathlib.Data.Nat.Size
import Mathlib.Tactic

/-! Natural numbers rounded to a number of leading bits, ties to even. -/
namespace Rounding

/-- The multiple of `step` nearest to `n`, on a tie the even one. -/
def nearestMultiple (step n : ℕ) : ℕ :=
  if step < 2 * (n % step) ∨ 2 * (n % step) = step ∧ n / step % 2 = 1 then (n / step + 1) * step
  else n / step * step

/-- `n` rounded to `p` leading bits. -/
def roundBits (p n : ℕ) : ℕ := nearestMultiple (2 ^ (n.size - p)) n

section Multiple
variable {step n c : ℕ}

theorem le_nearestMultiple (hstep : 0 < step) (h : c * step ≤ n) :
    c * step ≤ nearestMultiple step n := by
  have hc : c ≤ n / step := (Nat.le_div_iff_mul_le hstep).mpr h
  unfold nearestMultiple
  split
  · exact Nat.mul_le_mul_right step (by omega)
  · exact Nat.mul_le_mul_right step hc

theorem nearestMultiple_le (hstep : 0 < step) (h : n ≤ c * step) :
    nearestMultiple step n ≤ c * step := by
  have hsplit : n / step * step + n % step = n := Nat.div_add_mod' n step
  rcases Nat.lt_or_ge (n / step) c with hlt | hge
  · have hle : (n / step + 1) * step ≤ c * step := Nat.mul_le_mul_right step hlt
    unfold nearestMultiple
    split
    · exact hle
    · exact (Nat.mul_le_mul_right step (Nat.le_succ _)).trans hle
  · have hdown : c * step ≤ n / step * step := Nat.mul_le_mul_right step hge
    have hrem : n % step = 0 := by omega
    rw [nearestMultiple, hrem]
    simp only [mul_zero, Nat.not_lt_zero, false_or]
    rw [if_neg (by omega)]
    omega

/-- An even multiple is reached from halfway below it on. -/
theorem nearestMultiple_lt_iff (hstep : 0 < step) (hc : 0 < c) (heven : c % 2 = 0) :
    nearestMultiple step n < c * step ↔ 2 * n + step < 2 * (c * step) := by
  have hsplit : n / step * step + n % step = n := Nat.div_add_mod' n step
  have hrem : n % step < step := Nat.mod_lt n hstep
  rcases Nat.lt_trichotomy (n / step + 1) c with hlt | heq | hgt
  · have hle : (n / step + 2) * step ≤ c * step := Nat.mul_le_mul_right step hlt
    have hround : nearestMultiple step n ≤ (n / step + 1) * step :=
      nearestMultiple_le hstep (by linarith)
    simp only [add_mul] at hle hround
    omega
  · have hodd : n / step % 2 = 1 := by omega
    subst heq
    simp only [nearestMultiple, hodd, and_true, add_mul, one_mul]
    split <;> omega
  · have hge : c * step ≤ n / step * step := Nat.mul_le_mul_right step (by omega)
    have hround : c * step ≤ nearestMultiple step n := le_nearestMultiple hstep (by omega)
    omega

end Multiple

section Bits
variable {p e n : ℕ}

theorem roundBits_le : roundBits p n ≤ 2 ^ n.size := by
  rcases Nat.le_total n.size p with hsmall | hlarge
  · have hzero : n.size - p = 0 := by omega
    have hround : nearestMultiple 1 n ≤ n * 1 := nearestMultiple_le one_pos (by omega)
    rw [roundBits, hzero, pow_zero]
    exact (hround.trans (by omega)).trans n.lt_size_self.le
  · have hpow : 2 ^ n.size = 2 ^ p * 2 ^ (n.size - p) := by
      rw [← pow_add, Nat.add_sub_cancel' hlarge]
    rw [roundBits, hpow]
    exact nearestMultiple_le (by positivity) (hpow ▸ n.lt_size_self.le)

theorem two_pow_le_roundBits (hp : 0 < p) {k : ℕ} (h : k < n.size) : 2 ^ k ≤ roundBits p n := by
  have hn : 2 ^ (n.size - 1) ≤ n := Nat.lt_size.mp (by omega)
  have hk : 2 ^ k ≤ 2 ^ (n.size - 1) := Nat.pow_le_pow_right two_pos (by omega)
  refine hk.trans ?_
  have hpow : 2 ^ (n.size - 1) = 2 ^ (n.size - 1 - (n.size - p)) * 2 ^ (n.size - p) := by
    rw [← pow_add]
    congr 1
    omega
  rw [roundBits, hpow]
  exact le_nearestMultiple (by positivity) (hpow ▸ hn)

/-- A number stays below a power of two after rounding exactly when it is more than half a unit
of the last place below it. -/
theorem roundBits_lt_iff (hp : 0 < p) :
    roundBits p n < 2 ^ (p + (e + 1)) ↔ n < 2 ^ (p + (e + 1)) - 2 ^ e := by
  have hstep : 2 ^ (e + 1) = 2 * 2 ^ e := pow_succ' 2 e
  have hpow : 2 ^ (p + (e + 1)) = 2 ^ p * 2 ^ (e + 1) := pow_add 2 p (e + 1)
  have hunit : 0 < 2 ^ e := by positivity
  have htwo : 2 ≤ 2 ^ p := by
    simpa using Nat.pow_le_pow_right two_pos hp
  have hroom : 2 * 2 ^ (e + 1) ≤ 2 ^ p * 2 ^ (e + 1) := Nat.mul_le_mul_right _ htwo
  rcases Nat.lt_trichotomy n.size (p + (e + 1)) with hlt | heq | hgt
  · have hhalf : 2 ^ n.size ≤ 2 ^ (p + e) := Nat.pow_le_pow_right two_pos (by omega)
    have hdouble : 2 ^ (p + (e + 1)) = 2 * 2 ^ (p + e) := pow_succ' 2 (p + e)
    have hn : n < 2 ^ n.size := n.lt_size_self
    have hround : roundBits p n ≤ 2 ^ n.size := roundBits_le
    omega
  · have hsize : n.size - p = e + 1 := by omega
    have heven : 2 ^ p % 2 = 0 := by
      obtain ⟨k, rfl⟩ : ∃ k, p = k + 1 := ⟨p - 1, by omega⟩
      rw [pow_succ, Nat.mul_mod_left]
    rw [roundBits, hsize, hpow,
      nearestMultiple_lt_iff (by positivity) (by positivity) heven]
    omega
  · have hn : 2 ^ (p + (e + 1)) ≤ n := Nat.lt_size.mp hgt
    have hround : 2 ^ (p + (e + 1)) ≤ roundBits p n := two_pow_le_roundBits hp hgt
    omega

end Bits

end Rounding
