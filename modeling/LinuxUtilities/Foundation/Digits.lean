import LinuxUtilities.Foundation.Strtol

/-! Strings of digits: the number that a parser accumulates over one, and that a string without a
leading zero is the canonical text of its number. -/
namespace CString

/-- The number that digits give after those that gave `n`. -/
def valueFrom (n : ℕ) (digits : List UInt8) : ℕ :=
  digits.foldl (fun n d => 10 * n + (d.toNat - 48)) n

theorem valueFrom_cons (n : ℕ) (d : UInt8) (digits : List UInt8) :
    valueFrom n (d :: digits) = valueFrom (10 * n + (d.toNat - 48)) digits := by
  rw [valueFrom, List.foldl_cons]
  rfl

theorem le_valueFrom (n : ℕ) (digits : List UInt8) : n ≤ valueFrom n digits := by
  induction digits generalizing n with
  | nil => exact le_rfl
  | cons d digits ih =>
    have hstep := ih (10 * n + (d.toNat - 48))
    rw [valueFrom_cons]
    omega

theorem isDigit_iff {b : UInt8} : isDigit b = true ↔ 48 ≤ b.toNat ∧ b.toNat ≤ 57 := by
  simp [isDigit, UInt8.le_iff_toNat_le]

/-- A digit more is a factor of ten. -/
theorem valueFrom_lt {n count : ℕ} {digits : List UInt8} (h : ∀ b ∈ digits, isDigit b = true)
    (hn : n < 10 ^ count) : valueFrom n digits < 10 ^ (count + digits.length) := by
  induction digits generalizing n count with
  | nil => exact hn
  | cons d digits ih =>
    obtain ⟨hlower, hupper⟩ := isDigit_iff.mp (h d List.mem_cons_self)
    have hnext : 10 * n + (d.toNat - 48) < 10 ^ (count + 1) := by
      rw [pow_succ]
      omega
    have hrest := ih (fun b hb => h b (List.mem_cons_of_mem d hb)) hnext
    rwa [Nat.add_right_comm, Nat.add_assoc] at hrest

theorem digitsValue_lt {digits : List UInt8} (h : ∀ b ∈ digits, isDigit b = true) :
    digitsValue digits < 10 ^ digits.length := by
  have hlt := valueFrom_lt h (pow_pos (by decide) 0 : 0 < 10 ^ 0)
  rwa [Nat.zero_add] at hlt

theorem digitsValue_append_singleton (digits : List UInt8) (d : UInt8) :
    digitsValue (digits ++ [d]) = 10 * digitsValue digits + (d.toNat - 48) := by
  simp [digitsValue, List.foldl_append]

theorem decimal_of_lt {d : ℕ} (h : d < 10) : decimal d = [(48 + d).toUInt8] := by
  interval_cases d <;> rfl

/-- A digit is added at the end. -/
theorem decimal_append {n d : ℕ} (hn : 0 < n) (hd : d < 10) :
    decimal (10 * n + d) = decimal n ++ [(48 + d).toUInt8] := by
  have hdigits : Nat.digits 10 (10 * n + d) = d :: Nat.digits 10 n := by
    rw [Nat.add_comm]
    exact Nat.digits_add 10 (by decide) d n hd (.inr hn.ne')
  unfold decimal
  rw [if_neg (by omega), if_neg hn.ne', hdigits, List.reverse_cons, List.map_append]
  rfl

theorem toUInt8_digit {b : UInt8} (h : isDigit b = true) : (48 + (b.toNat - 48)).toUInt8 = b := by
  obtain ⟨hlower, -⟩ := isDigit_iff.mp h
  rw [Nat.add_sub_cancel' hlower]
  exact UInt8.ofNat_toNat

/-- Digits without a leading zero are the decimal text of their number. -/
theorem decimal_digitsValue {digits : List UInt8} (hne : digits ≠ [])
    (h : ∀ b ∈ digits, isDigit b = true) (hlead : digits.head? ≠ some 48) :
    decimal (digitsValue digits) = digits ∧ 0 < digitsValue digits := by
  induction digits using List.reverseRecOn with
  | nil => contradiction
  | append_singleton digits d ih =>
    have hd := h d (by simp)
    obtain ⟨hlower, hupper⟩ := isDigit_iff.mp hd
    rw [digitsValue_append_singleton]
    cases hcons : digits with
    | nil =>
      have hvalue : digitsValue [] = 0 := rfl
      have hnonzero : d.toNat ≠ 48 := by
        intro hzero
        rw [hcons] at hlead
        exact hlead (congrArg some (UInt8.toNat_inj.mp hzero))
      rw [hvalue, Nat.mul_zero, Nat.zero_add, decimal_of_lt (by omega), toUInt8_digit hd]
      exact ⟨rfl, by omega⟩
    | cons b rest =>
      rw [← hcons]
      have hlead' : digits.head? ≠ some 48 := by
        rw [hcons] at hlead ⊢
        simpa using hlead
      obtain ⟨hdecimal, hpos⟩ := ih (by simp [hcons])
        (fun b hb => h b (List.mem_append_left [d] hb)) hlead'
      rw [decimal_append hpos (by omega), hdecimal, toUInt8_digit hd]
      exact ⟨rfl, by omega⟩

/-- The decimal text of a positive number has no leading zero. -/
theorem head_decimal_ne_zero {n : ℕ} (hn : 0 < n) : (decimal n).head? ≠ some 48 := by
  induction n using Nat.strong_induction_on with
  | h n ih =>
    by_cases hlt : n < 10
    · rw [decimal_of_lt hlt]
      interval_cases n <;> decide
    · have hsplit : 10 * (n / 10) + n % 10 = n := Nat.div_add_mod n 10
      have hpos : 0 < n / 10 := by omega
      rw [← hsplit, decimal_append hpos (Nat.mod_lt n (by decide))]
      obtain ⟨b, text, hdecimal, -⟩ := head_decimal (n / 10)
      have hhead := ih (n / 10) (by omega) hpos
      rw [hdecimal] at hhead ⊢
      exact hhead

end CString
