import LinuxUtilities.Foundation.Digits

/-! Decimal text padded with zeros, and that strings of digits of one length are in `strcmp`
order as their numbers are. -/
namespace CString

/-- Decimal text of at least a width, with zeros in front. -/
def zeroPadded (width n : ℕ) : List UInt8 :=
  List.replicate (width - (decimal n).length) 48 ++ decimal n

theorem valueFrom_zero_replicate (count : ℕ) (digits : List UInt8) :
    valueFrom 0 (List.replicate count 48 ++ digits) = valueFrom 0 digits := by
  induction count with
  | zero => rfl
  | succ count ih =>
    rw [List.replicate_succ, List.cons_append, valueFrom_cons]
    exact ih

theorem digitsValue_zeroPadded (width n : ℕ) : digitsValue (zeroPadded width n) = n := by
  have hvalue := valueFrom_zero_replicate (width - (decimal n).length) (decimal n)
  have hdecimal : valueFrom 0 (decimal n) = n := digitsValue_decimal n
  rw [hdecimal] at hvalue
  exact hvalue

theorem isDigit_of_mem_zeroPadded {width n : ℕ} {b : UInt8} (h : b ∈ zeroPadded width n) :
    isDigit b = true := by
  rcases List.mem_append.mp h with h | h
  · rw [List.eq_of_mem_replicate h]
    decide
  · exact isDigit_of_mem_decimal h

theorem length_zeroPadded {width n : ℕ} (hw : 0 < width) (h : n < 10 ^ width) :
    (zeroPadded width n).length = width := by
  have hle := length_decimal_le hw h
  rw [zeroPadded, List.length_append, List.length_replicate]
  omega

/-- What digits can add to a number before them. -/
theorem valueFrom_bounds {digits : List UInt8} (h : ∀ b ∈ digits, isDigit b = true) (n : ℕ) :
    n * 10 ^ digits.length ≤ valueFrom n digits ∧
      valueFrom n digits < (n + 1) * 10 ^ digits.length := by
  induction digits generalizing n with
  | nil =>
    have hnil : valueFrom n [] = n := rfl
    simp [hnil]
  | cons d digits ih =>
    obtain ⟨hlower, hupper⟩ := isDigit_iff.mp (h d List.mem_cons_self)
    obtain ⟨hle, hlt⟩ := ih (fun b hb => h b (List.mem_cons_of_mem d hb)) (10 * n + (d.toNat - 48))
    have hpow : 0 < 10 ^ digits.length := by positivity
    rw [valueFrom_cons, List.length_cons, pow_succ]
    constructor
    · nlinarith
    · have hstep : 10 * n + (d.toNat - 48) + 1 ≤ 10 * (n + 1) := by omega
      nlinarith

theorem strcmp_append_left (front s t : List UInt8) :
    strcmp (front ++ s) (front ++ t) = strcmp s t := by
  induction front with
  | nil => rfl
  | cons b front ih => rw [List.cons_append, List.cons_append, strcmp, if_pos rfl, ih]

/-- The first digit that differs decides about the numbers. -/
theorem strcmp_digits {s t : List UInt8} (hlen : s.length = t.length)
    (hs : ∀ b ∈ s, isDigit b = true) (ht : ∀ b ∈ t, isDigit b = true) {n : ℕ}
    (h : valueFrom n s < valueFrom n t) : strcmp s t < 0 := by
  induction s generalizing t n with
  | nil =>
    rw [List.length_nil, eq_comm, List.length_eq_zero_iff] at hlen
    rw [hlen] at h
    exact absurd h (lt_irrefl _)
  | cons c s ih =>
    cases t with
    | nil => contradiction
    | cons d t =>
      have hlen' : s.length = t.length := by simpa using hlen
      have hs' : ∀ b ∈ s, isDigit b = true := fun b hb => hs b (List.mem_cons_of_mem c hb)
      have ht' : ∀ b ∈ t, isDigit b = true := fun b hb => ht b (List.mem_cons_of_mem d hb)
      rw [valueFrom_cons, valueFrom_cons] at h
      rw [strcmp]
      by_cases hcd : c = d
      · rw [if_pos hcd]
        rw [hcd] at h
        exact ih hlen' hs' ht' h
      by_cases hlt : c < d
      · rw [if_neg hcd, if_pos hlt]
        decide
      · exfalso
        obtain ⟨hc, -⟩ := isDigit_iff.mp (hs c List.mem_cons_self)
        obtain ⟨hd, -⟩ := isDigit_iff.mp (ht d List.mem_cons_self)
        have hle := (valueFrom_bounds hs' (10 * n + (c.toNat - 48))).1
        have hup := (valueFrom_bounds ht' (10 * n + (d.toNat - 48))).2
        have hne : c.toNat ≠ d.toNat := mt UInt8.toNat_inj.mp hcd
        have hnlt : ¬ c.toNat < d.toNat := mt UInt8.lt_iff_toNat_lt.mpr hlt
        have hstep : 10 * n + (d.toNat - 48) + 1 ≤ 10 * n + (c.toNat - 48) := by omega
        have hpow := Nat.mul_le_mul_right (10 ^ s.length) hstep
        rw [hlen'] at hle hpow
        omega

/-- Padded numbers of one width are in order. -/
theorem strcmp_zeroPadded {width m n : ℕ} (hw : 0 < width) (hn : n < 10 ^ width) (h : m < n) :
    strcmp (zeroPadded width m) (zeroPadded width n) < 0 := by
  have hm := h.trans hn
  have hvalue : digitsValue (zeroPadded width m) < digitsValue (zeroPadded width n) := by
    rwa [digitsValue_zeroPadded, digitsValue_zeroPadded]
  exact strcmp_digits ((length_zeroPadded hw hm).trans (length_zeroPadded hw hn).symm)
    (fun b hb => isDigit_of_mem_zeroPadded hb) (fun b hb => isDigit_of_mem_zeroPadded hb) hvalue

end CString
