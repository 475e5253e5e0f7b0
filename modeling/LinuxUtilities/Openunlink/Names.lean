import LinuxUtilities.Foundation.Digits
import LinuxUtilities.Openunlink.LineBuffer

/-! The names of descriptors: what `parse_canonical_int` accepts is what `format_fd_name` writes. -/
namespace Openunlink
open CString

/-- The arithmetic of `unsigned long` that keeps each number before it is reduced. -/
def keepNumber (n : ℕ) : StateM (List ℕ) ℕ := fun numbers => (n % 2 ^ 64, numbers ++ [n])

/-- The numbers that the loop of `parse_canonical_int` computes, before they are reduced. -/
def accumulated (p : List UInt8) (acc digits : ℕ) : List ℕ :=
  ((parseDigitsWith keepNumber p acc digits).run []).2

theorem isDigit_iff_not_outside {ch : UInt8} : ¬ (ch < 48 ∨ 57 < ch) ↔ isDigit ch = true := by
  simp [isDigit]

theorem keepNumber_bind {α : Type} (n : ℕ) (f : ℕ → StateM (List ℕ) α) (numbers : List ℕ) :
    (keepNumber n >>= f).run numbers = (f (n % 2 ^ 64)).run (numbers ++ [n]) := rfl

/-- Keeping the numbers does not change what is parsed. -/
theorem parseDigitsWith_keepNumber (p : List UInt8) (acc digits : ℕ) (numbers : List ℕ) :
    ((parseDigitsWith keepNumber p acc digits).run numbers).1 = parseDigits p acc digits := by
  induction p generalizing acc digits numbers with
  | nil => rfl
  | cons ch p ih =>
    rw [parseDigits_cons, parseDigitsWith]
    split
    · rfl
    split
    · rfl
    rw [keepNumber_bind, keepNumber_bind, Nat.mod_add_mod]
    split
    · rfl
    split
    · rfl
    exact ih _ _ _

/-- The loop adds no number that exceeds 64 bits. -/
theorem keepNumber_lt {p : List UInt8} {acc digits : ℕ} {numbers : List ℕ}
    (h : ∀ n ∈ numbers, n < 2 ^ 64) :
    ∀ n ∈ ((parseDigitsWith keepNumber p acc digits).run numbers).2, n < 2 ^ 64 := by
  induction p generalizing acc digits numbers with
  | nil => exact h
  | cons ch p ih =>
    rw [parseDigitsWith]
    split
    · exact h
    next hdigit =>
      obtain ⟨hlower, hupper⟩ := isDigit_iff.mp (isDigit_iff_not_outside.mp hdigit)
      split
      · exact h
      next hacc =>
        have hmax : intMax / 10 = 214748364 := by decide
        have htens : acc * 10 % 2 ^ 64 = acc * 10 := Nat.mod_eq_of_lt (by omega)
        have hboth : ∀ n ∈ numbers ++ [acc * 10] ++ [acc * 10 % 2 ^ 64 + (ch.toNat - 48)],
            n < 2 ^ 64 := by
          rw [htens]
          simp only [List.mem_append, List.mem_singleton]
          rintro n ((hn | rfl) | rfl)
          · exact h n hn
          · omega
          · omega
        rw [keepNumber_bind, keepNumber_bind]
        split
        · exact hboth
        split
        · exact hboth
        exact ih hboth

/-- Whatever the text, no number of the loop exceeds 64 bits. -/
theorem accumulated_lt {p : List UInt8} {acc digits : ℕ} :
    ∀ n ∈ accumulated p acc digits, n < 2 ^ 64 :=
  keepNumber_lt fun _ hn => nomatch hn

/-- The loop accepts digits whose number is at most `INT_MAX`, when there are few enough. -/
theorem parseDigits_iff {p : List UInt8} {acc digits v : ℕ} (hacc : acc ≤ intMax)
    (hdigits : digits ≤ intDecimalBound) :
    parseDigits p acc digits = some v ↔ (∀ b ∈ p, isDigit b = true) ∧ valueFrom acc p = v ∧
      v ≤ intMax ∧ digits + p.length ≤ intDecimalBound := by
  have hmax : intMax = 2147483647 := rfl
  induction p generalizing acc digits with
  | nil =>
    simp only [parseDigits_nil, valueFrom, List.foldl_nil, Option.some.injEq, List.length_nil]
    constructor
    · rintro rfl
      exact ⟨by simp, rfl, hacc, hdigits⟩
    · intro h
      exact h.2.1
  | cons ch p ih =>
    have hle := le_valueFrom (10 * acc + (ch.toNat - 48)) p
    rw [valueFrom_cons, parseDigits_cons, List.length_cons]
    split
    next houtside =>
      have hnot : ¬ isDigit ch = true := fun h => isDigit_iff_not_outside.mpr h houtside
      simp [hnot]
    next hdigit =>
      have hch := isDigit_iff_not_outside.mp hdigit
      obtain ⟨hlower, hupper⟩ := isDigit_iff.mp hch
      split
      next hlarge =>
        have hfalse : ¬ (valueFrom (10 * acc + (ch.toNat - 48)) p = v ∧ v ≤ intMax) := by omega
        simp only [false_iff, reduceCtorEq]
        exact fun h => hfalse ⟨h.2.1, h.2.2.1⟩
      next hsmall =>
        have hmod : (acc * 10 + (ch.toNat - 48)) % 2 ^ 64 = 10 * acc + (ch.toNat - 48) := by omega
        rw [hmod]
        split
        next hover =>
          simp only [false_iff, reduceCtorEq]
          intro h
          have hvalue := h.2.1
          have hbound := h.2.2.1
          omega
        next hfits =>
          split
          next hlong =>
            simp only [false_iff, reduceCtorEq]
            intro h
            have hlength := h.2.2.2
            omega
          next hroom =>
            have hrest := ih (Nat.not_lt.mp hfits) (Nat.not_lt.mp hroom)
            rw [Nat.add_assoc, Nat.add_comm 1 p.length] at hrest
            rw [List.forall_mem_cons, and_iff_right hch]
            exact hrest

theorem decimal_of_head_ne_zero {ch : UInt8} {p : List UInt8}
    (h : ∀ b ∈ ch :: p, isDigit b = true) (hlead : ch ≠ 48) :
    decimal (digitsValue (ch :: p)) = ch :: p ∧ 0 < digitsValue (ch :: p) :=
  decimal_digitsValue (List.cons_ne_nil ch p) h (by simpa using hlead)

/-- A number is parsed if and only if the text is its decimal text and it is in range. -/
theorem parseCanonicalInt_iff {text : CStr} {allowZero : Bool} {v : ℕ} :
    parseCanonicalInt text allowZero = some v ↔
      text.bytes = decimal v ∧ v ≤ intMax ∧ (allowZero = true ∨ 1 ≤ v) := by
  unfold parseCanonicalInt
  cases htext : text.bytes with
  | nil =>
    have hne := decimal_ne_nil v
    simp [hne.symm]
  | cons b rest =>
    simp only
    by_cases hzero : b = 48
    · subst hzero
      rw [if_pos rfl]
      constructor
      · intro h
        split at h
        · contradiction
        next hallowed =>
          obtain rfl := Option.some.inj h
          simp only [not_or, not_not, Bool.not_eq_true, Bool.not_eq_false] at hallowed
          rw [hallowed.2]
          exact ⟨rfl, Nat.zero_le _, .inl hallowed.1⟩
      · intro h
        obtain ⟨hdecimal, -, hrange⟩ := h
        obtain rfl : v = 0 := by
          by_contra hv
          have hhead := head_decimal_ne_zero (Nat.pos_of_ne_zero hv)
          rw [← hdecimal] at hhead
          exact hhead rfl
        obtain rfl : rest = [] := (List.cons.inj hdecimal).2
        have hallow : allowZero = true := by simpa using hrange
        simp [hallow]
    rw [if_neg hzero]
    have hiff := @parseDigits_iff (b :: rest) 0 0 v (Nat.zero_le _) (Nat.zero_le _)
    constructor
    · intro h
      split at h
      · contradiction
      obtain ⟨hparse, hone⟩ := Option.filter_eq_some_iff.mp h
      obtain ⟨hdigits, rfl, hmax, -⟩ := hiff.mp hparse
      obtain ⟨hdecimal, hpos⟩ := decimal_of_head_ne_zero hdigits hzero
      exact ⟨hdecimal.symm, hmax, .inr hpos⟩
    · intro h
      obtain ⟨hdecimal, hmax, -⟩ := h
      have hdigits : ∀ c ∈ b :: rest, isDigit c = true := by
        rw [hdecimal]
        exact fun c hc => isDigit_of_mem_decimal hc
      have hvalue : valueFrom 0 (b :: rest) = v := by
        rw [hdecimal]
        exact digitsValue_decimal v
      have hlength : (b :: rest).length ≤ intDecimalBound := by
        rw [hdecimal]
        exact (length_decimal_int hmax).trans (by decide)
      have hpos : 1 ≤ v := hvalue ▸ (decimal_of_head_ne_zero hdigits hzero).2
      have hb := isDigit_iff.mp (hdigits b List.mem_cons_self)
      have hfirst : ¬ (b < 49 ∨ 57 < b) := by
        rw [not_or, UInt8.lt_iff_toNat_lt, UInt8.lt_iff_toNat_lt]
        have hne : b.toNat ≠ 48 := fun heq => hzero (UInt8.toNat_inj.mp heq)
        have hlower : (49 : UInt8).toNat = 49 := rfl
        have hupper : (57 : UInt8).toNat = 57 := rfl
        omega
      rw [if_neg hfirst, hiff.mpr ⟨hdigits, hvalue, hmax, by simpa using hlength⟩,
        Option.filter_some, if_pos (decide_eq_true hpos)]

/-- The texts that are parsed are the decimal texts of the numbers in range. No number of the
loop exceeds 64 bits, and the name of a descriptor is written again as it was read. -/
theorem parseCanonicalInt_exact (text : CStr) :
    (∀ allowZero v, parseCanonicalInt text allowZero = some v ↔
      text.bytes = decimal v ∧ v ≤ intMax ∧ (allowZero = true ∨ 1 ≤ v)) ∧
    (∀ n ∈ accumulated text.bytes 0 0, n < 2 ^ 64) ∧
    ∀ fd, parseFdName text = some fd →
      formatFdName (intDecimalBound + 1) fd = some text.bytes := by
  refine ⟨fun allowZero v => parseCanonicalInt_iff, accumulated_lt, ?_⟩
  intro fd hfd
  obtain ⟨hdecimal, hmax, -⟩ := parseCanonicalInt_iff.mp hfd
  rw [hdecimal]
  exact formatFdName_eq hmax

end Openunlink
