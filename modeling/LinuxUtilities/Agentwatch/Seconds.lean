import LinuxUtilities.Foundation.Digits

/-! `parse_seconds`: the durations that `agentwatch` accepts, in milliseconds, and that none of its
64-bit numbers overflows on the way. -/
namespace Agentwatch
open CString

section Parser
variable {m : Type → Type} [Monad m] (u64 : ℕ → m ℕ)

/-- The loop over the digits before the point: the number and the text after them, or nothing
when the number is too large. Every number that is computed goes through `u64`. -/
def readWhole (whole : ℕ) : List UInt8 → m (Option (ℕ × List UInt8))
  | [] => pure (some (whole, []))
  | p :: text =>
    if isDigit p then
      if 86400 < whole ∨ (whole = 86400 ∧ p ≠ 48) then pure none
      else do
        let tens ← u64 (whole * 10)
        let whole ← u64 (tens + (p.toNat - 48))
        readWhole whole text
    else pure (some (whole, p :: text))

/-- The loop over the digits after the point: the number, how many digits there are, and the
text after them, or nothing when there are more than three. -/
def readFraction (fraction digits : ℕ) : List UInt8 → m (Option (ℕ × ℕ × List UInt8))
  | [] => pure (some (fraction, digits, []))
  | p :: text =>
    if isDigit p then
      if 3 ≤ digits then pure none
      else do
        let tens ← u64 (fraction * 10)
        let fraction ← u64 (tens + (p.toNat - 48))
        readFraction fraction (digits + 1) text
    else pure (some (fraction, digits, p :: text))

/-- The point and the digits after it, if there is a point. -/
def readPoint : List UInt8 → m (Option (ℕ × ℕ × List UInt8))
  | 46 :: text => if text.head?.any isDigit then readFraction u64 0 0 text else pure none
  | text => pure (some (0, 0, text))

/-- The loop that makes a fraction one of three digits, some of which are missing. -/
def scale (fraction : ℕ) : ℕ → m ℕ
  | 0 => pure fraction
  | missing + 1 => do
    let fraction ← u64 (fraction * 10)
    scale fraction missing

/-- The checks and the result, after the last digit. -/
def finish (whole fraction digits : ℕ) (rest : List UInt8) : m (Option ℕ) :=
  if rest ≠ [] ∨ 86400 < whole then pure none
  else do
    let fraction ← scale u64 fraction (3 - digits)
    if whole = 86400 ∧ fraction ≠ 0 then pure none
    else do
      let product ← u64 (whole * 1000)
      let result ← u64 (product + fraction)
      pure (if 1 ≤ result then some result else none)

/-- `parse_seconds`, over an arithmetic. -/
def parseSecondsWith (text : CStr) : m (Option ℕ) :=
  if text.bytes.head?.any isDigit then do
    match ← readWhole u64 0 text.bytes with
    | none => pure none
    | some (whole, rest) =>
      match ← readPoint u64 rest with
      | none => pure none
      | some (fraction, digits, rest) => finish u64 whole fraction digits rest
  else pure none

end Parser

/-- `parse_seconds`, with the numbers of `uint64_t`. -/
def parseSeconds (text : CStr) : Option ℕ :=
  Id.run (parseSecondsWith (fun n => pure (n % 2 ^ 64)) text)

/-- The same steps, which fail at a number that `uint64_t` does not have. -/
def parseSecondsChecked (text : CStr) : Option (Option ℕ) :=
  parseSecondsWith (fun n => if n < 2 ^ 64 then some n else none) text

/-- A duration: digits, and up to three digits after a point when there are any. -/
structure Duration where
  whole : List UInt8
  fraction : List UInt8
  whole_ne_nil : whole ≠ []
  isDigit_of_mem_whole : ∀ b ∈ whole, isDigit b = true
  isDigit_of_mem_fraction : ∀ b ∈ fraction, isDigit b = true
  fraction_length : fraction.length ≤ 3

namespace Duration

/-- The point and the digits after it. -/
def point (d : Duration) : List UInt8 := if d.fraction = [] then [] else 46 :: d.fraction

def text (d : Duration) : List UInt8 := d.whole ++ d.point

/-- The seconds. -/
def value (d : Duration) : ℚ :=
  digitsValue d.whole + digitsValue d.fraction / 10 ^ d.fraction.length

def millis (d : Duration) : ℕ :=
  digitsValue d.whole * 1000 + digitsValue d.fraction * 10 ^ (3 - d.fraction.length)

theorem millis_eq (d : Duration) : (d.millis : ℚ) = 1000 * d.value := by
  have hpow : (10 : ℚ) ^ (3 - d.fraction.length) * 10 ^ d.fraction.length = 1000 := by
    rw [← pow_add, Nat.sub_add_cancel d.fraction_length]
    norm_num
  unfold millis value
  push_cast
  rw [mul_add, mul_div_assoc', mul_comm (1000 : ℚ), eq_comm]
  congr 1
  rw [div_eq_iff (by positivity), ← hpow]
  ring

theorem one_le_millis_iff (d : Duration) : 1 ≤ d.millis ↔ 1 / 1000 ≤ d.value := by
  have hcast : (1 : ℚ) ≤ d.millis ↔ 1 ≤ d.millis := Nat.one_le_cast
  rw [← hcast, d.millis_eq, div_le_iff₀' (by norm_num)]

theorem millis_le_iff (d : Duration) : d.millis ≤ 86400000 ↔ d.value ≤ 86400 := by
  have hcast : (d.millis : ℚ) ≤ (86400000 : ℕ) ↔ d.millis ≤ 86400000 := Nat.cast_le
  rw [← hcast, d.millis_eq]
  constructor
  · intro h
    push_cast at h
    linarith
  · intro h
    push_cast
    linarith

theorem head_point (d : Duration) : ∀ b ∈ d.point.head?, isDigit b = false := by
  unfold point
  split
  · simp
  · intro b hb
    obtain rfl : 46 = b := by simpa using hb
    decide

end Duration

section Steps
variable {m : Type → Type} [Monad m] [LawfulMonad m] {u64 : ℕ → m ℕ}

/-- The digits before the point are read, and no number on the way has more than 64 bits. -/
theorem readWhole_digits (hu : ∀ n < 2 ^ 64, u64 n = pure n) {digits rest : List UInt8} {whole : ℕ}
    (hdigits : ∀ b ∈ digits, isDigit b = true) (hrest : ∀ b ∈ rest.head?, isDigit b = false)
    (hwhole : whole ≤ 864009) :
    ∃ r, readWhole u64 whole (digits ++ rest) = pure r ∧
      (valueFrom whole digits ≤ 86400 → r = some (valueFrom whole digits, rest)) ∧
      ∀ v ∈ r, v.2 = rest ∧ (86400 < valueFrom whole digits → 86400 < v.1) := by
  induction digits generalizing whole with
  | nil =>
    have hstop : readWhole u64 whole ([] ++ rest) = pure (some (whole, rest)) := by
      cases rest with
      | nil => rfl
      | cons b rest =>
        have hb := hrest b rfl
        simp only [List.nil_append, readWhole, hb, Bool.false_eq_true, if_false]
    refine ⟨_, hstop, fun _ => rfl, ?_⟩
    intro v hv
    obtain rfl := Option.some.inj hv
    exact ⟨rfl, id⟩
  | cons d digits ih =>
    have hd := hdigits d List.mem_cons_self
    obtain ⟨hlower, hupper⟩ := isDigit_iff.mp hd
    have hcons : valueFrom whole (d :: digits) = valueFrom (10 * whole + (d.toNat - 48)) digits :=
      rfl
    have hle := le_valueFrom (10 * whole + (d.toNat - 48)) digits
    rw [List.cons_append, readWhole, if_pos hd]
    split
    next hlarge =>
      refine ⟨none, rfl, ?_, by simp⟩
      intro hvalue
      exfalso
      rcases hlarge with hlarge | ⟨heq, hne⟩
      · omega
      · have hzero : d.toNat ≠ 48 := fun h => hne (UInt8.toNat_inj.mp h)
        omega
    next hsmall =>
      have hwhole' : 10 * whole + (d.toNat - 48) ≤ 864009 := by omega
      obtain ⟨r, hread, hr⟩ := ih (fun b hb => hdigits b (List.mem_cons_of_mem d hb)) hwhole'
      refine ⟨r, ?_, hr⟩
      rw [hu _ (by omega), pure_bind, hu _ (by omega), pure_bind, Nat.mul_comm whole 10]
      exact hread

/-- Up to three digits after the point are read. -/
theorem readFraction_digits (hu : ∀ n < 2 ^ 64, u64 n = pure n) {digits rest : List UInt8}
    {fraction count : ℕ} (hdigits : ∀ b ∈ digits, isDigit b = true)
    (hrest : ∀ b ∈ rest.head?, isDigit b = false) (hfraction : fraction < 10 ^ count)
    (hcount : count ≤ 3) :
    readFraction u64 fraction count (digits ++ rest) =
      pure (if count + digits.length ≤ 3 then
        some (valueFrom fraction digits, count + digits.length, rest) else none) := by
  induction digits generalizing fraction count with
  | nil =>
    rw [List.length_nil, Nat.add_zero, if_pos hcount, List.nil_append]
    cases rest with
    | nil => rfl
    | cons b rest =>
      have hb := hrest b rfl
      simp only [readFraction, hb, Bool.false_eq_true, if_false]
      rfl
  | cons d digits ih =>
    have hd := hdigits d List.mem_cons_self
    obtain ⟨hlower, hupper⟩ := isDigit_iff.mp hd
    rw [List.cons_append, readFraction, if_pos hd, List.length_cons]
    split
    next hfull =>
      rw [if_neg (by omega)]
    next hroom =>
      have hpow : 10 ^ count ≤ 10 ^ 2 := Nat.pow_le_pow_right (by decide) (by omega)
      have hnext : 10 * fraction + (d.toNat - 48) < 10 ^ (count + 1) := by
        rw [pow_succ]
        omega
      have hread := ih (fun b hb => hdigits b (List.mem_cons_of_mem d hb)) hnext (by omega)
      rw [hu _ (by omega), pure_bind, hu _ (by omega), pure_bind, Nat.mul_comm fraction 10, hread,
        Nat.add_right_comm count 1, Nat.add_assoc count]
      rfl

/-- What follows the digits before the point of a duration. -/
theorem readPoint_point (hu : ∀ n < 2 ^ 64, u64 n = pure n) (d : Duration) :
    readPoint u64 d.point = pure (some (digitsValue d.fraction, d.fraction.length, [])) := by
  unfold Duration.point
  split
  next hnil =>
    rw [hnil]
    rfl
  next hfraction =>
    obtain ⟨b, digits, hcons⟩ := List.exists_cons_of_ne_nil hfraction
    have hhead : d.fraction.head?.any isDigit = true := by
      have hb := d.isDigit_of_mem_fraction b (hcons ▸ List.mem_cons_self)
      simp [hcons, hb]
    have hread : readFraction u64 0 0 (d.fraction ++ []) = _ :=
      readFraction_digits hu d.isDigit_of_mem_fraction (by simp) (by decide) (by decide)
    rw [List.append_nil, Nat.zero_add, if_pos d.fraction_length] at hread
    rw [readPoint, if_pos hhead, hread]
    rfl

/-- A text that is no point and digits up to its end is left over, or nothing is read. -/
theorem readPoint_other (hu : ∀ n < 2 ^ 64, u64 n = pure n) {rest : List UInt8}
    (h : ∀ fraction : List UInt8, fraction.length ≤ 3 → (∀ b ∈ fraction, isDigit b = true) →
      rest ≠ if fraction = [] then [] else 46 :: fraction) :
    ∃ r, readPoint u64 rest = pure r ∧ ∀ v ∈ r, v.2.2 ≠ [] := by
  have hrest : rest ≠ [] := by simpa using h [] (by simp) (by simp)
  unfold readPoint
  split
  next text =>
    split
    next hhead =>
      have hdigits : ∀ b ∈ text.takeWhile isDigit, isDigit b = true :=
        fun b hb => List.mem_takeWhile_imp hb
      have hread : readFraction u64 0 0 (text.takeWhile isDigit ++ text.dropWhile isDigit) = _ :=
        readFraction_digits hu hdigits (head_dropWhile isDigit text) (by decide) (by decide)
      rw [List.takeWhile_append_dropWhile] at hread
      refine ⟨_, hread, ?_⟩
      intro v hv
      split at hv
      next hlength =>
        obtain rfl := Option.some.inj hv
        intro hend
        have hend : text.dropWhile isDigit = [] := hend
        have htext : text.takeWhile isDigit = text := by
          have hsplit := List.takeWhile_append_dropWhile (p := isDigit) (l := text)
          rwa [hend, List.append_nil] at hsplit
        have hne : text.takeWhile isDigit ≠ [] := by
          rw [htext]
          rintro rfl
          contradiction
        refine h (text.takeWhile isDigit) (by simpa using hlength) hdigits ?_
        rw [if_neg hne, htext]
      · contradiction
    · exact ⟨none, rfl, by simp⟩
  · exact ⟨_, rfl, fun v hv => by obtain rfl := Option.some.inj hv; exact hrest⟩

theorem scale_eq (hu : ∀ n < 2 ^ 64, u64 n = pure n) {fraction missing : ℕ}
    (h : fraction * 10 ^ missing < 2 ^ 64) :
    scale u64 fraction missing = pure (fraction * 10 ^ missing) := by
  induction missing generalizing fraction with
  | zero => rw [pow_zero, Nat.mul_one, scale]
  | succ missing ih =>
    have hsplit : fraction * 10 ^ (missing + 1) = fraction * 10 * 10 ^ missing := by ring
    rw [hsplit] at h ⊢
    have hle : fraction * 10 ≤ fraction * 10 * 10 ^ missing :=
      Nat.le_mul_of_pos_right _ (by positivity)
    rw [scale, hu _ (by omega), pure_bind, ih h]

/-- The result is between one millisecond and a day. -/
theorem finish_eq (hu : ∀ n < 2 ^ 64, u64 n = pure n) {whole fraction digits : ℕ}
    (hfraction : fraction < 10 ^ digits) (hdigits : digits ≤ 3) :
    finish u64 whole fraction digits [] =
      pure (if 1 ≤ whole * 1000 + fraction * 10 ^ (3 - digits) ∧
          whole * 1000 + fraction * 10 ^ (3 - digits) ≤ 86400000 then
        some (whole * 1000 + fraction * 10 ^ (3 - digits)) else none) := by
  have hscaled : fraction * 10 ^ (3 - digits) < 1000 := by
    have hpow : 10 ^ digits * 10 ^ (3 - digits) = 1000 := by
      rw [← pow_add, Nat.add_sub_cancel' hdigits]
      rfl
    rw [← hpow]
    exact Nat.mul_lt_mul_of_pos_right hfraction (by positivity)
  unfold finish
  generalize hf : fraction * 10 ^ (3 - digits) = scaled at hscaled ⊢
  by_cases hlarge : 86400 < whole
  · rw [if_pos (.inr hlarge), if_neg (by omega)]
  rw [if_neg (by simpa using hlarge), scale_eq hu (by omega), hf, pure_bind]
  by_cases hday : whole = 86400 ∧ scaled ≠ 0
  · rw [if_pos hday, if_neg (by omega)]
  rw [if_neg hday, hu _ (by omega), pure_bind, hu _ (by omega), pure_bind]
  by_cases hone : 1 ≤ whole * 1000 + scaled
  · rw [if_pos hone, if_pos (by omega)]
  · rw [if_neg hone, if_neg (by omega)]

/-- A duration is accepted when it is between one millisecond and a day. -/
theorem parseSecondsWith_duration (hu : ∀ n < 2 ^ 64, u64 n = pure n) {text : CStr} {d : Duration}
    (htext : d.text = text.bytes) :
    parseSecondsWith u64 text =
      pure (if 1 ≤ d.millis ∧ d.millis ≤ 86400000 then some d.millis else none) := by
  obtain ⟨b, digits, hcons⟩ := List.exists_cons_of_ne_nil d.whole_ne_nil
  have hhead : text.bytes.head?.any isDigit = true := by
    have hb := d.isDigit_of_mem_whole b (hcons ▸ List.mem_cons_self)
    simp [← htext, Duration.text, hcons, hb]
  obtain ⟨r, hread, hsmall, hr⟩ :=
    readWhole_digits hu d.isDigit_of_mem_whole d.head_point (Nat.zero_le 864009)
  have hfraction : digitsValue d.fraction < 10 ^ d.fraction.length :=
    digitsValue_lt d.isDigit_of_mem_fraction
  unfold parseSecondsWith
  rw [if_pos hhead, ← htext, Duration.text, hread, pure_bind]
  by_cases hwhole : digitsValue d.whole ≤ 86400
  · rw [hsmall hwhole]
    simp only [readPoint_point hu d, pure_bind]
    exact finish_eq hu hfraction d.fraction_length
  · have hmillis : ¬ (1 ≤ d.millis ∧ d.millis ≤ 86400000) := by
      unfold Duration.millis
      omega
    rw [if_neg hmillis]
    cases r with
    | none => rfl
    | some v =>
      obtain ⟨whole, rest⟩ := v
      obtain ⟨hrest, hlarge⟩ := hr (whole, rest) rfl
      simp only at hrest hlarge
      have hlarge : 86400 < whole := hlarge (Nat.lt_of_not_le hwhole)
      simp only [hrest, readPoint_point hu d, pure_bind]
      rw [finish, if_pos (.inr hlarge)]

/-- A text that is no duration is rejected. -/
theorem parseSecondsWith_other (hu : ∀ n < 2 ^ 64, u64 n = pure n) {text : CStr}
    (h : ∀ d : Duration, d.text ≠ text.bytes) : parseSecondsWith u64 text = pure none := by
  unfold parseSecondsWith
  split
  next hhead =>
    have hdigits : ∀ b ∈ text.bytes.takeWhile isDigit, isDigit b = true :=
      fun b hb => List.mem_takeWhile_imp hb
    have hne : text.bytes.takeWhile isDigit ≠ [] := by
      cases hbytes : text.bytes with
      | nil => simp [hbytes] at hhead
      | cons b bytes =>
        have hb : isDigit b = true := by simpa [hbytes] using hhead
        simp [hb]
    obtain ⟨r, hread, -, hr⟩ := readWhole_digits hu hdigits (head_dropWhile isDigit text.bytes)
      (Nat.zero_le 864009)
    rw [List.takeWhile_append_dropWhile] at hread
    rw [hread, pure_bind]
    cases r with
    | none => rfl
    | some v =>
      obtain ⟨whole, rest⟩ := v
      obtain rfl : rest = text.bytes.dropWhile isDigit := (hr (whole, rest) rfl).1
      obtain ⟨q, hpoint, hq⟩ := @readPoint_other m _ _ u64 hu (text.bytes.dropWhile isDigit) (by
        intro fraction hlength hfraction heq
        refine h ⟨text.bytes.takeWhile isDigit, fraction, hne, hdigits, hfraction, hlength⟩ ?_
        rw [Duration.text, Duration.point, ← heq, List.takeWhile_append_dropWhile])
      simp only [hpoint, pure_bind]
      cases q with
      | none => rfl
      | some v =>
        obtain ⟨fraction, digits, rest⟩ := v
        have hrest : rest ≠ [] := hq (fraction, digits, rest) rfl
        simp only [finish, if_pos (Or.inl hrest : rest ≠ [] ∨ 86400 < whole)]
  · rfl

end Steps

/-- A text is accepted if and only if it is a duration from one millisecond to a day, and the
result is a thousand times its value. No number on the way has more than 64 bits. -/
theorem parseSeconds_exact (text : CStr) (ms : ℕ) :
    parseSecondsChecked text = some (parseSeconds text) ∧
      (parseSeconds text = some ms ↔ ∃ d : Duration, d.text = text.bytes ∧
        1 / 1000 ≤ d.value ∧ d.value ≤ 86400 ∧ (ms : ℚ) = 1000 * d.value) := by
  have hchecked : ∀ n < 2 ^ 64, (if n < 2 ^ 64 then some n else none) = (pure n : Option ℕ) :=
    fun n hn => if_pos hn
  have hwrapped : ∀ n < 2 ^ 64, (pure (n % 2 ^ 64) : Id ℕ) = pure n := by
    intro n hn
    rw [Nat.mod_eq_of_lt hn]
  by_cases h : ∃ d : Duration, d.text = text.bytes
  · have hresult : ∀ d : Duration, d.text = text.bytes → parseSeconds text =
        if 1 ≤ d.millis ∧ d.millis ≤ 86400000 then some d.millis else none :=
      fun d hd => parseSecondsWith_duration hwrapped hd
    obtain ⟨d, hd⟩ := h
    refine ⟨?_, ?_⟩
    · rw [hresult d hd]
      exact parseSecondsWith_duration hchecked hd
    · constructor
      · intro hms
        rw [hresult d hd] at hms
        split at hms
        next hrange =>
          obtain rfl := Option.some.inj hms
          exact ⟨d, hd, d.one_le_millis_iff.mp hrange.1, d.millis_le_iff.mp hrange.2,
            d.millis_eq⟩
        next => exact absurd hms (Option.some_ne_none ms).symm
      · intro hduration
        obtain ⟨d, hd, hlower, hupper, hms⟩ := hduration
        rw [hresult d hd, if_pos ⟨d.one_le_millis_iff.mpr hlower, d.millis_le_iff.mpr hupper⟩]
        congr 1
        have hcast : (d.millis : ℚ) = ms := d.millis_eq.trans hms.symm
        exact_mod_cast hcast
  · have h : ∀ d : Duration, d.text ≠ text.bytes := fun d hd => h ⟨d, hd⟩
    have hnone : parseSeconds text = none := parseSecondsWith_other hwrapped h
    refine ⟨?_, ?_⟩
    · rw [hnone]
      exact parseSecondsWith_other hchecked h
    · simp [hnone, h]

/-- Leading zeros, and one millisecond more than a day. -/
example : parseSeconds (CStr.ofBytes (ascii "00086400.000")) = some 86400000 ∧
    parseSeconds (CStr.ofBytes (ascii "86400.001")) = none := by decide +kernel

end Agentwatch
