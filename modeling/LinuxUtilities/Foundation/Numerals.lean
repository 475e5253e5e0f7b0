import LinuxUtilities.Foundation.Strtol

/-! The texts that `strtol` and `strtoull` convert: spaces, a sign and digits. A text starts with
at most one of them that no digit follows. -/
namespace CString

inductive Sign where
  | none
  | plus
  | minus
  deriving DecidableEq

def Sign.text : Sign → List UInt8
  | none => []
  | plus => [43]
  | minus => [45]

/-- What a conversion consumes. -/
@[ext]
structure Numeral where
  spaces : List UInt8
  sign : Sign
  digits : List UInt8
  isSpace_of_mem : ∀ b ∈ spaces, isSpace b = true
  isDigit_of_mem : ∀ b ∈ digits, isDigit b = true
  digits_ne_nil : digits ≠ []

namespace Numeral

def text (f : Numeral) : List UInt8 := f.spaces ++ (f.sign.text ++ f.digits)

def negative (f : Numeral) : Bool := f.sign = .minus

def magnitude (f : Numeral) : ℕ := digitsValue f.digits

def value (f : Numeral) : ℤ := if f.negative then -f.magnitude else f.magnitude

/-- Digits, after a minus or nothing. -/
def Plain (f : Numeral) : Prop := f.spaces = [] ∧ f.sign ≠ .plus

variable {f g : Numeral} {rest rest' : List UInt8}

theorem exists_head (f : Numeral) : ∃ b digits, f.digits = b :: digits ∧ isDigit b = true := by
  cases h : f.digits with
  | nil => exact absurd h f.digits_ne_nil
  | cons b digits => exact ⟨b, digits, rfl, f.isDigit_of_mem b (h ▸ List.mem_cons_self)⟩

/-- Neither a sign nor a digit is a space. -/
theorem head_not_isSpace (f : Numeral) (rest : List UInt8) :
    ∀ b ∈ (f.sign.text ++ (f.digits ++ rest)).head?, isSpace b = false := by
  obtain ⟨d, digits, hdigits, hd⟩ := f.exists_head
  intro b hb
  cases hsign : f.sign with
  | none =>
    obtain rfl : d = b := by simpa [hsign, Sign.text, hdigits] using hb
    exact not_isSpace_of_isDigit hd
  | plus =>
    obtain rfl : 43 = b := by simpa [hsign, Sign.text] using hb
    decide
  | minus =>
    obtain rfl : 45 = b := by simpa [hsign, Sign.text] using hb
    decide

theorem span_spaces (f : Numeral) (rest : List UInt8) :
    (f.text ++ rest).takeWhile isSpace = f.spaces ∧
      (f.text ++ rest).dropWhile isSpace = f.sign.text ++ (f.digits ++ rest) := by
  have hspan := span_append f.isSpace_of_mem (f.head_not_isSpace rest)
  simpa [text] using hspan

theorem splitSign_text (f : Numeral) (rest : List UInt8) :
    splitSign (f.sign.text ++ (f.digits ++ rest)) = (f.negative, f.digits ++ rest) := by
  obtain ⟨d, digits, hdigits, hd⟩ := f.exists_head
  unfold negative
  cases f.sign with
  | none => simp [Sign.text, hdigits, splitSign_of_isDigit hd]
  | plus => rfl
  | minus => rfl

/-- A numeral that no digit follows is scanned. -/
theorem scanNumber_text (f : Numeral) (h : ∀ b ∈ rest.head?, isDigit b = false) :
    scanNumber (f.text ++ rest) = some (f.negative, f.magnitude, rest) := by
  obtain ⟨htake, hdrop⟩ := span_append f.isDigit_of_mem h
  unfold scanNumber
  rw [(f.span_spaces rest).2, f.splitSign_text]
  simp only [htake, hdrop, f.digits_ne_nil, if_false, magnitude]

theorem exists_sign (text : List UInt8) :
    ∃ sign : Sign, text = sign.text ++ (splitSign text).2 ∧
      (splitSign text).1 = decide (sign = .minus) := by
  unfold splitSign
  split
  · exact ⟨.plus, rfl, rfl⟩
  · exact ⟨.minus, rfl, rfl⟩
  · exact ⟨.none, rfl, rfl⟩

/-- What is scanned is a numeral that no digit follows. -/
theorem exists_of_scanNumber {text : List UInt8} {negative : Bool} {n : ℕ}
    (h : scanNumber text = some (negative, n, rest)) :
    ∃ f : Numeral, text = f.text ++ rest ∧ f.negative = negative ∧ f.magnitude = n ∧
      ∀ b ∈ rest.head?, isDigit b = false := by
  unfold scanNumber at h
  obtain ⟨sign, htext, hnegative⟩ := exists_sign (text.dropWhile isSpace)
  simp only at h
  split at h
  · contradiction
  next hdigits =>
    simp only [Option.some.injEq, Prod.mk.injEq] at h
    obtain ⟨rfl, rfl, rfl⟩ := h
    refine ⟨⟨text.takeWhile isSpace, sign, _, fun b hb => List.mem_takeWhile_imp hb,
      fun b hb => List.mem_takeWhile_imp hb, hdigits⟩, ?_, hnegative.symm, rfl,
      head_dropWhile isDigit _⟩
    simp only [Numeral.text, List.append_assoc, List.takeWhile_append_dropWhile]
    rw [← htext, List.takeWhile_append_dropWhile]

theorem sign_eq_of_text {sign sign' : Sign} (h : sign.text = sign'.text) : sign = sign' := by
  cases sign <;> cases sign' <;> first | rfl | simp [Sign.text] at h

/-- A text starts with at most one numeral that no digit follows. -/
theorem eq_of_text_append (h : f.text ++ rest = g.text ++ rest')
    (hrest : ∀ b ∈ rest.head?, isDigit b = false)
    (hrest' : ∀ b ∈ rest'.head?, isDigit b = false) : f = g ∧ rest = rest' := by
  obtain ⟨hspaces, hsuffix⟩ := f.span_spaces rest
  obtain ⟨hspaces', hsuffix'⟩ := g.span_spaces rest'
  rw [h] at hspaces hsuffix
  have heqSpaces : f.spaces = g.spaces := hspaces.symm.trans hspaces'
  have heqSuffix : f.sign.text ++ (f.digits ++ rest) = g.sign.text ++ (g.digits ++ rest') :=
    hsuffix.symm.trans hsuffix'
  have heqSplit : f.digits ++ rest = g.digits ++ rest' := by
    have hsplit := f.splitSign_text rest
    rw [heqSuffix, g.splitSign_text rest'] at hsplit
    exact (congrArg Prod.snd hsplit).symm
  have heqSign : f.sign = g.sign := by
    rw [heqSplit] at heqSuffix
    exact sign_eq_of_text (List.append_cancel_right heqSuffix)
  obtain ⟨hdigits, hdrop⟩ := span_append f.isDigit_of_mem hrest
  obtain ⟨hdigits', hdrop'⟩ := span_append g.isDigit_of_mem hrest'
  rw [heqSplit] at hdigits hdrop
  have heqDigits : f.digits = g.digits := hdigits.symm.trans hdigits'
  exact ⟨Numeral.ext heqSpaces heqSign heqDigits, hdrop.symm.trans hdrop'⟩

theorem strtol_text (f : Numeral) (hf : f.magnitude ≤ longMax)
    (h : ∀ b ∈ rest.head?, isDigit b = false) :
    strtol (f.text ++ rest) = some ⟨f.value, rest, false⟩ := by
  simp only [strtol, f.scanNumber_text h, Option.map_some, Nat.not_lt.mpr hf, if_false,
    Nat.not_lt.mpr (hf.trans (Nat.le_succ longMax)), value]
  split <;> rfl

theorem strtoull_text (f : Numeral) (hf : f.magnitude ≤ ulongMax)
    (h : ∀ b ∈ rest.head?, isDigit b = false) :
    ∃ value, strtoull (f.text ++ rest) = some ⟨value, rest, false⟩ := by
  simp only [strtoull, f.scanNumber_text h, Option.map_some, Nat.not_lt.mpr hf, if_false]
  exact ⟨_, rfl⟩

/-- What `strtol` converts without a range error. -/
theorem exists_of_strtol {text : List UInt8} {value : ℤ}
    (h : strtol text = some ⟨value, rest, false⟩) :
    ∃ f : Numeral, text = f.text ++ rest ∧ value = f.value ∧
      ∀ b ∈ rest.head?, isDigit b = false := by
  obtain ⟨⟨negative, n, rest'⟩, hscan, hconverted⟩ := Option.map_eq_some_iff.mp h
  obtain ⟨f, htext, rfl, rfl, hrest⟩ := exists_of_scanNumber hscan
  simp only at hconverted
  split at hconverted
  next hnegative =>
    split at hconverted
    · simp at hconverted
    · obtain ⟨rfl, rfl, -⟩ := Converted.mk.inj hconverted
      exact ⟨f, htext, by rw [Numeral.value, if_pos hnegative], hrest⟩
  next hnegative =>
    split at hconverted
    · simp at hconverted
    · obtain ⟨rfl, rfl, -⟩ := Converted.mk.inj hconverted
      exact ⟨f, htext, by rw [Numeral.value, if_neg hnegative], hrest⟩

/-- What `strtoull` converts without a range error. -/
theorem exists_of_strtoull {text : List UInt8} {value : ℕ}
    (h : strtoull text = some ⟨value, rest, false⟩) :
    ∃ f : Numeral, text = f.text ++ rest ∧ f.magnitude ≤ ulongMax ∧
      ∀ b ∈ rest.head?, isDigit b = false := by
  obtain ⟨⟨negative, n, rest'⟩, hscan, hconverted⟩ := Option.map_eq_some_iff.mp h
  obtain ⟨f, htext, rfl, rfl, hrest⟩ := exists_of_scanNumber hscan
  simp only at hconverted
  split at hconverted
  · simp at hconverted
  next hle =>
    obtain ⟨-, rfl, -⟩ := Converted.mk.inj hconverted
    exact ⟨f, htext, Nat.not_lt.mp hle, hrest⟩

/-- The numeral that `integer` writes. -/
def ofInt (n : ℤ) : Numeral where
  spaces := []
  sign := if n < 0 then .minus else .none
  digits := decimal n.natAbs
  isSpace_of_mem _ hb := absurd hb List.not_mem_nil
  isDigit_of_mem _ hb := isDigit_of_mem_decimal hb
  digits_ne_nil := decimal_ne_nil n.natAbs

theorem ofInt_text (n : ℤ) : (ofInt n).text = integer n := by
  by_cases hn : n < 0
  · simp [text, ofInt, integer, hn, Sign.text]
  · simp [text, ofInt, integer, hn, Sign.text]

theorem ofInt_magnitude (n : ℤ) : (ofInt n).magnitude = n.natAbs :=
  digitsValue_decimal n.natAbs

theorem ofInt_natCast_negative (n : ℕ) : (ofInt n).negative = false := by
  have hn : ¬ (n : ℤ) < 0 := not_lt.mpr (Int.natCast_nonneg n)
  simp [negative, ofInt, hn]

end Numeral

section
variable {rest : List UInt8}

theorem scanNumber_decimal {n : ℕ} (h : ∀ b ∈ rest.head?, isDigit b = false) :
    scanNumber (decimal n ++ rest) = some (false, n, rest) := by
  have hscan := (Numeral.ofInt n).scanNumber_text h
  rw [Numeral.ofInt_text, Numeral.ofInt_magnitude, Numeral.ofInt_natCast_negative] at hscan
  simpa [integer_natCast] using hscan

theorem strtol_decimal {n : ℕ} (hn : n ≤ longMax) (h : ∀ b ∈ rest.head?, isDigit b = false) :
    strtol (decimal n ++ rest) = some ⟨n, rest, false⟩ := by
  simp [strtol, scanNumber_decimal h, Nat.not_lt.mpr hn]

theorem strtoull_decimal {n : ℕ} (hn : n ≤ ulongMax)
    (h : ∀ b ∈ rest.head?, isDigit b = false) :
    strtoull (decimal n ++ rest) = some ⟨n, rest, false⟩ := by
  simp [strtoull, scanNumber_decimal h, Nat.not_lt.mpr hn]

/-- A number whose magnitude has at most 64 bits is converted without a range error. -/
theorem strtoull_integer {n : ℤ} (hn : n.natAbs ≤ ulongMax)
    (h : ∀ b ∈ rest.head?, isDigit b = false) :
    ∃ value, strtoull (integer n ++ rest) = some ⟨value, rest, false⟩ := by
  have htext := (Numeral.ofInt n).strtoull_text
    ((Numeral.ofInt_magnitude n).le.trans hn) h
  rwa [Numeral.ofInt_text] at htext

end

end CString
