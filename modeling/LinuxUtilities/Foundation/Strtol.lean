import LinuxUtilities.Foundation.Decimal

/-! Base-10 `strtol` and `strtoull`, and what they return on text that starts with a number. -/
namespace CString

def isSpace (b : UInt8) : Bool := b = 32 || (9 ≤ b && b ≤ 13)

def isDigit (b : UInt8) : Bool := 48 ≤ b && b ≤ 57

/-- The number that a string of digits denotes. -/
def digitsValue (ds : List UInt8) : ℕ := ds.foldl (fun n d => 10 * n + (d.toNat - 48)) 0

/-- An optional sign, and whether it is a minus. -/
def splitSign : List UInt8 → Bool × List UInt8
  | 43 :: text => (false, text)
  | 45 :: text => (true, text)
  | text => (false, text)

/-- The sign, the magnitude and what follows the longest number at the start of a text, after
spaces; nothing when there are no digits. -/
def scanNumber (text : List UInt8) : Option (Bool × ℕ × List UInt8) :=
  let (negative, digits) := splitSign (text.dropWhile isSpace)
  if digits.takeWhile isDigit = [] then none
  else some (negative, digitsValue (digits.takeWhile isDigit), digits.dropWhile isDigit)

/-- The value that a conversion returns, the text at its end pointer, and whether it sets
`errno` to `ERANGE`. -/
structure Converted (α : Type) where
  value : α
  rest : List UInt8
  range : Bool

def longMax : ℕ := 2 ^ 63 - 1

def ulongMax : ℕ := 2 ^ 64 - 1

/-- `strtol`; nothing when its end pointer is its start. -/
def strtol (text : List UInt8) : Option (Converted ℤ) :=
  (scanNumber text).map fun (negative, n, rest) =>
    if negative then
      if longMax + 1 < n then ⟨-(longMax + 1), rest, true⟩ else ⟨-n, rest, false⟩
    else if longMax < n then ⟨longMax, rest, true⟩ else ⟨n, rest, false⟩

/-- `strtoull`, which negates modulo `2 ^ 64` after a minus. -/
def strtoull (text : List UInt8) : Option (Converted ℕ) :=
  (scanNumber text).map fun (negative, n, rest) =>
    if ulongMax < n then ⟨ulongMax, rest, true⟩
    else ⟨if negative then (2 ^ 64 - n) % 2 ^ 64 else n, rest, false⟩

/-- Decimal text with a minus before a negative number. -/
def integer (n : ℤ) : List UInt8 := (if n < 0 then [45] else []) ++ decimal n.natAbs

theorem integer_natCast (n : ℕ) : integer n = decimal n := by
  have hn : ¬ (n : ℤ) < 0 := not_lt.mpr (Int.natCast_nonneg n)
  simp [integer, hn]

theorem isDigit_digit {d : ℕ} (h : d < 10) : isDigit (48 + d).toUInt8 = true := by
  interval_cases d <;> decide

theorem toNat_digit {d : ℕ} (h : d < 10) : (48 + d).toUInt8.toNat - 48 = d := by
  interval_cases d <;> decide

theorem digitsValue_reverse {ds : List ℕ} (h : ∀ d ∈ ds, d < 10) :
    digitsValue (ds.reverse.map fun d => (48 + d).toUInt8) = Nat.ofDigits 10 ds := by
  induction ds with
  | nil => simp [digitsValue]
  | cons d ds ih =>
    have hd : (48 + d).toUInt8.toNat - 48 = d := toNat_digit (h d (by simp))
    have hds := ih fun d hmem => h d (by simp [hmem])
    unfold digitsValue at hds ⊢
    rw [List.reverse_cons, List.map_append, List.foldl_append, hds]
    simp only [List.map_cons, List.map_nil, List.foldl_cons, List.foldl_nil, hd,
      Nat.ofDigits_cons]
    omega

theorem decimal_ne_nil (n : ℕ) : decimal n ≠ [] := by
  unfold decimal
  split
  · simp
  next hn => simpa using Nat.digits_ne_nil_iff_ne_zero.mpr hn

theorem isDigit_of_mem_decimal {n : ℕ} {b : UInt8} (h : b ∈ decimal n) : isDigit b = true := by
  unfold decimal at h
  split at h
  · obtain rfl := List.mem_singleton.mp h
    decide
  · obtain ⟨d, hd, rfl⟩ := List.mem_map.mp h
    exact isDigit_digit (Nat.digits_lt_base (by norm_num) (List.mem_reverse.mp hd))

theorem digitsValue_decimal (n : ℕ) : digitsValue (decimal n) = n := by
  unfold decimal
  split
  next hn => simp [digitsValue, hn]
  · rw [digitsValue_reverse fun d hd => Nat.digits_lt_base (by norm_num) hd, Nat.ofDigits_digits]

theorem head_decimal (n : ℕ) : ∃ b text, decimal n = b :: text ∧ isDigit b = true := by
  cases h : decimal n with
  | nil => exact absurd h (decimal_ne_nil n)
  | cons b text => exact ⟨b, text, rfl, isDigit_of_mem_decimal (h ▸ List.mem_cons_self)⟩

theorem not_isSpace_of_isDigit {b : UInt8} (h : isDigit b = true) : isSpace b = false := by
  simp only [isDigit, isSpace, Bool.and_eq_true, decide_eq_true_eq, Bool.or_eq_false_iff,
    Bool.and_eq_false_iff, decide_eq_false_iff_not, UInt8.le_iff_toNat_le, UInt8.ext_iff,
    UInt8.toNat_ofNat] at h ⊢
  omega

theorem splitSign_of_isDigit {b : UInt8} {text : List UInt8} (h : isDigit b = true) :
    splitSign (b :: text) = (false, b :: text) := by
  unfold splitSign
  split
  next heq => obtain ⟨rfl, rfl⟩ := List.cons.inj heq; contradiction
  next heq => obtain ⟨rfl, rfl⟩ := List.cons.inj heq; contradiction
  · rfl

/-- Bytes of a kind are scanned up to the first one of another kind. -/
theorem span_append {kind : UInt8 → Bool} {scanned rest : List UInt8}
    (hall : ∀ b ∈ scanned, kind b = true) (h : ∀ b ∈ rest.head?, kind b = false) :
    (scanned ++ rest).takeWhile kind = scanned ∧ (scanned ++ rest).dropWhile kind = rest := by
  cases rest with
  | nil =>
    rw [List.append_nil]
    exact ⟨List.takeWhile_eq_self_iff.mpr hall, List.dropWhile_eq_nil_iff.mpr hall⟩
  | cons b rest =>
    have hb := h b rfl
    rw [List.takeWhile_append_of_pos hall, List.dropWhile_append_of_pos hall]
    simp [hb]

theorem head_dropWhile (kind : UInt8 → Bool) (text : List UInt8) :
    ∀ b ∈ (text.dropWhile kind).head?, kind b = false := by
  intro b hb
  have hhead := List.head?_dropWhile_not kind text
  rw [Option.mem_def.mp hb] at hhead
  exact hhead

end CString
