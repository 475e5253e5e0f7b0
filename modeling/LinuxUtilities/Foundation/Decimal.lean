import LinuxUtilities.Foundation.Bytes
import Mathlib.Data.Nat.Digits.Lemmas

/-! Canonical decimal text, as `%d` and `%u` print numbers that are not negative. -/
namespace CString

def decimal (n : ℕ) : List UInt8 :=
  if n = 0 then [48] else (Nat.digits 10 n).reverse.map fun d => (48 + d).toUInt8

theorem length_decimal_le {n k : ℕ} (hk : 0 < k) (h : n < 10 ^ k) : (decimal n).length ≤ k := by
  unfold decimal
  split
  · exact hk
  · simpa using (Nat.digits_length_le_iff (by norm_num) n).mpr h

end CString
