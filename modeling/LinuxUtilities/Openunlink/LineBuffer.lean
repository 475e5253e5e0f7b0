import LinuxUtilities.Openunlink.Escaping

/-! The line buffer holds every finding line. -/
namespace Openunlink
open CString

theorem findingLineCapacity_eq : findingLineCapacity = 262232 := by decide

theorem length_decimal_int {n : ℕ} (h : n ≤ intMax) : (decimal n).length ≤ 10 := by
  apply length_decimal_le (by norm_num)
  unfold intMax at h
  omega

theorem formatFdName_eq {fd : ℕ} (hfd : fd ≤ intMax) :
    formatFdName (intDecimalBound + 1) fd = some (decimal fd) := by
  have hlen := length_decimal_int hfd
  unfold formatFdName intDecimalBound
  rw [if_neg (by omega)]

/-- The head of a finding line, by what its numbers can be. -/
theorem length_findingHead_le {pid fd size : ℕ} (hpid : pid ≤ intMax) (hfd : fd ≤ intMax)
    (hsize : size < 2 ^ 64) : (findingHead pid fd size).length ≤ 77 := by
  have hpid' := length_decimal_int hpid
  have hfd' := length_decimal_int hfd
  have hsize' : (decimal size).length ≤ 20 := length_decimal_le (by norm_num) (by omega)
  have htexts : (ascii "OPEN_UNLINKED\tpid=").length = 18 ∧ (ascii "\tfd=").length = 4 ∧
      (ascii "\tsize=").length = 6 ∧ (ascii "\ttarget=\"").length = 9 := by decide
  simp only [findingHead, List.length_append]
  omega

/-- `emit_finding` has the whole line in its buffer. -/
theorem formatFinding_fits {pid fd size : ℕ} {target buf : List UInt8} (hpid : pid ≤ intMax)
    (hfd : fd ≤ intMax) (hsize : size < 2 ^ 64) (htarget : target.length ≤ targetLenCap)
    (hbuf : buf.length = findingLineCapacity) :
    ∃ buf', formatFinding pid fd size target findingLineCapacity buf =
      (some (findingLine pid fd size target), buf') ∧ buf'.length = buf.length := by
  have hhead := length_findingHead_le hpid hfd hsize
  have hescaped := length_escaped_le target
  have hcap := findingLineCapacity_eq
  unfold targetLenCap at htarget
  unfold formatFinding
  rw [snprintf_fits (by omega)]
  simp only [show ¬ findingLineCapacity ≤ (findingHead pid fd size).length by omega, ↓reduceIte]
  let buf₀ := store buf 0 (findingHead pid fd size ++ [0])
  have hlen₀ : buf₀.length = buf.length := length_store
  have htake₀ : buf₀.take (findingHead pid fd size).length = findingHead pid fd size := by
    have htake := @take_store_append buf (findingHead pid fd size) [0] 0 (by omega)
    simpa only [Nat.zero_add, List.take_zero, List.nil_append] using htake
  obtain ⟨buf₁, hrun, hlen₁, htake₁⟩ := @escapeAppend_fits findingLineCapacity
    (findingHead pid fd size).length target buf₀ (by omega) (by omega)
  rw [htake₀] at htake₁
  have hroom : ¬ findingLineCapacity -
      ((findingHead pid fd size).length + (target.flatMap escapedByte).length) < 3 := by omega
  rw [show escapeAppend _ _ (store buf 0 _) _ = _ from hrun]
  simp only [hroom, ↓reduceIte]
  refine ⟨_, Prod.ext (congrArg some ?_) rfl, by rw [length_store, hlen₁, hlen₀]⟩
  have hend := @take_store_append buf₁ [34, 10] [0]
    ((findingHead pid fd size).length + (target.flatMap escapedByte).length)
    (by rw [List.length_cons, List.length_singleton]; omega)
  rw [htake₁] at hend
  exact hend

end Openunlink
