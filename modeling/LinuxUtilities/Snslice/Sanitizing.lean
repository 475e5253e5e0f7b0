import LinuxUtilities.Foundation.EscapedText
import LinuxUtilities.Snslice.State

/-! `sanitize_string`: printable text within its buffer, that tells what it was made from. -/
namespace Snslice
open CString PrefixCode

/-- The whole escape of a source. -/
def sanitized (src : List UInt8) : List UInt8 := src.flatMap sanitizedByte

theorem hexUpper_nibbles (b : UInt8) :
    hexUpper ((b >>> 4) &&& 0x0F) = EscapedText.hexDigit (b.toNat / 16) ∧
      hexUpper (b &&& 0x0F) = EscapedText.hexDigit (b.toNat % 16) := by
  have hall : ∀ n : Fin 256,
      hexUpper ((UInt8.ofNat n >>> 4) &&& 0x0F) = EscapedText.hexDigit (n / 16) ∧
        hexUpper (UInt8.ofNat n &&& 0x0F) = EscapedText.hexDigit (n % 16) := by
    decide +kernel
  simpa using hall ⟨b.toNat, b.toNat_lt⟩

/-- A byte stands for itself, or is put in hexadecimal. -/
theorem sanitizedByte_cases (b : UInt8) :
    (b ≠ 34 ∧ b ≠ 92 ∧ EscapedText.Printable b ∧ sanitizedByte b = [b]) ∨
      sanitizedByte b = EscapedText.hexEscape b := by
  unfold sanitizedByte
  split
  next hquote => exact .inr (hquote ▸ rfl)
  split
  next hslash => exact .inr (hslash ▸ rfl)
  split
  next hquote hslash hprint => exact .inl ⟨hquote, hslash, hprint, rfl⟩
  next =>
    refine .inr ?_
    rw [(hexUpper_nibbles b).1, (hexUpper_nibbles b).2]
    rfl

theorem sanitizedByte_decodes :
    Decodes (EscapedText.unescape fun _ => false) sanitizedByte := by
  intro b rest
  rcases sanitizedByte_cases b with ⟨-, hslash, -, heq⟩ | heq
  · rw [heq]
    exact EscapedText.word_plain (by simpa using hslash) rest
  · rw [heq]
    exact EscapedText.word_hexEscape _ b rest

theorem length_sanitizedByte (b : UInt8) :
    0 < (sanitizedByte b).length ∧ (sanitizedByte b).length ≤ 4 := by
  rcases sanitizedByte_cases b with ⟨-, -, -, heq⟩ | heq
  · simp [heq]
  · simp [heq, EscapedText.hexEscape]

theorem sanitized_injective : Function.Injective sanitized :=
  sanitizedByte_decodes.prefixFree.flatMap_injective fun b =>
    List.ne_nil_of_length_pos (length_sanitizedByte b).1

theorem printable_of_mem_sanitized {src : List UInt8} {b : UInt8} (h : b ∈ sanitized src) :
    EscapedText.Printable b := by
  obtain ⟨ch, -, hb⟩ := List.mem_flatMap.mp h
  rcases sanitizedByte_cases ch with ⟨-, -, hprint, heq⟩ | heq
  · obtain rfl : b = ch := by simpa [heq] using hb
    exact hprint
  · exact EscapedText.printable_of_mem_hexEscape (heq ▸ hb)

section Loop
variable {dstSize : ℕ} {src dst : List UInt8}

/-- The loop appends the escape of what it takes of the source. -/
theorem sanitizeLoop_prefix (dstSize : ℕ) (src dst : List UInt8) :
    ∃ shown, shown <+: src ∧ sanitizeLoop dstSize dst src = dst ++ sanitized shown := by
  induction src generalizing dst with
  | nil => exact ⟨[], List.prefix_rfl, by simp [sanitizeLoop, sanitized]⟩
  | cons b src ih =>
    rw [sanitizeLoop]
    split
    · obtain ⟨shown, hshown, heq⟩ := ih (dst ++ sanitizedByte b)
      refine ⟨b :: shown, List.cons_prefix_cons.mpr ⟨rfl, hshown⟩, ?_⟩
      simp [heq, sanitized]
    · exact ⟨[], List.nil_prefix, by simp [sanitized]⟩

/-- Before every byte there is room for the longest escape and the terminator. -/
theorem length_sanitizeLoop (h : dst.length < dstSize) :
    (sanitizeLoop dstSize dst src).length < dstSize := by
  induction src generalizing dst with
  | nil => exact h
  | cons b src ih =>
    have hbyte := (length_sanitizedByte b).2
    rw [sanitizeLoop]
    split
    next hroom =>
      apply ih
      rw [List.length_append]
      omega
    · exact h

/-- Nothing is left out when the whole escape leaves five bytes. -/
theorem sanitizeLoop_whole (h : dst.length + (sanitized src).length ≤ dstSize - 5) :
    sanitizeLoop dstSize dst src = dst ++ sanitized src := by
  induction src generalizing dst with
  | nil => simp [sanitizeLoop, sanitized]
  | cons b src ih =>
    have hbyte := (length_sanitizedByte b).1
    have hcons : sanitized (b :: src) = sanitizedByte b ++ sanitized src := List.flatMap_cons
    rw [hcons, List.length_append] at h
    rw [sanitizeLoop, if_pos (by omega), ih (by rw [List.length_append]; omega), hcons,
      List.append_assoc]

end Loop

/-- A source that is shown in full. -/
def Shown (src : CStr) (dstSize : ℕ) : Prop := sanitizeString src dstSize = sanitized src.bytes

/-- `sanitize_string` stays in its buffer, with its terminator, and shows in printable bytes the
whole of some first part of the source, all of it if that leaves five bytes. Sources that are
shown in full are told apart. -/
theorem sanitizeString_exact (src : CStr) {dstSize : ℕ} (h : 0 < dstSize) :
    (sanitizeString src dstSize ++ [0]).length ≤ dstSize ∧
      (∀ b ∈ sanitizeString src dstSize, 0x20 ≤ b ∧ b ≤ 0x7e) ∧
      (∃ shown, shown <+: src.bytes ∧ sanitizeString src dstSize = sanitized shown) ∧
      ((sanitized src.bytes).length ≤ dstSize - 5 → Shown src dstSize) ∧
      ∀ src' dstSize', Shown src dstSize → Shown src' dstSize' →
        sanitizeString src dstSize = sanitizeString src' dstSize' → src = src' := by
  obtain ⟨shown, hshown, heq⟩ := sanitizeLoop_prefix dstSize src.bytes []
  rw [List.nil_append] at heq
  refine ⟨?_, ?_, ⟨shown, hshown, heq⟩, ?_, ?_⟩
  · rw [List.length_append]
    exact length_sanitizeLoop (by simpa using h)
  · intro b hb
    rw [sanitizeString, heq] at hb
    exact printable_of_mem_sanitized hb
  · intro hwhole
    exact sanitizeLoop_whole (by simpa using hwhole)
  · intro src' dstSize' hfull hfull' hsame
    rw [hfull, hfull'] at hsame
    exact CStr.ext (sanitized_injective hsame)

/-- Ten bytes show a letter and a newline. -/
theorem sanitizeString_exact_newline :
    sanitizeString (.lit "A\n") 10 = ascii "A\\x0A" ∧
      (sanitizeString (.lit "A\n") 10 ++ [0]).length ≤ 10 :=
  ⟨by decide, (sanitizeString_exact (.lit "A\n") (by decide)).1⟩

end Snslice
