import LinuxUtilities.Foundation.PrefixCode

/-! Bytes as printable text: a backslash stands before itself and before chosen bytes, and
bytes that are not printable are put in hexadecimal. -/
namespace EscapedText
open PrefixCode

/-- An uppercase hexadecimal digit. -/
def hexDigit (n : ℕ) : UInt8 := (if n < 10 then 48 + n else 55 + n).toUInt8

def hexValue (b : UInt8) : ℕ := if b ≤ 57 then b.toNat - 48 else b.toNat - 55

def hexEscape (ch : UInt8) : List UInt8 :=
  [92, 120, hexDigit (ch.toNat / 16), hexDigit (ch.toNat % 16)]

def Printable (b : UInt8) : Prop := 0x20 ≤ b ∧ b ≤ 0x7e

instance (b : UInt8) : Decidable (Printable b) := inferInstanceAs (Decidable (_ ∧ _))

/-- The text of one byte. -/
def escape (special : UInt8 → Bool) (ch : UInt8) : List UInt8 :=
  if special ch ∨ ch = 92 then [92, ch] else if Printable ch then [ch] else hexEscape ch

/-- The byte that stands at the front of a text, and what follows it. -/
def unescape (special : UInt8 → Bool) : List UInt8 → Option (UInt8 × List UInt8)
  | [] => none
  | 92 :: 120 :: high :: low :: rest => some ((16 * hexValue high + hexValue low).toUInt8, rest)
  | 92 :: b :: rest => if special b ∨ b = 92 then some (b, rest) else none
  | b :: rest => if special b ∨ b = 92 then none else some (b, rest)

theorem hexValue_hexDigit {n : ℕ} (h : n < 16) : hexValue (hexDigit n) = n := by
  interval_cases n <;> decide

theorem hexDigit_plain {n : ℕ} (h : n < 16) :
    Printable (hexDigit n) ∧ hexDigit n ≠ 34 ∧ hexDigit n ≠ 92 := by
  interval_cases n <;> decide

variable {special : UInt8 → Bool}

theorem word_hexEscape (special : UInt8 → Bool) (ch : UInt8) :
    Word (unescape special) (hexEscape ch) ch := by
  intro rest
  have hlt : ch.toNat < 256 := ch.toNat_lt
  have hhigh : hexValue (hexDigit (ch.toNat / 16)) = ch.toNat / 16 := hexValue_hexDigit (by omega)
  have hlow : hexValue (hexDigit (ch.toNat % 16)) = ch.toNat % 16 := hexValue_hexDigit (by omega)
  have hsum : 16 * (ch.toNat / 16) + ch.toNat % 16 = ch.toNat := by omega
  simp only [hexEscape, List.cons_append, List.nil_append, unescape, hhigh, hlow, hsum]
  simp

theorem word_escaped {ch : UInt8} (h : special ch = true ∨ ch = 92) (hx : ch ≠ 120) :
    Word (unescape special) [92, ch] ch := by
  intro rest
  have hcond : special ch = true ∨ ch = 92 := h
  simp only [List.cons_append, List.nil_append]
  unfold unescape
  split
  · contradiction
  next heq =>
    obtain ⟨-, htail⟩ := List.cons.inj heq
    exact absurd (List.cons.inj htail).1 hx
  next heq =>
    obtain ⟨-, htail⟩ := List.cons.inj heq
    obtain ⟨rfl, rfl⟩ := List.cons.inj htail
    rw [if_pos hcond]
  next hno heq =>
    obtain ⟨rfl, rfl⟩ := List.cons.inj heq
    exact (hno ch rest rfl rfl).elim

theorem word_plain {ch : UInt8} (h : ¬ (special ch = true ∨ ch = 92)) :
    Word (unescape special) [ch] ch := by
  intro rest
  have hne : ch ≠ 92 := fun heq => h (.inr heq)
  simp only [List.cons_append, List.nil_append]
  unfold unescape
  split
  · contradiction
  next heq => exact absurd (List.cons.inj heq).1 hne
  next heq => exact absurd (List.cons.inj heq).1 hne
  next heq =>
    obtain ⟨rfl, rfl⟩ := List.cons.inj heq
    rw [if_neg h]

/-- Every byte is read back, when the letter of hexadecimal is not escaped. -/
theorem escape_decodes (hx : special 120 = false) :
    Decodes (unescape special) (escape special) := by
  intro ch
  unfold escape
  split
  next h =>
    refine word_escaped h ?_
    rintro rfl
    rw [hx] at h
    exact absurd h (by decide)
  next h =>
    split
    · exact word_plain h
    · exact word_hexEscape special ch

theorem printable_of_mem_hexEscape {b ch : UInt8} (h : b ∈ hexEscape ch) : Printable b := by
  have hlt : ch.toNat < 256 := ch.toNat_lt
  simp only [hexEscape, List.mem_cons, List.mem_nil_iff, or_false] at h
  rcases h with rfl | rfl | rfl | rfl
  · decide
  · decide
  · exact (hexDigit_plain (by omega)).1
  · exact (hexDigit_plain (by omega)).1

theorem printable_of_mem_escape (hspecial : ∀ b, special b = true → Printable b) {b ch : UInt8}
    (h : b ∈ escape special ch) : Printable b := by
  unfold escape at h
  split at h
  next hch =>
    rcases List.mem_cons.mp h with rfl | h
    · decide
    · obtain rfl := List.mem_singleton.mp h
      rcases hch with hch | rfl
      · exact hspecial b hch
      · decide
  next =>
    split at h
    next hprintable =>
      obtain rfl := List.mem_singleton.mp h
      exact hprintable
    · exact printable_of_mem_hexEscape h

def isQuote (b : UInt8) : Bool := b = 34

/-- A text between quotes. -/
def quoted (text : List UInt8) : List UInt8 := 34 :: (text.flatMap (escape isQuote) ++ [34])

/-- What precedes the first quote that no escaping backslash stands before, and what follows
it. -/
def closingQuote : List UInt8 → Option (List UInt8 × List UInt8)
  | [] => none
  | 34 :: rest => some ([], rest)
  | 92 :: b :: rest => (closingQuote rest).map fun r => (92 :: b :: r.1, r.2)
  | b :: rest => (closingQuote rest).map fun r => (b :: r.1, r.2)

theorem closingQuote_plain {b : UInt8} {rest : List UInt8} (hquote : b ≠ 34) (hslash : b ≠ 92) :
    closingQuote (b :: rest) = (closingQuote rest).map fun r => (b :: r.1, r.2) := by
  conv_lhs => unfold closingQuote
  split
  · contradiction
  next heq => exact absurd (List.cons.inj heq).1 hquote
  next heq => exact absurd (List.cons.inj heq).1 hslash
  next heq =>
    obtain ⟨rfl, rfl⟩ := List.cons.inj heq
    rfl

/-- The text of a byte contains no closing quote. -/
theorem closingQuote_escape (ch : UInt8) (rest : List UInt8) :
    closingQuote (escape isQuote ch ++ rest) =
      (closingQuote rest).map fun r => (escape isQuote ch ++ r.1, r.2) := by
  unfold escape
  split
  · rfl
  next h =>
    split
    next hprintable =>
      rw [not_or] at h
      exact closingQuote_plain (by simpa [isQuote] using h.1) h.2
    · have hlt : ch.toNat < 256 := ch.toNat_lt
      have hhigh := hexDigit_plain (show ch.toNat / 16 < 16 by omega)
      have hlow := hexDigit_plain (show ch.toNat % 16 < 16 by omega)
      have hx : closingQuote (hexEscape ch ++ rest) =
          (closingQuote (hexDigit (ch.toNat / 16) :: hexDigit (ch.toNat % 16) :: rest)).map
            fun r => (92 :: 120 :: r.1, r.2) := rfl
      rw [hx, closingQuote_plain hhigh.2.1 hhigh.2.2, closingQuote_plain hlow.2.1 hlow.2.2]
      simp [hexEscape, Option.map_map, Function.comp_def]

/-- The closing quote of a quoted text is found, whatever the text. -/
theorem closingQuote_quoted (text rest : List UInt8) :
    closingQuote (text.flatMap (escape isQuote) ++ 34 :: rest) =
      some (text.flatMap (escape isQuote), rest) := by
  induction text with
  | nil => rfl
  | cons ch text ih =>
    rw [List.flatMap_cons, List.append_assoc, closingQuote_escape, ih]
    rfl

theorem escape_quote_decodes : Decodes (unescape isQuote) (escape isQuote) :=
  escape_decodes (by decide)

/-- Unescaping a quoted text gives the text back. -/
theorem decode_quoted (text : List UInt8) :
    decode (unescape isQuote) (text.flatMap (escape isQuote)) = (text, []) := by
  have hend : unescape isQuote [] = none := rfl
  simpa using (escape_quote_decodes.spells text).decode hend hend

theorem printable_of_mem_quoted {b : UInt8} {text : List UInt8} (h : b ∈ quoted text) :
    Printable b := by
  have hquote : ∀ b, isQuote b = true → Printable b := by
    intro b hb
    obtain rfl : b = 34 := by simpa [isQuote] using hb
    decide
  simp only [quoted, List.mem_cons, List.mem_append, List.mem_flatMap, List.mem_nil_iff,
    or_false] at h
  rcases h with rfl | ⟨ch, -, hb⟩ | rfl
  · decide
  · exact printable_of_mem_escape hquote hb
  · decide

/-- Quoted texts are prefix-free. -/
theorem quoted_prefixFree : PrefixFree quoted := by
  have hstop : ∀ (ch : UInt8) (s t : List UInt8), escape isQuote ch ++ s ≠ [34] ++ t := by
    intro ch s t heq
    have hnext := escape_quote_decodes ch s
    rw [heq] at hnext
    exact absurd hnext (by simp [unescape, isQuote])
  exact ((escape_quote_decodes.prefixFree).terminated hstop).tagged [34]

/-- A row: a keyword without tabs, and quoted texts, each after a tab. -/
def row (keyword : { w : List UInt8 // 9 ∉ w }) (first : List UInt8)
    (others : List (List UInt8)) : List UInt8 :=
  (keyword.1 ++ [9]) ++ (quoted first ++ (others.flatMap (fun text => 9 :: quoted text) ++ [10]))

/-- Rows are prefix-free. -/
theorem row_prefixFree :
    PrefixFree fun r : { w : List UInt8 // 9 ∉ w } × List UInt8 × List (List UInt8) =>
      row r.1 r.2.1 r.2.2 := by
  have hfield : PrefixFree fun text => 9 :: quoted text := quoted_prefixFree.tagged [9]
  have hstop : ∀ (text s t : List UInt8), (9 :: quoted text) ++ s ≠ [10] ++ t := by
    intro text s t heq
    exact absurd (List.cons.inj heq).1 (by decide)
  exact (prefixFree_separated 9).pair (quoted_prefixFree.pair (hfield.terminated hstop))

theorem row_ne_nil (keyword : { w : List UInt8 // 9 ∉ w }) (first : List UInt8)
    (others : List (List UInt8)) : row keyword first others ≠ [] := by
  simp [row]

end EscapedText
