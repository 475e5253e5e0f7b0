import LinuxUtilities.Pathaudit.Rows
import LinuxUtilities.Permguard.Scan

/-! The rows that `permguard` prints, and what the two programs share: text between quotes that
decodes in one way. -/
namespace Permguard
open CString EscapedText

/-- A row of `permguard`. -/
structure Row where
  code : Hazard
  path : CStr
  deriving DecidableEq

namespace Row

/-- What is printed for a row. -/
def text (r : Row) : List UInt8 := (findingPieces r.code r.path).flatten

def keyword (r : Row) : { w : List UInt8 // 9 ∉ w } :=
  ⟨ascii r.code.name, by cases r.code <;> decide +kernel⟩

end Row

theorem flatten_escapedQuoted (text : CStr) : (escapedQuoted text).flatten = quoted text.bytes := by
  simp [escapedQuoted, quoted, List.flatMap_def]

namespace Row

theorem text_eq (r : Row) : r.text = row r.keyword r.path.bytes [] := by
  simp [text, row, keyword, findingPieces, flatten_escapedQuoted]

theorem name_injective : Function.Injective fun code : Hazard => ascii code.name := by
  intro a b h
  cases a <;> cases b <;> first | rfl | exact absurd h (by decide +kernel)

/-- A printed row is told from what follows it. -/
theorem text_prefixFree : PrefixCode.PrefixFree text := by
  intro r r' s t heq
  rw [text_eq, text_eq] at heq
  obtain ⟨hparts, hrest⟩ :=
    @row_prefixFree (r.keyword, r.path.bytes, []) (r'.keyword, r'.path.bytes, []) s t heq
  obtain ⟨hkeyword, hpath⟩ := Prod.mk.inj hparts
  have hcode := name_injective (congrArg Subtype.val hkeyword)
  have hpath := CStr.ext (Prod.mk.inj hpath).1
  cases r
  cases r'
  cases hcode
  cases hpath
  exact ⟨rfl, hrest⟩

theorem text_ne_nil (r : Row) : r.text ≠ [] := by
  rw [text_eq]
  exact row_ne_nil _ _ _

end Row

/-- The bytes of a list of rows. -/
def rowsText (rows : List Row) : List UInt8 := rows.flatMap Row.text

theorem rowsText_injective : Function.Injective rowsText :=
  Row.text_prefixFree.flatMap_injective Row.text_ne_nil

/-- What a program puts for a text decodes in one way: it is printable, and between its first
byte, a quote, and the first quote that no escaping backslash stands before, it unescapes to the
text, whatever follows it. -/
structure Decodable (text : CStr) (output : List UInt8) : Prop where
  printable : ∀ b ∈ output, Printable b
  decodes : ∃ body, output = 34 :: (body ++ [34]) ∧
    (∀ rest, closingQuote (body ++ 34 :: rest) = some (body, rest)) ∧
      PrefixCode.decode (unescape isQuote) body = (text.bytes, [])

theorem decodable_quoted (text : CStr) : Decodable text (quoted text.bytes) where
  printable := fun _ h => printable_of_mem_quoted h
  decodes := ⟨text.bytes.flatMap (escape isQuote), rfl, closingQuote_quoted text.bytes,
    decode_quoted text.bytes⟩

/-- Texts and rows of `pathaudit` and `permguard` decode in one way. -/
theorem rows_unique :
    (∀ text : CStr, Decodable text (Pathaudit.escapedQuoted text).flatten) ∧
      Function.Injective Pathaudit.rowsText ∧
      (∀ text : CStr, Decodable text (escapedQuoted text).flatten) ∧
      Function.Injective rowsText := by
  refine ⟨?_, Pathaudit.rowsText_injective, ?_, rowsText_injective⟩
  · intro text
    rw [Pathaudit.flatten_escapedQuoted]
    exact decodable_quoted text
  · intro text
    rw [flatten_escapedQuoted]
    exact decodable_quoted text

end Permguard
