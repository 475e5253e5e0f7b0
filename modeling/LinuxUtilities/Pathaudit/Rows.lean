import LinuxUtilities.Foundation.EscapedText
import LinuxUtilities.Pathaudit.Modes

/-! The rows that `pathaudit` prints. -/
namespace Pathaudit
open CString EscapedText

/-- A row: a finding, a shadowed command, or a match. -/
inductive Row where
  | finding (code : HazardCode) (root : CStr)
  | shadowed (command winner shadow : CStr)
  | found (path : CStr)
  deriving DecidableEq

namespace Row

/-- What is printed for a row. -/
def text : Row → List UInt8
  | finding code root => (findingPieces ⟨root, 0, code⟩).flatten
  | shadowed command winner shadow => (shadowPieces ⟨command, winner, shadow, 0⟩).flatten
  | found path => (matchPieces path).flatten

def keyword : Row → { w : List UInt8 // 9 ∉ w }
  | finding code _ => ⟨ascii code.name, by cases code <;> decide +kernel⟩
  | shadowed _ _ _ => ⟨ascii "SHADOWED", by decide +kernel⟩
  | found _ => ⟨ascii "MATCH", by decide +kernel⟩

def first : Row → CStr
  | finding _ root => root
  | shadowed command _ _ => command
  | found path => path

def others : Row → List CStr
  | finding _ _ => []
  | shadowed _ winner shadow => [winner, shadow]
  | found _ => []

end Row

theorem escapedByte_eq (ch : UInt8) : escapedByte ch = escape isQuote ch := by
  unfold escapedByte escape
  by_cases hquote : ch = 34
  · simp [hquote, isQuote]
  by_cases hslash : ch = 92
  · simp [hslash]
  · simp only [isQuote, hquote, hslash, decide_false, Bool.false_eq_true, or_self, if_false]
    rfl

theorem flatten_escapedQuoted (text : CStr) : (escapedQuoted text).flatten = quoted text.bytes := by
  have hbytes : (text.bytes.map escapedByte).flatten = text.bytes.flatMap (escape isQuote) := by
    rw [List.flatMap_def]
    exact congrArg List.flatten (List.map_congr_left fun ch _ => escapedByte_eq ch)
  simp [escapedQuoted, quoted, hbytes]

namespace Row

theorem text_eq (r : Row) :
    r.text = row r.keyword r.first.bytes (r.others.map CStr.bytes) := by
  cases r with
  | finding code root =>
    simp [text, row, keyword, first, others, findingPieces, flatten_escapedQuoted]
  | shadowed command winner shadow =>
    simp [text, row, keyword, first, others, shadowPieces, flatten_escapedQuoted]
  | found path => simp [text, row, keyword, first, others, matchPieces, flatten_escapedQuoted]

theorem name_injective : Function.Injective fun code : HazardCode => ascii code.name := by
  intro a b h
  cases a <;> cases b <;> first | rfl | exact absurd h (by decide +kernel)

theorem name_ne_match (code : HazardCode) : ascii code.name ≠ ascii "MATCH" := by
  cases code <;> decide +kernel

/-- A row is known from its keyword and its texts. -/
theorem parts_injective :
    Function.Injective fun r : Row => (r.keyword, r.first.bytes, r.others.map CStr.bytes) := by
  intro r r' h
  obtain ⟨hkeyword, hrest⟩ := Prod.mk.inj h
  obtain ⟨hfirst, hothers⟩ := Prod.mk.inj hrest
  have hword := congrArg Subtype.val hkeyword
  have hfirst := CStr.ext hfirst
  have hbytes : Function.Injective CStr.bytes := fun _ _ => CStr.ext
  have hothers := List.map_injective_iff.mpr hbytes hothers
  cases r with
  | finding code root =>
    cases r' with
    | finding code' root' =>
      obtain rfl := name_injective hword
      obtain rfl := hfirst
      rfl
    | shadowed command winner shadow => exact absurd hothers (by simp [others])
    | found path => exact absurd hword (name_ne_match code)
  | shadowed command winner shadow =>
    cases r' with
    | finding code root => exact absurd hothers (by simp [others])
    | shadowed command' winner' shadow' =>
      obtain rfl := hfirst
      obtain ⟨rfl, hshadow⟩ := List.cons.inj hothers
      obtain ⟨rfl, -⟩ := List.cons.inj hshadow
      rfl
    | found path => exact absurd hothers (by simp [others])
  | found path =>
    cases r' with
    | finding code root => exact absurd hword.symm (name_ne_match code)
    | shadowed command winner shadow => exact absurd hothers (by simp [others])
    | found path' =>
      obtain rfl := hfirst
      rfl

/-- A printed row is told from what follows it. -/
theorem text_prefixFree : PrefixCode.PrefixFree text := by
  have h := row_prefixFree.comap parts_injective
  intro r r' s t heq
  rw [text_eq, text_eq] at heq
  exact h heq

theorem text_ne_nil (r : Row) : r.text ≠ [] := by
  rw [text_eq]
  exact row_ne_nil _ _ _

end Row

/-- The bytes of a list of rows. -/
def rowsText (rows : List Row) : List UInt8 := rows.flatMap Row.text

theorem rowsText_injective : Function.Injective rowsText :=
  Row.text_prefixFree.flatMap_injective Row.text_ne_nil

end Pathaudit
