import Mathlib.Data.List.Lex
import Mathlib.Data.List.TakeWhile
import Mathlib.Order.Basic
import Mathlib.Tactic

/-! Byte strings as C programs see them: NUL-free strings, their concatenation,
and the order that `strcmp` puts on them. -/
namespace CString

/-- The bytes of an ASCII literal. -/
def ascii (s : String) : List UInt8 := s.toList.map fun c => c.toNat.toUInt8

/-- A C string without its terminator: the bytes before the first NUL. -/
structure CStr where
  bytes : List UInt8
  nulFree : (0 : UInt8) ∉ bytes
  deriving DecidableEq, Repr

namespace CStr

@[ext] theorem ext {s t : CStr} (h : s.bytes = t.bytes) : s = t := by
  cases s; cases t; cases h; rfl

/-- A literal of the source; none of them contains a NUL. -/
def lit (s : String) : CStr := ⟨(ascii s).filter (· ≠ 0), by simp⟩

/-- The C string at the start of a buffer: what precedes the first NUL. -/
def ofBytes (b : List UInt8) : CStr :=
  ⟨b.takeWhile (· ≠ 0), fun h => by simpa using List.mem_takeWhile_imp h⟩

theorem ofBytes_bytes {b : List UInt8} (h : (0 : UInt8) ∉ b) : (ofBytes b).bytes = b := by
  refine List.takeWhile_eq_self_iff.mpr fun x hx => ?_
  simp only [ne_eq, decide_eq_true_eq]
  rintro rfl
  exact h hx

theorem ofBytes_self (s : CStr) : ofBytes s.bytes = s := ext (ofBytes_bytes s.nulFree)

instance : EmptyCollection CStr := ⟨⟨[], by simp⟩⟩

instance : Inhabited CStr := ⟨∅⟩

instance : Append CStr :=
  ⟨fun s t => ⟨s.bytes ++ t.bytes, by simp [s.nulFree, t.nulFree]⟩⟩

/-- `strlen`. -/
def length (s : CStr) : ℕ := s.bytes.length

@[simp] theorem empty_bytes : (∅ : CStr).bytes = [] := rfl

@[simp] theorem append_bytes (s t : CStr) : (s ++ t).bytes = s.bytes ++ t.bytes := rfl

@[simp] theorem length_append (s t : CStr) : (s ++ t).length = s.length + t.length := by
  simp [length]

theorem append_assoc (s t u : CStr) : s ++ t ++ u = s ++ (t ++ u) := by
  ext1; simp

theorem ne_zero_of_mem {s : CStr} {b : UInt8} (h : b ∈ s.bytes) : b ≠ 0 := by
  rintro rfl
  exact s.nulFree h

/-- The key under which C strings are ordered: their unsigned byte values. -/
def sortKey (s : CStr) : List ℕ := s.bytes.map UInt8.toNat

theorem sortKey_injective : Function.Injective sortKey := by
  intro s t h
  ext1
  exact List.map_injective_iff.mpr (fun _ _ => UInt8.toNat_inj.mp) h

/-- C strings in `strcmp` order. -/
instance : LinearOrder CStr := LinearOrder.lift' sortKey sortKey_injective

end CStr

/-- `strcmp` on the bytes before the terminators, which compare as NUL: the sign
is that of the first differing pair of unsigned bytes. -/
def strcmp : List UInt8 → List UInt8 → ℤ
  | [], [] => 0
  | [], _ :: _ => -1
  | _ :: _, [] => 1
  | a :: as, b :: bs => if a = b then strcmp as bs else if a < b then -1 else 1

theorem strcmp_eq_zero_iff (a b : List UInt8) : strcmp a b = 0 ↔ a = b := by
  fun_induction strcmp a b with
  | case1 => simp
  | case2 => simp
  | case3 => simp
  | case4 a as bs ih => simpa using ih
  | case5 a as b bs hne hlt => simp [hne]
  | case6 a as b bs hne hlt => simp [hne]

theorem strcmp_neg_iff (a b : List UInt8) :
    strcmp a b < 0 ↔ a.map UInt8.toNat < b.map UInt8.toNat := by
  fun_induction strcmp a b with
  | case1 => simp
  | case2 => simp
  | case3 => simp
  | case4 a as bs ih => simpa [List.cons_lt_cons_iff] using ih
  | case5 a as b bs hne hlt =>
    have hlt' : a.toNat < b.toNat := UInt8.lt_iff_toNat_lt.mp hlt
    simp [List.cons_lt_cons_iff, hlt']
  | case6 a as b bs hne hlt =>
    have hle : b.toNat ≤ a.toNat := by
      have h := mt UInt8.lt_iff_toNat_lt.mpr hlt
      omega
    have hne' : a.toNat ≠ b.toNat := mt UInt8.toNat_inj.mp hne
    simp only [List.map_cons, List.cons_lt_cons_iff, hne', false_and, or_false]
    omega

theorem strcmp_eq_zero {s t : CStr} : strcmp s.bytes t.bytes = 0 ↔ s = t := by
  rw [strcmp_eq_zero_iff, CStr.ext_iff]

/-- The sign of `strcmp` is the order on C strings. -/
theorem strcmp_neg {s t : CStr} : strcmp s.bytes t.bytes < 0 ↔ s < t :=
  strcmp_neg_iff _ _

theorem strcmp_nonpos {s t : CStr} : strcmp s.bytes t.bytes ≤ 0 ↔ s ≤ t := by
  rw [le_iff_lt_or_eq, le_iff_lt_or_eq, strcmp_neg, strcmp_eq_zero]

end CString
