import LinuxUtilities.Foundation.CodePoints
import LinuxUtilities.Foundation.Rounding

/-! Python values as a JSON reader makes them, with the operations that raise where a value is
not of the kind they need. -/
namespace Python
open CodePoints

/-- The exceptions of the built-in operations, beside those a program raises itself. -/
inductive Raised (E : Type) where
  | typeError
  | keyError
  | attributeError
  | overflowError
  | raised (e : E)
  deriving DecidableEq, Repr

def Raised.map {E F : Type} (f : E → F) : Raised E → Raised F
  | .typeError => .typeError
  | .keyError => .keyError
  | .attributeError => .attributeError
  | .overflowError => .overflowError
  | .raised e => .raised (f e)

section Double

inductive Double where
  | finite (value : ℚ)
  | infinity (negative : Bool)
  | nan
  deriving DecidableEq, Repr

namespace Double

/-- `float(n)`; an integer that rounds to more than the largest double overflows. -/
def ofInt (n : ℤ) : Option Double :=
  if Rounding.roundBits 53 n.natAbs < 2 ^ 1024 then
    some (.finite (n.sign * Rounding.roundBits 53 n.natAbs))
  else none

/-- The least positive integer that overflows: half a unit of the last place over the largest
double. -/
def overflowBound : ℤ := 2 ^ 1024 - 2 ^ 970

theorem overflowBound_pos : 0 < overflowBound :=
  sub_pos.mpr (pow_lt_pow_right₀ one_lt_two (by norm_num))

/-- `x <= 0.0` -/
def nonpositive : Double → Bool
  | .finite value => value ≤ 0
  | .infinity negative => negative
  | .nan => false

/-- `x < y` -/
def less : Double → Double → Bool
  | .nan, _ => false
  | _, .nan => false
  | .finite x, .finite y => x < y
  | .finite _, .infinity negative => !negative
  | .infinity negative, .finite _ => negative
  | .infinity negative, .infinity negative' => negative && !negative'

/-- `math.isfinite(x)` -/
def isFinite : Double → Bool
  | .finite _ => true
  | _ => false

def PositiveFinite (x : Double) : Prop := ∃ value, x = .finite value ∧ 0 < value

/-- What is not zero or less is not below zero, a nan included. -/
theorem less_zero_of_not_less {x : Double} (h : x.nonpositive = false) :
    x.less (.finite 0) = false := by
  cases x with
  | finite value =>
    have hpos : 0 < value := by simpa [nonpositive] using h
    simpa [less] using hpos.le
  | infinity negative => simpa [less, nonpositive] using h
  | nan => rfl

theorem ofInt_eq_none_iff {n : ℤ} : ofInt n = none ↔ 2 ^ 1024 - 2 ^ 970 ≤ n.natAbs := by
  have hround : Rounding.roundBits 53 n.natAbs < 2 ^ (53 + (970 + 1)) ↔
      n.natAbs < 2 ^ (53 + (970 + 1)) - 2 ^ 970 := Rounding.roundBits_lt_iff (by norm_num)
  have hlimit : 53 + (970 + 1) = 1024 := by norm_num
  rw [hlimit] at hround
  unfold ofInt
  split
  next h => exact iff_of_false (Option.some_ne_none _) (Nat.not_le.mpr (hround.mp h))
  next h => exact iff_of_true rfl (Nat.not_lt.mp (mt hround.mpr h))

theorem two_pow_sub_le_iff (a b m : ℕ) : 2 ^ a - 2 ^ b ≤ m ↔ (2 : ℤ) ^ a - 2 ^ b ≤ m := by
  rw [Nat.sub_le_iff_le_add, sub_le_iff_le_add]
  exact_mod_cast Iff.rfl

theorem ofInt_eq_none_of_pos {n : ℤ} (hn : 0 < n) :
    ofInt n = none ↔ overflowBound ≤ n := by
  obtain ⟨m, rfl⟩ := Int.eq_ofNat_of_zero_le hn.le
  rw [ofInt_eq_none_iff]
  exact two_pow_sub_le_iff 1024 970 m

theorem ofInt_positiveFinite {n : ℤ} {x : Double} (hn : 0 < n) (h : ofInt n = some x) :
    x.PositiveFinite := by
  unfold ofInt at h
  split at h
  · refine ⟨_, (Option.some.inj h).symm, ?_⟩
    have hsize : 0 < n.natAbs.size := Nat.size_pos.mpr (by omega)
    have hround : 2 ^ 0 ≤ Rounding.roundBits 53 n.natAbs :=
      Rounding.two_pow_le_roundBits (by norm_num) hsize
    have hpos : (0 : ℚ) < Rounding.roundBits 53 n.natAbs := by exact_mod_cast hround
    rw [Int.sign_eq_one_of_pos hn]
    simpa using hpos
  · contradiction

theorem pos_of_ofInt {n : ℤ} {x : Double} (h : ofInt n = some x) (hx : x.PositiveFinite) :
    0 < n := by
  obtain ⟨value, rfl, hvalue⟩ := hx
  unfold ofInt at h
  split at h
  · have hvalue' : (n.sign : ℚ) * Rounding.roundBits 53 n.natAbs = value := by simpa using h
    by_contra hle
    have hsign : (n.sign : ℚ) ≤ 0 := by
      exact_mod_cast Int.sign_nonpos_iff.mpr (not_lt.mp hle)
    have hround : (0 : ℚ) ≤ Rounding.roundBits 53 n.natAbs := Nat.cast_nonneg _
    linarith [mul_nonpos_of_nonpos_of_nonneg hsign hround]
  · contradiction

theorem positiveFinite_of_checks {x : Double} (hpos : x.nonpositive = false)
    (hfinite : x.isFinite = true) : x.PositiveFinite := by
  cases x with
  | finite value => exact ⟨value, rfl, by simpa [nonpositive] using hpos⟩
  | infinity negative => contradiction
  | nan => contradiction

-- its digits are never needed, and unfolding it makes comparisons of values evaluate them
attribute [irreducible] overflowBound

end Double

end Double

section Json

inductive Json where
  | null
  | bool (b : Bool)
  | int (n : ℤ)
  | float (x : Double)
  | str (s : Text)
  | arr (items : List Json)
  | obj (fields : List (Text × Json))

/-- The entries of a dictionary, in the order of their insertion. -/
abbrev Fields := List (Text × Json)

/-- `fields[key] = value` -/
def setKey (key : Text) (value : Json) : Fields → Fields
  | [] => [(key, value)]
  | (k, v) :: fields => if key = k then (k, value) :: fields else (k, v) :: setKey key value fields

/-- `fields[key]` -/
def getKey {E : Type} (fields : Fields) (key : Text) : Except (Raised E) Json :=
  match fields.lookup key with
  | some value => .ok value
  | none => .error .keyError

theorem lookup_entry (key k : Text) (v : Json) (fields : Fields) :
    List.lookup key ((k, v) :: fields) = if key = k then some v else List.lookup key fields := by
  rw [List.lookup_cons]
  split
  next h => rw [if_pos (by simpa using h)]
  next h => rw [if_neg (by simpa using h)]

theorem lookup_setKey (key key' : Text) (value : Json) (fields : Fields) :
    List.lookup key' (setKey key value fields) =
      if key' = key then some value else List.lookup key' fields := by
  induction fields with
  | nil => exact lookup_entry key' key value []
  | cons entry fields ih =>
    obtain ⟨k, v⟩ := entry
    unfold setKey
    split
    next heq =>
      subst heq
      simp only [lookup_entry]
      split <;> rfl
    next hne =>
      simp only [lookup_entry, ih]
      split_ifs with hk hkey
      · exact absurd (hkey.symm.trans hk) hne
      · rfl
      · rfl
      · rfl

namespace Json
variable {E : Type}

/-- `key in data`: a part of a text, an element of a list, a key of a dictionary. -/
def contains (data : Json) (key : Text) : Except (Raised E) Bool :=
  match data with
  | .str s => .ok (decide (key <:+: s))
  | .arr items => .ok (items.any fun item => match item with | .str s => s = key | _ => false)
  | .obj fields => .ok (fields.lookup key).isSome
  | _ => .error .typeError

/-- `data[key]` -/
def item (data : Json) (key : Text) : Except (Raised E) Json :=
  match data with
  | .obj fields => getKey fields key
  | _ => .error .typeError

/-- `data[key] = value` -/
def setItem (data : Json) (key : Text) (value : Json) : Except (Raised E) Json :=
  match data with
  | .obj fields => .ok (.obj (setKey key value fields))
  | _ => .error .typeError

/-- `float(data)` of a number; nothing else is asked for. -/
def toDouble (data : Json) : Except (Raised E) Double :=
  match data with
  | .float x => .ok x
  | .int n => (Double.ofInt n).elim (.error .overflowError) .ok
  | _ => .error .typeError

/-- `data.strip()` -/
def strip (data : Json) : Except (Raised E) Text :=
  match data with
  | .str s => .ok (CodePoints.strip s)
  | _ => .error .attributeError

end Json

end Json

end Python
