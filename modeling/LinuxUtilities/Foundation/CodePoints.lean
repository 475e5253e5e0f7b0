import Mathlib.Data.List.DropRight
import Mathlib.Data.Nat.Digits.Lemmas
import Mathlib.Tactic

/-! Texts as sequences of Unicode code points: their UTF-8 sizes, slices whose bounds may be
negative, and numbers written with thousands separators. -/
namespace CodePoints

abbrev CodePoint := Fin 0x110000

/-- A text; surrogate code points may stand in it alone. -/
abbrev Text := List CodePoint

/-- The code points of a literal. -/
def lit (s : String) : Text := s.toList.map fun c => Fin.ofNat _ c.toNat

/-- The UTF-8 form of one code point; a surrogate takes three bytes, as any code point of its
range. -/
def utf8 (c : CodePoint) : List UInt8 :=
  let n := c.val
  if n < 0x80 then [n.toUInt8]
  else if n < 0x800 then [(0xC0 + n / 64).toUInt8, (0x80 + n % 64).toUInt8]
  else if n < 0x10000 then
    [(0xE0 + n / 4096).toUInt8, (0x80 + n / 64 % 64).toUInt8, (0x80 + n % 64).toUInt8]
  else
    [(0xF0 + n / 262144).toUInt8, (0x80 + n / 4096 % 64).toUInt8, (0x80 + n / 64 % 64).toUInt8,
      (0x80 + n % 64).toUInt8]

/-- The bytes of one code point under `surrogateescape`: an escaped byte stands for itself, any
other surrogate has no encoding. -/
def escapeSurrogate (c : CodePoint) : Option (List UInt8) :=
  if 0xDC80 ≤ c.val ∧ c.val ≤ 0xDCFF then some [(c.val - 0xDC00).toUInt8]
  else if 0xD800 ≤ c.val ∧ c.val ≤ 0xDFFF then none
  else some (utf8 c)

def encodeEscaped (text : Text) : Option (List UInt8) :=
  (text.mapM escapeSurrogate).map List.flatten

section Size

/-- The length of a text in UTF-8. -/
def utf8Size (text : Text) : ℕ := (text.flatMap utf8).length

def Ascii (text : Text) : Prop := ∀ c ∈ text, c.val < 0x80

instance (text : Text) : Decidable (Ascii text) :=
  List.decidableBAll (fun c : CodePoint => c.val < 0x80) text

@[simp] theorem utf8Size_nil : utf8Size [] = 0 := rfl

@[simp] theorem utf8Size_cons (c : CodePoint) (text : Text) :
    utf8Size (c :: text) = (utf8 c).length + utf8Size text := by
  simp [utf8Size]

@[simp] theorem utf8Size_append (s t : Text) : utf8Size (s ++ t) = utf8Size s + utf8Size t := by
  simp [utf8Size]

theorem length_utf8_pos (c : CodePoint) : 0 < (utf8 c).length := by
  simp only [utf8]
  split_ifs <;> simp

theorem length_utf8_eq_one {c : CodePoint} : (utf8 c).length = 1 ↔ c.val < 0x80 := by
  simp only [utf8]
  split_ifs with h <;> simp [h]

theorem length_le_utf8Size (text : Text) : text.length ≤ utf8Size text := by
  induction text with
  | nil => simp
  | cons c text ih =>
    have hc : 0 < (utf8 c).length := length_utf8_pos c
    simp only [List.length_cons, utf8Size_cons]
    omega

/-- Exactly the ASCII texts have as many bytes as code points. -/
theorem utf8Size_eq_length_iff {text : Text} : utf8Size text = text.length ↔ Ascii text := by
  induction text with
  | nil => simp [Ascii]
  | cons c text ih =>
    have hc : 0 < (utf8 c).length := length_utf8_pos c
    have htext : text.length ≤ utf8Size text := length_le_utf8Size text
    simp only [utf8Size_cons, List.length_cons, Ascii, List.forall_mem_cons,
      ← length_utf8_eq_one (c := c)]
    show _ ↔ _ ∧ Ascii text
    rw [← ih]
    omega

theorem ascii_append {s t : Text} : Ascii (s ++ t) ↔ Ascii s ∧ Ascii t :=
  List.forall_mem_append

/-- A text without surrogates is encoded as UTF-8. -/
theorem encodeEscaped_eq_flatMap {text : Text}
    (h : ∀ c ∈ text, c.val < 0xD800 ∨ 0xDFFF < c.val) :
    encodeEscaped text = some (text.flatMap utf8) := by
  have hmap : text.mapM escapeSurrogate = some (text.map utf8) := by
    induction text with
    | nil => rfl
    | cons c text ih =>
      have hc : c.val < 0xD800 ∨ 0xDFFF < c.val := h c List.mem_cons_self
      have hescaped : ¬ (0xDC80 ≤ c.val ∧ c.val ≤ 0xDCFF) := by omega
      have hsurrogate : ¬ (0xD800 ≤ c.val ∧ c.val ≤ 0xDFFF) := by omega
      have htext := ih fun c hmem => h c (List.mem_cons_of_mem _ hmem)
      simp [escapeSurrogate, hescaped, hsurrogate, htext]
  rw [encodeEscaped, hmap, List.flatMap_def]
  rfl

end Size

section Slice
variable {α : Type*}

/-- The position a slice bound stands for; a negative one counts from the end. -/
def bound (text : List α) (i : ℤ) : ℕ := if i < 0 then (text.length + i).toNat else i.toNat

/-- `text[:i]` -/
def sliceTo (text : List α) (i : ℤ) : List α := text.take (bound text i)

/-- `text[i:]` -/
def sliceFrom (text : List α) (i : ℤ) : List α := text.drop (bound text i)

@[simp] theorem sliceTo_natCast (text : List α) (n : ℕ) : sliceTo text n = text.take n := by
  have hnonneg : ¬ (n : ℤ) < 0 := by omega
  simp only [sliceTo, bound, if_neg hnonneg, Int.toNat_natCast]

/-- There is no last-nothing slice: `-0` is the start of the text. -/
theorem sliceFrom_neg_zero (text : List α) : sliceFrom text (-(0 : ℕ)) = text := by
  simp [sliceFrom, bound]

theorem sliceFrom_neg {text : List α} {n : ℕ} (hn : 0 < n) :
    sliceFrom text (-n) = text.drop (text.length - n) := by
  have hneg : (-n : ℤ) < 0 := by omega
  have hbound : ((text.length : ℤ) + -n).toNat = text.length - n := by omega
  simp only [sliceFrom, bound, if_pos hneg, hbound]

end Slice

section Lines

/-- `str.isspace` -/
def isSpace (c : CodePoint) : Bool :=
  (9 ≤ c.val && c.val ≤ 13) || (28 ≤ c.val && c.val ≤ 32) || c.val = 0x85 || c.val = 0xA0 ||
    c.val = 0x1680 || (0x2000 ≤ c.val && c.val ≤ 0x200A) || c.val = 0x2028 || c.val = 0x2029 ||
    c.val = 0x202F || c.val = 0x205F || c.val = 0x3000

/-- `str.strip` -/
def strip (text : Text) : Text := (text.dropWhile isSpace).rdropWhile isSpace

/-- The code points that end a line. -/
def isLineBreak (c : CodePoint) : Bool :=
  (10 ≤ c.val && c.val ≤ 13) || (28 ≤ c.val && c.val ≤ 30) || c.val = 0x85 || c.val = 0x2028 ||
    c.val = 0x2029

def splitlinesFrom (line : Text) : Text → List Text
  | [] => if line = [] then [] else [line]
  | 13 :: 10 :: text => line :: splitlinesFrom [] text
  | c :: text =>
    if isLineBreak c then line :: splitlinesFrom [] text else splitlinesFrom (line ++ [c]) text

/-- `str.splitlines` -/
def splitlines (text : Text) : List Text := splitlinesFrom [] text

example : splitlines (lit "a\r\nb\n\nc") = [lit "a", lit "b", [], lit "c"] := by decide

end Lines

section Thousands

def comma : CodePoint := 44

def slash : CodePoint := 47

def digit (d : ℕ) : CodePoint := Fin.ofNat _ (48 + d)

/-- Digits, the least one first, with a comma after every third that others follow. -/
def group : List ℕ → Text
  | a :: b :: c :: d :: rest => digit a :: digit b :: digit c :: comma :: group (d :: rest)
  | short => short.map digit

/-- `f"{n:,}"` for a number that is not negative. -/
def grouped (n : ℕ) : Text := if n = 0 then [digit 0] else (group (Nat.digits 10 n)).reverse

/-- `f"{n:,}"` -/
def groupedInt (n : ℤ) : Text := if n < 0 then 45 :: grouped n.natAbs else grouped n.natAbs

@[simp] theorem groupedInt_natCast (n : ℕ) : groupedInt n = grouped n := by
  simp [groupedInt]

theorem digit_injective {d e : ℕ} (hd : d < 10) (he : e < 10) (h : digit d = digit e) :
    d = e := by
  have hval : (48 + d) % 0x110000 = (48 + e) % 0x110000 := congrArg Fin.val h
  omega

theorem digit_ne_comma {d : ℕ} (hd : d < 10) : digit d ≠ comma := by
  intro h
  have hval : (48 + d) % 0x110000 = 44 := congrArg Fin.val h
  omega

theorem filter_group {digits : List ℕ} (h : ∀ d ∈ digits, d < 10) :
    (group digits).filter (· ≠ comma) = digits.map digit := by
  induction digits using group.induct with
  | case1 a b c d rest ih =>
    simp only [List.forall_mem_cons] at h ih
    obtain ⟨ha, hb, hc, hd, hrest⟩ := h
    have htail : (group (d :: rest)).filter (· ≠ comma) = (d :: rest).map digit := ih ⟨hd, hrest⟩
    simpa [group, digit_ne_comma ha, digit_ne_comma hb, digit_ne_comma hc] using htail
  | case2 short hshort =>
    rw [group]
    · rw [List.filter_eq_self]
      intro c hc
      obtain ⟨d, hd, rfl⟩ := List.mem_map.mp hc
      simpa using digit_ne_comma (h d hd)
    · exact hshort

/-- The commas taken out, the digits are left. -/
theorem filter_grouped {n : ℕ} (hn : 0 < n) :
    (grouped n).filter (· ≠ comma) = ((Nat.digits 10 n).map digit).reverse := by
  have hne : n ≠ 0 := hn.ne'
  rw [grouped, if_neg hne, List.filter_reverse,
    filter_group fun d hd => Nat.digits_lt_base (by norm_num) hd]

theorem grouped_injective {m n : ℕ} (hm : 0 < m) (hn : 0 < n) (h : grouped m = grouped n) :
    m = n := by
  have hdigits : (Nat.digits 10 m).map digit = (Nat.digits 10 n).map digit := by
    have hfilter := congrArg (List.filter (· ≠ comma)) h
    rw [filter_grouped hm, filter_grouped hn] at hfilter
    exact List.reverse_injective hfilter
  have hlen : (Nat.digits 10 m).length = (Nat.digits 10 n).length := by
    simpa using congrArg List.length hdigits
  refine Nat.digits_inj_iff.mp (List.ext_getElem hlen ?_)
  intro i hi hi'
  have hsame : digit (Nat.digits 10 m)[i] = digit (Nat.digits 10 n)[i] := by
    simpa [hi, hi'] using congrArg (fun text => text[i]?) hdigits
  exact digit_injective (Nat.digits_lt_base (by norm_num) (List.getElem_mem hi))
    (Nat.digits_lt_base (by norm_num) (List.getElem_mem hi')) hsame

example : grouped 1234567 = lit "1,234,567" := by decide

theorem mem_group {digits : List ℕ} (h : ∀ d ∈ digits, d < 10) {c : CodePoint}
    (hc : c ∈ group digits) : c = comma ∨ 48 ≤ c.val ∧ c.val < 58 := by
  by_cases hcomma : c = comma
  · exact .inl hcomma
  · have hmem : c ∈ digits.map digit := by
      rw [← filter_group h]
      simpa [hcomma] using hc
    obtain ⟨d, hd, rfl⟩ := List.mem_map.mp hmem
    have hlt : d < 10 := h d hd
    have hval : (digit d).val = (48 + d) % 0x110000 := rfl
    exact .inr (by omega)

/-- Only digits and commas stand in a grouped number. -/
theorem mem_grouped {n : ℕ} {c : CodePoint} (hc : c ∈ grouped n) :
    c = comma ∨ 48 ≤ c.val ∧ c.val < 58 := by
  unfold grouped at hc
  split at hc
  · obtain rfl := List.mem_singleton.mp hc
    exact .inr (by decide)
  · exact mem_group (fun d hd => Nat.digits_lt_base (by norm_num) hd) (List.mem_reverse.mp hc)

end Thousands

end CodePoints
