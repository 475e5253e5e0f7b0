import LinuxUtilities.Agentwatch.Stat

/-! The format of `/proc/PID/stat`: `parse_stat_record` reads back every record of it, and accepts
other texts besides. -/
namespace Agentwatch
open CString

namespace StatRecord

/-- The record of a process, with a newline at its end or without. -/
def line (r : StatRecord) (pid : ℕ) (newline : Bool) : List UInt8 :=
  decimal pid ++ ([32, 40] ++ (r.comm ++ 41 :: 32 :: r.state :: 32 :: (decimal r.ppid ++
    (spaced r.fields ++ (spaced [(r.start : ℤ)] ++ (spaced r.tail ++
      if newline then [10] else []))))))

theorem line_newline (r : StatRecord) (pid : ℕ) : r.line pid true = r.text pid := rfl

theorem nulFree_line (r : StatRecord) (pid : ℕ) (newline : Bool) :
    (0 : UInt8) ∉ r.line pid newline := by
  cases newline with
  | true =>
    rw [r.line_newline]
    exact r.nulFree_text pid
  | false =>
    have htext : r.text pid = r.line pid false ++ [10] := by
      simp [text, afterName, line]
    intro h
    exact r.nulFree_text pid (htext ▸ List.mem_append_left [10] h)

end StatRecord

/-- The parent and the start time are those of the record, whatever bytes its name has. -/
theorem parseStatRecord_line (r : StatRecord) (pid expected : ℕ) (newline : Bool) :
    parseStatRecord ⟨r.line pid newline, r.nulFree_line pid newline⟩ expected =
      some ⟨expected, r.ppid, r.start⟩ := by
  refine parseStatRecord_bytes r (decimal pid ++ ([32, 40] ++ r.comm))
    (if newline then [10] else []) expected (by simp [StatRecord.line]) ?_ ?_
  · cases newline <;> decide
  · cases newline <;> simp [isDigit]

/-- A name that looks like the end of a record. -/
example : parseStatRecord (CStr.ofBytes (ascii "7 (a) R 9 8) S 1" ++
    StatRecord.spaced (List.replicate 17 (-1) ++ [5, 6]))) 7 = some ⟨7, 1, 5⟩ := by decide +kernel

/-- A text that is read as a record: anything up to the last parenthesis, then the state and the
fields 4 to 22 as the conversions take them, each after a space, and what follows them. -/
@[ext]
structure Layout where
  above : List UInt8
  state : UInt8
  fields : List Numeral
  rest : List UInt8
  state_ne_paren : state ≠ 41
  rest_no_paren : (41 : UInt8) ∉ rest
  fields_length : fields.length = 19
  rest_ends : ∀ b ∈ rest.head?, isDigit b = false

/-- Numerals, each after a space. -/
def spacedNumerals (fields : List Numeral) : List UInt8 := fields.flatMap fun f => 32 :: f.text

namespace Layout

def text (l : Layout) : List UInt8 :=
  l.above ++ 41 :: 32 :: l.state :: (spacedNumerals l.fields ++ l.rest)

/-- The parent is a pid, and the other numbers have 64 bits. -/
structure InRange (l : Layout) : Prop where
  ppid : ∀ f ∈ l.fields.head?, 0 ≤ f.value ∧ f.value ≤ intMax
  others : ∀ f ∈ l.fields.tail, f.magnitude ≤ ulongMax

/-- The format of proc(5): the pid and a parenthesis at the start, decimal fields, and after
them a space, a newline or nothing. -/
structure WellFormed (l : Layout) (expected : ℕ) : Prop where
  pid : decimal expected ++ [32, 40] <+: l.above
  plain : ∀ f ∈ l.fields, f.Plain
  ended : ∀ b ∈ l.rest.head?, b = 32 ∨ b = 10

/-- What is taken for a record although it is none: one that starts otherwise, one with spaces
or a plus before the digits of a field, or one with another byte after the last field. -/
def Mistaken (l : Layout) (expected : ℕ) : Prop :=
  l.InRange ∧ (¬ decimal expected ++ [32, 40] <+: l.above ∨
    (∃ f ∈ l.fields, f.spaces ≠ [] ∨ f.sign = .plus) ∨ ∃ b ∈ l.rest.head?, b ≠ 32 ∧ b ≠ 10)

end Layout

theorem spacedNumerals_cons (f : Numeral) (fields : List Numeral) (rest : List UInt8) :
    spacedNumerals (f :: fields) ++ rest = 32 :: (f.text ++ (spacedNumerals fields ++ rest)) := by
  simp [spacedNumerals]

theorem head_spacedNumerals {fields : List Numeral} {rest : List UInt8}
    (h : ∀ b ∈ rest.head?, isDigit b = false) :
    ∀ b ∈ (spacedNumerals fields ++ rest).head?, isDigit b = false := by
  cases fields with
  | nil => exact h
  | cons f fields =>
    intro b hb
    rw [spacedNumerals_cons] at hb
    obtain rfl : 32 = b := by simpa using hb
    decide

/-- A text is a list of numerals and a rest in at most one way. -/
theorem eq_of_spacedNumerals {fields fields' : List Numeral} {rest rest' : List UInt8}
    (hlength : fields.length = fields'.length)
    (h : spacedNumerals fields ++ rest = spacedNumerals fields' ++ rest')
    (hrest : ∀ b ∈ rest.head?, isDigit b = false)
    (hrest' : ∀ b ∈ rest'.head?, isDigit b = false) : fields = fields' ∧ rest = rest' := by
  induction fields generalizing fields' with
  | nil =>
    obtain rfl : fields' = [] := List.eq_nil_of_length_eq_zero hlength.symm
    exact ⟨rfl, h⟩
  | cons f fields ih =>
    cases fields' with
    | nil => contradiction
    | cons f' fields' =>
      rw [spacedNumerals_cons, spacedNumerals_cons] at h
      obtain ⟨rfl, htail⟩ := Numeral.eq_of_text_append (List.cons.inj h).2
        (head_spacedNumerals hrest) (head_spacedNumerals hrest')
      obtain ⟨rfl, rfl⟩ := ih (Nat.succ.inj hlength) htail
      exact ⟨rfl, rfl⟩

theorem numeral_no_paren (f : Numeral) : (41 : UInt8) ∉ f.text := by
  intro h
  rcases List.mem_append.mp h with h | h
  · exact absurd (f.isSpace_of_mem 41 h) (by decide)
  rcases List.mem_append.mp h with h | h
  · cases hsign : f.sign <;> simp [hsign, Sign.text] at h
  · exact absurd (f.isDigit_of_mem 41 h) (by decide)

theorem Layout.no_paren (l : Layout) :
    (41 : UInt8) ∉ 32 :: l.state :: (spacedNumerals l.fields ++ l.rest) := by
  intro h
  simp only [List.mem_cons, List.mem_append] at h
  rcases h with h | h | h | h
  · contradiction
  · exact l.state_ne_paren h.symm
  · obtain ⟨f, -, hf⟩ := List.mem_flatMap.mp h
    rcases List.mem_cons.mp hf with hf | hf
    · contradiction
    · exact numeral_no_paren f hf
  · exact l.rest_no_paren h

/-- Two layouts of one text are the same. -/
theorem Layout.eq_of_text {l l' : Layout} (h : l.text = l'.text) : l = l' := by
  have hlast := strrchr_append l.above l.no_paren
  have hlast' := strrchr_append l'.above l'.no_paren
  have heq : 41 :: 32 :: l.state :: (spacedNumerals l.fields ++ l.rest) =
      41 :: 32 :: l'.state :: (spacedNumerals l'.fields ++ l'.rest) := by
    rw [← Option.some_inj, ← hlast, ← hlast']
    exact congrArg (strrchr 41) h
  have habove : l.above = l'.above := by
    unfold Layout.text at h
    rw [heq] at h
    exact List.append_cancel_right h
  simp only [List.cons.injEq, true_and] at heq
  obtain ⟨hfields, hrest⟩ := eq_of_spacedNumerals (l.fields_length.trans l'.fields_length.symm)
    heq.2 l.rest_ends l'.rest_ends
  exact Layout.ext habove heq.1 hfields hrest

section Fields
variable {p rest : List UInt8} {start value field first count : ℕ}

theorem nextField_text {f : Numeral} (hf : f.magnitude ≤ ulongMax)
    (h : ∀ b ∈ rest.head?, isDigit b = false) :
    ∃ value, nextField (32 :: (f.text ++ rest), start) field = some (rest, value) := by
  obtain ⟨converted, hconverted⟩ := f.strtoull_text hf h
  exact ⟨if field = 22 then converted else start, by simp only [nextField, hconverted]⟩

theorem exists_of_nextField (h : nextField (p, start) field = some (rest, value)) :
    ∃ f : Numeral, p = 32 :: (f.text ++ rest) ∧ f.magnitude ≤ ulongMax ∧
      ∀ b ∈ rest.head?, isDigit b = false := by
  unfold nextField at h
  split at h
  next text _ _ heq =>
    obtain ⟨rfl, rfl⟩ := Prod.mk.inj heq
    split at h
    next parsed rest' hconverted =>
      obtain ⟨rfl, -⟩ := Prod.mk.inj (Option.some.inj h)
      obtain ⟨f, rfl, hf, hrest⟩ := Numeral.exists_of_strtoull hconverted
      exact ⟨f, rfl, hf, hrest⟩
    · contradiction
  · contradiction

/-- The loop passes over numerals of 64 bits. -/
theorem foldlM_nextField_text {fields : List Numeral}
    (hfields : ∀ f ∈ fields, f.magnitude ≤ ulongMax)
    (h : ∀ b ∈ rest.head?, isDigit b = false) :
    ∃ value, (List.range' first fields.length).foldlM nextField
      (spacedNumerals fields ++ rest, start) = some (rest, value) := by
  induction fields generalizing first start with
  | nil => exact ⟨start, rfl⟩
  | cons f fields ih =>
    obtain ⟨next, hnext⟩ := @nextField_text _ start first f (hfields f List.mem_cons_self)
      (@head_spacedNumerals fields _ h)
    obtain ⟨value, hvalue⟩ := @ih next (first + 1) fun g hg => hfields g (List.mem_cons_of_mem f hg)
    refine ⟨value, ?_⟩
    rw [List.length_cons, List.range'_succ, List.foldlM_cons, spacedNumerals_cons, hnext]
    exact hvalue

/-- What the loop passes over are numerals of 64 bits. -/
theorem exists_of_foldlM_nextField (hp : ∀ b ∈ p.head?, isDigit b = false)
    (h : (List.range' first count).foldlM nextField (p, start) = some (rest, value)) :
    ∃ fields : List Numeral, fields.length = count ∧ p = spacedNumerals fields ++ rest ∧
      (∀ f ∈ fields, f.magnitude ≤ ulongMax) ∧ ∀ b ∈ rest.head?, isDigit b = false := by
  induction count generalizing p first start with
  | zero =>
    obtain ⟨rfl, -⟩ := Prod.mk.inj (Option.some.inj h)
    exact ⟨[], rfl, rfl, by simp, hp⟩
  | succ count ih =>
    rw [List.range'_succ, List.foldlM_cons] at h
    obtain ⟨⟨p', next⟩, hnext, hloop⟩ := Option.bind_eq_some_iff.mp h
    obtain ⟨f, rfl, hf, hp'⟩ := exists_of_nextField hnext
    obtain ⟨fields, hlength, rfl, hfields, hrest⟩ := ih hp' hloop
    refine ⟨f :: fields, by rw [List.length_cons, hlength], by rw [spacedNumerals_cons], ?_, hrest⟩
    simpa using ⟨hf, hfields⟩

end Fields

/-- The texts that are accepted. -/
theorem parseStatRecord_isSome_iff {record : CStr} {expected : ℕ} :
    (parseStatRecord record expected).isSome = true ↔
      ∃ l : Layout, l.text = record.bytes ∧ l.InRange := by
  constructor
  · intro h
    unfold parseStatRecord at h
    split at h
    next first state p hlast =>
      obtain ⟨above, tail, hbytes, hlast, htail⟩ := strrchr_eq_some hlast
      obtain ⟨rfl, rfl⟩ := List.cons.inj hlast
      split at h
      next ppid rest hppid =>
        obtain ⟨f, rfl, rfl, hrest⟩ := Numeral.exists_of_strtol hppid
        split at h
        · contradiction
        next hrange =>
          obtain ⟨⟨rest', start⟩, hfields⟩ := Option.isSome_iff_exists.mp (by simpa using h)
          obtain ⟨fields, hlength, rfl, hmagnitude, hrest'⟩ :=
            exists_of_foldlM_nextField hrest hfields
          have hstate : state ≠ 41 := by
            rintro rfl
            simp at htail
          refine ⟨⟨above, state, f :: fields, rest', hstate, ?_, by simp [hlength], hrest'⟩, ?_, ?_⟩
          · exact fun hmem => htail (by simp [hmem])
          · rw [hbytes, Layout.text, spacedNumerals_cons]
          · exact ⟨by simpa using hrange, by simpa using hmagnitude⟩
      · contradiction
    · contradiction
  · intro h
    obtain ⟨l, hbytes, hrange⟩ := h
    have hlast : strrchr 41 record.bytes =
        some (41 :: 32 :: l.state :: (spacedNumerals l.fields ++ l.rest)) := by
      rw [← hbytes]
      exact strrchr_append l.above l.no_paren
    have hlength := l.fields_length
    cases hfields : l.fields with
    | nil => simp [hfields] at hlength
    | cons f fields =>
      have hcount : fields.length = 18 := by simpa [hfields] using hlength
      have hppid := hrange.ppid f (by simp [hfields])
      have hothers : ∀ g ∈ fields, g.magnitude ≤ ulongMax := by
        simpa [hfields] using hrange.others
      have hmagnitude : f.magnitude ≤ longMax := by
        have hmax : intMax ≤ longMax := by decide
        unfold Numeral.value at hppid
        split at hppid <;> omega
      obtain ⟨start, hread⟩ := @foldlM_nextField_text l.rest 0 5 fields hothers l.rest_ends
      rw [hcount] at hread
      rw [hfields, spacedNumerals_cons] at hlast
      unfold parseStatRecord readFields
      simp only [hlast, f.strtol_text hmagnitude (head_spacedNumerals l.rest_ends), hread]
      rw [if_neg (by omega)]
      rfl

/-- An accepted text is a record if and only if it is not one of those that are mistaken. -/
theorem parseStatRecord_sound_iff (record : CStr) (expected : ℕ) :
    ((parseStatRecord record expected).isSome = true →
        ∃ l : Layout, l.text = record.bytes ∧ l.WellFormed expected) ↔
      ¬ ∃ l : Layout, l.text = record.bytes ∧ l.Mistaken expected := by
  rw [parseStatRecord_isSome_iff]
  constructor
  · intro h hmistaken
    obtain ⟨l, hbytes, hrange, hdefect⟩ := hmistaken
    obtain ⟨l', hbytes', hformed⟩ := h ⟨l, hbytes, hrange⟩
    obtain rfl : l' = l := Layout.eq_of_text (hbytes'.trans hbytes.symm)
    rcases hdefect with hpid | ⟨f, hf, hfield⟩ | ⟨b, hb, hend⟩
    · exact hpid hformed.pid
    · obtain ⟨hspaces, hplus⟩ := hformed.plain f hf
      exact hfield.elim (· hspaces) hplus
    · exact (hformed.ended b hb).elim hend.1 hend.2
  · intro h haccepted
    obtain ⟨l, hbytes, hrange⟩ := haccepted
    refine ⟨l, hbytes, ?_⟩
    constructor
    · by_contra hpid
      exact h ⟨l, hbytes, hrange, .inl hpid⟩
    · intro f hf
      constructor
      · by_contra hspaces
        exact h ⟨l, hbytes, hrange, .inr (.inl ⟨f, hf, .inl hspaces⟩)⟩
      · intro hplus
        exact h ⟨l, hbytes, hrange, .inr (.inl ⟨f, hf, .inr hplus⟩)⟩
    · intro b hb
      by_contra hend
      exact h ⟨l, hbytes, hrange, .inr (.inr ⟨b, hb, not_or.mp hend⟩)⟩

/-- The record of the process 7. -/
def recordOfSeven : CStr :=
  CStr.ofBytes (ascii "7 (sh) S 1" ++ StatRecord.spaced (List.replicate 17 0 ++ [5]) ++ [10])

/-- The record of the process 7 is accepted for the process 8. -/
theorem parseStatRecord_accepts_stranger :
    ¬ ∀ (record : CStr) (expected : ℕ), (parseStatRecord record expected).isSome = true →
      ∃ l : Layout, l.text = record.bytes ∧ l.WellFormed expected := by
  intro h
  have haccepted : (parseStatRecord recordOfSeven 8).isSome = true := by decide +kernel
  have hrecord : recordOfSeven.bytes.head? = some 55 := by decide
  obtain ⟨l, hbytes, hformed⟩ := h recordOfSeven 8 haccepted
  obtain ⟨comm, habove⟩ := hformed.pid
  have hhead : l.text.head? = some 56 := by
    rw [Layout.text, ← habove]
    rfl
  rw [hbytes, hrecord] at hhead
  contradiction

end Agentwatch
