import LinuxUtilities.Foundation.Numerals

/-! `/proc/PID/stat`: how `agentwatch` reads an identity from it, and that it reads back the
parent and the start time of a well-formed record. -/
namespace Agentwatch
open CString

def intMax : ℕ := 2 ^ 31 - 1

def procRecordLimit : ℕ := 4096

/-- `struct identity`, less its flag `connected`. -/
structure Identity where
  pid : ℕ
  ppid : ℕ
  starttime : ℕ
  deriving DecidableEq, Repr

/-- `strrchr`: the text from the last occurrence of a byte on. -/
def strrchr (c : UInt8) : List UInt8 → Option (List UInt8)
  | [] => none
  | b :: text => (strrchr c text).or (if b = c then some (b :: text) else none)

/-- The body of the loop over the fields: the text left and the start time. -/
def nextField : List UInt8 × ℕ → ℕ → Option (List UInt8 × ℕ)
  | (32 :: p, start), field =>
    match strtoull p with
    | some ⟨parsed, rest, false⟩ => some (rest, if field = 22 then parsed else start)
    | _ => none
  | _, _ => none

/-- The loop over the fields 5 to 22. -/
def readFields (p : List UInt8) : Option (List UInt8 × ℕ) :=
  (List.range' 5 18).foldlM nextField (p, 0)

/-- `parse_stat_record`. -/
def parseStatRecord (record : CStr) (expected : ℕ) : Option Identity :=
  match strrchr 41 record.bytes with
  | some (_ :: 32 :: _ :: 32 :: p) =>
    match strtol p with
    | some ⟨ppid, rest, false⟩ =>
      if ppid < 0 ∨ intMax < ppid then none
      else (readFields rest).map fun (_, start) => ⟨expected, ppid.toNat, start⟩
    | _ => none
  | _ => none

/-- What opening and reading a record meets: `open` fails, with `ENOENT` or not; `read` fails,
with `ENOENT` or not; or `read` stores some bytes, and the second `read` returns a number of
bytes or fails. -/
inductive StatFile where
  | absent
  | denied
  | vanished
  | failed
  | read (record : List UInt8) (extra : Option ℕ)
  deriving DecidableEq

/-- A file that can be read. -/
def StatFile.readable (content : List UInt8) : StatFile :=
  .read (content.take procRecordLimit) (some (if procRecordLimit < content.length then 1 else 0))

/-- What `read_identity` returns: 0, -1, or 1 and the identity. -/
inductive Reading where
  | gone
  | unknown
  | found (identity : Identity)
  deriving DecidableEq

/-- `read_identity`. -/
def readIdentity (pid : ℕ) : StatFile → Reading
  | .absent => .gone
  | .vanished => .gone
  | .denied => .unknown
  | .failed => .unknown
  | .read record extra =>
    if extra ≠ some 0 ∨ record = [] then .unknown
    else match parseStatRecord (CStr.ofBytes record) pid with
      | some identity => .found identity
      | none => .unknown

/-- What is found has the pid that it was looked for under. -/
theorem readIdentity_pid {pid : ℕ} {file : StatFile} {identity : Identity}
    (h : readIdentity pid file = .found identity) : identity.pid = pid := by
  unfold readIdentity at h
  split at h
  · contradiction
  · contradiction
  · contradiction
  · contradiction
  split at h
  · contradiction
  split at h
  next heq =>
    obtain rfl := Reading.found.inj h
    unfold parseStatRecord at heq
    split at heq
    next p _ =>
      split at heq
      next rest _ =>
        split at heq
        · contradiction
        obtain ⟨_, _, rfl⟩ := Option.map_eq_some_iff.mp heq
        rfl
      · contradiction
    · contradiction
  · contradiction

/-- A well-formed record of proc(5): the name, the state, the parent, the fields 5 to 21, the
start time and the fields after it. -/
structure StatRecord where
  comm : List UInt8
  state : UInt8
  ppid : ℕ
  fields : List ℤ
  start : ℕ
  tail : List ℤ
  comm_nulFree : (0 : UInt8) ∉ comm
  state_ne_zero : state ≠ 0
  state_ne_paren : state ≠ 41
  ppid_le : ppid ≤ intMax
  fields_length : fields.length = 17
  fields_le : ∀ n ∈ fields, n.natAbs ≤ ulongMax
  start_le : start ≤ ulongMax

namespace StatRecord

/-- Fields, each after a space. -/
def spaced (fields : List ℤ) : List UInt8 := fields.flatMap fun n => 32 :: integer n

/-- What follows the name in a record. -/
def afterName (r : StatRecord) : List UInt8 :=
  41 :: 32 :: r.state :: 32 :: (decimal r.ppid ++
    (spaced r.fields ++ (spaced [(r.start : ℤ)] ++ (spaced r.tail ++ [10]))))

/-- The bytes of a record. -/
def text (r : StatRecord) (pid : ℕ) : List UInt8 :=
  decimal pid ++ ([32, 40] ++ (r.comm ++ r.afterName))

/-- A byte of a number is neither NUL nor a parenthesis. -/
theorem plain_of_mem_integer {n : ℤ} {b : UInt8} (h : b ∈ integer n) : b ≠ 0 ∧ b ≠ 41 := by
  have hdigit : ∀ b, isDigit b = true → b ≠ 0 ∧ b ≠ 41 := by
    intro b hb
    constructor
    · rintro rfl
      simp [isDigit] at hb
    · rintro rfl
      simp [isDigit] at hb
  unfold integer at h
  rcases List.mem_append.mp h with hsign | hdecimal
  · split at hsign
    · obtain rfl := List.mem_singleton.mp hsign
      simp
    · simp at hsign
  · exact hdigit b (isDigit_of_mem_decimal hdecimal)

theorem plain_of_mem_decimal {n : ℕ} {b : UInt8} (h : b ∈ decimal n) : b ≠ 0 ∧ b ≠ 41 :=
  plain_of_mem_integer (integer_natCast n ▸ h)

theorem plain_of_mem_spaced {fields : List ℤ} {b : UInt8} (h : b ∈ spaced fields) :
    b ≠ 0 ∧ b ≠ 41 := by
  obtain ⟨n, -, hb⟩ := List.mem_flatMap.mp h
  rcases List.mem_cons.mp hb with rfl | hb
  · decide
  · exact plain_of_mem_integer hb

/-- After the last parenthesis of a record there is neither a NUL nor a parenthesis. -/
theorem plain_of_mem_afterName {r : StatRecord} {b : UInt8} (h : b ∈ r.afterName.tail) :
    b ≠ 0 ∧ b ≠ 41 := by
  simp only [afterName, List.tail_cons, List.mem_cons, List.mem_append, List.mem_nil_iff,
    or_false] at h
  rcases h with rfl | rfl | rfl | h | h | h | h | rfl
  · decide
  · exact ⟨r.state_ne_zero, r.state_ne_paren⟩
  · decide
  · exact plain_of_mem_decimal h
  · exact plain_of_mem_spaced h
  · exact plain_of_mem_spaced h
  · exact plain_of_mem_spaced h
  · decide

theorem nulFree_text (r : StatRecord) (pid : ℕ) : (0 : UInt8) ∉ r.text pid := by
  intro h
  rcases List.mem_append.mp h with h | h
  · exact (plain_of_mem_decimal h).1 rfl
  rcases List.mem_append.mp h with h | h
  · exact absurd h (by decide)
  rcases List.mem_append.mp h with h | h
  · exact r.comm_nulFree h
  rcases List.mem_cons.mp h with h | h
  · exact absurd h (by decide)
  · exact (plain_of_mem_afterName (r := r) h).1 rfl

end StatRecord

theorem strrchr_eq_none {c : UInt8} {text : List UInt8} (h : c ∉ text) :
    strrchr c text = none := by
  induction text with
  | nil => rfl
  | cons b text ih =>
    simp only [List.mem_cons, not_or] at h
    simp [strrchr, ih h.2, Ne.symm h.1]

theorem strrchr_append {c : UInt8} {text : List UInt8} (above : List UInt8) (h : c ∉ text) :
    strrchr c (above ++ c :: text) = some (c :: text) := by
  induction above with
  | nil => simp [strrchr, strrchr_eq_none h]
  | cons b above ih => simp [strrchr, ih]

theorem not_mem_of_strrchr {c : UInt8} {text : List UInt8} (h : strrchr c text = none) :
    c ∉ text := by
  induction text with
  | nil => exact List.not_mem_nil
  | cons b text ih =>
    obtain ⟨htail, hhead⟩ := Option.or_eq_none_iff.mp h
    intro hmem
    rcases List.mem_cons.mp hmem with rfl | hmem
    · simp at hhead
    · exact ih htail hmem

theorem strrchr_eq_some {c : UInt8} {text last : List UInt8} (h : strrchr c text = some last) :
    ∃ above tail, text = above ++ c :: tail ∧ last = c :: tail ∧ c ∉ tail := by
  induction text with
  | nil => contradiction
  | cons b text ih =>
    unfold strrchr at h
    cases hlater : strrchr c text with
    | some later =>
      obtain rfl : later = last := by simpa [hlater] using h
      obtain ⟨above, tail, rfl, hlast, htail⟩ := ih hlater
      exact ⟨b :: above, tail, rfl, hlast, htail⟩
    | none =>
      rw [hlater, Option.none_or] at h
      split at h
      next hb =>
        subst hb
        exact ⟨[], text, rfl, (Option.some.inj h).symm, not_mem_of_strrchr hlater⟩
      · contradiction

/-- A field that is no start time is passed over. -/
theorem nextField_integer {n : ℤ} {rest : List UInt8} {start field : ℕ}
    (hn : n.natAbs ≤ ulongMax) (hfield : field ≠ 22)
    (h : ∀ b ∈ rest.head?, isDigit b = false) :
    nextField (32 :: (integer n ++ rest), start) field = some (rest, start) := by
  obtain ⟨value, hvalue⟩ := strtoull_integer hn h
  simp [nextField, hvalue, hfield]

theorem nextField_start {n : ℕ} {rest : List UInt8} {start : ℕ} (hn : n ≤ ulongMax)
    (h : ∀ b ∈ rest.head?, isDigit b = false) :
    nextField (32 :: (integer n ++ rest), start) 22 = some (rest, n) := by
  simp [nextField, integer_natCast, strtoull_decimal hn h]

theorem head_spaced {fields : List ℤ} {rest : List UInt8}
    (h : ∀ b ∈ rest.head?, isDigit b = false) :
    ∀ b ∈ (StatRecord.spaced fields ++ rest).head?, isDigit b = false := by
  cases fields with
  | nil => exact h
  | cons n fields =>
    intro b hb
    obtain rfl : 32 = b := by simpa [StatRecord.spaced] using hb
    decide

/-- The loop passes over all fields up to the start time. -/
theorem foldlM_nextField {fields : List ℤ} {rest : List UInt8} {start first : ℕ}
    (hfields : ∀ n ∈ fields, n.natAbs ≤ ulongMax) (hfirst : first + fields.length ≤ 22)
    (h : ∀ b ∈ rest.head?, isDigit b = false) :
    (List.range' first fields.length).foldlM nextField (StatRecord.spaced fields ++ rest, start) =
      some (rest, start) := by
  induction fields generalizing first with
  | nil => rfl
  | cons n fields ih =>
    have hlength : first + 1 + fields.length ≤ 22 := by
      simp only [List.length_cons] at hfirst
      omega
    have hstep : nextField (32 :: (integer n ++ (StatRecord.spaced fields ++ rest)), start) first =
        some (StatRecord.spaced fields ++ rest, start) :=
      nextField_integer (hfields n (by simp)) (by omega) (head_spaced h)
    have hcons : StatRecord.spaced (n :: fields) ++ rest =
        32 :: (integer n ++ (StatRecord.spaced fields ++ rest)) := by
      simp [StatRecord.spaced]
    rw [List.length_cons, List.range'_succ, List.foldlM_cons, hcons, hstep]
    exact ih (fun m hm => hfields m (by simp [hm])) hlength

theorem readFields_spaced {fields : List ℤ} {n : ℕ} {rest : List UInt8}
    (hlength : fields.length = 17) (hfields : ∀ n ∈ fields, n.natAbs ≤ ulongMax)
    (hn : n ≤ ulongMax) (h : ∀ b ∈ rest.head?, isDigit b = false) :
    readFields (StatRecord.spaced fields ++ (StatRecord.spaced [(n : ℤ)] ++ rest)) =
      some (rest, n) := by
  have hrange : List.range' 5 18 = List.range' 5 fields.length ++ [22] := by
    rw [hlength]
    rfl
  unfold readFields
  rw [hrange, List.foldlM_append, foldlM_nextField hfields (by omega) (head_spaced h)]
  simpa [StatRecord.spaced] using nextField_start hn h

/-- A record is read back from the last parenthesis on, whatever ends it but a digit. -/
theorem parseStatRecord_bytes (r : StatRecord) {record : CStr} (above ending : List UInt8)
    (expected : ℕ)
    (hrecord : record.bytes = above ++ 41 :: 32 :: r.state :: 32 :: (decimal r.ppid ++
      (StatRecord.spaced r.fields ++ (StatRecord.spaced [(r.start : ℤ)] ++
        (StatRecord.spaced r.tail ++ ending)))))
    (hparen : (41 : UInt8) ∉ ending) (hending : ∀ b ∈ ending.head?, isDigit b = false) :
    parseStatRecord record expected = some ⟨expected, r.ppid, r.start⟩ := by
  have hlast : strrchr 41 record.bytes = some (41 :: 32 :: r.state :: 32 :: (decimal r.ppid ++
      (StatRecord.spaced r.fields ++ (StatRecord.spaced [(r.start : ℤ)] ++
        (StatRecord.spaced r.tail ++ ending))))) := by
    rw [hrecord]
    refine strrchr_append above ?_
    intro h
    simp only [List.mem_cons, List.mem_append] at h
    rcases h with h | h | h | h | h | h | h | h
    · contradiction
    · exact r.state_ne_paren h.symm
    · contradiction
    · exact (StatRecord.plain_of_mem_decimal h).2 rfl
    · exact (StatRecord.plain_of_mem_spaced h).2 rfl
    · exact (StatRecord.plain_of_mem_spaced h).2 rfl
    · exact (StatRecord.plain_of_mem_spaced h).2 rfl
    · exact hparen h
  have hppid : strtol (decimal r.ppid ++ (StatRecord.spaced r.fields ++
      (StatRecord.spaced [(r.start : ℤ)] ++ (StatRecord.spaced r.tail ++ ending)))) =
        some ⟨r.ppid, StatRecord.spaced r.fields ++ (StatRecord.spaced [(r.start : ℤ)] ++
          (StatRecord.spaced r.tail ++ ending)), false⟩ :=
    strtol_decimal (r.ppid_le.trans (by decide))
      (head_spaced (head_spaced (head_spaced hending)))
  have hfields : readFields (StatRecord.spaced r.fields ++ (StatRecord.spaced [(r.start : ℤ)] ++
      (StatRecord.spaced r.tail ++ ending))) =
        some (StatRecord.spaced r.tail ++ ending, r.start) :=
    readFields_spaced r.fields_length r.fields_le r.start_le (head_spaced hending)
  unfold parseStatRecord
  simp only [hlast, hppid]
  have hle : ¬ ((r.ppid : ℤ) < 0 ∨ (intMax : ℤ) < r.ppid) := by
    have := r.ppid_le
    omega
  rw [if_neg hle, hfields]
  rfl

/-- A well-formed record is read back. -/
theorem parseStatRecord_text (r : StatRecord) (pid : ℕ) :
    parseStatRecord ⟨r.text pid, r.nulFree_text pid⟩ pid = some ⟨pid, r.ppid, r.start⟩ := by
  have hnewline : ∀ b ∈ ([10] : List UInt8).head?, isDigit b = false := by simp [isDigit]
  refine parseStatRecord_bytes r (decimal pid ++ ([32, 40] ++ r.comm)) [10] pid ?_
    (by decide) hnewline
  simp [StatRecord.text, StatRecord.afterName]

/-- The identity of a process whose record can be read and fits. -/
theorem readIdentity_text (r : StatRecord) (pid : ℕ)
    (h : (r.text pid).length ≤ procRecordLimit) :
    readIdentity pid (.readable (r.text pid)) = .found ⟨pid, r.ppid, r.start⟩ := by
  have hne : r.text pid ≠ [] := by
    intro hnil
    exact decimal_ne_nil pid (List.append_eq_nil_iff.mp hnil).1
  have hrecord : CStr.ofBytes (r.text pid) = ⟨r.text pid, r.nulFree_text pid⟩ := by
    ext1
    exact CStr.ofBytes_bytes (r.nulFree_text pid)
  simp only [StatFile.readable, readIdentity, List.take_of_length_le h, Nat.not_lt.mpr h,
    if_false, hne, hrecord, parseStatRecord_text]
  simp

end Agentwatch
