import LinuxUtilities.Foundation.Decimal

/-! The text that `openunlink` reads and writes: descriptor names, the escaped target and
the finding line, in the fixed buffers they are built in. -/
namespace Openunlink
open CString

def intMax : ℕ := 2 ^ 31 - 1
def sizeMax : ℕ := 2 ^ 64 - 1
def fdRetainCap : ℕ := 65536
def targetLenCap : ℕ := 65536
def targetBufSize : ℕ := 65537

/-- Three digits a byte of an `int`. -/
def intDecimalBound : ℕ := 3 * 4
/-- Three digits a byte of a `uintmax_t`. -/
def uintmaxDecimalBound : ℕ := 3 * 8

def sizeAdd (a b : ℕ) : Option ℕ := if sizeMax - b < a then none else some (a + b)

def sizeMul (a b : ℕ) : Option ℕ := if a ≠ 0 ∧ sizeMax / a < b then none else some (a * b)

/-- `finding_line_capacity`; 0 when the arithmetic fails. -/
def findingLineCapacity : ℕ :=
  let fixed := ascii "OPEN_UNLINKED\tpid=\tfd=\tsize=\ttarget=\"\"\n"
  let cap : Option ℕ := do
    let cap ← sizeAdd fixed.length intDecimalBound
    let cap ← sizeAdd cap intDecimalBound
    let cap ← sizeAdd cap uintmaxDecimalBound
    let target ← sizeMul targetLenCap 4
    let cap ← sizeAdd cap target
    sizeAdd cap 1
  cap.getD 0

/-- `process_path_capacity`. -/
def processPathCapacity : ℕ :=
  let cap : Option ℕ := do
    let cap ← sizeAdd (ascii "/proc//fd").length intDecimalBound
    sizeAdd cap 1
  cap.getD 0

/-- The loop of `parse_canonical_int`, over an arithmetic: every number that it computes goes
through `ulong`. -/
def parseDigitsWith {m : Type → Type} [Monad m] (ulong : ℕ → m ℕ) :
    List UInt8 → ℕ → ℕ → m (Option ℕ)
  | [], acc, _ => pure (some acc)
  | ch :: p, acc, digits =>
    if ch < 48 ∨ 57 < ch then pure none
    else if intMax / 10 < acc then pure none
    else do
      let tens ← ulong (acc * 10)
      let acc ← ulong (tens + (ch.toNat - 48))
      if intMax < acc then pure none
      else if intDecimalBound < digits + 1 then pure none
      else parseDigitsWith ulong p acc (digits + 1)

/-- The loop with the numbers of `unsigned long`. -/
def parseDigits (p : List UInt8) (acc digits : ℕ) : Option ℕ :=
  Id.run (parseDigitsWith (fun n => pure (n % 2 ^ 64)) p acc digits)

/-- `parse_canonical_int`. -/
def parseCanonicalInt (text : CStr) (allowZero : Bool) : Option ℕ :=
  match text.bytes with
  | [] => none
  | b :: rest =>
    if b = 48 then if ¬ allowZero ∨ rest ≠ [] then none else some 0
    else if b < 49 ∨ 57 < b then none
    else (parseDigits (b :: rest) 0 0).filter (1 ≤ ·)

def parsePid (text : CStr) : Option ℕ := parseCanonicalInt text false

def parseFdName (text : CStr) : Option ℕ := parseCanonicalInt text true

theorem parseDigits_nil (acc digits : ℕ) : parseDigits [] acc digits = some acc := rfl

theorem parseDigits_cons (ch : UInt8) (p : List UInt8) (acc digits : ℕ) :
    parseDigits (ch :: p) acc digits =
      if ch < 48 ∨ 57 < ch then none
      else if intMax / 10 < acc then none
      else if intMax < (acc * 10 + (ch.toNat - 48)) % 2 ^ 64 then none
      else if intDecimalBound < digits + 1 then none
      else parseDigits p ((acc * 10 + (ch.toNat - 48)) % 2 ^ 64) (digits + 1) := by
  simp only [parseDigits, parseDigitsWith, pure_bind, Nat.mod_add_mod]
  split_ifs <;> rfl

theorem parseDigits_le {p : List UInt8} {acc digits n : ℕ} (hacc : acc ≤ intMax)
    (h : parseDigits p acc digits = some n) : n ≤ intMax := by
  induction p generalizing acc digits with
  | nil =>
    obtain rfl := Option.some.inj h
    exact hacc
  | cons ch p ih =>
    rw [parseDigits_cons] at h
    split at h
    · contradiction
    split at h
    · contradiction
    split at h
    · contradiction
    next hle =>
      split at h
      · contradiction
      · exact ih (Nat.not_lt.mp hle) h

/-- What is parsed fits in an `int`. -/
theorem parseCanonicalInt_le {text : CStr} {allowZero : Bool} {n : ℕ}
    (h : parseCanonicalInt text allowZero = some n) : n ≤ intMax := by
  unfold parseCanonicalInt at h
  split at h
  · contradiction
  split at h
  · split at h
    · contradiction
    · obtain rfl := Option.some.inj h
      exact Nat.zero_le _
  · split at h
    · contradiction
    · exact parseDigits_le (Nat.zero_le _) (Option.filter_eq_some_iff.mp h).1

/-- `format_fd_name`, into a buffer of `cap` bytes. -/
def formatFdName (cap fd : ℕ) : Option (List UInt8) :=
  if cap ≤ (decimal fd).length then none else some (decimal fd)

/-- Bytes are stored one after the other. -/
def store (dst : List UInt8) (pos : ℕ) : List UInt8 → List UInt8
  | [] => dst
  | b :: bytes => store (dst.set pos b) (pos + 1) bytes

/-- `snprintf` to `dst + pos` with `room` bytes: what fits is stored with a terminator, and
the length of the whole text is returned. -/
def snprintf (dst : List UInt8) (pos room : ℕ) (text : List UInt8) : List UInt8 × ℕ :=
  (if room = 0 then dst else store dst pos (text.take (room - 1) ++ [0]), text.length)

/-- A digit of `%02X`. -/
def hexDigit (n : UInt8) : UInt8 := if n < 10 then 48 + n else 55 + n

/-- `\x%02X`. -/
def hexEscape (ch : UInt8) : List UInt8 := [92, 120, hexDigit (ch / 16), hexDigit (ch % 16)]

/-- `escape_append`: whether it succeeds, the buffer, and how much of it is used. -/
def escapeAppend (cap : ℕ) : List UInt8 → List UInt8 → ℕ → Bool × List UInt8 × ℕ
  | [], dst, used => (true, dst, used)
  | ch :: src, dst, used =>
    if ch = 34 ∨ ch = 92 then
      if cap < used ∨ cap - used < 2 then (false, dst, used)
      else escapeAppend cap src (store dst used [92, ch]) (used + 2)
    else if 0x20 ≤ ch ∧ ch ≤ 0x7e then
      if cap < used ∨ cap - used < 1 then (false, dst, used)
      else escapeAppend cap src (store dst used [ch]) (used + 1)
    else
      if cap < used ∨ cap - used < 4 then (false, dst, used)
      else
        let (dst, n) := snprintf dst used (cap - used) (hexEscape ch)
        if n ≠ 4 then (false, dst, used) else escapeAppend cap src dst (used + 4)

/-- What `emit_finding` prints before the target. -/
def findingHead (pid fd size : ℕ) : List UInt8 :=
  ascii "OPEN_UNLINKED\tpid=" ++ decimal pid ++ ascii "\tfd=" ++ decimal fd ++
    ascii "\tsize=" ++ decimal size ++ ascii "\ttarget=\""

/-- The part of `emit_finding` before the write: the bytes of the line, if they fit, and the
buffer. -/
def formatFinding (pid fd size : ℕ) (target : List UInt8) (lineCap : ℕ) (buf : List UInt8) :
    Option (List UInt8) × List UInt8 :=
  let (buf, n) := snprintf buf 0 lineCap (findingHead pid fd size)
  if lineCap ≤ n then (none, buf)
  else
    match escapeAppend lineCap target buf n with
    | (false, buf, _) => (none, buf)
    | (true, buf, used) =>
      if lineCap - used < 3 then (none, buf)
      else
        let buf := store buf used [34, 10, 0]
        (some (buf.take (used + 2)), buf)

/-- The escape of one byte of a target. -/
def escapedByte (ch : UInt8) : List UInt8 :=
  if ch = 34 ∨ ch = 92 then [92, ch]
  else if 0x20 ≤ ch ∧ ch ≤ 0x7e then [ch]
  else hexEscape ch

/-- The line of a finding. -/
def findingLine (pid fd size : ℕ) (target : List UInt8) : List UInt8 :=
  findingHead pid fd size ++ target.flatMap escapedByte ++ [34, 10]

end Openunlink
