import LinuxUtilities.Foundation.Bytes
import LinuxUtilities.Foundation.QSort

/-! `parse_snapshot`: reading lines within limits, checking them, and sorting the entries. -/
namespace Sysdiff
open CString

abbrev Errno := ℕ

def sizeMax : ℕ := 2 ^ 64 - 1
def maxLineBytes : ℕ := 65536
def maxSnapshotEntries : ℕ := 65536
def maxSnapshotBytes : ℕ := 16777216

structure Entry where
  key : CStr
  value : CStr
  deriving DecidableEq

/-- The entries, and the slots that `realloc` gave the array. -/
structure Snapshot where
  items : List Entry
  cap : ℕ

def Snapshot.empty : Snapshot := ⟨[], 0⟩

inductive LineStatus where
  | ok | eof | embeddedNul | tooLong | byteLimit | readError | allocError
  deriving DecidableEq, Repr

inductive AppendStatus where
  | ok | entryLimit | allocError
  deriving DecidableEq, Repr

/-- An opened stream: its bytes, whether reading them ends in an error instead of the end
of file, and what `fclose` answers. -/
structure InputFile where
  bytes : List UInt8
  readFails : Bool
  closeError : Option Errno

/-- The process around the parser. The outcomes of allocations and of writes to standard
output are listed in order; after the end of its list each of them succeeds. -/
structure Proc where
  allocs : List Bool
  outs : List (Option Errno)
  stdout : List UInt8
  stderr : List UInt8
  strerror : Errno → List UInt8

def checkedSizeAdd (left right : ℕ) : Option ℕ :=
  if sizeMax - right < left then none else some (left + right)

def checkedSizeMul (left right : ℕ) : Option ℕ :=
  if right ≠ 0 ∧ sizeMax / right < left then none else some (left * right)

def hexUpper (n : UInt8) : UInt8 := if n < 10 then 48 + n else 55 + n

/-- What `put_escaped_bytes` puts for one byte. -/
def escapedByte (ch : UInt8) : List UInt8 :=
  if ch = 92 then ascii "\\\\"
  else if 0x20 ≤ ch ∧ ch ≤ 0x7e then [ch]
  else ascii "\\x" ++ [hexUpper (ch / 16), hexUpper (ch % 16)]

/-- `diag_puts_escaped`. -/
def escapedBytes (text : CStr) : List UInt8 := text.bytes.flatMap escapedByte

/-- An error return: the text goes to standard error. -/
def failWith {β : Type} (text : List UInt8) (p : Proc) : Except Proc β :=
  .error { p with stderr := p.stderr ++ text }

/-- An error return with a diagnostic for a line. -/
def failAtLine {β : Type} (path : CStr) (lineNo : ℕ) (text : String) (p : Proc) : Except Proc β :=
  failWith (escapedBytes path ++ ascii s!":{lineNo}: " ++ ascii text ++ ascii "\n") p

/-- What `read_line` returns: its status and line, and the stream, the running total and
the allocations after it. -/
structure LineRead where
  status : LineStatus
  line : List UInt8
  rest : List UInt8
  total : ℕ
  allocs : List Bool

/-- The room for one more byte and the terminator in the buffer of `read_line`; `none` when
it cannot be had. -/
def growLine (len cap : ℕ) (allocs : List Bool) : Option ℕ × List Bool :=
  if cap = 0 ∨ cap - 1 ≤ len then
    if cap ≠ 0 ∧ sizeMax / 2 < cap then (none, allocs)
    else
      let newCap := if cap = 0 then 128 else cap * 2
      if newCap ≤ cap ∨ checkedSizeMul newCap 1 = none then (none, allocs)
      else (if allocs.headD true then some newCap else none, allocs.tail)
  else (some cap, allocs)

/-- A full buffer is doubled unless memory is refused; the overflow checks are far away. -/
theorem growLine_full {len cap : ℕ} (allocs : List Bool) (hfull : cap = 0 ∨ cap - 1 ≤ len)
    (hcap : cap ≤ 2 ^ 20) :
    growLine len cap allocs =
      (if allocs.headD true then some (if cap = 0 then 128 else cap * 2) else none,
        allocs.tail) := by
  have hsmall : ¬ (cap ≠ 0 ∧ sizeMax / 2 < cap) := by
    unfold sizeMax
    omega
  have hnew : cap < (if cap = 0 then 128 else cap * 2) ∧
      (if cap = 0 then 128 else cap * 2) ≤ 2 ^ 21 := by
    split <;> omega
  have hmul : checkedSizeMul (if cap = 0 then 128 else cap * 2) 1 ≠ none := by
    unfold checkedSizeMul sizeMax
    rw [if_neg (by omega)]
    simp
  rw [growLine, if_pos hfull, if_neg hsmall]
  exact if_neg (by simp [hmul, hnew.1])

/-- The loop of `read_line` over the stream, with the bytes of the line so far and the
capacity of its buffer. -/
def readLineLoop (readFails : Bool) :
    List UInt8 → List UInt8 → ℕ → ℕ → List Bool → LineRead
  | [], line, _, total, allocs =>
    if readFails then ⟨.readError, [], [], total, allocs⟩
    else if line = [] then ⟨.eof, [], [], total, allocs⟩
    else ⟨.ok, line, [], total, allocs⟩
  | ch :: rest, line, cap, total, allocs =>
    if maxSnapshotBytes ≤ total then ⟨.byteLimit, [], rest, total, allocs⟩
    else if ch = 0 then ⟨.embeddedNul, [], rest, total + 1, allocs⟩
    else if ch ≠ 10 ∧ maxLineBytes < line.length then ⟨.tooLong, [], rest, total + 1, allocs⟩
    else
      match growLine line.length cap allocs with
      | (none, allocs) => ⟨.allocError, [], rest, total + 1, allocs⟩
      | (some cap, allocs) =>
        if ch = 10 then ⟨.ok, line ++ [ch], rest, total + 1, allocs⟩
        else readLineLoop readFails rest (line ++ [ch]) cap (total + 1) allocs

/-- `read_line`. -/
def readLine (readFails : Bool) (stream : List UInt8) (total : ℕ) (allocs : List Bool) : LineRead :=
  readLineLoop readFails stream [] 0 total allocs

theorem readLineLoop_rest_le (readFails : Bool) (stream line : List UInt8) (cap total : ℕ)
    (allocs : List Bool) :
    (readLineLoop readFails stream line cap total allocs).rest.length ≤ stream.length - 1 := by
  fun_induction readLineLoop readFails stream line cap total allocs with
  | case1 | case2 | case3 | case4 | case5 | case6 | case7 | case8 => simp
  | case9 ch rest line total _ allocs _ _ _ cap allocs' _ _ ih =>
    simp only [List.length_cons]
    omega

/-- Every line that is read takes something from the stream. -/
theorem readLine_rest_lt {readFails : Bool} {stream : List UInt8} {total : ℕ} {allocs : List Bool}
    (h : (readLine readFails stream total allocs).status = .ok) :
    (readLine readFails stream total allocs).rest.length < stream.length := by
  cases stream with
  | nil =>
    unfold readLine readLineLoop at h
    split at h
    · contradiction
    · contradiction
  | cons ch rest =>
    have hle := readLineLoop_rest_le readFails (ch :: rest) [] 0 total allocs
    simp only [List.length_cons] at hle ⊢
    exact Nat.lt_succ_of_le hle

def isHorizontalSpace (ch : UInt8) : Bool := ch = 32 ∨ ch = 9

/-- `is_comment_line`. -/
def isCommentLine (line : List UInt8) : Bool := (line.dropWhile isHorizontalSpace).head? = some 35

/-- `is_blank_line`. -/
def isBlankLine (line : List UInt8) : Bool := line.dropWhile isHorizontalSpace = []

def isKeyByte (ch : UInt8) : Bool :=
  (65 ≤ ch ∧ ch ≤ 90) ∨ (97 ≤ ch ∧ ch ≤ 122) ∨ (48 ≤ ch ∧ ch ≤ 57) ∨ ch = 46 ∨ ch = 95 ∨
    ch = 45 ∨ ch = 47

/-- The loop of `is_valid_key`, with the byte before and whether a dot was seen. -/
def keyLoop : Option UInt8 → Bool → List UInt8 → Bool
  | _, sawDot, [] => sawDot
  | previous, sawDot, ch :: rest =>
    if !isKeyByte ch then false
    else if ch = 46 then
      if previous = some 46 then false else keyLoop (some ch) true rest
    else keyLoop (some ch) sawDot rest

/-- `is_valid_key`. -/
def isValidKey (key : List UInt8) : Bool :=
  if key = [] ∨ key.head? = some 47 ∨ key.getLast? = some 46 then false else keyLoop none false key

/-- `copy_range`. -/
def copyRange (text : List UInt8) (allocs : List Bool) : Option CStr × List Bool :=
  if maxLineBytes < text.length ∨ checkedSizeAdd text.length 1 = none then (none, allocs)
  else (if allocs.headD true then some (.ofBytes text) else none, allocs.tail)

/-- `snapshot_append`; an entry has 16 bytes. -/
def snapshotAppend (snapshot : Snapshot) (entry : Entry) (allocs : List Bool) :
    AppendStatus × Snapshot × List Bool :=
  if maxSnapshotEntries ≤ snapshot.items.length then (.entryLimit, snapshot, allocs)
  else if snapshot.items.length = snapshot.cap then
    if snapshot.cap ≠ 0 ∧ sizeMax / 2 < snapshot.cap then (.allocError, snapshot, allocs)
    else
      let newCap := min (if snapshot.cap = 0 then 8 else snapshot.cap * 2) maxSnapshotEntries
      if newCap ≤ snapshot.cap ∨ checkedSizeMul newCap 16 = none then
        (.allocError, snapshot, allocs)
      else if allocs.headD true then
        (.ok, ⟨snapshot.items ++ [entry], newCap⟩, allocs.tail)
      else (.allocError, snapshot, allocs.tail)
  else (.ok, { snapshot with items := snapshot.items ++ [entry] }, allocs)

/-- The line without its ending: an LF, and one CR before it. -/
def stripEnding (line : List UInt8) : List UInt8 :=
  if line.getLast? = some 10 then
    if line.dropLast.getLast? = some 13 then line.dropLast.dropLast else line.dropLast
  else line

/-- What `parse_snapshot` does with a record whose key and value are copied. -/
def appendEntry (path : CStr) (lineNo : ℕ) (key value : Option CStr) (snapshot : Snapshot)
    (p : Proc) : Except Proc (Snapshot × Proc) :=
  match key, value with
  | some key, some value =>
    match snapshotAppend snapshot ⟨key, value⟩ p.allocs with
    | (.ok, snapshot, allocs) => .ok (snapshot, { p with allocs := allocs })
    | (.entryLimit, _, allocs) =>
      failAtLine path lineNo
        s!"snapshot entry limit exceeded (maximum {maxSnapshotEntries} entries)"
        { p with allocs := allocs }
    | (.allocError, _, allocs) =>
      failAtLine path lineNo "allocation failure" { p with allocs := allocs }
  | _, _ => failAtLine path lineNo "allocation failure" p

/-- What `parse_snapshot` does with a line without its ending. -/
def parseLine (path : CStr) (lineNo : ℕ) (line : List UInt8) (snapshot : Snapshot) (p : Proc) :
    Except Proc (Snapshot × Proc) :=
  if maxLineBytes < line.length then
    failAtLine path lineNo s!"line length limit exceeded (maximum {maxLineBytes} bytes)" p
  else if isBlankLine line || isCommentLine line then .ok (snapshot, p)
  else if 61 ∉ line then failAtLine path lineNo "missing '=' separator" p
  else
    let keyLen := line.idxOf 61
    if keyLen = 0 then failAtLine path lineNo "empty key" p
    else if !isValidKey (line.take keyLen) then failAtLine path lineNo "invalid key syntax" p
    else
      let key := copyRange (line.take keyLen) p.allocs
      let value := copyRange (line.drop (keyLen + 1)) key.2
      appendEntry path lineNo key.1 value.1 snapshot { p with allocs := value.2 }

/-- The loop of `parse_snapshot` over the lines of the stream. -/
def parseLines (path : CStr) (readFails : Bool) (stream : List UInt8) (lineNo total : ℕ)
    (snapshot : Snapshot) (p : Proc) : Except Proc (Snapshot × Proc) :=
  let r := readLine readFails stream total p.allocs
  let p := { p with allocs := r.allocs }
  match h : r.status with
  | .eof => .ok (snapshot, p)
  | .embeddedNul => failAtLine path (lineNo + 1) "embedded NUL byte" p
  | .tooLong =>
    failAtLine path (lineNo + 1) s!"line length limit exceeded (maximum {maxLineBytes} bytes)" p
  | .byteLimit =>
    failAtLine path (lineNo + 1)
      s!"snapshot byte limit exceeded (maximum {maxSnapshotBytes} bytes)" p
  | .readError => failAtLine path (lineNo + 1) "read error" p
  | .allocError => failAtLine path (lineNo + 1) "allocation failure" p
  | .ok => do
    let (snapshot, p) ← parseLine path (lineNo + 1) (stripEnding r.line) snapshot p
    parseLines path readFails r.rest (lineNo + 1) r.total snapshot p
termination_by stream.length
decreasing_by exact readLine_rest_lt h

/-- `compare_entries_by_key`. -/
def compareEntriesByKey (left right : Entry) : ℤ := strcmp left.key.bytes right.key.bytes

/-- `validate_no_duplicates`: the first key that equals the one before it. -/
def validateNoDuplicates : List Entry → Option CStr
  | [] => none
  | [_] => none
  | left :: right :: rest =>
    if strcmp left.key.bytes right.key.bytes = 0 then some right.key
    else validateNoDuplicates (right :: rest)

/-- `parse_snapshot` on an opened stream. -/
def loadSnapshot (q : QSort compareEntriesByKey) (path : CStr) (file : InputFile)
    (snapshot : Snapshot) (p : Proc) : Except Proc (Snapshot × Proc) := do
  let (snapshot, p) ← parseLines path file.readFails file.bytes 0 0 snapshot p
  match file.closeError with
  | some err =>
    failWith (escapedBytes path ++ ascii ": close failed: " ++ p.strerror err ++ ascii "\n") p
  | none =>
    let items := if 1 < snapshot.items.length then q.sort snapshot.items else snapshot.items
    match validateNoDuplicates items with
    | some key =>
      failWith (escapedBytes path ++ ascii ": duplicate key: " ++ escapedBytes key ++ ascii "\n") p
    | none => .ok ({ snapshot with items := items }, p)

/-- The result of `parse_snapshot`: its status, and the snapshot and the process after it. -/
structure Parsed where
  status : ℕ
  snapshot : Snapshot
  proc : Proc

/-- `parse_snapshot`; `snapshot_free` leaves an empty snapshot. -/
def parseSnapshot (q : QSort compareEntriesByKey) (path : CStr) (file : Except Errno InputFile)
    (snapshot : Snapshot) (p : Proc) : Parsed :=
  match file with
  | .error err =>
    let text := escapedBytes path ++ ascii ": cannot open: " ++ p.strerror err ++ ascii "\n"
    ⟨2, snapshot, { p with stderr := p.stderr ++ text }⟩
  | .ok file =>
    match loadSnapshot q path file snapshot p with
    | .ok (snapshot, p) => ⟨0, snapshot, p⟩
    | .error p => ⟨2, .empty, p⟩

end Sysdiff
