import LinuxUtilities.Foundation.Bytes
import Mathlib.Data.Nat.Digits.Lemmas

/-! The configuration and state of one `snslice` run, the system around it, and the
operations on chunk files. -/
namespace Snslice
open CString

abbrev Errno := ℕ

def EINTR : Errno := 4
def EEXIST : Errno := 17
def EPIPE : Errno := 32

def ioBufferSize : ℕ := 65536
def maxRecordBytes : ℕ := 16777216
def pathMax : ℕ := 4096

inductive FormatType where
  | ndjson | csv
  deriving DecidableEq, Repr

inductive CsvState where
  | start | unquoted | quoted | escapedQuote
  deriving DecidableEq, Repr

structure SnSliceConfig where
  format : FormatType
  limitBytes : ℕ
  limitRecords : ℕ
  outDir : CStr
  namePrefix : CStr
  deriving DecidableEq

/-- What one `read` answers: at most a buffer of bytes, none of them at end of file. -/
inductive ReadResult where
  | data (bytes : { b : List UInt8 // b.length ≤ ioBufferSize })
  | failed (err : Errno)

inductive WriteResult where
  | wrote (n : ℕ)
  | failed (err : Errno)

/-- The operations on descriptors. A descriptor is named by the `open` that made it,
so that a number the kernel hands out twice gives two names. -/
inductive FdEvent where
  | opened (fd : ℕ)
  | used (fd : ℕ)
  | closed (fd : ℕ)
  deriving DecidableEq, Repr

/-- The system around the process. The outcomes of the calls to come are listed in
order; a call after the end of its list succeeds, a `read` finds the end of file. -/
structure World where
  files : CStr → Option (List UInt8)
  reads : List ReadResult
  opens : List (Option Errno)
  writes : List WriteResult
  closes : List (Option Errno)
  unlinks : List (Option Errno)
  errno : Errno
  strerror : Errno → List UInt8
  /-- The file behind each descriptor open for writing. -/
  targets : ℕ → Option CStr
  nextFd : ℕ
  events : List FdEvent
  stderr : List UInt8

structure SnSliceState where
  inputFd : Option ℕ
  closeInputFd : Bool
  activeChunkFd : Option ℕ
  activeChunkPath : CStr
  chunkIndex : ℕ
  chunkBytes : ℕ
  chunkRecords : ℕ
  recordBytes : ℕ
  totalInputBytes : ℕ
  csvState : CsvState

/-- The process: its state and the system. -/
structure Run where
  st : SnSliceState
  world : World

namespace World

/-- `open` with `O_CREAT | O_EXCL | O_WRONLY`. -/
def openExcl (path : CStr) (w : World) : Option ℕ × World :=
  let w' := { w with opens := w.opens.tail }
  match w.opens.head?.join with
  | some err => (none, { w' with errno := err })
  | none =>
    if (w.files path).isSome then (none, { w' with errno := EEXIST })
    else
      (some w.nextFd, { w' with
        files := Function.update w.files path (some [])
        targets := Function.update w.targets w.nextFd (some path)
        nextFd := w.nextFd + 1
        events := w.events ++ [.opened w.nextFd] })

/-- `close`; the descriptor is gone also when it fails. -/
def close (fd : ℕ) (w : World) : Bool × World :=
  let w' := { w with
    closes := w.closes.tail
    targets := Function.update w.targets fd none
    events := w.events ++ [.closed fd] }
  match w.closes.head?.join with
  | some err => (false, { w' with errno := err })
  | none => (true, w')

theorem close_files (fd : ℕ) (w : World) : (w.close fd).2.files = w.files := by
  unfold close
  split <;> rfl

def unlink (path : CStr) (w : World) : World :=
  let w' := { w with unlinks := w.unlinks.tail }
  match w.unlinks.head?.join with
  | some err => { w' with errno := err }
  | none => { w' with files := Function.update w.files path none }

end World

/-- What the loop of `write_all` did: the bytes that were written, the outcomes left
for later writes, `errno`, and whether all was written. -/
structure Written where
  bytes : List UInt8
  writes : List WriteResult
  errno : Errno
  ok : Bool

def writeLoop (data : List UInt8) : List WriteResult → Errno → Written
  | writes, err =>
    if data = [] then ⟨[], writes, err, true⟩
    else
      match writes with
      | [] => ⟨data, [], err, true⟩
      | .failed e :: writes =>
        if e = EINTR then writeLoop data writes e else ⟨[], writes, e, false⟩
      | .wrote n :: writes =>
        if n = 0 then ⟨[], writes, err, false⟩
        else
          let rest := writeLoop (data.drop n) writes err
          { rest with bytes := data.take n ++ rest.bytes }

/-- `write_all`. -/
def World.writeAll (fd : ℕ) (data : List UInt8) (w : World) : Bool × World :=
  let written := writeLoop data w.writes w.errno
  (written.ok, { w with
    writes := written.writes
    errno := written.errno
    events := w.events ++ [.used fd]
    files := match w.targets fd with
      | some path => Function.update w.files path ((w.files path).map (· ++ written.bytes))
      | none => w.files })

def hexUpper (n : UInt8) : UInt8 := if n < 10 then 48 + n else 55 + n

/-- The escape that `sanitize_string` writes for one byte. -/
def sanitizedByte (b : UInt8) : List UInt8 :=
  if b = 34 then ascii "\\x22"
  else if b = 92 then ascii "\\x5C"
  else if 0x20 ≤ b ∧ b ≤ 0x7E then [b]
  else [92, 120, hexUpper ((b >>> 4) &&& 0x0F), hexUpper (b &&& 0x0F)]

/-- The loop of `sanitize_string`, with the bytes already in the destination. -/
def sanitizeLoop (dstSize : ℕ) : List UInt8 → List UInt8 → List UInt8
  | dst, [] => dst
  | dst, b :: src =>
    if dst.length + 5 < dstSize then sanitizeLoop dstSize (dst ++ sanitizedByte b) src else dst

/-- `sanitize_string`: the destination before its terminator. -/
def sanitizeString (src : CStr) (dstSize : ℕ) : List UInt8 := sanitizeLoop dstSize [] src.bytes

/-- `emit_diagnostic`, with its buffer of 2048 bytes for the details. -/
def emitDiagnostic (hazard : String) (details : List UInt8) (w : World) : World :=
  { w with stderr := w.stderr ++ ascii "snslice: " ++ ascii hazard ++ ascii ": " ++
      details.take 2047 ++ ascii "\n" }

/-- `%05zu`. -/
def zeroPad5 (n : ℕ) : List UInt8 :=
  let digits := (Nat.digits 10 n).reverse.map fun d => (48 + d).toUInt8
  List.replicate (5 - digits.length) 48 ++ digits

theorem digit_toNat {n d : ℕ} (hd : d ∈ Nat.digits 10 n) : (48 + d).toUInt8.toNat = 48 + d := by
  have hlt := Nat.digits_lt_base (by norm_num : 1 < 10) hd
  simp only [Nat.toUInt8, UInt8.toNat_ofNat']
  omega

theorem zeroPad5_nulFree (n : ℕ) : (0 : UInt8) ∉ zeroPad5 n := by
  simp only [zeroPad5, List.mem_append, List.mem_map, List.mem_reverse, not_or, not_exists, not_and]
  constructor
  · intro hmem
    exact absurd (List.eq_of_mem_replicate hmem) (by decide)
  · intro d hd hzero
    have hval := digit_toNat hd
    rw [hzero] at hval
    simp only [UInt8.toNat_zero] at hval
    omega

theorem zeroPad5_value (n : ℕ) :
    Nat.ofDigits 10 ((zeroPad5 n).reverse.map fun b => b.toNat - 48) = n := by
  have hdigits : (Nat.digits 10 n).map ((fun b => b.toNat - 48) ∘ fun d => (48 + d).toUInt8) =
      Nat.digits 10 n := by
    apply (List.map_congr_left _).trans (List.map_id _)
    intro d hd
    simp only [Function.comp_apply, digit_toNat hd, Nat.add_sub_cancel_left, id_eq]
  simp only [zeroPad5, List.reverse_append, List.map_append, List.map_reverse, List.reverse_reverse,
    List.reverse_replicate, List.map_replicate, List.map_map, hdigits]
  rw [show UInt8.toNat 48 - 48 = 0 from rfl, Nat.ofDigits_append_replicate_zero,
    Nat.ofDigits_digits]

theorem zeroPad5_injective : Function.Injective zeroPad5 := by
  intro m n h
  rw [← zeroPad5_value m, h, zeroPad5_value]

def indexField (n : ℕ) : CStr := ⟨zeroPad5 n, zeroPad5_nulFree n⟩

def extension (format : FormatType) : CStr :=
  match format with
  | .ndjson => .lit ".ndjson"
  | .csv => .lit ".csv"

/-- The path that `open_chunk` prints for a chunk index. -/
def chunkPath (cfg : SnSliceConfig) (index : ℕ) : CStr :=
  let separator : CStr := if cfg.outDir.bytes.getLast? = some 47 then ∅ else .lit "/"
  cfg.outDir ++ separator ++ cfg.namePrefix ++ indexField index ++ extension cfg.format

theorem chunkPath_injective (cfg : SnSliceConfig) : Function.Injective (chunkPath cfg) := by
  intro m n h
  have hbytes := congrArg CStr.bytes h
  simp only [chunkPath, CStr.append_bytes, List.append_assoc, List.append_cancel_left_eq,
    List.append_cancel_right_eq] at hbytes
  exact zeroPad5_injective hbytes

/-- The first half of `abort_cleanup`: the chunk is closed and removed. -/
def abortChunk (r : Run) : Run :=
  match r.st.activeChunkFd with
  | none => r
  | some fd =>
    let w := (r.world.close fd).2
    let st := { r.st with activeChunkFd := none, activeChunkPath := ∅ }
    if r.st.activeChunkPath = ∅ then ⟨st, w⟩ else ⟨st, w.unlink r.st.activeChunkPath⟩

/-- The second half of `abort_cleanup`: the input is closed when it is a file. -/
def abortInput (r : Run) : Run :=
  match r.st.closeInputFd, r.st.inputFd with
  | true, some fd => ⟨{ r.st with inputFd := none }, (r.world.close fd).2⟩
  | _, _ => r

/-- `abort_cleanup`. -/
def abortCleanup (r : Run) : Run := abortInput (abortChunk r)

/-- An error return: the diagnostic is printed and the state is kept. -/
def failWith {β : Type} (hazard : String) (details : List UInt8) (r : Run) : Except Run β :=
  .error { r with world := emitDiagnostic hazard details r.world }

@[simp] theorem ok_bind {β γ : Type} (a : β) (f : β → Except Run γ) :
    (Except.ok a >>= f) = f a := rfl

/-- `open_chunk`, with the descriptor that it stores. An error carries the state in
which `-1` is returned. -/
def openChunk (cfg : SnSliceConfig) (r : Run) : Except Run (ℕ × Run) :=
  let path := chunkPath cfg r.st.chunkIndex
  let st := { r.st with activeChunkPath := ∅ }
  if pathMax ≤ path.length then
    failWith "OUTPUT_DIR_ERROR"
      (ascii "path length exceeds maximum limit: '" ++ sanitizeString cfg.outDir 1024 ++ ascii "'")
      ⟨st, r.world⟩
  else
    match r.world.openExcl path with
    | (some fd, w) => .ok (fd, ⟨{ st with activeChunkPath := path, activeChunkFd := some fd }, w⟩)
    | (none, w) =>
      let san := sanitizeString path (pathMax * 4)
      if w.errno = EEXIST then
        failWith "OUTPUT_COLLISION" (ascii "\"" ++ san ++ ascii "\"") ⟨st, w⟩
      else
        failWith "CHUNK_OPEN_ERROR"
          (ascii "failed to open '" ++ san ++ ascii "': " ++ w.strerror w.errno) ⟨st, w⟩

/-- `close_chunk`. -/
def closeChunk (r : Run) : Except Run Run :=
  match r.st.activeChunkFd with
  | none => .ok r
  | some fd =>
    let st := { r.st with activeChunkFd := none, activeChunkPath := ∅ }
    match r.world.close fd with
    | (false, w) =>
      failWith "CHUNK_WRITE_ERROR"
        (ascii "failed to close chunk file: '" ++
          sanitizeString r.st.activeChunkPath (pathMax * 4) ++ ascii "'")
        ⟨st, w.unlink r.st.activeChunkPath⟩
    | (true, w) =>
      .ok ⟨{ st with chunkIndex := st.chunkIndex + 1, chunkBytes := 0, chunkRecords := 0 }, w⟩

/-- The second half of `write_to_chunk`: the chunk is open. -/
def writeOpen (data : List UInt8) (fd : ℕ) (r : Run) : Except Run Run :=
  match r.world.writeAll fd data with
  | (true, w) => .ok ⟨{ r.st with chunkBytes := r.st.chunkBytes + data.length }, w⟩
  | (false, w) =>
    let san := sanitizeString r.st.activeChunkPath (pathMax * 4)
    let cleaned := abortCleanup ⟨r.st, w⟩
    if w.errno = EPIPE then
      failWith "BROKEN_PIPE" (ascii "output pipe broken while writing to '" ++ san ++ ascii "'")
        cleaned
    else
      failWith "CHUNK_WRITE_ERROR"
        (ascii "failed to write to '" ++ san ++ ascii "': " ++ w.strerror w.errno) cleaned

/-- `write_to_chunk`. -/
def writeToChunk (cfg : SnSliceConfig) (data : List UInt8) (r : Run) : Except Run Run :=
  if data = [] then .ok r
  else
    match r.st.activeChunkFd with
    | some fd => writeOpen data fd r
    | none => do
      let (fd, r) ← openChunk cfg r
      writeOpen data fd r

end Snslice
