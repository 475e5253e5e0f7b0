import LinuxUtilities.Snslice.State

/-! `stream_slice`: the record automaton, the loop over the bytes of a block, the loop
over the blocks, and the end of `main` that runs it. -/
namespace Snslice
open CString

/-- The `switch` of `stream_slice`: the next state, and whether the byte ends a record.
No byte but these four may follow a closing quote. -/
def csvStep : CsvState → UInt8 → Option (CsvState × Bool)
  | .start, c =>
    if c = 34 then some (.quoted, false)
    else if c = 10 then some (.start, true)
    else if c = 44 ∨ c = 13 then some (.start, false)
    else some (.unquoted, false)
  | .unquoted, c =>
    if c = 44 then some (.start, false)
    else if c = 10 then some (.start, true)
    else some (.unquoted, false)
  | .quoted, c => if c = 34 then some (.escapedQuote, false) else some (.quoted, false)
  | .escapedQuote, c =>
    if c = 34 then some (.quoted, false)
    else if c = 44 then some (.start, false)
    else if c = 10 then some (.start, true)
    else if c = 13 then some (.escapedQuote, false)
    else none

/-- How a byte moves the record automaton of the format. -/
def recordStep (format : FormatType) (s : CsvState) (c : UInt8) : Option (CsvState × Bool) :=
  match format with
  | .ndjson => some (s, c = 10)
  | .csv => csvStep s c

/-- The checks on one byte, and whether it is a record boundary. -/
def acceptByte (cfg : SnSliceConfig) (c : UInt8) (r : Run) : Except Run (Bool × Run) :=
  if c = 0 then
    failWith (match cfg.format with | .ndjson => "MALFORMED_NDJSON" | .csv => "MALFORMED_CSV")
      (ascii "embedded NUL byte detected") (abortCleanup r)
  else
    let r := { r with st.recordBytes := r.st.recordBytes + 1 }
    if maxRecordBytes < r.st.recordBytes then
      failWith "RECORD_LENGTH_LIMIT" (ascii "record exceeds 16 MiB limit") (abortCleanup r)
    else
      match recordStep cfg.format r.st.csvState c with
      | some (s, boundary) => .ok (boundary, { r with st.csvState := s })
      | none =>
        failWith "MALFORMED_CSV" (ascii "invalid character after closing quote") (abortCleanup r)

def shouldSplit (cfg : SnSliceConfig) (st : SnSliceState) : Bool :=
  decide (0 < cfg.limitBytes ∧ cfg.limitBytes ≤ st.chunkBytes) ||
    decide (0 < cfg.limitRecords ∧ cfg.limitRecords ≤ st.chunkRecords)

/-- What `stream_slice` does at a record boundary with the slice that ends there. -/
def endRecord (cfg : SnSliceConfig) (slice : List UInt8) (r : Run) : Except Run Run := do
  let r ← writeToChunk cfg slice r
  let r := { r with st.recordBytes := 0, st.chunkRecords := r.st.chunkRecords + 1 }
  if shouldSplit cfg r.st then closeChunk r else .ok r

/-- The `for` loop over a block, with the bytes from `slice_start` on that were already
scanned; what follows the last boundary is written when the block ends. -/
def scanBlock (cfg : SnSliceConfig) : List UInt8 → List UInt8 → Run → Except Run Run
  | slice, [], r => writeToChunk cfg slice r
  | slice, c :: rest, r => do
    let (boundary, r) ← acceptByte cfg c r
    if boundary then
      let r ← endRecord cfg (slice ++ [c]) r
      scanBlock cfg [] rest r
    else scanBlock cfg (slice ++ [c]) rest r

/-- `stream_slice` after the end of the input. -/
def finishInput (cfg : SnSliceConfig) (r : Run) : Except Run Run :=
  if r.st.totalInputBytes = 0 then .ok r
  else
    match cfg.format with
    | .ndjson =>
      if 0 < r.st.recordBytes then
        failWith "MALFORMED_NDJSON" (ascii "unterminated record at EOF") (abortCleanup r)
      else closeChunk r
    | .csv =>
      if r.st.csvState = .quoted then
        failWith "MALFORMED_CSV" (ascii "unterminated quoted field at EOF") (abortCleanup r)
      else if 0 < r.st.recordBytes then
        closeChunk { r with st.chunkRecords := r.st.chunkRecords + 1 }
      else closeChunk r

/-- A `read` of the input, before its result is looked at. -/
def readInput (reads : List ReadResult) (r : Run) : Run :=
  { r with
    world.reads := reads
    world.events := r.world.events ++ r.st.inputFd.toList.map .used }

/-- The `while` loop of `stream_slice` over the `read` results to come. -/
def readLoop (cfg : SnSliceConfig) : List ReadResult → Run → Except Run Run
  | [], r => finishInput cfg (readInput [] r)
  | .failed err :: reads, r =>
    let r := readInput reads r
    let r := { r with world.errno := err }
    if err = EINTR then readLoop cfg reads r
    else
      failWith "INPUT_READ_ERROR" (ascii "read error: " ++ r.world.strerror err) (abortCleanup r)
  | .data block :: reads, r =>
    let r := readInput reads r
    if block.val = [] then finishInput cfg r
    else do
      let r := { r with st.totalInputBytes := r.st.totalInputBytes + block.val.length }
      let r ← scanBlock cfg [] block.val r
      readLoop cfg reads r

/-- `stream_slice`. -/
def streamSlice (cfg : SnSliceConfig) (r : Run) : Except Run Run :=
  readLoop cfg r.world.reads r

/-- The state that `main` starts `stream_slice` in. -/
def SnSliceState.init (inputFd : ℕ) (closeInputFd : Bool) : SnSliceState :=
  { inputFd := some inputFd
    closeInputFd := closeInputFd
    activeChunkFd := none
    activeChunkPath := ∅
    chunkIndex := 1
    chunkBytes := 0
    chunkRecords := 0
    recordBytes := 0
    totalInputBytes := 0
    csvState := .start }

/-- The end of `main`, once the input is open: the exit status and the system after it. -/
def sliceInput (cfg : SnSliceConfig) (inputFd : ℕ) (closeInputFd : Bool) (w : World) :
    ℕ × World :=
  let closeInput (w : World) : World := if closeInputFd then (w.close inputFd).2 else w
  match streamSlice cfg ⟨.init inputFd closeInputFd, w⟩ with
  | .ok r => (0, closeInput r.world)
  | .error r => (2, closeInput r.world)

end Snslice
