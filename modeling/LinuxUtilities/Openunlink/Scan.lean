import LinuxUtilities.Foundation.QSort
import LinuxUtilities.Openunlink.Text

/-! `run_scan` and the end of `main` that runs it, over every outcome of the calls made. -/
namespace Openunlink
open CString

abbrev Errno := ℕ

def EPERM : Errno := 1
def ENOENT : Errno := 2
def EACCES : Errno := 13
def ENOTDIR : Errno := 20
def EINVAL : Errno := 22
def ESTALE : Errno := 116

/-- `enum OpCode` without `OP_NONE`. -/
inductive OpCode where
  | usage | processNotFound | processAccess | processScan | memory | stdoutWrite
  deriving DecidableEq, Repr

inductive Advisory where
  | fdUnstable | fdUnreadable | fdSizeRange | targetLengthLimit
  deriving DecidableEq, Repr

/-- A line on the standard error output. -/
inductive Diagnostic where
  | operational (op : OpCode) (pid : ℕ)
  | fdAdvisory (code : Advisory) (pid fd : ℕ)
  | countAdvisory (pid : ℕ)
  deriving DecidableEq, Repr

/-- `op_name`. -/
def OpCode.name : OpCode → String
  | usage => "USAGE"
  | processNotFound => "PROCESS_NOT_FOUND"
  | processAccess => "PROCESS_ACCESS"
  | processScan => "PROCESS_SCAN"
  | memory => "MEMORY"
  | stdoutWrite => "STDOUT_WRITE"

def Advisory.name : Advisory → String
  | fdUnstable => "FD_UNSTABLE"
  | fdUnreadable => "FD_UNREADABLE"
  | fdSizeRange => "FD_SIZE_RANGE"
  | targetLengthLimit => "TARGET_LENGTH_LIMIT"

/-- `is_pid_owned_op`. -/
def OpCode.isPidOwned (op : OpCode) : Bool :=
  op = processNotFound || op = processAccess || op = processScan

def Diagnostic.text : Diagnostic → List UInt8
  | operational op pid =>
    ascii "openunlink: " ++ ascii op.name ++
      (if op.isPidOwned then ascii ": pid=" ++ decimal pid else []) ++ ascii "\n"
  | fdAdvisory code pid fd =>
    ascii "openunlink: " ++ ascii code.name ++ ascii ": pid=" ++ decimal pid ++ ascii " fd=" ++
      decimal fd ++ ascii "\n"
  | countAdvisory pid => ascii "openunlink: FD_COUNT_LIMIT: pid=" ++ decimal pid ++ ascii "\n"

/-- What one `fwrite` does: how many bytes it takes over, all of them or some, how many of
those that are pending reach the output, and whether the error indicator is set. -/
structure FwriteResult where
  count : Option ℕ
  drained : ℕ
  error : Bool

/-- The stream of the standard output. -/
structure Stream where
  reached : List UInt8
  pending : List UInt8
  error : Bool

namespace Stream

def empty : Stream := ⟨[], [], false⟩

def push (s : Stream) (bytes : List UInt8) (drained : ℕ) (error : Bool) : Stream :=
  ⟨s.reached ++ (s.pending ++ bytes).take drained, (s.pending ++ bytes).drop drained,
    s.error || error⟩

/-- The number of bytes that `fwrite` returns. -/
def fwriteCount (r : FwriteResult) (data : List UInt8) : ℕ :=
  match r.count with
  | none => data.length
  | some n => min n data.length

def fwrite (r : FwriteResult) (data : List UInt8) (s : Stream) : Stream :=
  s.push (data.take (fwriteCount r data)) r.drained r.error

/-- `fflush`: all that is pending reaches the output, or it fails after some of it. -/
def fflush (r : Option ℕ) (s : Stream) : Stream :=
  match r with
  | none => s.push [] s.pending.length false
  | some drained => s.push [] drained true

end Stream

/-- The fields of `struct stat` that are looked at. -/
structure Stat where
  dev : ℕ
  ino : ℕ
  mode : ℕ
  nlink : ℕ
  size : Int64
  deriving DecidableEq

/-- `S_ISREG`. -/
def Stat.isReg (s : Stat) : Bool := s.mode &&& 0o170000 = 0o100000

/-- The outcomes of the three calls that look at a descriptor. -/
structure Look where
  first : Except Errno Stat
  link : Except Errno { b : List UInt8 // b.length ≤ targetBufSize }
  second : Except Errno Stat

/-- What a `readdir` returns before the end of the directory. -/
inductive ReaddirResult where
  | entry (name : CStr)
  | failed

/-- The outcomes of all calls that a scan may make. -/
structure System where
  /-- `open` of a path; `none` when it succeeds. -/
  openDir : List UInt8 → Option Errno
  dup : Bool
  mallocFds : Bool
  mallocLink : Bool
  mallocLine : Bool
  /-- What `malloc` leaves in the line buffer. -/
  garbage : ℕ → UInt8
  fdopendir : Bool
  entries : List ReaddirResult
  closedir : Bool
  /-- The calls on an entry, by its name. -/
  look : List UInt8 → Look
  /-- The calls of `fwrite`, in order. -/
  fwrite : ℕ → FwriteResult
  fflush : Option ℕ
  close : Bool
  /-- How much of what is pending still reaches the output at exit. -/
  exitDrained : ℕ

/-- The two descriptors: that of the process directory and its duplicate. -/
inductive Fd where
  | process | duplicate
  deriving DecidableEq, Repr

/-- An operation on a descriptor: it is made, or passed to a call; `fdopendir` takes it over;
`close` closes it, or `closedir` does. -/
inductive FdEvent where
  | opened (fd : Fd)
  | used (fd : Fd)
  | adopted (fd : Fd)
  | closed (fd : Fd)
  | streamClosed (fd : Fd)
  deriving DecidableEq, Repr

structure ScanState where
  pid : ℕ
  dirFd : Option Fd
  dupFd : Option Fd
  /-- The descriptor that the directory stream owns. -/
  dir : Option Fd
  /-- The descriptors retained so far, in the array once it is allocated. -/
  fds : Option (List ℕ)
  linkBuf : Bool
  lineBuf : Option (List UInt8)
  lineCap : ℕ
  fdCountLimit : Bool
  hadFinding : Bool
  hadAdvisory : Bool
  op : Option OpCode

structure Process where
  st : ScanState
  stdout : Stream
  /-- The calls of `fwrite` made. -/
  writes : ℕ
  stderr : List Diagnostic
  events : List FdEvent

/-- A function that returns 0 or, with an error, -1; the process goes on either way. -/
abbrev Step := Process → Except Process Process

namespace Process

/-- The state in which `main` starts the scan. -/
def init (pid : ℕ) : Process where
  st :=
    { pid := pid
      dirFd := none
      dupFd := none
      dir := none
      fds := none
      linkBuf := false
      lineBuf := none
      lineCap := 0
      fdCountLimit := false
      hadFinding := false
      hadAdvisory := false
      op := none }
  stdout := .empty
  writes := 0
  stderr := []
  events := []

/-- `set_op`: the first code stays. -/
def setOp (code : OpCode) (p : Process) : Process :=
  if p.st.op = none then { p with st.op := some code } else p

theorem setOp_op {p : Process} (h : p.st.op = none) (code : OpCode) :
    (p.setOp code).st.op = some code := by
  rw [setOp, if_pos h]

@[simp] theorem setOp_pid (code : OpCode) (p : Process) : (p.setOp code).st.pid = p.st.pid := by
  unfold setOp
  split <;> rfl

@[simp] theorem setOp_stdout (code : OpCode) (p : Process) : (p.setOp code).stdout = p.stdout := by
  unfold setOp
  split <;> rfl

@[simp] theorem setOp_stderr (code : OpCode) (p : Process) : (p.setOp code).stderr = p.stderr := by
  unfold setOp
  split <;> rfl

def note (event : Fd → FdEvent) (fd : Option Fd) (p : Process) : Process :=
  { p with events := p.events ++ fd.toList.map event }

/-- `emit_fd_advisory`. -/
def emitFdAdvisory (code : Advisory) (fd : ℕ) (p : Process) : Process :=
  { p with
    stderr := p.stderr ++ [.fdAdvisory code p.st.pid fd]
    st.hadAdvisory := true }

/-- `emit_count_advisory`. -/
def emitCountAdvisory (p : Process) : Process :=
  { p with
    stderr := p.stderr ++ [.countAdvisory p.st.pid]
    st.hadAdvisory := true }

/-- `emit_operational`. -/
def emitOperational (p : Process) : Process :=
  match p.st.op with
  | none => p
  | some op => { p with stderr := p.stderr ++ [.operational op p.st.pid] }

end Process

/-- A call that fails with a code. -/
def failOp (code : OpCode) (p : Process) : Except Process Process := .error (p.setOp code)

@[simp] theorem ok_bind {β γ ε : Type} (a : β) (f : β → Except ε γ) :
    (Except.ok a >>= f) = f a := rfl

/-- `write_stdout_bytes`. -/
def writeStdoutBytes (sys : System) (data : List UInt8) (p : Process) : Bool × Process :=
  if data = [] then (true, p)
  else
    let r := sys.fwrite p.writes
    (Stream.fwriteCount r data = data.length,
      { p with stdout := p.stdout.fwrite r data, writes := p.writes + 1 })

/-- `emit_finding`. -/
def emitFinding (sys : System) (fd size : ℕ) (target : List UInt8) (p : Process) :
    Bool × Process :=
  match p.st.lineBuf with
  | none => (false, p)
  | some buf =>
    if p.st.lineCap = 0 then (false, p)
    else
      match formatFinding p.st.pid fd size target p.st.lineCap buf with
      | (none, buf) => (false, { p with st.lineBuf := some buf })
      | (some line, buf) =>
        match writeStdoutBytes sys line { p with st.lineBuf := some buf } with
        | (false, p) => (false, p)
        | (true, p) => (true, { p with st.hadFinding := true })

/-- `map_fstatat_errno`. -/
def mapFstatatErrno (err : Errno) : Bool := err = ENOENT || err = ENOTDIR || err = ESTALE

/-- `map_readlinkat_errno`. -/
def mapReadlinkatErrno (err : Errno) : Bool :=
  err = ENOENT || err = ENOTDIR || err = ESTALE || err = EINVAL

/-- `convert_size`. -/
def convertSize (value : Int64) : Option UInt64 :=
  if value < 0 then none
  else
    let converted := value.toUInt64
    if converted.toInt64 ≠ value then none else some converted

/-- `inspect_one`. -/
def inspectOne (sys : System) (fd : ℕ) : Step := fun p =>
  match formatFdName (intDecimalBound + 1) fd with
  | none => failOp .processScan p
  | some name =>
    let p := p.note .used p.st.dirFd
    match (sys.look name).first with
    | .error err =>
      .ok (p.emitFdAdvisory (if mapFstatatErrno err then .fdUnstable else .fdUnreadable) fd)
    | .ok first =>
      if ¬ first.isReg then .ok p
      else
        let p := p.note .used p.st.dirFd
        match (sys.look name).link with
        | .error err =>
          .ok (p.emitFdAdvisory (if mapReadlinkatErrno err then .fdUnstable else .fdUnreadable) fd)
        | .ok target =>
          if target.val.length = targetBufSize then .ok (p.emitFdAdvisory .targetLengthLimit fd)
          else if targetLenCap < target.val.length then
            .ok (p.emitFdAdvisory .targetLengthLimit fd)
          else
            let p := p.note .used p.st.dirFd
            match (sys.look name).second with
            | .error err =>
              .ok (p.emitFdAdvisory (if mapFstatatErrno err then .fdUnstable else .fdUnreadable) fd)
            | .ok second =>
              if first.dev ≠ second.dev ∨ first.ino ≠ second.ino ∨ ¬ second.isReg then
                .ok (p.emitFdAdvisory .fdUnstable fd)
              else if second.nlink ≠ 0 then .ok p
              else
                match convertSize second.size with
                | none => .ok (p.emitFdAdvisory .fdSizeRange fd)
                | some size =>
                  match emitFinding sys fd size.toNat target.val p with
                  | (false, p) => failOp .stdoutWrite p
                  | (true, p) => .ok p

/-- `cleanup_scan`. -/
def cleanupScan (p : Process) : Process :=
  let p :=
    if p.st.dir.isSome then
      { p.note .streamClosed p.st.dir with st.dir := none, st.dupFd := none }
    else p
  let p := { p.note .closed p.st.dupFd with st.dupFd := none }
  let p := { p.note .closed p.st.dirFd with st.dirFd := none }
  { p with st.fds := none, st.linkBuf := false, st.lineBuf := none }

/-- `allocate_scan_buffers`. -/
def allocateScanBuffers (sys : System) : Step := fun p =>
  if sizeMul fdRetainCap 4 = none then failOp .memory p
  else if findingLineCapacity = 0 then failOp .memory p
  else
    let p := { p with st.lineCap := findingLineCapacity }
    if ¬ sys.mallocFds then failOp .memory p
    else
      let p := { p with st.fds := some [] }
      if ¬ sys.mallocLink then failOp .memory p
      else
        let p := { p with st.linkBuf := true }
        if ¬ sys.mallocLine then failOp .memory p
        else
          .ok { p with st.lineBuf := some ((List.range findingLineCapacity).map sys.garbage) }

/-- The retained descriptors. -/
def ScanState.retained (st : ScanState) : List ℕ := st.fds.getD []

/-- `enumerate_fds`, over the results of `readdir` to come. -/
def enumerateFds : List ReaddirResult → Step
  | [], p => .ok (p.note .used p.st.dir)
  | .failed :: _, p => failOp .processScan (p.note .used p.st.dir)
  | .entry name :: entries, p =>
    let p := p.note .used p.st.dir
    if name = .lit "." ∨ name = .lit ".." then enumerateFds entries p
    else
      match parseFdName name with
      | none => failOp .processScan p
      | some fd =>
        if fdRetainCap ≤ p.st.retained.length then .ok { p with st.fdCountLimit := true }
        else enumerateFds entries { p with st.fds := some (p.st.retained ++ [fd]) }

/-- `fd_cmp`. -/
def fdCmp (a b : ℕ) : ℤ := if a < b then -1 else if b < a then 1 else 0

/-- Whether two neighbours are equal. -/
def neighboursEqual : List ℕ → Bool
  | a :: b :: l => a = b || neighboursEqual (b :: l)
  | _ => false

/-- `sort_and_check_duplicates`. -/
def sortAndCheckDuplicates (q : QSort fdCmp) : Step := fun p =>
  let p :=
    if 1 < p.st.retained.length then { p with st.fds := some (q.sort p.st.retained) } else p
  if neighboursEqual p.st.retained then failOp .processScan p else .ok p

/-- The code for a process directory that cannot be opened. -/
def openFailure (err : Errno) : OpCode :=
  if err = ENOENT ∨ err = ENOTDIR then .processNotFound
  else if err = EACCES ∨ err = EPERM then .processAccess
  else .processScan

/-- The bytes of `path_buf`. -/
def pathBufSize : ℕ := 7 + intDecimalBound + 4

def processPath (pid : ℕ) : List UInt8 := ascii "/proc/" ++ decimal pid ++ ascii "/fd"

/-- `run_scan` up to the `open` of the process directory. -/
def openProcess (sys : System) : Step := fun p =>
  if processPathCapacity = 0 ∨ pathBufSize < processPathCapacity then failOp .processScan p
  else if processPathCapacity ≤ (processPath p.st.pid).length then failOp .processScan p
  else
    match sys.openDir (processPath p.st.pid) with
    | some err => failOp (openFailure err) p
    | none => .ok { p.note .opened (some .process) with st.dirFd := some .process }

def duplicate (sys : System) : Step := fun p =>
  let p := p.note .used p.st.dirFd
  if ¬ sys.dup then failOp .processScan p
  else .ok { p.note .opened (some .duplicate) with st.dupFd := some .duplicate }

/-- `fdopendir`, which hands the duplicate over to the stream. -/
def openStream (sys : System) : Step := fun p =>
  let p := p.note .used p.st.dupFd
  if ¬ sys.fdopendir then failOp .processScan p
  else .ok { p.note .adopted p.st.dupFd with st.dir := p.st.dupFd, st.dupFd := none }

def closeStream (sys : System) : Step := fun p =>
  let p := { p.note .streamClosed p.st.dir with st.dir := none }
  if ¬ sys.closedir then failOp .processScan p else .ok p

/-- The loop of `run_scan` over the retained descriptors. -/
def inspectAll (sys : System) : List ℕ → Step
  | [], p => .ok p
  | fd :: fds, p => inspectOne sys fd p >>= inspectAll sys fds

def flushStdout (sys : System) : Step := fun p =>
  let p := { p with stdout := p.stdout.fflush sys.fflush }
  if sys.fflush ≠ none ∨ p.stdout.error then failOp .stdoutWrite p else .ok p

def closeProcess (sys : System) : Step := fun p =>
  let p := { p.note .closed p.st.dirFd with st.dirFd := none }
  if ¬ sys.close then failOp .processScan p else .ok p

/-- `run_scan`. -/
def runScan (sys : System) (q : QSort fdCmp) : Step := fun p => do
  let p ← openProcess sys p
  let p ← duplicate sys p
  let p ← allocateScanBuffers sys p
  let p ← openStream sys p
  let p ← enumerateFds sys.entries p
  let p ← closeStream sys p
  let p ← sortAndCheckDuplicates q p
  let p := if p.st.fdCountLimit then p.emitCountAdvisory else p
  let p ← inspectAll sys p.st.retained p
  let p ← flushStdout sys p
  closeProcess sys p

/-- `finish_status`. -/
def finishStatus (st : ScanState) : ℕ :=
  if st.op ≠ none then 2 else if st.hadFinding || st.hadAdvisory then 1 else 0

/-- What a run leaves: its status, what reached the standard output, and the lines on the
standard error output. -/
structure Outcome where
  status : ℕ
  stdout : List UInt8
  stderr : List Diagnostic
  events : List FdEvent

/-- The end of `main`, once the operand is a pid. -/
def scanProcess (sys : System) (q : QSort fdCmp) (pid : ℕ) : Outcome :=
  let p := match runScan sys q (.init pid) with
    | .ok p => p
    | .error p => p
  let status := finishStatus p.st
  let p := cleanupScan p.emitOperational
  { status := status
    stdout := (p.stdout.push [] sys.exitDrained false).reached
    stderr := p.stderr
    events := p.events }

end Openunlink
