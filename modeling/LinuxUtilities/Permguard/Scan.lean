import LinuxUtilities.Foundation.Bytes
import LinuxUtilities.Foundation.EscapedText

/-! `permguard`: the mode hazards of the paths it is given, and the rows and diagnostics that it
writes. -/
namespace Permguard
open CString EscapedText

abbrev Errno := ℕ

def ENOENT : Errno := 2
def EACCES : Errno := 13

/-- The bits of the hazard mask, in the order of their emission. -/
inductive Hazard where
  | groupWritable | otherWritable | setUserId | setGroupId
  deriving DecidableEq, Repr

namespace Hazard

def bit : Hazard → ℕ
  | groupWritable => 0
  | otherWritable => 1
  | setUserId => 2
  | setGroupId => 3

/-- `HAZARD_NAMES`. -/
def name : Hazard → String
  | groupWritable => "GROUP_WRITABLE"
  | otherWritable => "OTHER_WRITABLE"
  | setUserId => "SET_USER_ID"
  | setGroupId => "SET_GROUP_ID"

/-- The mode bit that a hazard stands for. -/
def modeBit : Hazard → ℕ
  | groupWritable => 0o020
  | otherWritable => 0o002
  | setUserId => 0o4000
  | setGroupId => 0o2000

def all : List Hazard := [groupWritable, otherWritable, setUserId, setGroupId]

end Hazard

/-- The process: whether the calls to come that put something on standard output, or flush it,
succeed (after the end of the list they do), and what was written. -/
structure Proc where
  outs : List Bool
  stdout : List UInt8
  stderr : List UInt8

/-- One checked call that puts text on standard output. -/
def fputs (text : List UInt8) (p : Proc) : Except Proc Proc :=
  if p.outs.headD true then .ok { p with outs := p.outs.tail, stdout := p.stdout ++ text }
  else .error { p with outs := p.outs.tail }

def fputsAll (pieces : List (List UInt8)) (p : Proc) : Except Proc Proc :=
  pieces.foldlM (fun p piece => fputs piece p) p

/-- The pieces that `put_escaped_quoted` puts. -/
def escapedQuoted (text : CStr) : List (List UInt8) :=
  [[34]] ++ text.bytes.map (escape isQuote) ++ [[34]]

/-- The text that goes to standard error; failures there are ignored. -/
def diag (text : List UInt8) (p : Proc) : Proc := { p with stderr := p.stderr ++ text }

/-- `emit_stdout_write_error`. -/
def emitStdoutWriteError (p : Proc) : ℕ × Proc := (2, diag (ascii "permguard: STDOUT_WRITE\n") p)

/-- `complete_stdout`; the flush puts no text of its own. -/
def completeStdout (status : ℕ) (p : Proc) : ℕ × Proc :=
  match fputs [] p with
  | .ok p => (status, p)
  | .error p => emitStdoutWriteError p

/-- `emit_diag_reason_path`. -/
def emitDiagReasonPath (reason : List UInt8) (path : CStr) : Proc → Proc :=
  diag (ascii "permguard: " ++ reason ++ ascii ": " ++ (escapedQuoted path).flatten ++ ascii "\n")

/-- `classify_mode`. -/
def classifyMode (mode : ℕ) : ℕ :=
  Hazard.all.foldl (fun mask h => if mode &&& h.modeBit ≠ 0 then mask ||| 1 <<< h.bit else mask) 0

/-- The pieces that `emit_finding` puts. -/
def findingPieces (code : Hazard) (path : CStr) : List (List UInt8) :=
  [ascii code.name, [9]] ++ escapedQuoted path ++ [[10]]

/-- `emit_findings_for_mask`. -/
def emitFindingsForMask (mask : ℕ) (path : CStr) (p : Proc) : Except Proc Proc :=
  Hazard.all.foldlM (fun p h =>
    if mask &&& 1 <<< h.bit = 0 then .ok p else fputsAll (findingPieces h path) p) p

/-- `emit_inspection_error`: its reason names the errno. -/
def emitInspectionError (path : CStr) (err : Errno) : Proc → Proc :=
  emitDiagReasonPath (ascii ("INSPECTION_ERROR_" ++ toString err)) path

/-- `emit_lstat_failure`. -/
def emitLstatFailure (path : CStr) (err : Errno) : Proc → Proc :=
  if path.bytes = [] then emitInspectionError path err
  else if err = ENOENT then emitDiagReasonPath (ascii "MISSING") path
  else if err = EACCES then emitDiagReasonPath (ascii "INACCESSIBLE") path
  else emitInspectionError path err

/-- What `lstat` tells of a path: whether it is a symbolic link, and the mode. -/
structure Stat where
  symlink : Bool
  mode : ℕ

/-- The loop of `run_scan`, with its flags for hazards and for operational errors. -/
def scanLoop (lstat : CStr → Except Errno Stat) :
    List CStr → Bool → Bool → Proc → Except Proc (Bool × Bool × Proc)
  | [], anyHazard, operationalError, p => .ok (anyHazard, operationalError, p)
  | path :: paths, anyHazard, operationalError, p =>
    match lstat path with
    | .error err => scanLoop lstat paths anyHazard true (emitLstatFailure path err p)
    | .ok st =>
      if st.symlink then
        scanLoop lstat paths anyHazard true (emitDiagReasonPath (ascii "SYMBOLIC_LINK") path p)
      else if classifyMode st.mode = 0 then scanLoop lstat paths anyHazard operationalError p
      else
        match emitFindingsForMask (classifyMode st.mode) path p with
        | .error p => .error p
        | .ok p => scanLoop lstat paths true operationalError p

/-- `run_scan`. -/
def runScan (lstat : CStr → Except Errno Stat) (paths : List CStr) (p : Proc) : ℕ × Proc :=
  match scanLoop lstat paths false false p with
  | .error p => emitStdoutWriteError p
  | .ok (anyHazard, operationalError, p) =>
    completeStdout (if operationalError then 2 else if anyHazard then 1 else 0) p

end Permguard
