import LinuxUtilities.Sysdiff.Snapshot

/-! `emit_diff` and `compare_snapshots`: the merge of two sorted snapshots and the lines
it prints. -/
namespace Sysdiff
open CString

def EIO : Errno := 5

/-- One checked call that puts text on standard output; an error carries `errno`. -/
def fputs (text : List UInt8) (p : Proc) : Except (Errno × Proc) Proc :=
  match p.outs.head?.join with
  | some err => .error (err, { p with outs := p.outs.tail })
  | none => .ok { p with outs := p.outs.tail, stdout := p.stdout ++ text }

/-- The pieces that `put_escaped_value` puts, one for each call. -/
def escapedValue : List UInt8 → List (List UInt8)
  | [] => []
  | a :: b :: c :: rest =>
    if a = 32 ∧ b = 45 ∧ c = 62 then ascii " -\\x3E" :: escapedValue rest
    else escapedByte a :: escapedValue (b :: c :: rest)
  | a :: rest => escapedByte a :: escapedValue rest

/-- `put_escaped_value`. -/
def putEscapedValue (text : CStr) (p : Proc) : Except (Errno × Proc) Proc :=
  (escapedValue text.bytes).foldlM (fun p piece => fputs piece p) p

/-- `emit_added`. -/
def emitAdded (key value : CStr) (p : Proc) : Except (Errno × Proc) Proc := do
  let p ← fputs (ascii "+ ") p
  let p ← fputs key.bytes p
  let p ← fputs (ascii "=") p
  let p ← putEscapedValue value p
  fputs (ascii "\n") p

/-- `emit_removed`. -/
def emitRemoved (key value : CStr) (p : Proc) : Except (Errno × Proc) Proc := do
  let p ← fputs (ascii "- ") p
  let p ← fputs key.bytes p
  let p ← fputs (ascii "=") p
  let p ← putEscapedValue value p
  fputs (ascii "\n") p

/-- `emit_changed`. -/
def emitChanged (key oldValue newValue : CStr) (p : Proc) : Except (Errno × Proc) Proc := do
  let p ← fputs (ascii "~ ") p
  let p ← fputs key.bytes p
  let p ← fputs (ascii ": ") p
  let p ← putEscapedValue oldValue p
  let p ← fputs (ascii " -> ") p
  let p ← putEscapedValue newValue p
  fputs (ascii "\n") p

/-- The loop of `emit_diff` over what is left of the two snapshots, with its flag. -/
def emitDiffLoop : List Entry → List Entry → Bool → Proc → Except (Errno × Proc) (Bool × Proc)
  | [], [], changed, p => .ok (changed, p)
  | [], a :: after, _, p => do
    let p ← emitAdded a.key a.value p
    emitDiffLoop [] after true p
  | b :: before, [], _, p => do
    let p ← emitRemoved b.key b.value p
    emitDiffLoop before [] true p
  | b :: before, a :: after, changed, p =>
    let cmp := strcmp b.key.bytes a.key.bytes
    if cmp = 0 then
      if strcmp b.value.bytes a.value.bytes ≠ 0 then do
        let p ← emitChanged b.key b.value a.value p
        emitDiffLoop before after true p
      else emitDiffLoop before after changed p
    else if cmp < 0 then do
      let p ← emitRemoved b.key b.value p
      emitDiffLoop before (a :: after) true p
    else do
      let p ← emitAdded a.key a.value p
      emitDiffLoop (b :: before) after true p
termination_by before after => before.length + after.length

/-- `emit_write_error`. -/
def emitWriteError (err : Errno) (p : Proc) : ℕ × Proc :=
  let text := ascii "sysdiff: stdout write error: " ++ p.strerror (if err = 0 then EIO else err) ++
    ascii "\n"
  (2, { p with stderr := p.stderr ++ text })

/-- `complete_stdout`; the flush puts no text of its own. -/
def completeStdout (status : ℕ) (p : Proc) : ℕ × Proc :=
  match fputs [] p with
  | .ok p => (status, p)
  | .error (err, p) => emitWriteError err p

/-- `emit_diff`. -/
def emitDiff (before after : Snapshot) (p : Proc) : ℕ × Proc :=
  match emitDiffLoop before.items after.items false p with
  | .error (err, p) => emitWriteError err p
  | .ok (true, p) => completeStdout 1 p
  | .ok (false, p) =>
    match fputs (ascii "no changes\n") p with
    | .error (err, p) => emitWriteError err p
    | .ok p => completeStdout 0 p

/-- `compare_snapshots`: the exit status, and the process after it. -/
def compareSnapshots (q : QSort compareEntriesByKey) (beforePath afterPath : CStr)
    (beforeFile afterFile : Except Errno InputFile) (p : Proc) : ℕ × Proc :=
  let before := parseSnapshot q beforePath beforeFile .empty p
  if before.status ≠ 0 then (before.status, before.proc)
  else
    let after := parseSnapshot q afterPath afterFile .empty before.proc
    if after.status ≠ 0 then (after.status, after.proc)
    else emitDiff before.snapshot after.snapshot after.proc

end Sysdiff
