import LinuxUtilities.Foundation.Bytes
import Mathlib.Tactic

/-! `supervise`: the flags and deadlines of its loop, one pass after the other, and the
status it returns. -/
namespace Agentwatch
open CString

def uint64Max : ℕ := 2 ^ 64 - 1

def finalReapMs : ℕ := 2000

/-- The signals whose arrival is recorded. -/
inductive Interrupt where
  | hangup | int | term
  deriving DecidableEq, Repr

def Interrupt.number : Interrupt → ℕ
  | hangup => 1
  | int => 2
  | term => 15

/-- The signals that are sent. -/
inductive Signal where
  | term | kill
  deriving DecidableEq, Repr

/-- The options as `parse_options` leaves them: every period is at least 1 ms. -/
structure Options where
  timeoutMs : Option ℕ
  graceMs : ℕ
  grace_pos : 0 < graceMs
  command : CStr

/-- `add_ms`. -/
def addMs (base increment : ℕ) : Option ℕ :=
  if base > uint64Max - increment then none else some (base + increment)

/-- `wake_handler`, for a signal other than `SIGCHLD`. -/
def wakeHandler (first : Option Interrupt) (signum : Interrupt) : Option Interrupt :=
  if first.isNone then some signum else first

/-- What the loop runs on: the options, the pid of the direct child, the start time and
the deadline. -/
structure Setting where
  options : Options
  child : ℕ
  start : ℕ
  deadline : Option ℕ

/-- The variables of the loop. -/
structure Supervision where
  firstInterrupt : Option Interrupt
  cleanupDeadline : ℕ
  terminating : Bool
  killed : Bool
  directDone : Bool
  noChildren : Bool
  timedOut : Bool
  internal : Bool
  uncertain : Bool
  startFailed : Bool
  directStatus : ℕ
  deriving DecidableEq

/-- A child that `waitpid` returns. -/
structure Reaped where
  pid : ℕ
  status : ℕ
  deriving DecidableEq

/-- What one pass of the loop meets: the children reaped, whether `waitpid` then fails, the
interrupts that arrive before they are looked for, the clock, the outcome of `signal_tree`
if it is called, and that of `poll` if it is. -/
structure Round where
  reaped : List Reaped
  waitFails : Bool
  interrupts : List Interrupt
  clock : Option ℕ
  treeOk : Bool
  treeUncertain : Bool
  pollFails : Bool
  deriving DecidableEq

/-- The time of a pass. -/
def Round.time (cfg : Setting) (r : Round) : ℕ := r.clock.getD cfg.start

/-- What the pass does when its flags are set. -/
inductive Action where
  | none
  | signal (signum : Signal)
  | leave
  deriving DecidableEq

namespace Supervision

/-- The variables before the first pass. -/
def initial (firstInterrupt : Option Interrupt) (startFailed : Bool) : Supervision where
  firstInterrupt := firstInterrupt
  cleanupDeadline := 0
  terminating := false
  killed := false
  directDone := false
  noChildren := false
  timedOut := false
  internal := false
  uncertain := false
  startFailed := startFailed
  directStatus := 0

/-- The body of the `waitpid` loop. -/
def noteReaped (child : ℕ) (s : Supervision) (r : Reaped) : Supervision :=
  if r.pid = child ∧ ¬ s.directDone then { s with directDone := true, directStatus := r.status }
  else s

def noteInterrupts (s : Supervision) (arrivals : List Interrupt) : Supervision :=
  { s with firstInterrupt := arrivals.foldl wakeHandler s.firstInterrupt }

def noteFailure (s : Supervision) (failed : Bool) : Supervision :=
  { s with internal := s.internal || failed }

/-- The three reasons for termination, in the order of their checks. -/
def checkInterrupt (s : Supervision) : Supervision :=
  if s.firstInterrupt.isSome && !s.terminating then { s with terminating := true } else s

def checkDeadline (cfg : Setting) (now : ℕ) (s : Supervision) : Supervision :=
  if cfg.deadline.any (now ≥ ·) && !s.terminating then
    { s with timedOut := true, terminating := true }
  else s

def checkFailures (s : Supervision) : Supervision :=
  if (s.startFailed || s.internal) && !s.terminating then { s with terminating := true } else s

/-- The chain of branches after the checks. -/
def action (s : Supervision) (now : ℕ) : Action :=
  if s.terminating && s.cleanupDeadline = 0 then .signal .term
  else if s.terminating && !s.killed && now ≥ s.cleanupDeadline then .signal .kill
  else if s.killed && now ≥ s.cleanupDeadline then .leave
  else .none

/-- The next cleanup deadline, or an internal failure when it overflows. -/
def extend (s : Supervision) (now period : ℕ) : Supervision :=
  match addMs now period with
  | none => { s with internal := true }
  | some cleanupDeadline => { s with cleanupDeadline := cleanupDeadline }

/-- What follows a call of `signal_tree`. -/
def settle (cfg : Setting) (now : ℕ) (ok uncertain : Bool) (s : Supervision) :
    Signal → Supervision
  | .term =>
    extend { s with internal := s.internal || !ok, uncertain := s.uncertain || uncertain } now
      cfg.options.graceMs
  | .kill =>
    extend { s with
      internal := s.internal || !ok, uncertain := s.uncertain || uncertain, killed := true } now
      finalReapMs

/-- Whether the pass ends in `poll`, and not in `nanosleep`. -/
def polls (s : Supervision) : Bool := s.terminating || !s.directDone

end Supervision

/-- What came of a pass: the signal that `signal_tree` was called with, whether `poll` was
called, whether the loop was left, and the variables at its end. -/
structure Pass where
  round : Round
  call : Option Signal
  polled : Bool
  leaves : Bool
  after : Supervision

namespace Supervision

/-- A pass up to its action. -/
def checked (cfg : Setting) (s : Supervision) (r : Round) : Supervision :=
  ((((((r.reaped.foldl (noteReaped cfg.child) s).noteFailure r.waitFails).noteInterrupts
    r.interrupts).noteFailure r.clock.isNone).checkInterrupt).checkDeadline cfg
      (r.time cfg)).checkFailures

/-- The end of a pass that goes on. -/
def pause (s : Supervision) (r : Round) (call : Option Signal) : Pass :=
  ⟨r, call, s.polls, false, s.noteFailure (s.polls && r.pollFails)⟩

/-- One pass of the loop, while there are children. -/
def pass (cfg : Setting) (s : Supervision) (r : Round) : Pass :=
  let s := s.checked cfg r
  match s.action (r.time cfg) with
  | .none => s.pause r none
  | .signal signum =>
    (settle cfg (r.time cfg) r.treeOk r.treeUncertain s signum).pause r (some signum)
  | .leave => ⟨r, none, false, true, s.noteFailure true⟩

/-- The passes of the loop, up to the one that leaves it. -/
def passes (cfg : Setting) : Supervision → List Round → List Pass
  | _, [] => []
  | s, r :: rounds =>
    s.pass cfg r :: if (s.pass cfg r).leaves then [] else (s.pass cfg r).after.passes cfg rounds

/-- The variables after some passes. -/
def afterPasses (s : Supervision) (done : List Pass) : Supervision :=
  (done.getLast?.map Pass.after).getD s

end Supervision

/-- Whether the loop was left with children that are not reaped. -/
def gaveUp (done : List Pass) : Bool := done.any Pass.leaves

/-- The run of the loop on the rounds that come while there are children. When it goes
through all of them, `waitpid` ends it: it returns the last children and then `ECHILD`. -/
def superviseLoop (cfg : Setting) (s : Supervision) (rounds : List Round)
    (last : List Reaped) : List Pass × Supervision :=
  let done := s.passes cfg rounds
  (done, if gaveUp done then s.afterPasses done
    else { last.foldl (.noteReaped cfg.child) (s.afterPasses done) with noChildren := true })

/-- The calls of `signal_tree`, with the times of their passes. -/
def calls (cfg : Setting) (done : List Pass) : List (Signal × ℕ) :=
  done.filterMap fun p => p.call.map fun signum => (signum, p.round.time cfg)

def wifexited (status : ℕ) : Bool := status % 128 = 0
def wexitstatus (status : ℕ) : ℕ := status / 256 % 256
def wtermsig (status : ℕ) : ℕ := status % 128
def wifsignaled (status : ℕ) : Bool := 0 < wtermsig status && wtermsig status < 127

/-- The text of `diagnostic`. -/
def diagnostic (name : String) : List UInt8 := ascii "agentwatch: " ++ ascii name ++ [10]

/-- An uppercase hexadecimal digit. -/
def hexDigit (n : ℕ) : UInt8 := (if n < 10 then 48 + n else 55 + n).toUInt8

/-- `escaped_command`. -/
def escapedCommand (name : CStr) : List UInt8 :=
  ascii "agentwatch: COMMAND_START_FAILURE: execvp " ++
    name.bytes.flatMap (fun p =>
      if 0x20 ≤ p ∧ p ≤ 0x7e ∧ p ≠ 92 ∧ p ≠ 34 then [p]
      else if p = 92 then [92, 92]
      else if p = 34 then [92, 34]
      else [92, 120, hexDigit (p.toNat / 16), hexDigit (p.toNat % 16)]) ++ [10]

/-- What `supervise` returns and writes to stderr. -/
structure Report where
  status : ℕ
  diag : List UInt8
  deriving DecidableEq

/-- The end of `supervise`, after the loop. -/
def arbitrate (options : Options) (s : Supervision) : Report :=
  match s.firstInterrupt with
  | some signum => ⟨128 + signum.number, diagnostic "INTERRUPTED"⟩
  | none =>
    if s.startFailed then ⟨127, escapedCommand options.command⟩
    else if s.timedOut then ⟨124, diagnostic "TIMEOUT"⟩
    else if s.internal || (s.uncertain && !s.noChildren) then
      ⟨125, diagnostic "INTERNAL_FAILURE"⟩
    else if wifexited s.directStatus then ⟨wexitstatus s.directStatus, []⟩
    else if wifsignaled s.directStatus then ⟨128 + wtermsig s.directStatus, []⟩
    else ⟨125, diagnostic "INTERNAL_FAILURE"⟩

/-- What `supervise` meets before its loop: the outcome of each call, and the interrupts
that arrive on the way. -/
structure Startup where
  handlers : Bool
  subreaper : Bool
  pipe : Bool
  clock : Option ℕ
  fork : Option ℕ
  setpgid : Bool
  handshake : Bool
  interrupts : List Interrupt

/-- The calls before the loop that end the run when they fail. -/
inductive SetupFailure where
  | handlers | subreaper | pipe | clock | fork
  deriving DecidableEq

def SetupFailure.report : SetupFailure → Report
  | handlers => ⟨125, diagnostic "SIGNAL_SETUP_FAILURE"⟩
  | subreaper => ⟨125, diagnostic "SUBREAPER_SETUP_FAILURE"⟩
  | pipe => ⟨127, diagnostic "COMMAND_START_FAILURE"⟩
  | clock => ⟨125, diagnostic "INTERNAL_FAILURE"⟩
  | fork => ⟨127, diagnostic "COMMAND_START_FAILURE"⟩

/-- `supervise` up to its loop. -/
def setup (options : Options) (env : Startup) : Except SetupFailure Setting :=
  if !env.handlers then .error .handlers
  else if !env.subreaper then .error .subreaper
  else if !env.pipe then .error .pipe
  else
    match env.clock with
    | none => .error .clock
    | some start =>
      match options.timeoutMs.map (addMs start) with
      | some none => .error .clock
      | deadline =>
        match env.fork with
        | none => .error .fork
        | some child => .ok ⟨options, child, start, deadline.join⟩

/-- The start fails in `setpgid`, other than with `EACCES` or `ESRCH`, or when the handshake
reports an errno or cannot be read. -/
def startFailed (env : Startup) : Bool := !(env.setpgid && env.handshake)

/-- What `supervise` meets in its loop and after it. -/
structure Events where
  rounds : List Round
  last : List Reaped
  late : List Interrupt

/-- `supervise`. -/
def supervise (options : Options) (env : Startup) (events : Events) : Report :=
  match setup options env with
  | .error failure => failure.report
  | .ok cfg =>
    let s := Supervision.initial (env.interrupts.foldl wakeHandler none) (startFailed env)
    arbitrate options ((superviseLoop cfg s events.rounds events.last).2.noteInterrupts events.late)

end Agentwatch
