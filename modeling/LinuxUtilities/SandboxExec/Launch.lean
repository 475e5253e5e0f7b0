import LinuxUtilities.SandboxExec.Excerpt

/-! Measuring a launch against the kernel's limits, and `execute_sandboxed`, which refuses an
oversized launch before it starts a process. -/
namespace SandboxExec
open CodePoints

abbrev Environment := List (Text × Text)

inductive LaunchError where
  | unicodeEncodeError
  | osError (errno : Option ℤ)
  | timeoutExpired
  | other
  deriving DecidableEq, Repr

section Measure

/-- The answers of `os.sysconf`; `none` is one that fails. -/
structure Host where
  pageSize : Option ℤ
  argMax : Option ℤ
  deriving DecidableEq, Repr

def maxArgStrlenPages : ℤ := 32

def launchEntryPointerBytes : ℕ := 8

def defaultPageSize : ℤ := 4096

def defaultHostArgMax : ℤ := 2097152

/-- `MAX_ARG_STRLEN` -/
def maxSingleLaunchEntryBytes (host : Host) : ℤ :=
  maxArgStrlenPages * host.pageSize.getD defaultPageSize

/-- `ARG_MAX` -/
def maxTotalLaunchBytes (host : Host) : ℤ :=
  let limit := host.argMax.getD 0
  if limit ≤ 0 then defaultHostArgMax else limit

def launchEntryBytes (value : Text) : Except LaunchError ℕ :=
  match encodeEscaped value with
  | none => .error .unicodeEncodeError
  | some bytes => .ok (bytes.length + 1)

theorem launchEntryBytes_ascii {value : Text} (h : Ascii value) :
    launchEntryBytes value = .ok (value.length + 1) := by
  have hplain : encodeEscaped value = some (value.flatMap utf8) :=
    encodeEscaped_eq_flatMap fun c hc => .inl ((h c hc).trans (by norm_num))
  have hsize : (value.flatMap utf8).length = value.length := utf8Size_eq_length_iff.mpr h
  simp only [launchEntryBytes, hplain, hsize]

def environmentEntryBytes (entry : Text × Text) : Except LaunchError ℕ :=
  launchEntryBytes (entry.1 ++ lit "=" ++ entry.2)

structure LaunchReport where
  argumentCount : ℕ
  environmentCount : ℕ
  largestArgumentIndex : ℤ
  largestArgumentBytes : ℕ
  largestEnvironmentBytes : ℕ
  argumentBytes : ℕ
  environmentBytes : ℕ
  totalBytes : ℕ
  singleEntryLimitBytes : ℤ
  totalLimitBytes : ℤ
  executable : Text
  deriving DecidableEq, Repr

/-- `max(entries) if entries else 0` -/
def largest (entries : List ℕ) : ℕ := entries.foldl max 0

/-- The first index at which the largest entry stands. -/
def largestIndex (entries : List ℕ) : ℤ :=
  match entries with
  | [] => -1
  | _ => entries.idxOf (largest entries)

/-- Strings, their terminators, and the pointer tables with their two null entries. -/
def launchBytes (entries envEntries : List ℕ) : ℕ :=
  entries.sum + envEntries.sum + launchEntryPointerBytes * (entries.length + envEntries.length + 2)

def launchPayloadReport (host : Host) (command : List Text) (env : Option Environment) :
    Except LaunchError LaunchReport := do
  let entries ← command.mapM launchEntryBytes
  let envEntries ← (env.getD []).mapM environmentEntryBytes
  return {
    argumentCount := entries.length
    environmentCount := envEntries.length
    largestArgumentIndex := largestIndex entries
    largestArgumentBytes := largest entries
    largestEnvironmentBytes := largest envEntries
    argumentBytes := entries.sum
    environmentBytes := envEntries.sum
    totalBytes := launchBytes entries envEntries
    singleEntryLimitBytes := maxSingleLaunchEntryBytes host
    totalLimitBytes := maxTotalLaunchBytes host
    executable := command.headD [] }

end Measure

section Refusal

inductive RefusalReason where
  | singleEntryExceedsMaxArgStrlen
  | totalLaunchExceedsArgMax
  | kernelE2big
  deriving DecidableEq, Repr

def RefusalReason.text : RefusalReason → Text
  | .singleEntryExceedsMaxArgStrlen => lit "single_entry_exceeds_max_arg_strlen"
  | .totalLaunchExceedsArgMax => lit "total_launch_exceeds_arg_max"
  | .kernelE2big => lit "kernel_e2big"

def launchPayloadTooLarge : Text := lit "launch_payload_too_large"

structure FailureEvidence where
  reason : Text
  launchPayload : LaunchReport
  operatorGuidance : Text
  deriving DecidableEq, Repr

structure Refusal where
  failureClassification : Text
  failureEvidence : FailureEvidence
  deriving DecidableEq, Repr

def preExecGuidance : Text := lit <|
  "The process was refused before it started; no worker ran and " ++
  "nothing was written. This is a prompt-composition defect, not " ++
  "a limit to raise: the offending argument must be handed to the " ++
  "worker off argv (WorkerLaunch.stdin_text) or the composition " ++
  "that produced it must be bounded. See " ++
  "docs/bwrap-argmax-repair-contract.md."

def kernelGuidance : Text := lit <|
  "execve returned E2BIG for a payload the pre-exec budget " ++
  "accepted, so the recorded limits understate this kernel's. " ++
  "No worker started. See docs/bwrap-argmax-repair-contract.md."

def refuse (reason : RefusalReason) (report : LaunchReport) (guidance : Text) : Refusal where
  failureClassification := launchPayloadTooLarge
  failureEvidence := ⟨reason.text, report, guidance⟩

def refuseOversizedLaunch (host : Host) (command : List Text) (env : Option Environment) :
    Except LaunchError (Option Refusal) := do
  let report ← launchPayloadReport host command env
  if report.singleEntryLimitBytes < report.largestArgumentBytes ∨
      report.singleEntryLimitBytes < report.largestEnvironmentBytes then
    return some (refuse .singleEntryExceedsMaxArgStrlen report preExecGuidance)
  else if report.totalLimitBytes < report.totalBytes then
    return some (refuse .totalLaunchExceedsArgMax report preExecGuidance)
  else return none

/-- `errno.E2BIG` -/
def e2big : ℤ := 7

def classifyLaunchOserror (host : Host) (errno : Option ℤ) (command : List Text)
    (env : Option Environment) : Except LaunchError (Option Refusal) := do
  if errno ≠ some e2big then return none
  let report ← launchPayloadReport host command env
  return some (refuse .kernelE2big report kernelGuidance)

end Refusal

section Limits

/-- The report names a size over its limit. -/
def LaunchReport.Exceeds (report : LaunchReport) : Prop :=
  report.singleEntryLimitBytes < report.largestArgumentBytes ∨
    report.singleEntryLimitBytes < report.largestEnvironmentBytes ∨
      report.totalLimitBytes < report.totalBytes

/-- A command and an environment that together do not fit within the host's limits. -/
def Oversized (host : Host) (command : List Text) (environment : Environment) : Prop :=
  ∃ entries envEntries, command.mapM launchEntryBytes = .ok entries ∧
    environment.mapM environmentEntryBytes = .ok envEntries ∧
      (maxSingleLaunchEntryBytes host < largest entries ∨
        maxSingleLaunchEntryBytes host < largest envEntries ∨
          maxTotalLaunchBytes host < launchBytes entries envEntries)

variable {host : Host} {command : List Text} {env : Option Environment}

theorem exists_exceeds_iff :
    (∃ report, launchPayloadReport host command env = .ok report ∧ report.Exceeds) ↔
      Oversized host command (env.getD []) := by
  unfold launchPayloadReport Oversized
  cases command.mapM launchEntryBytes with
  | error e => simp [bind, Except.bind]
  | ok entries =>
    cases (env.getD []).mapM environmentEntryBytes with
    | error e => simp [bind, Except.bind]
    | ok envEntries => simp [bind, Except.bind, pure, Except.pure, LaunchReport.Exceeds]

/-- A launch is refused exactly when its report names a size over its limit. -/
theorem refuseOversizedLaunch_iff :
    (∃ r, refuseOversizedLaunch host command env = .ok (some r)) ↔
      Oversized host command (env.getD []) := by
  rw [← exists_exceeds_iff]
  unfold refuseOversizedLaunch
  cases launchPayloadReport host command env with
  | error e => simp [bind, Except.bind]
  | ok report =>
    simp only [bind, Except.bind, pure, Except.pure, Except.ok.injEq, exists_eq_left',
      LaunchReport.Exceeds]
    split_ifs with hsingle htotal
    · simpa using hsingle.imp_right .inl
    · simp [htotal]
    · obtain ⟨hargument, henvironment⟩ := not_or.mp hsingle
      simp [hargument, henvironment, htotal]

/-- `--check-payload`: the command is measured together with the environment it would inherit. -/
def checkPayload (host : Host) (parent : Environment) (command : List Text) :
    Except LaunchError (LaunchReport ⊕ Refusal) := do
  match ← refuseOversizedLaunch host command (some parent) with
  | some refusal => return .inr refusal
  | none => return .inl (← launchPayloadReport host command (some parent))

theorem checkPayload_refuses_iff {parent : Environment} :
    (∃ r, checkPayload host parent command = .ok (.inr r)) ↔ Oversized host command parent := by
  have hiff := @refuseOversizedLaunch_iff host command (some parent)
  rw [Option.getD_some] at hiff
  rw [← hiff]
  unfold checkPayload
  cases refuseOversizedLaunch host command (some parent) with
  | error e => simp [bind, Except.bind]
  | ok refusal =>
    cases refusal with
    | some r => simp [bind, Except.bind, pure, Except.pure]
    | none =>
      cases launchPayloadReport host command (some parent) <;>
        simp [bind, Except.bind, pure, Except.pure]

end Limits

end SandboxExec
