import LinuxUtilities.SandboxExec.Launch

/-! `execute_sandboxed`: the calls it makes, and that an oversized launch makes none. -/
namespace SandboxExec
open CodePoints

/-- A command and the text streamed to it. -/
structure WorkerLaunch where
  command : List Text
  stdinText : Option Text
  deriving DecidableEq, Repr

inductive StopSignal where
  | sigterm
  | sigkill
  deriving DecidableEq, Repr

/-- The calls that start, feed and stop a process. -/
inductive Call (D : Type) where
  | popen (command : List Text) (cwd : Text) (env : Option Environment) (pipedInput : Bool)
  | communicate (input : Option Text) (timeout : Option D)
  | killpg (signal : StopSignal)
  | terminate
  | kill
  deriving DecidableEq, Repr

def Call.isPopen {D : Type} : Call D → Bool
  | .popen .. => true
  | _ => false

/-- What a failed `os.killpg` says. -/
inductive KillError where
  | permissionError
  | processLookupError
  | other (e : LaunchError)
  deriving DecidableEq, Repr

/-- What the system answers to the calls; `communicate n` is the answer to the call after `n`
others. -/
structure System (D : Type) where
  popen : List Text → Text → Option Environment → Except LaunchError Unit
  communicate : ℕ → Except LaunchError (Text × Text)
  killpg : StopSignal → Except KillError Unit
  terminate : Except LaunchError Unit
  kill : Except LaunchError Unit
  returncode : ℤ
  startTime : D
  endTime : D

structure ExecutionRecord (D : Type) where
  exitCode : ℤ
  stdout : Text
  stderr : Text
  durationSeconds : D
  boundedStdout : Text
  boundedStderr : Text
  deriving DecidableEq, Repr

inductive Outcome (D : Type) where
  | refused (refusal : Refusal)
  | finished (record : ExecutionRecord D)
  | timedOut (record : ExecutionRecord D)
  deriving DecidableEq, Repr

section Execute
variable {D : Type}

/-- `bounded_process_output` with its default bounds. -/
def boundedOutput (text : Text) (artifactLogPath : Option Text) : Text :=
  boundedProcessOutput text artifactLogPath processOutputExcerptHeadBytes
    processOutputExcerptTailBytes

def executionRecord (exitCode : ℤ) (output : Text × Text) (duration : D)
    (artifactLogPath : Option Text) : ExecutionRecord D where
  exitCode := exitCode
  stdout := output.1
  stderr := output.2
  durationSeconds := duration
  boundedStdout := boundedOutput output.1 artifactLogPath
  boundedStderr := boundedOutput output.2 artifactLogPath

/-- A signal to the process group, and to the process alone where the group cannot be reached. -/
def stop (system : System D) (signal : StopSignal) :
    Except LaunchError Unit × List (Call D) :=
  match system.killpg signal with
  | .ok () => (.ok (), [.killpg signal])
  | .error (.other e) => (.error e, [.killpg signal])
  | .error _ =>
    match signal with
    | .sigterm => (system.terminate, [.killpg signal, .terminate])
    | .sigkill => (system.kill, [.killpg signal, .kill])

/-- The output that is read after the last signal. -/
def killAndDrain (system : System D) : Except LaunchError (Text × Text) × List (Call D) :=
  match stop system .sigkill with
  | (.error e, calls) => (.error e, calls)
  | (.ok (), calls) => (system.communicate 2, calls ++ [.communicate none none])

/-- The output of a process that has run out of time. -/
def terminateAndDrain [OfNat D 5] (system : System D) :
    Except LaunchError (Text × Text) × List (Call D) :=
  match stop system .sigterm with
  | (.error e, calls) => (.error e, calls)
  | (.ok (), calls) =>
    let waited := calls ++ [.communicate none (some 5)]
    match system.communicate 1 with
    | .error .timeoutExpired =>
      let drained := killAndDrain system
      (drained.1, waited ++ drained.2)
    | answer => (answer, waited)

/-- What follows a successful start. -/
def supervise [Sub D] [OfNat D 5] (system : System D) (launch : WorkerLaunch) (timeoutSeconds : D)
    (artifactLogPath : Option Text) : Except LaunchError (Outcome D) × List (Call D) :=
  let fed : Call D := .communicate launch.stdinText (some timeoutSeconds)
  match system.communicate 0 with
  | .ok output =>
    (.ok (.finished (executionRecord system.returncode output (system.endTime - system.startTime)
      artifactLogPath)), [fed])
  | .error .timeoutExpired =>
    let drained := terminateAndDrain system
    (drained.1.map fun output =>
      .timedOut (executionRecord 124 output timeoutSeconds artifactLogPath), fed :: drained.2)
  | .error e => (.error e, [fed])

def executeSandboxed [Sub D] [OfNat D 5] (host : Host) (system : System D) (launch : WorkerLaunch)
    (cwd : Text) (env : Option Environment) (timeoutSeconds : D) (artifactLogPath : Option Text) :
    Except LaunchError (Outcome D) × List (Call D) :=
  match refuseOversizedLaunch host launch.command env with
  | .error e => (.error e, [])
  | .ok (some refusal) => (.ok (.refused refusal), [])
  | .ok none =>
    let started : Call D := .popen launch.command cwd env launch.stdinText.isSome
    match system.popen launch.command cwd env with
    | .error (.osError errno) =>
      match classifyLaunchOserror host errno launch.command env with
      | .ok (some classified) => (.ok (.refused classified), [started])
      | .ok none => (.error (.osError errno), [started])
      | .error e => (.error e, [started])
    | .error e => (.error e, [started])
    | .ok () =>
      let supervised := supervise system launch timeoutSeconds artifactLogPath
      (supervised.1, started :: supervised.2)

/-- The environment a started process runs in; without one of its own it inherits its parent's. -/
def childEnvironment (parent : Environment) (env : Option Environment) : Environment :=
  env.getD parent

/-- Refused, before any process was started. -/
def RefusedUnstarted (result : Except LaunchError (Outcome D) × List (Call D)) : Prop :=
  (∃ refusal, result.1 = .ok (.refused refusal)) ∧ ∀ call ∈ result.2, call.isPopen = false

/-- A launch whose command and received environment exceed a limit in their own report is
refused before any process is started. -/
def MeasuresLaunch [Sub D] [OfNat D 5] (host : Host) (parent : Environment) (system : System D)
    (launch : WorkerLaunch) (cwd : Text) (env : Option Environment) (timeoutSeconds : D)
    (artifactLogPath : Option Text) : Prop :=
  (∃ report, launchPayloadReport host launch.command (some (childEnvironment parent env)) =
    .ok report ∧ report.Exceeds) →
      RefusedUnstarted
        (executeSandboxed host system launch cwd env timeoutSeconds artifactLogPath)

end Execute

section Refused
variable {D : Type} [Sub D] [OfNat D 5] {host : Host} {system : System D} {launch : WorkerLaunch}
  {cwd : Text} {env : Option Environment} {timeoutSeconds : D} {artifactLogPath : Option Text}

/-- Nothing is started for exactly those refusals that the measured environment calls for. -/
theorem executeSandboxed_refusedUnstarted_iff :
    RefusedUnstarted (executeSandboxed host system launch cwd env timeoutSeconds artifactLogPath) ↔
      Oversized host launch.command (env.getD []) := by
  rw [← refuseOversizedLaunch_iff]
  unfold executeSandboxed
  cases hrefuse : refuseOversizedLaunch host launch.command env with
  | error e => simp [RefusedUnstarted]
  | ok refusal =>
    cases refusal with
    | some r => simp [RefusedUnstarted]
    | none =>
      have hstarted : ∀ (answer : Except LaunchError (Outcome D)) (calls : List (Call D)),
          ¬ RefusedUnstarted
            (answer, .popen launch.command cwd env launch.stdinText.isSome :: calls) := by
        intro answer calls h
        exact absurd (h.2 _ List.mem_cons_self) (by simp [Call.isPopen])
      simp only [Except.ok.injEq, reduceCtorEq, exists_false, iff_false]
      split
      · split <;> exact hstarted _ _
      · exact hstarted _ _
      · exact hstarted _ _

/-- A launch is measured with what it launches exactly when an environment is given, or the
parent's does not take it over a limit that the command alone keeps. -/
theorem executeSandboxed_measures_iff (host : Host) (parent : Environment) (system : System D)
    (launch : WorkerLaunch) (cwd : Text) (env : Option Environment) (timeoutSeconds : D)
    (artifactLogPath : Option Text) :
    MeasuresLaunch host parent system launch cwd env timeoutSeconds artifactLogPath ↔
      env.isSome ∨ ¬ Oversized host launch.command parent ∨ Oversized host launch.command [] := by
  rw [MeasuresLaunch, exists_exceeds_iff, executeSandboxed_refusedUnstarted_iff]
  cases env with
  | some environment => simp [childEnvironment]
  | none =>
    simp only [childEnvironment, Option.getD_none, Option.getD_some, Option.isSome_none,
      Bool.false_eq_true, false_or]
    exact imp_iff_not_or

/-- A parent that holds a variable of 128 KiB starts the kernel on a launch that it refuses. -/
theorem executeSandboxed_inherits_unmeasured :
    ¬ MeasuresLaunch ⟨some 4096, some 2097152⟩ [(lit "X", List.replicate 131072 97)]
      ({ popen := fun _ _ _ => .error (.osError (some e2big))
         communicate := fun _ => .error .other
         killpg := fun _ => .error .processLookupError
         terminate := .ok ()
         kill := .ok ()
         returncode := 0
         startTime := 0
         endTime := 0 } : System ℕ)
      ⟨[lit "true"], none⟩ (lit "/") none 600 none := by
  rw [MeasuresLaunch, exists_exceeds_iff, executeSandboxed_refusedUnstarted_iff]
  intro hmeasures
  have hascii : Ascii (lit "X" ++ lit "=" ++ List.replicate 131072 97) := by
    rw [ascii_append]
    refine ⟨by decide, fun c hc => ?_⟩
    rw [List.eq_of_mem_replicate hc]
    decide
  have hlen : (lit "X" ++ lit "=" ++ List.replicate 131072 (97 : CodePoint)).length + 1 =
      131075 := by
    have hname : (lit "X").length = 1 := by decide
    have hequals : (lit "=").length = 1 := by decide
    simp only [List.length_append, List.length_replicate, hname, hequals]
  have hentry : environmentEntryBytes (lit "X", List.replicate 131072 97) = .ok 131075 := by
    rw [environmentEntryBytes, launchEntryBytes_ascii hascii, hlen]
  have hover : Oversized ⟨some 4096, some 2097152⟩ [lit "true"]
      [(lit "X", List.replicate 131072 97)] :=
    ⟨[5], [131075], rfl, by simp only [List.mapM_cons, hentry]; rfl, .inr (.inl (by decide))⟩
  obtain ⟨entries, envEntries, hentries, henv, hexceeds⟩ := hmeasures hover
  obtain rfl : [5] = entries := Except.ok.inj hentries
  obtain rfl : [] = envEntries := Except.ok.inj henv
  exact absurd hexceeds (by decide)

end Refused

end SandboxExec
