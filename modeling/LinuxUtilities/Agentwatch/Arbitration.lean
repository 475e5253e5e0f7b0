import LinuxUtilities.Agentwatch.Escalation

/-! The status of a run, from the events that it meets. -/
namespace Agentwatch
open CString

/-- How a process ends. -/
inductive Termination where
  | exited (code : Fin 256)
  | signaled (signum : ℕ) (core : Bool) (h : 0 < signum ∧ signum < 127)

namespace Termination

/-- The status word of `waitpid`. -/
def encode : Termination → ℕ
  | exited code => code * 256
  | signaled signum core _ => signum + if core then 128 else 0

/-- The exit status that stands for it. -/
def code : Termination → ℕ
  | exited code => code
  | signaled signum _ _ => 128 + signum

/-- The macros read the status word back. -/
theorem code_encode (t : Termination) :
    (if wifexited t.encode then wexitstatus t.encode
      else if wifsignaled t.encode then 128 + wtermsig t.encode else 125) = t.code := by
  cases t with
  | exited code =>
    have hexited : wifexited (code * 256 : ℕ) = true := by
      rw [wifexited, decide_eq_true_eq]
      omega
    have hlt := code.isLt
    rw [encode, if_pos hexited, wexitstatus, Termination.code]
    omega
  | signaled signum core h =>
    have hterm : wtermsig (encode (signaled signum core h)) = signum := by
      have hsig : signum % 128 = signum := Nat.mod_eq_of_lt (by omega)
      cases core with
      | false => exact hsig
      | true => exact (Nat.add_mod_right signum 128).trans hsig
    have hexited : wifexited (encode (signaled signum core h)) = false := by
      rw [wifexited, ← wtermsig, hterm, decide_eq_false_iff_not]
      omega
    have hsignaled : wifsignaled (encode (signaled signum core h)) = true := by
      rw [wifsignaled, hterm]
      simpa using h
    rw [hexited, if_neg (by decide), if_pos hsignaled, hterm, Termination.code]

end Termination

section Direct
variable {child : ℕ} {reaps : List Reaped} {s : Supervision}

/-- The variables hold the first termination with the pid of the direct child. -/
structure HoldsDirect (child : ℕ) (reaps : List Reaped) (s : Supervision) : Prop where
  done : s.directDone = (reaps.find? (·.pid = child)).isSome
  status : s.directStatus = ((reaps.find? (·.pid = child)).map Reaped.status).getD 0

theorem HoldsDirect.noteReaped (h : HoldsDirect child reaps s) (r : Reaped) :
    HoldsDirect child (reaps ++ [r]) (s.noteReaped child r) := by
  have hdone := h.done
  have hstatus := h.status
  unfold Supervision.noteReaped
  cases hfind : reaps.find? (·.pid = child) with
  | none =>
    rw [hfind] at hdone hstatus
    by_cases hpid : r.pid = child
    · rw [if_pos ⟨hpid, by simp [hdone]⟩]
      constructor <;> simp [List.find?_append, hfind, hpid]
    · rw [if_neg (by simp [hpid])]
      constructor <;> simp [List.find?_append, hfind, hpid, hdone, hstatus]
  | some first =>
    rw [hfind] at hdone hstatus
    rw [if_neg (by simp [hdone])]
    constructor <;> simp [List.find?_append, hfind, hdone, hstatus]

theorem HoldsDirect.foldl (h : HoldsDirect child reaps s) (rs : List Reaped) :
    HoldsDirect child (reaps ++ rs) (rs.foldl (.noteReaped child) s) := by
  induction rs generalizing reaps s with
  | nil =>
    rw [List.append_nil]
    exact h
  | cons r rs ih =>
    have hrest := ih (h.noteReaped r)
    rw [List.append_assoc] at hrest
    exact hrest

theorem HoldsDirect.congr {s' : Supervision} (h : HoldsDirect child reaps s)
    (hdone : s'.directDone = s.directDone) (hstatus : s'.directStatus = s.directStatus) :
    HoldsDirect child reaps s' :=
  ⟨hdone.trans h.done, hstatus.trans h.status⟩

theorem HoldsDirect.pass {cfg : Setting} {done : List Pass}
    (h : HoldsDirect cfg.child (reaped done) s) (r : Round) :
    HoldsDirect cfg.child (reaped (done ++ [s.pass cfg r])) (s.pass cfg r).after := by
  have hends := @Supervision.pass_ends cfg s r
  have hround := @Supervision.pass_round cfg s r
  have hreaped : reaped (done ++ [s.pass cfg r]) = reaped done ++ r.reaped := by
    rw [reaped, reaped, List.flatMap_append, List.flatMap_singleton, hround]
  rw [hreaped]
  apply (h.foldl r.reaped).congr
  · rw [hends.directDone, Supervision.checked_eq]
  · rw [hends.directStatus, Supervision.checked_eq]

/-- The first termination with the pid is the one that is held. -/
theorem HoldsDirect.status_eq {pre post : List Reaped} {status : ℕ}
    (h : HoldsDirect child (pre ++ ⟨child, status⟩ :: post) s)
    (hpre : ∀ r ∈ pre, r.pid ≠ child) : s.directStatus = status := by
  have hnone : pre.find? (·.pid = child) = none := by
    rw [List.find?_eq_none]
    simpa using hpre
  rw [h.status, List.find?_append, hnone, Option.none_or, List.find?_cons_of_pos (by simp)]
  rfl

end Direct

def SetupFailure.isStart : SetupFailure → Bool
  | pipe | fork => true
  | handlers | subreaper | clock => false

section Status
variable (options : Options) (env : Startup) (events : Events)

open Classical in
/-- The order of precedence. -/
noncomputable def statusFor (first : Option Interrupt) (start deadline internal : Prop)
    (code : ℕ) : ℕ :=
  match first with
  | some signum => 128 + signum.number
  | none => if start then 127 else if deadline then 124 else if internal then 125 else code

/-- The passes of a run. -/
def runPasses (cfg : Setting) : List Pass :=
  (Supervision.initial env.interrupts.head? (startFailed env)).passes cfg events.rounds

/-- The status that the events of a run call for: that of the first interrupt on record, of
a failed start, of the deadline, of an internal failure, or of the direct child. -/
noncomputable def expectedStatus (t : Termination) : ℕ :=
  match setup options env with
  | .error failure =>
    statusFor env.interrupts.head? (failure.isStart = true) False True t.code
  | .ok cfg =>
    let done := runPasses env events cfg
    statusFor (env.interrupts ++ arrivals done ++ events.late).head? (startFailed env = true)
      (DeadlineFired cfg env.interrupts.head? (startFailed env) done)
      (done.any (Pass.failed cfg) = true) t.code

/-- What `waitpid` promises: it reports `ECHILD` only when the direct child has been reaped,
and until then no other child has its pid. -/
def ReapsDirect (t : Termination) : Prop :=
  ∀ cfg, setup options env = .ok cfg → gaveUp (runPasses env events cfg) = false →
    ∃ pre post, reaped (runPasses env events cfg) ++ events.last =
      pre ++ ⟨cfg.child, t.encode⟩ :: post ∧ ∀ r ∈ pre, r.pid ≠ cfg.child

end Status

/-- The variables after the loop. -/
theorem superviseLoop_records {cfg : Setting} {first : Option Interrupt} {failedStart : Bool}
    {rounds : List Round} {last : List Reaped} {done : List Pass} {s : Supervision}
    (hrun : superviseLoop cfg (.initial first failedStart) rounds last = (done, s)) :
    Records cfg first failedStart done s ∧
      (gaveUp done = false → s.noChildren = true ∧
        HoldsDirect cfg.child (reaped done ++ last) s) := by
  have hinv := passes_invariant
    (fun done s => Records cfg first failedStart done s ∧ HoldsDirect cfg.child (reaped done) s)
    (fun done s r (_ : r ∈ rounds) _ h => ⟨h.1.pass r, h.2.pass r⟩) (rfl : gaveUp [] = false)
    ⟨records_initial, rfl, rfl⟩
  rw [List.nil_append] at hinv
  obtain ⟨rfl, hs⟩ := Prod.mk.inj hrun
  dsimp only at hs
  split at hs
  next hgave =>
    subst hs
    exact ⟨hinv.1, fun hno => by rw [hno] at hgave; contradiction⟩
  next =>
    subst hs
    obtain ⟨directDone, directStatus, hreaped⟩ := Supervision.foldl_noteReaped cfg.child
      ((Supervision.initial first failedStart).afterPasses
        ((Supervision.initial first failedStart).passes cfg rounds)) last
    refine ⟨?_, fun _ => ⟨rfl, (hinv.2.foldl last).congr rfl rfl⟩⟩
    rw [hreaped]
    exact ⟨hinv.1.firstInterrupt, hinv.1.startFailed, hinv.1.internal, hinv.1.terminating,
      hinv.1.timedOut⟩

section Arbitrate
variable {options : Options} {env : Startup} {events : Events} {t : Termination}

theorem arbitrate_status {s : Supervision} {first : Option Interrupt}
    {start deadline internal : Prop} (hfirst : s.firstInterrupt = first)
    (hstart : s.startFailed = true ↔ start) (hdeadline : s.timedOut = true ↔ deadline)
    (hinternal : (s.internal || (s.uncertain && !s.noChildren)) = true ↔ internal)
    (hstatus : ¬ internal → s.directStatus = t.encode) :
    (arbitrate options s).status = statusFor first start deadline internal t.code := by
  unfold arbitrate statusFor
  rw [hfirst]
  cases first with
  | some signum => rfl
  | none =>
    dsimp only
    by_cases hs : start
    · rw [if_pos hs, if_pos (hstart.mpr hs)]
    rw [if_neg hs, if_neg (mt hstart.mp hs)]
    by_cases hd : deadline
    · rw [if_pos hd, if_pos (hdeadline.mpr hd)]
    rw [if_neg hd, if_neg (mt hdeadline.mp hd)]
    by_cases hi : internal
    · rw [if_pos hi, if_pos (hinternal.mpr hi)]
    rw [if_neg hi, if_neg (mt hinternal.mp hi), hstatus hi, ← t.code_encode]
    split
    · rfl
    · split <;> rfl

/-- After the loop the status is the one that the events call for. -/
theorem supervise_status_of_setup {cfg : Setting} (hsetup : setup options env = .ok cfg)
    (hdirect : ReapsDirect options env events t) :
    (supervise options env events).status = expectedStatus options env events t := by
  have hwake : env.interrupts.foldl wakeHandler none = env.interrupts.head? := by
    rw [wakeHandler_foldl, Option.none_or]
  have hdirect := hdirect cfg hsetup
  unfold supervise expectedStatus
  rw [hsetup, hwake]
  dsimp only
  cases hrun : superviseLoop cfg (.initial env.interrupts.head? (startFailed env)) events.rounds
    events.last with
  | mk done s =>
    obtain ⟨hrecords, hleft⟩ := superviseLoop_records hrun
    have hdone : runPasses env events cfg = done := (Prod.mk.inj hrun).1
    rw [hdone] at hdirect ⊢
    apply arbitrate_status
    · rw [Supervision.noteInterrupts, wakeHandler_foldl, hrecords.firstInterrupt,
        List.head?_append, List.head?_append]
    · exact iff_of_eq (congrArg (· = true) hrecords.startFailed)
    · exact hrecords.timedOut
    · have hinternal : s.internal = done.any (Pass.failed cfg) := hrecords.internal
      change (s.internal || (s.uncertain && !s.noChildren)) = true ↔ _
      rw [hinternal]
      cases hgave : gaveUp done with
      | false => rw [(hleft hgave).1, Bool.not_true, Bool.and_false, Bool.or_false]
      | true =>
        obtain ⟨p, hp, hleaves⟩ := List.any_eq_true.mp hgave
        have hfailed : done.any (Pass.failed cfg) = true :=
          List.any_eq_true.mpr ⟨p, hp, by simp [Pass.failed, hleaves]⟩
        rw [hfailed, Bool.true_or]
    · intro hok
      have hgave : gaveUp done = false := by
        rw [gaveUp, List.any_eq_false]
        intro p hp hleaves
        exact hok (List.any_eq_true.mpr ⟨p, hp, by simp [Pass.failed, hleaves]⟩)
      obtain ⟨pre, post, hreaps, hpre⟩ := hdirect hgave
      have hholds := (hleft hgave).2
      rw [hreaps] at hholds
      exact hholds.status_eq hpre

/-- A failure before the loop is reported whether or not an interrupt is on record. -/
theorem supervise_status_of_failure {failure : SetupFailure}
    (hsetup : setup options env = .error failure) :
    (supervise options env events).status = expectedStatus options env events t ↔
      env.interrupts = [] := by
  have hstatus : failure.report.status = if failure.isStart then 127 else 125 := by
    cases failure <;> rfl
  unfold supervise expectedStatus statusFor
  rw [hsetup]
  dsimp only
  rw [hstatus]
  cases env.interrupts with
  | nil => simp
  | cons signum arrivals =>
    have hne : (if failure.isStart then 127 else 125) ≠ 128 + signum.number := by
      split <;> omega
    simpa using hne

/-- The status is the one that the events of the run call for if and only if no call before
the loop fails after an interrupt. -/
theorem supervise_status_iff (hdirect : ReapsDirect options env events t) :
    (supervise options env events).status = expectedStatus options env events t ↔
      (∃ cfg, setup options env = .ok cfg) ∨ env.interrupts = [] := by
  cases hsetup : setup options env with
  | error failure => simpa using supervise_status_of_failure hsetup
  | ok cfg => simpa using supervise_status_of_setup hsetup hdirect

/-- The direct child exits with 3, and a later child that has its pid with 0. -/
theorem supervise_status_iff_reused :
    (supervise shortOptions ⟨true, true, true, some 0, some 7, true, true, []⟩
      ⟨[], [⟨7, 3 * 256⟩, ⟨7, 0⟩], []⟩).status =
      expectedStatus shortOptions ⟨true, true, true, some 0, some 7, true, true, []⟩
        ⟨[], [⟨7, 3 * 256⟩, ⟨7, 0⟩], []⟩ (.exited 3) ↔
      (∃ cfg, setup shortOptions ⟨true, true, true, some 0, some 7, true, true, []⟩ = .ok cfg) ∨
        ([] : List Interrupt) = [] :=
  supervise_status_iff (by
    intro cfg hsetup _
    obtain rfl := Except.ok.inj hsetup
    exact ⟨[], [⟨7, 0⟩], rfl, by simp⟩)

/-- `SIGTERM` arrives, and then `fork` fails. -/
theorem supervise_status_not_arbitrated :
    ¬ ∀ (options : Options) (env : Startup) (events : Events) (t : Termination),
      ReapsDirect options env events t →
        (supervise options env events).status = expectedStatus options env events t := by
  intro h
  have hrun := h shortOptions ⟨true, true, true, some 0, none, true, true, [.term]⟩ ⟨[], [], []⟩
    (.exited 0) (by
      intro cfg hsetup
      contradiction)
  have hlate : (127 : ℕ) = 128 + 15 := hrun
  contradiction

end Arbitrate

end Agentwatch
