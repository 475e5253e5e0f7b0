import LinuxUtilities.Agentwatch.Supervise

/-! What the variables of the loop say about the passes that were made. -/
namespace Agentwatch

/-- A property of an item and of those before it holds somewhere in a longer list. -/
theorem exists_split_concat {α : Type} {P : List α → α → Prop} {l : List α} {a : α} :
    (∃ pre x post, l ++ [a] = pre ++ x :: post ∧ P pre x) ↔
      (∃ pre x post, l = pre ++ x :: post ∧ P pre x) ∨ P l a := by
  constructor
  · rintro ⟨pre, x, post, heq, hp⟩
    rcases List.eq_nil_or_concat post with rfl | ⟨post, b, rfl⟩
    · obtain ⟨rfl, hx⟩ := List.append_inj' heq rfl
      obtain ⟨rfl, -⟩ := List.cons_eq_cons.mp hx
      exact .inr hp
    · rw [List.concat_eq_append, ← List.cons_append, ← List.append_assoc] at heq
      exact .inl ⟨pre, x, post, (List.append_inj' heq rfl).1, hp⟩
  · rintro (⟨pre, x, post, rfl, hp⟩ | hp)
    · exact ⟨pre, x, post ++ [a], by simp, hp⟩
    · exact ⟨l, a, [], rfl, hp⟩

theorem wakeHandler_foldl (first : Option Interrupt) (arrivals : List Interrupt) :
    arrivals.foldl wakeHandler first = first.or arrivals.head? := by
  induction arrivals generalizing first with
  | nil => simp
  | cons signum arrivals ih =>
    rw [List.foldl_cons, ih]
    cases first <;> rfl

def arrivals (done : List Pass) : List Interrupt := done.flatMap (·.round.interrupts)

def reaped (done : List Pass) : List Reaped := done.flatMap (·.round.reaped)

/-- The period that is added after a call of `signal_tree`. -/
def period (cfg : Setting) : Signal → ℕ
  | .term => cfg.options.graceMs
  | .kill => finalReapMs

/-- A call of `signal_tree` fails, or the deadline after it overflows. -/
def callFails (cfg : Setting) (r : Round) : Option Signal → Bool
  | none => false
  | some signum => !r.treeOk || (addMs (r.time cfg) (period cfg signum)).isNone

/-- An internal failure in a pass: of `waitpid`, of the clock, of `signal_tree` or the
deadline after it, of `poll`, or of the cleanup. -/
def Pass.failed (cfg : Setting) (p : Pass) : Bool :=
  p.round.waitFails || p.round.clock.isNone || callFails cfg p.round p.call ||
    (p.polled && p.round.pollFails) || p.leaves

/-- The deadline is seen to have passed. -/
def Round.due (cfg : Setting) (r : Round) : Bool := cfg.deadline.any (r.time cfg ≥ ·)

section
variable (cfg : Setting) (first : Option Interrupt) (failedStart : Bool)

/-- The interrupt that is on record when a round is checked. -/
def recorded (done : List Pass) (r : Round) : Option Interrupt :=
  first.or (arrivals done ++ r.interrupts).head?

/-- A reason to terminate is seen in a round: an interrupt, the deadline, a failed start, or
an internal failure. -/
def reason (done : List Pass) (r : Round) : Bool :=
  (recorded first done r).isSome || r.due cfg || failedStart || done.any (Pass.failed cfg) ||
    r.waitFails || r.clock.isNone

/-- Termination has begun. -/
def Begun (done : List Pass) : Prop :=
  ∃ pre p post, done = pre ++ p :: post ∧ reason cfg first failedStart pre p.round

/-- The deadline fired before termination had begun. -/
def DeadlineFired (done : List Pass) : Prop :=
  ∃ pre p post, done = pre ++ p :: post ∧
    (p.round.due cfg ∧ ¬ Begun cfg first failedStart pre ∧ recorded first pre p.round = none)

/-- The variables record what the passes met. -/
structure Records (done : List Pass) (s : Supervision) : Prop where
  firstInterrupt : s.firstInterrupt = first.or (arrivals done).head?
  startFailed : s.startFailed = failedStart
  internal : s.internal = done.any (Pass.failed cfg)
  terminating : s.terminating ↔ Begun cfg first failedStart done
  timedOut : s.timedOut ↔ DeadlineFired cfg first failedStart done

end

namespace Supervision
variable {cfg : Setting} {s : Supervision}

/-- The variables that reaping leaves alone. -/
theorem foldl_noteReaped (child : ℕ) (s : Supervision) (reaps : List Reaped) :
    ∃ directDone directStatus, reaps.foldl (noteReaped child) s =
      { s with directDone := directDone, directStatus := directStatus } := by
  induction reaps generalizing s with
  | nil => exact ⟨_, _, rfl⟩
  | cons r reaps ih =>
    rw [List.foldl_cons]
    obtain ⟨directDone, directStatus, h⟩ := ih (noteReaped child s r)
    rw [h]
    unfold noteReaped
    split
    · exact ⟨directDone, directStatus, rfl⟩
    · exact ⟨directDone, directStatus, rfl⟩

/-- The variables of a pass when it chooses its action. -/
theorem checked_eq (r : Round) :
    s.checked cfg r = { r.reaped.foldl (noteReaped cfg.child) s with
      firstInterrupt := s.firstInterrupt.or r.interrupts.head?
      internal := s.internal || r.waitFails || r.clock.isNone
      timedOut := s.timedOut ||
        (r.due cfg && !(s.firstInterrupt.or r.interrupts.head?).isSome && !s.terminating)
      terminating := s.terminating || (s.firstInterrupt.or r.interrupts.head?).isSome ||
        r.due cfg || s.startFailed || (s.internal || r.waitFails || r.clock.isNone) } := by
  obtain ⟨directDone, directStatus, hreaped⟩ := foldl_noteReaped cfg.child s r.reaped
  unfold checked noteInterrupts
  rw [wakeHandler_foldl, hreaped]
  dsimp only [noteFailure]
  generalize s.firstInterrupt.or r.interrupts.head? = first
  generalize hinternal : (s.internal || r.waitFails || r.clock.isNone) = internal
  generalize hterm : s.terminating = terminating
  have hdue : cfg.deadline.any (r.time cfg ≥ ·) = r.due cfg := rfl
  simp only [checkInterrupt, checkDeadline, checkFailures, hdue]
  generalize r.due cfg = due
  cases first <;> cases terminating <;> cases due <;> cases hs : s.startFailed <;>
    cases internal <;> simp_all

/-- Two states with the same flags but for those of failures and of cleanup. -/
structure Agrees (s t : Supervision) : Prop where
  firstInterrupt : t.firstInterrupt = s.firstInterrupt
  startFailed : t.startFailed = s.startFailed
  terminating : t.terminating = s.terminating
  timedOut : t.timedOut = s.timedOut
  directDone : t.directDone = s.directDone
  directStatus : t.directStatus = s.directStatus

theorem extend_agrees (now period : ℕ) : Agrees s (s.extend now period) := by
  unfold extend
  split <;> exact ⟨rfl, rfl, rfl, rfl, rfl, rfl⟩

theorem extend_internal (now period : ℕ) :
    (s.extend now period).internal = (s.internal || (addMs now period).isNone) := by
  unfold extend
  split
  next h => simp [h]
  next h => simp [h]

theorem settle_agrees (now : ℕ) (ok uncertain : Bool) (signum : Signal) :
    Agrees s (settle cfg now ok uncertain s signum) := by
  cases signum with
  | term => exact { extend_agrees now cfg.options.graceMs with }
  | kill => exact { extend_agrees now finalReapMs with }

theorem settle_internal (now : ℕ) (ok uncertain : Bool) (signum : Signal) :
    (settle cfg now ok uncertain s signum).internal =
      (s.internal || (!ok || (addMs now (period cfg signum)).isNone)) := by
  cases signum with
  | term => rw [settle, extend_internal, Bool.or_assoc, period]
  | kill => rw [settle, extend_internal, Bool.or_assoc, period]

/-- What the end of a pass adds to the variables it chose its action on. -/
structure Ends (cfg : Setting) (c : Supervision) (p : Pass) : Prop extends Agrees c p.after where
  internal : p.after.internal = (c.internal || callFails cfg p.round p.call ||
    (p.polled && p.round.pollFails) || p.leaves)

theorem pass_round (r : Round) : (s.pass cfg r).round = r := by
  unfold pass
  dsimp only
  split <;> rfl

theorem pass_ends (r : Round) : Ends cfg (s.checked cfg r) (s.pass cfg r) := by
  unfold pass
  generalize s.checked cfg r = c
  dsimp only
  split
  · exact ⟨⟨rfl, rfl, rfl, rfl, rfl, rfl⟩, by simp [pause, noteFailure, callFails]⟩
  next signum _ =>
    refine ⟨{ settle_agrees (r.time cfg) r.treeOk r.treeUncertain signum with }, ?_⟩
    simp [pause, noteFailure, callFails, settle_internal]
  · exact ⟨⟨rfl, rfl, rfl, rfl, rfl, rfl⟩, by simp [noteFailure, callFails]⟩

end Supervision

section Records
variable {cfg : Setting} {first : Option Interrupt} {failedStart : Bool} {done : List Pass}
  {s : Supervision}

theorem begun_concat {p : Pass} : Begun cfg first failedStart (done ++ [p]) ↔
    Begun cfg first failedStart done ∨ reason cfg first failedStart done p.round :=
  exists_split_concat

theorem deadlineFired_concat {p : Pass} : DeadlineFired cfg first failedStart (done ++ [p]) ↔
    DeadlineFired cfg first failedStart done ∨ (p.round.due cfg ∧
      ¬ Begun cfg first failedStart done ∧ recorded first done p.round = none) :=
  exists_split_concat

theorem records_initial : Records cfg first failedStart [] (.initial first failedStart) where
  firstInterrupt := by simp [Supervision.initial, arrivals]
  startFailed := rfl
  internal := rfl
  terminating := by simp [Supervision.initial, Begun]
  timedOut := by simp [Supervision.initial, DeadlineFired]

/-- The record of the interrupts when a round is checked. -/
theorem Records.recorded_eq (h : Records cfg first failedStart done s) (r : Round) :
    s.firstInterrupt.or r.interrupts.head? = recorded first done r := by
  rw [h.firstInterrupt, recorded, List.head?_append, Option.or_assoc]

theorem Records.checked_terminating (h : Records cfg first failedStart done s) (r : Round) :
    (s.checked cfg r).terminating ↔
      Begun cfg first failedStart done ∨ reason cfg first failedStart done r := by
  rw [Supervision.checked_eq]
  dsimp only
  rw [h.recorded_eq, h.startFailed, h.internal, ← h.terminating, reason]
  simp only [Bool.or_eq_true, or_assoc]

theorem Records.pass (h : Records cfg first failedStart done s) (r : Round) :
    Records cfg first failedStart (done ++ [s.pass cfg r]) (s.pass cfg r).after := by
  have hends := @Supervision.pass_ends cfg s r
  have hround := @Supervision.pass_round cfg s r
  constructor
  · rw [hends.firstInterrupt, Supervision.checked_eq]
    dsimp only
    rw [h.recorded_eq, recorded, arrivals, arrivals, List.flatMap_append, List.flatMap_singleton,
      hround]
  · obtain ⟨directDone, directStatus, hreaped⟩ :=
      Supervision.foldl_noteReaped cfg.child s r.reaped
    rw [hends.startFailed, Supervision.checked_eq, hreaped]
    exact h.startFailed
  · rw [hends.internal, Supervision.checked_eq, List.any_append, List.any_cons, List.any_nil]
    dsimp only
    rw [h.internal, Pass.failed, hround]
    simp only [Bool.or_assoc, Bool.or_false]
  · rw [hends.terminating, h.checked_terminating, begun_concat, hround]
  · rw [hends.timedOut, deadlineFired_concat, Supervision.checked_eq, hround]
    dsimp only
    rw [h.recorded_eq, ← h.timedOut, ← h.terminating]
    simp [and_assoc, and_comm]

theorem gaveUp_concat {p : Pass} : gaveUp (done ++ [p]) = (gaveUp done || p.leaves) := by
  simp [gaveUp]

theorem afterPasses_cons (p : Pass) (ps : List Pass) :
    s.afterPasses (p :: ps) = p.after.afterPasses ps := by
  unfold Supervision.afterPasses
  cases ps with
  | nil => rfl
  | cons q qs => simp [List.getLast?_cons]

/-- What each pass keeps holds after all of them. -/
theorem passes_invariant (inv : List Pass → Supervision → Prop) {rounds : List Round}
    (hpass : ∀ done s, ∀ r ∈ rounds, gaveUp done = false → inv done s →
      inv (done ++ [s.pass cfg r]) (s.pass cfg r).after)
    (hdone : gaveUp done = false) (h : inv done s) :
    inv (done ++ s.passes cfg rounds) (s.afterPasses (s.passes cfg rounds)) := by
  induction rounds generalizing done s with
  | nil =>
    rw [Supervision.passes, List.append_nil]
    exact h
  | cons r rounds ih =>
    have hr := hpass done s r List.mem_cons_self hdone h
    unfold Supervision.passes
    split
    · exact hr
    next hstays =>
      have hrest := ih (fun done s r hmem => hpass done s r (List.mem_cons_of_mem _ hmem))
        (by rw [gaveUp_concat, hdone, Bool.false_or, Bool.eq_false_of_not_eq_true hstays]) hr
      rw [List.append_assoc, List.singleton_append] at hrest
      rwa [afterPasses_cons]

end Records

end Agentwatch
