import LinuxUtilities.Agentwatch.Passes

/-! The escalation: `SIGTERM` at most once, `SIGKILL` at most once and a grace period later,
and no giving up before the final reaping period has passed. -/
namespace Agentwatch
variable {cfg : Setting} {s : Supervision} {l : List (Signal × ℕ)}

/-- No sum of the time of a pass and a period overflows. -/
structure Round.NoOverflow (cfg : Setting) (r : Round) : Prop where
  grace : r.time cfg + cfg.options.graceMs ≤ uint64Max
  finalReap : r.time cfg + finalReapMs ≤ uint64Max

/-- The calls of `signal_tree` so far, and what the deadline of the cleanup stands for. -/
inductive Phase (cfg : Setting) (s : Supervision) : List (Signal × ℕ) → Prop
  | running (hdeadline : s.cleanupDeadline = 0) (hkilled : s.killed = false) : Phase cfg s []
  | asked (t : ℕ) (hterm : s.terminating = true) (hkilled : s.killed = false)
    (hdeadline : s.cleanupDeadline = t + cfg.options.graceMs) : Phase cfg s [(.term, t)]
  | killed (t u : ℕ) (hgrace : t + cfg.options.graceMs ≤ u) (hterm : s.terminating = true)
    (hkilled : s.killed = true) (hdeadline : s.cleanupDeadline = u + finalReapMs) :
    Phase cfg s [(.term, t), (.kill, u)]

theorem Phase.calls_eq (h : Phase cfg s l) : l = [] ∨ (∃ t, l = [(.term, t)]) ∨
    ∃ t u, l = [(.term, t), (.kill, u)] ∧ t + cfg.options.graceMs ≤ u := by
  cases h with
  | running => exact .inl rfl
  | asked t => exact .inr (.inl ⟨t, rfl⟩)
  | killed t u hgrace => exact .inr (.inr ⟨t, u, rfl, hgrace⟩)

theorem addMs_eq {base increment : ℕ} (h : base + increment ≤ uint64Max) :
    addMs base increment = some (base + increment) := by
  rw [addMs, if_neg (by omega)]

namespace Supervision

theorem checked_cleanup (r : Round) : (s.checked cfg r).cleanupDeadline = s.cleanupDeadline ∧
    (s.checked cfg r).killed = s.killed := by
  obtain ⟨directDone, directStatus, hreaped⟩ := foldl_noteReaped cfg.child s r.reaped
  rw [checked_eq, hreaped]
  exact ⟨rfl, rfl⟩

theorem checked_terminating (r : Round) (h : s.terminating = true) :
    (s.checked cfg r).terminating = true := by
  rw [checked_eq, h]
  simp

theorem settle_term {now : ℕ} (hsum : now + cfg.options.graceMs ≤ uint64Max)
    (ok uncertain : Bool) : ∃ internal uncertain', settle cfg now ok uncertain s .term =
      { s with
        internal := internal
        uncertain := uncertain'
        cleanupDeadline := now + cfg.options.graceMs } := by
  rw [settle, extend, addMs_eq hsum]
  exact ⟨_, _, rfl⟩

theorem settle_kill {now : ℕ} (hsum : now + finalReapMs ≤ uint64Max) (ok uncertain : Bool) :
    ∃ internal uncertain', settle cfg now ok uncertain s .kill =
      { s with
        internal := internal
        uncertain := uncertain'
        killed := true
        cleanupDeadline := now + finalReapMs } := by
  rw [settle, extend, addMs_eq hsum]
  exact ⟨_, _, rfl⟩

end Supervision

/-- The flags are checked without touching the cleanup. -/
theorem Phase.checked (h : Phase cfg s l) (r : Round) : Phase cfg (s.checked cfg r) l := by
  obtain ⟨hdeadline', hkilled'⟩ := @Supervision.checked_cleanup cfg s r
  cases h with
  | running hdeadline hkilled =>
    exact .running (hdeadline'.trans hdeadline) (hkilled'.trans hkilled)
  | asked t hterm hkilled hdeadline =>
    exact .asked t (Supervision.checked_terminating r hterm) (hkilled'.trans hkilled)
      (hdeadline'.trans hdeadline)
  | killed t u hgrace hterm hkilled hdeadline =>
    exact .killed t u hgrace (Supervision.checked_terminating r hterm) (hkilled'.trans hkilled)
      (hdeadline'.trans hdeadline)

/-- The actions of each phase. -/
theorem Phase.pass (h : Phase cfg s l) {r : Round} (hsum : r.NoOverflow cfg) :
    Phase cfg (s.pass cfg r).after (l ++ calls cfg [s.pass cfg r]) ∧
      ((s.pass cfg r).leaves = true → (s.pass cfg r).after.internal = true ∧
        ∃ t u, l = [(.term, t), (.kill, u)] ∧ u + finalReapMs ≤ r.time cfg) := by
  have hc := h.checked r
  unfold Supervision.pass
  generalize s.checked cfg r = c at hc
  dsimp only
  cases hc with
  | running hdeadline hkilled =>
    by_cases hterm : c.terminating = true
    · have haction : c.action (r.time cfg) = .signal .term := by
        simp [Supervision.action, hterm, hdeadline]
      obtain ⟨_, _, hsettle⟩ :=
        Supervision.settle_term (s := c) hsum.grace r.treeOk r.treeUncertain
      rw [haction]
      dsimp only
      rw [hsettle]
      exact ⟨.asked (r.time cfg) hterm hkilled rfl, fun h => by contradiction⟩
    · have haction : c.action (r.time cfg) = .none := by
        simp [Supervision.action, hterm, hkilled]
      rw [haction]
      exact ⟨.running hdeadline hkilled, fun h => by contradiction⟩
  | asked t hterm hkilled hdeadline =>
    have hset : c.cleanupDeadline ≠ 0 := by
      have hpos := cfg.options.grace_pos
      omega
    by_cases htime : r.time cfg ≥ t + cfg.options.graceMs
    · have haction : c.action (r.time cfg) = .signal .kill := by
        simp [Supervision.action, hterm, hkilled, hset, hdeadline.trans_le htime]
      obtain ⟨_, _, hsettle⟩ :=
        Supervision.settle_kill (s := c) hsum.finalReap r.treeOk r.treeUncertain
      rw [haction]
      dsimp only
      rw [hsettle]
      exact ⟨.killed t (r.time cfg) htime hterm rfl rfl, fun h => by contradiction⟩
    · have hearly : ¬ c.cleanupDeadline ≤ r.time cfg := by rwa [hdeadline]
      have haction : c.action (r.time cfg) = .none := by
        simp [Supervision.action, hterm, hkilled, hset, hearly]
      rw [haction]
      exact ⟨.asked t hterm hkilled hdeadline, fun h => by contradiction⟩
  | killed t u hgrace hterm hkilled hdeadline =>
    have hset : c.cleanupDeadline ≠ 0 := by
      unfold finalReapMs at hdeadline
      omega
    by_cases htime : r.time cfg ≥ u + finalReapMs
    · have haction : c.action (r.time cfg) = .leave := by
        simp [Supervision.action, hterm, hkilled, hset, hdeadline.trans_le htime]
      rw [haction]
      exact ⟨.killed t u hgrace hterm hkilled hdeadline, fun _ =>
        ⟨by simp [Supervision.noteFailure], t, u, rfl, htime⟩⟩
    · have hearly : ¬ c.cleanupDeadline ≤ r.time cfg := by rwa [hdeadline]
      have haction : c.action (r.time cfg) = .none := by
        simp [Supervision.action, hterm, hkilled, hset, hearly]
      rw [haction]
      exact ⟨.killed t u hgrace hterm hkilled hdeadline, fun h => by contradiction⟩

/-- `signal_tree` is called only by a pass that terminates. -/
theorem Supervision.terminating_of_call {r : Round} (h : (s.pass cfg r).call ≠ none) :
    (s.checked cfg r).terminating = true := by
  unfold pass at h
  generalize s.checked cfg r = c at h ⊢
  by_contra hterm
  have haction : c.action (r.time cfg) ≠ .signal .term ∧ c.action (r.time cfg) ≠ .signal .kill := by
    simp only [Bool.not_eq_true] at hterm
    unfold action
    rw [hterm]
    simp only [Bool.false_and, Bool.false_eq_true, ↓reduceIte]
    split <;> simp
  dsimp only at h
  split at h
  · exact h rfl
  next signum heq =>
    cases signum with
    | term => exact haction.1 heq
    | kill => exact haction.2 heq
  · exact h rfl

section Run
variable {first : Option Interrupt} {failedStart : Bool}

/-- What the escalation keeps over the passes. -/
structure Escalates (cfg : Setting) (first : Option Interrupt) (failedStart : Bool)
    (done : List Pass) (s : Supervision) : Prop where
  records : Records cfg first failedStart done s
  phase : Phase cfg s (calls cfg done)
  cause : ∀ pre p post, done = pre ++ p :: post → p.call ≠ none →
    Begun cfg first failedStart (pre ++ [p])
  late : gaveUp done = true → s.internal = true ∧ ∃ t u pre p, done = pre ++ [p] ∧
    calls cfg done = [(.term, t), (.kill, u)] ∧ u + finalReapMs ≤ p.round.time cfg

theorem Escalates.pass {done : List Pass} (h : Escalates cfg first failedStart done s) {r : Round}
    (hsum : r.NoOverflow cfg) (hdone : gaveUp done = false) :
    Escalates cfg first failedStart (done ++ [s.pass cfg r]) (s.pass cfg r).after := by
  have hround := @Supervision.pass_round cfg s r
  have hcalls : calls cfg (done ++ [s.pass cfg r]) = calls cfg done ++ calls cfg [s.pass cfg r] :=
    List.filterMap_append
  obtain ⟨hphase, hlate⟩ := h.phase.pass hsum
  rw [← hcalls] at hphase
  refine ⟨h.records.pass r, hphase, ?_, ?_⟩
  · intro pre p post heq hcall
    by_contra hnot
    have hsplit : (∃ pre p post, done = pre ++ p :: post ∧
        (p.call ≠ none ∧ ¬ Begun cfg first failedStart (pre ++ [p]))) ∨
        ((s.pass cfg r).call ≠ none ∧
          ¬ Begun cfg first failedStart (done ++ [s.pass cfg r])) :=
      exists_split_concat.mp ⟨pre, p, post, heq, hcall, hnot⟩
    rcases hsplit with ⟨pre, p, post, heq, hcall, hnot⟩ | ⟨hcall, hnot⟩
    · exact hnot (h.cause pre p post heq hcall)
    · rw [begun_concat, hround, ← h.records.checked_terminating] at hnot
      exact hnot (Supervision.terminating_of_call hcall)
  · intro hgave
    rw [gaveUp_concat, hdone, Bool.false_or] at hgave
    obtain ⟨hinternal, t, u, hl, htime⟩ := hlate hgave
    refine ⟨hinternal, t, u, done, _, rfl, ?_, by rwa [hround]⟩
    rw [hcalls, hl]
    cases hphase' : (s.pass cfg r).call with
    | none => simp [calls, hphase']
    | some signum =>
      rw [hcalls, hl] at hphase
      simp only [calls, List.filterMap_cons, hphase', Option.map_some, List.filterMap_nil] at hphase
      cases hphase

/-- The escalation of every run. `SIGTERM` is sent at most once, `SIGKILL` at most once, in a
later pass and when the grace period is over, and no signal is sent without a reason. The
loop is left with children only when the final reaping period is over, and the run is then
marked. -/
theorem superviseLoop_escalates (cfg : Setting) (first : Option Interrupt) (failedStart : Bool)
    (rounds : List Round) (last : List Reaped) (hsum : ∀ r ∈ rounds, r.NoOverflow cfg) :
    let run := superviseLoop cfg (.initial first failedStart) rounds last
    (calls cfg run.1 = [] ∨ (∃ t, calls cfg run.1 = [(.term, t)]) ∨
      ∃ t u, calls cfg run.1 = [(.term, t), (.kill, u)] ∧ t + cfg.options.graceMs ≤ u) ∧
    (∀ pre p post, run.1 = pre ++ p :: post → p.call ≠ none →
      Begun cfg first failedStart (pre ++ [p])) ∧
    (run.2.noChildren = false → run.2.internal = true ∧ ∃ t u pre p, run.1 = pre ++ [p] ∧
      calls cfg run.1 = [(.term, t), (.kill, u)] ∧ u + finalReapMs ≤ p.round.time cfg) := by
  have hinit : Escalates cfg first failedStart [] (.initial first failedStart) :=
    ⟨records_initial, .running rfl rfl, by simp, by simp [gaveUp]⟩
  have hrun := passes_invariant (Escalates cfg first failedStart)
    (fun done s r hr hdone h => h.pass (hsum r hr) hdone) rfl hinit
  rw [List.nil_append] at hrun
  refine ⟨?_, hrun.cause, ?_⟩
  · exact hrun.phase.calls_eq
  · intro hchildren
    unfold superviseLoop at hchildren ⊢
    dsimp only at hchildren ⊢
    split at hchildren
    next hgave =>
      rw [if_pos hgave]
      exact hrun.late hgave
    next => contradiction

/-- A timeout, a command that ignores both signals, and a child that is never reaped. -/
def stubbornRounds : List Round :=
  [4, 5, 6, 2006].map fun clock => ⟨[], false, [], some clock, true, false, false⟩

def shortOptions : Options := ⟨some 5, 1, by decide, .lit "sleep"⟩

theorem superviseLoop_escalates_stubborn :
    let cfg : Setting := ⟨shortOptions, 7, 0, some 5⟩
    let run := superviseLoop cfg (.initial none false) stubbornRounds []
    (calls cfg run.1 = [] ∨ (∃ t, calls cfg run.1 = [(.term, t)]) ∨
      ∃ t u, calls cfg run.1 = [(.term, t), (.kill, u)] ∧ t + cfg.options.graceMs ≤ u) ∧
    (∀ pre p post, run.1 = pre ++ p :: post → p.call ≠ none →
      Begun cfg none false (pre ++ [p])) ∧
    (run.2.noChildren = false → run.2.internal = true ∧ ∃ t u pre p, run.1 = pre ++ [p] ∧
      calls cfg run.1 = [(.term, t), (.kill, u)] ∧ u + finalReapMs ≤ p.round.time cfg) :=
  superviseLoop_escalates ⟨shortOptions, 7, 0, some 5⟩ none false stubbornRounds [] (by
    intro r hr
    have hall : ∀ r ∈ stubbornRounds, r.time ⟨shortOptions, 7, 0, some 5⟩ ≤ 2006 := by decide
    exact ⟨(Nat.add_le_add_right (hall r hr) _).trans (by decide),
      (Nat.add_le_add_right (hall r hr) _).trans (by decide)⟩)

end Run

end Agentwatch
