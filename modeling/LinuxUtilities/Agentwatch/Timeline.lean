import LinuxUtilities.Agentwatch.Arbitration
import LinuxUtilities.Agentwatch.Escalation
import LinuxUtilities.Foundation.SteadyClock

/-! The escalation again, from the other side: nothing is put off. Each signal goes out in the
first pass in which it is due, so that a run ends in bounded time whatever the processes do. -/
namespace Agentwatch
open SteadyClock

section Passes
variable {cfg : Setting} {s : Supervision}

theorem Supervision.pass_while_running (r : Round) (hdeadline : s.cleanupDeadline = 0)
    (hkilled : s.killed = false) : (s.pass cfg r).leaves = false ∧
      (s.pass cfg r).call = if (s.checked cfg r).terminating then some .term else none := by
  obtain ⟨hdeadline', hkilled'⟩ := @Supervision.checked_cleanup cfg s r
  unfold pass
  generalize s.checked cfg r = c at hdeadline' hkilled' ⊢
  have haction : c.action (r.time cfg) = if c.terminating then .signal .term else .none := by
    cases hterm : c.terminating <;>
      simp [Supervision.action, hterm, hdeadline', hdeadline, hkilled', hkilled]
  dsimp only
  rw [haction]
  cases c.terminating <;> exact ⟨rfl, rfl⟩

theorem Supervision.pass_while_asked (r : Round) {due : ℕ} (hset : 0 < due)
    (hterm : s.terminating = true) (hkilled : s.killed = false)
    (hdeadline : s.cleanupDeadline = due) :
    (s.pass cfg r).leaves = false ∧
      (s.pass cfg r).call = if due ≤ r.time cfg then some .kill else none := by
  obtain ⟨hdeadline', hkilled'⟩ := @Supervision.checked_cleanup cfg s r
  have hterm' := @Supervision.checked_terminating cfg s r hterm
  unfold pass
  generalize s.checked cfg r = c at hdeadline' hkilled' hterm' ⊢
  have haction : c.action (r.time cfg) =
      if due ≤ r.time cfg then .signal .kill else .none := by
    simp [Supervision.action, hterm', hdeadline', hdeadline, hkilled', hkilled, hset.ne']
  dsimp only
  rw [haction]
  split_ifs <;> exact ⟨rfl, rfl⟩

theorem Supervision.pass_while_killed (r : Round) {due : ℕ} (hset : 0 < due)
    (hkilled : s.killed = true) (hdeadline : s.cleanupDeadline = due) :
    (s.pass cfg r).call = none ∧ ((s.pass cfg r).leaves = true ↔ due ≤ r.time cfg) := by
  obtain ⟨hdeadline', hkilled'⟩ := @Supervision.checked_cleanup cfg s r
  unfold pass
  generalize s.checked cfg r = c at hdeadline' hkilled' ⊢
  have haction : c.action (r.time cfg) = if due ≤ r.time cfg then .leave else .none := by
    simp [Supervision.action, hdeadline', hdeadline, hkilled', hkilled, hset.ne']
  dsimp only
  rw [haction]
  split_ifs with hdue
  · exact ⟨rfl, iff_of_true rfl hdue⟩
  · exact ⟨rfl, iff_of_false Bool.false_ne_true hdue⟩

end Passes

section Timeline
variable (cfg : Setting) (first : Option Interrupt) (failedStart : Bool)

def Pass.time (p : Pass) : ℕ := p.round.time cfg

/-- A pass that neither sends a signal nor leaves the loop. -/
def Pass.Idle (p : Pass) : Prop := p.call = none ∧ p.leaves = false

/-- Passes that wait for a time. -/
def Waiting (bound : ℕ) (done : List Pass) : Prop := ∀ p ∈ done, p.Idle ∧ p.time cfg < bound

/-- `SIGTERM` in the first pass that sees a reason, after passes that see none. -/
structure Asks (pre : List Pass) (p : Pass) : Prop where
  before : ∀ q ∈ pre, q.Idle
  unbegun : ¬ Begun cfg first failedStart pre
  seen : reason cfg first failedStart pre p.round = true
  call : p.call = some .term
  stays : p.leaves = false

/-- `SIGKILL` in the first pass when the grace period is over. -/
structure Kills (p : Pass) (mid : List Pass) (q : Pass) : Prop where
  waiting : Waiting cfg (p.time cfg + cfg.options.graceMs) mid
  due : p.time cfg + cfg.options.graceMs ≤ q.time cfg
  call : q.call = some .kill
  stays : q.leaves = false

/-- Giving up in the first pass when the final reaping period is over. -/
structure GivesUp (q : Pass) (post : List Pass) (e : Pass) : Prop where
  waiting : Waiting cfg (q.time cfg + finalReapMs) post
  due : q.time cfg + finalReapMs ≤ e.time cfg
  call : e.call = none
  leaves : e.leaves = true

/-- The passes of a run: none has had a reason to terminate, or each step of the escalation comes
in the first pass in which it is due. -/
inductive Timeline : List Pass → Prop
  | running {done : List Pass} (idle : ∀ p ∈ done, p.Idle)
    (unbegun : ¬ Begun cfg first failedStart done) : Timeline done
  | asked {pre mid : List Pass} {p : Pass} (asks : Asks cfg first failedStart pre p)
    (waiting : Waiting cfg (p.time cfg + cfg.options.graceMs) mid) : Timeline (pre ++ p :: mid)
  | killed {pre mid post : List Pass} {p q : Pass} (asks : Asks cfg first failedStart pre p)
    (kills : Kills cfg p mid q) (waiting : Waiting cfg (q.time cfg + finalReapMs) post) :
    Timeline (pre ++ p :: (mid ++ q :: post))
  | left {pre mid post : List Pass} {p q e : Pass} (asks : Asks cfg first failedStart pre p)
    (kills : Kills cfg p mid q) (gives : GivesUp cfg q post e) :
    Timeline (pre ++ p :: (mid ++ q :: (post ++ [e])))

end Timeline

section Step
variable {cfg : Setting} {first : Option Interrupt} {failedStart : Bool} {s : Supervision}
  {done : List Pass}

theorem calls_append (done done' : List Pass) :
    calls cfg (done ++ done') = calls cfg done ++ calls cfg done' := List.filterMap_append

theorem calls_cons (p : Pass) (done : List Pass) :
    calls cfg (p :: done) = calls cfg [p] ++ calls cfg done := calls_append [p] done

theorem calls_of_idle (h : ∀ p ∈ done, p.Idle) : calls cfg done = [] := by
  refine List.filterMap_eq_nil_iff.mpr fun p hp => ?_
  rw [(h p hp).1, Option.map_none]

theorem calls_single {p : Pass} {signum : Signal} (h : p.call = some signum) :
    calls cfg [p] = [(signum, p.time cfg)] := by
  simp [calls, h, Pass.time]

theorem Waiting.idle {bound : ℕ} (h : Waiting cfg bound done) : ∀ p ∈ done, p.Idle :=
  fun p hp => (h p hp).1

theorem Waiting.concat {bound : ℕ} (h : Waiting cfg bound done) {p : Pass} (hp : p.Idle)
    (htime : p.time cfg < bound) : Waiting cfg bound (done ++ [p]) := by
  intro q hq
  rcases List.mem_append.mp hq with hq | hq
  · exact h q hq
  · rw [List.mem_singleton.mp hq]
    exact ⟨hp, htime⟩

theorem Asks.calls {pre mid : List Pass} {p : Pass} (h : Asks cfg first failedStart pre p)
    (hmid : ∀ q ∈ mid, q.Idle) : calls cfg (pre ++ p :: mid) = [(.term, p.time cfg)] := by
  rw [calls_append, calls_cons, calls_of_idle h.before, calls_single h.call, calls_of_idle hmid]
  rfl

theorem Kills.calls {pre mid post : List Pass} {p q : Pass}
    (hasks : Asks cfg first failedStart pre p) (h : Kills cfg p mid q)
    (hpost : ∀ e ∈ post, e.Idle) : calls cfg (pre ++ p :: (mid ++ q :: post)) =
      [(.term, p.time cfg), (.kill, q.time cfg)] := by
  rw [calls_append, calls_cons, calls_append, calls_cons q, calls_of_idle hasks.before,
    calls_single hasks.call, calls_of_idle h.waiting.idle, calls_single h.call,
    calls_of_idle hpost]
  rfl

/-- What the passes so far keep. -/
structure Follows (cfg : Setting) (first : Option Interrupt) (failedStart : Bool)
    (done : List Pass) (s : Supervision) : Prop where
  records : Records cfg first failedStart done s
  phase : Phase cfg s (calls cfg done)
  timeline : Timeline cfg first failedStart done

/-- One more pass does what is due, and nothing that is not. -/
theorem Follows.pass (h : Follows cfg first failedStart done s) {r : Round}
    (hsum : r.NoOverflow cfg) (hdone : gaveUp done = false) :
    Follows cfg first failedStart (done ++ [s.pass cfg r]) (s.pass cfg r).after := by
  obtain ⟨hrecords, hphase, htimeline⟩ := h
  have hround := @Supervision.pass_round cfg s r
  have htime : (s.pass cfg r).time cfg = r.time cfg := congrArg (Round.time cfg) hround
  refine ⟨hrecords.pass r, ?_, ?_⟩
  · rw [calls_append]
    exact (hphase.pass hsum).1
  cases htimeline with
  | running idle unbegun =>
    rw [calls_of_idle idle] at hphase
    cases hphase with
    | running hdeadline hkilled =>
      obtain ⟨hleaves, hcall⟩ := Supervision.pass_while_running r hdeadline hkilled
      have hterm := hrecords.checked_terminating r
      by_cases hreason : reason cfg first failedStart done r = true
      · rw [if_pos (hterm.mpr (.inr hreason))] at hcall
        exact .asked ⟨idle, unbegun, by rwa [hround], hcall, hleaves⟩ (by simp [Waiting])
      · have hnot : ¬ (s.checked cfg r).terminating = true := by
          rw [hterm]
          exact not_or.mpr ⟨unbegun, hreason⟩
        rw [if_neg hnot] at hcall
        refine .running ?_ ?_
        · intro p hp
          rcases List.mem_append.mp hp with hp | hp
          · exact idle p hp
          · rw [List.mem_singleton.mp hp]
            exact ⟨hcall, hleaves⟩
        · rw [begun_concat, hround]
          exact not_or.mpr ⟨unbegun, hreason⟩
  | asked asks waiting =>
    rw [asks.calls waiting.idle] at hphase
    cases hphase with
    | asked t hterm hkilled hdeadline =>
      have hset := cfg.options.grace_pos
      obtain ⟨hleaves, hcall⟩ := Supervision.pass_while_asked r (by omega) hterm hkilled hdeadline
      rw [List.append_assoc, List.cons_append]
      rw [← htime] at hcall
      split_ifs at hcall with hdue
      · exact .killed asks ⟨waiting, hdue, hcall, hleaves⟩ (by simp [Waiting])
      · exact .asked asks (waiting.concat ⟨hcall, hleaves⟩ (not_le.mp hdue))
  | @killed pre mid post p q asks kills waiting =>
    rw [kills.calls asks waiting.idle] at hphase
    cases hphase with
    | killed t u hgrace hterm hkilled hdeadline =>
      have hset : 0 < finalReapMs := by decide
      obtain ⟨hcall, hleaves⟩ := Supervision.pass_while_killed r (by omega) hkilled hdeadline
      rw [List.append_assoc, List.cons_append, List.append_assoc, List.cons_append]
      rw [← htime] at hleaves
      by_cases hdue : q.time cfg + finalReapMs ≤ (s.pass cfg r).time cfg
      · exact .left asks kills ⟨waiting, hdue, hcall, hleaves.mpr hdue⟩
      · exact .killed asks kills (waiting.concat
          ⟨hcall, Bool.eq_false_of_not_eq_true (mt hleaves.mp hdue)⟩ (not_le.mp hdue))
  | left asks kills gives =>
    simp [gaveUp, gives.leaves] at hdone

end Step

section Duration
variable {cfg : Setting} {first : Option Interrupt} {failedStart : Bool} {period start : ℕ}
  {pre mid post rest : List Pass} {p q e : Pass}

/-- The passes are on time: the clock never goes back, and is read once in each period. -/
def OnTime (cfg : Setting) (period start : ℕ) (done : List Pass) : Prop :=
  Steady period start (done.map (Pass.time cfg))

theorem OnTime.after (h : OnTime cfg period start (pre ++ p :: rest)) :
    OnTime cfg period (p.time cfg) rest := by
  unfold OnTime at h ⊢
  rw [List.map_append, List.map_cons] at h
  exact h.after

theorem OnTime.le_after (h : OnTime cfg period start (pre ++ p :: rest)) (hq : q ∈ rest) :
    p.time cfg ≤ q.time cfg :=
  Steady.start_le h.after (List.mem_map_of_mem hq)

theorem OnTime.le_before (h : OnTime cfg period start (pre ++ p :: rest)) (hq : q ∈ pre) :
    q.time cfg ≤ p.time cfg := by
  unfold OnTime at h
  rw [List.map_append, List.map_cons] at h
  exact h.le_of_mem (List.mem_map_of_mem hq)

theorem OnTime.late {bound : ℕ} (h : OnTime cfg period start (pre ++ p :: rest))
    (hstart : start ≤ bound) (hpre : ∀ q ∈ pre, q.time cfg < bound) :
    p.time cfg ≤ bound + period := by
  unfold OnTime at h
  rw [List.map_append, List.map_cons] at h
  refine h.late hstart fun t ht => ?_
  obtain ⟨q, hq, rfl⟩ := List.mem_map.mp ht
  exact hpre q hq

/-- Whatever sees a reason comes no earlier than the pass that asks. -/
theorem Asks.le_of_reason (h : Asks cfg first failedStart pre p)
    (htime : OnTime cfg period start (pre ++ p :: rest))
    (hsplit : pre ++ p :: rest = mid ++ q :: post)
    (hreason : reason cfg first failedStart mid q.round = true) : p.time cfg ≤ q.time cfg := by
  rcases List.append_eq_append_iff.mp hsplit with ⟨l, rfl, hl⟩ | ⟨l, rfl, hl⟩
  · cases l with
    | nil =>
      obtain ⟨rfl, -⟩ := List.cons_eq_cons.mp hl
      exact le_rfl
    | cons a l =>
      obtain ⟨rfl, rfl⟩ := List.cons_eq_cons.mp hl
      exact htime.le_after (by simp)
  · cases l with
    | nil =>
      obtain ⟨rfl, -⟩ := List.cons_eq_cons.mp hl
      exact le_rfl
    | cons a l =>
      obtain ⟨rfl, rfl⟩ := List.cons_eq_cons.mp hl
      exact absurd ⟨mid, q, l, rfl, hreason⟩ h.unbegun

/-- After the pass that asks, every pass comes within the two periods of the escalation. -/
theorem Timeline.within {done : List Pass} (h : Timeline cfg first failedStart done)
    (htime : OnTime cfg period start done) (hbegun : Begun cfg first failedStart done) :
    ∃ pre p rest, done = pre ++ p :: rest ∧ Asks cfg first failedStart pre p ∧ ∀ q ∈ rest,
      q.time cfg ≤ p.time cfg + cfg.options.graceMs + finalReapMs + 2 * period := by
  cases h with
  | running idle unbegun => exact absurd hbegun unbegun
  | @asked pre mid p asks waiting =>
    refine ⟨pre, p, mid, rfl, asks, fun q hq => ?_⟩
    have hq' := (waiting q hq).2
    omega
  | @killed pre mid post p q asks kills waiting =>
    refine ⟨pre, p, _, rfl, asks, fun e he => ?_⟩
    have hq : q.time cfg ≤ p.time cfg + cfg.options.graceMs + period :=
      htime.after.late (Nat.le_add_right _ _) fun e he => (kills.waiting e he).2
    rcases List.mem_append.mp he with he | he
    · have hmid := (kills.waiting e he).2
      omega
    · rcases List.mem_cons.mp he with rfl | he
      · omega
      · have hpost := (waiting e he).2
        omega
  | @left pre mid post p q e asks kills gives =>
    refine ⟨pre, p, _, rfl, asks, fun d hd => ?_⟩
    have hq : q.time cfg ≤ p.time cfg + cfg.options.graceMs + period :=
      htime.after.late (Nat.le_add_right _ _) fun e he => (kills.waiting e he).2
    have he : e.time cfg ≤ q.time cfg + finalReapMs + period :=
      htime.after.after.late (Nat.le_add_right _ _) fun e he => (gives.waiting e he).2
    rcases List.mem_append.mp hd with hd | hd
    · have hmid := (kills.waiting d hd).2
      omega
    · rcases List.mem_cons.mp hd with rfl | hd
      · omega
      · rcases List.mem_append.mp hd with hd | hd
        · have hpost := (gives.waiting d hd).2
          omega
        · rw [List.mem_singleton.mp hd]
          omega

/-- No pass comes later after a reason than the two periods of the escalation allow. -/
theorem Timeline.within_of_reason {done : List Pass} (h : Timeline cfg first failedStart done)
    (htime : OnTime cfg period start done) (hsplit : done = mid ++ q :: post)
    (hreason : reason cfg first failedStart mid q.round = true) (he : e ∈ done) :
    e.time cfg ≤ q.time cfg + cfg.options.graceMs + finalReapMs + 2 * period := by
  obtain ⟨pre, p, rest, hdone, hasks, hrest⟩ := h.within htime ⟨mid, q, post, hsplit, hreason⟩
  rw [hdone] at htime he
  have hp : p.time cfg ≤ q.time cfg := hasks.le_of_reason htime (hdone.symm.trans hsplit) hreason
  rcases List.mem_append.mp he with he | he
  · have hbefore := htime.le_before he
    omega
  · rcases List.mem_cons.mp he with rfl | he
    · omega
    · have hafter := hrest e he
      omega

/-- With a deadline, no pass comes later than it and the escalation allow. -/
theorem Timeline.within_of_deadline {done : List Pass} {deadline : ℕ}
    (h : Timeline cfg first failedStart done) (htime : OnTime cfg period start done)
    (hdeadline : cfg.deadline = some deadline) (hstart : start ≤ deadline) (he : e ∈ done) :
    e.time cfg ≤ deadline + cfg.options.graceMs + finalReapMs + 3 * period := by
  cases hfind : done.find? fun q => deadline ≤ q.time cfg with
  | none =>
    have hbefore : e.time cfg < deadline := by simpa using List.find?_eq_none.mp hfind e he
    omega
  | some q =>
    obtain ⟨hdue, mid, post, hsplit, hmid⟩ := List.find?_eq_some_iff_append.mp hfind
    have hreason : reason cfg first failedStart mid q.round = true := by
      have hround : q.round.due cfg = true := by
        rw [decide_eq_true_eq] at hdue
        rw [Round.due, hdeadline]
        exact decide_eq_true hdue
      simp [reason, hround]
    have hlate : q.time cfg ≤ deadline + period := by
      rw [hsplit] at htime
      exact htime.late hstart fun p hp => by simpa using hmid p hp
    have hall := h.within_of_reason htime hsplit hreason he
    omega

end Duration

section Run
variable {cfg : Setting}

/-- The passes are made on the rounds in turn, and on all of them unless the loop is left. -/
theorem passes_rounds (s : Supervision) (rounds : List Round) :
    (s.passes cfg rounds).map Pass.round <+: rounds ∧
      (gaveUp (s.passes cfg rounds) = false → (s.passes cfg rounds).map Pass.round = rounds) := by
  induction rounds generalizing s with
  | nil => exact ⟨List.prefix_rfl, fun _ => rfl⟩
  | cons r rounds ih =>
    obtain ⟨hfirst, hall⟩ := ih (s.pass cfg r).after
    have hround := @Supervision.pass_round cfg s r
    unfold Supervision.passes
    split
    next hleaves =>
      refine ⟨?_, fun hgave => ?_⟩
      · rw [List.map_cons, hround, List.map_nil]
        exact ⟨rounds, rfl⟩
      · simp [gaveUp, hleaves] at hgave
    next hleaves =>
      refine ⟨?_, fun hgave => ?_⟩
      · rw [List.map_cons, hround]
        exact List.cons_prefix_cons.mpr ⟨rfl, hfirst⟩
      · rw [List.map_cons, hround, hall]
        simpa [gaveUp, hleaves] using hgave

/-- The deadline is the timeout after the start. -/
theorem setup_deadline {options : Options} {env : Startup} (h : setup options env = .ok cfg) :
    cfg.options = options ∧ cfg.deadline = options.timeoutMs.map (cfg.start + ·) := by
  unfold setup at h
  split_ifs at h
  split at h
  · contradiction
  next start hclock =>
    split at h
    · contradiction
    next hadded =>
      split at h
      · contradiction
      next child hfork =>
        obtain rfl := Except.ok.inj h
        refine ⟨rfl, ?_⟩
        cases htimeout : options.timeoutMs with
        | none => rfl
        | some timeout =>
          have hfits : addMs start timeout ≠ none := fun hnone =>
            hadded (by rw [htimeout, Option.map_some, hnone])
          unfold addMs at hfits ⊢
          split_ifs at hfits with hover
          · exact absurd rfl hfits
          · simp [hover]

variable {options : Options} {env : Startup} {events : Events}

/-- Each step of the escalation comes in the first pass in which it is due, and not before. With a
clock that never goes back and is read once in each period, no pass comes later after a reason to
terminate, or after the timeout, than the grace and reaping periods and the readings that are
missed; so the loop ends by then, whatever the processes do. -/
theorem runPasses_prompt (hsetup : setup options env = .ok cfg)
    (hsum : ∀ r ∈ events.rounds, r.NoOverflow cfg) :
    let done := runPasses env events cfg
    Timeline cfg env.interrupts.head? (startFailed env) done ∧
      done.map Pass.round <+: events.rounds ∧
      (gaveUp done = false → done.map Pass.round = events.rounds) ∧
      ∀ period, Steady period cfg.start (events.rounds.map (Round.time cfg)) →
        (∀ pre p post, done = pre ++ p :: post →
          reason cfg env.interrupts.head? (startFailed env) pre p.round = true →
            ∀ q ∈ done, q.time cfg ≤ p.time cfg + options.graceMs + finalReapMs + 2 * period) ∧
        ∀ timeout ∈ options.timeoutMs, ∀ q ∈ done,
          q.time cfg ≤ cfg.start + timeout + options.graceMs + finalReapMs + 3 * period := by
  intro done
  obtain ⟨rfl, hdeadline⟩ := setup_deadline hsetup
  obtain ⟨hfirst, hall⟩ :=
    @passes_rounds cfg (.initial env.interrupts.head? (startFailed env)) events.rounds
  have hfollows : Follows cfg env.interrupts.head? (startFailed env) done
      (Supervision.afterPasses (.initial env.interrupts.head? (startFailed env)) done) :=
    passes_invariant (Follows cfg env.interrupts.head? (startFailed env))
      (fun done s r hr hdone h => h.pass (hsum r hr) hdone) rfl
      ⟨records_initial, .running rfl rfl, .running (by simp) (by simp [Begun])⟩
  refine ⟨hfollows.timeline, hfirst, hall, fun period hsteady => ?_⟩
  have htime : OnTime cfg period cfg.start done := by
    unfold OnTime
    have hmap : done.map (Pass.time cfg) = (done.map Pass.round).map (Round.time cfg) := by
      rw [List.map_map]
      rfl
    rw [hmap]
    exact hsteady.of_isPrefix (hfirst.map _)
  constructor
  · intro pre p post hsplit hreason q hq
    exact hfollows.timeline.within_of_reason htime hsplit hreason hq
  · intro timeout htimeout q hq
    rw [Option.mem_def.mp htimeout] at hdeadline
    exact hfollows.timeline.within_of_deadline htime hdeadline (Nat.le_add_right _ _) hq

/-- A start in which nothing fails. -/
def smoothStart : Startup := ⟨true, true, true, some 0, some 7, true, true, []⟩

/-- A command that ignores both signals, looked at once in a second. -/
def slowEvents : Events where
  rounds := [1, 1001, 2001, 3001, 4001].map fun clock =>
    ⟨[], false, [], some clock, true, false, false⟩
  last := []
  late := []

/-- The command runs as child 7, for 5 ms, with a grace period of 1 ms. -/
def slowSetting : Setting := ⟨shortOptions, 7, 0, some 5⟩

theorem runPasses_prompt_slow :
    (runPasses smoothStart slowEvents slowSetting).all
      (fun q => q.time slowSetting ≤ 0 + 5 + 1 + 2000 + 3 * 1000) = true ∧
    gaveUp (runPasses smoothStart slowEvents slowSetting) = true := by
  have hprompt := @runPasses_prompt slowSetting shortOptions smoothStart slowEvents rfl (by
    intro r hr
    have hall : ∀ r ∈ slowEvents.rounds, r.time slowSetting ≤ 4001 := by decide
    exact ⟨(Nat.add_le_add_right (hall r hr) _).trans (by decide),
      (Nat.add_le_add_right (hall r hr) _).trans (by decide)⟩)
  constructor
  · rw [List.all_eq_true]
    intro q hq
    exact decide_eq_true ((hprompt.2.2.2 1000 (by decide)).2 5 rfl q hq)
  · decide

end Run

end Agentwatch
