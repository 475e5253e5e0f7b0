import LinuxUtilities.Agentwatch.Collecting
import LinuxUtilities.Foundation.ProcessTable

/-! The steps of `supervise` and `signal_tree`, between the moves of the processes around them.
The marked processes are the command of the run and its descendants. -/
namespace Agentwatch
open CString ProcessTable

/-- Where the supervisor is: at `waitpid`, with the children it has returned in this pass; in
`scan_descendants`, with the entries read, each with whether its process was marked then; in
the loop of `signal_tree` over the items; or after its own loop. -/
inductive Stage where
  | waiting (reaped : List Reaped)
  | scanning (round : Round) (signum : Signal) (seen : List (ProcEntry × Bool))
  | signalling (round : Round) (signum : Signal) (tree : Tree) (pending : List (Identity × Bool))
  | left

/-- The processes, the variables of `supervise`, where it is, and who received which signal
from `signal_tree`. -/
structure System where
  table : Table
  vars : Supervision
  stage : Stage
  received : List (Task × Signal)

/-- A move of another process, or a step of the supervisor: `waitpid` returns a child, or fails
with `ECHILD`; the checks of a pass; an entry of `/proc` is read; the scan ends and the group is
signalled; an item is read again and signalled; `signal_tree` returns. -/
inductive Event where
  | move (m : Move)
  | reap (child : Reaped)
  | noChildren
  | check (round : Round) (allocated : Bool)
  | read (entry : ProcEntry)
  | scanned (opened failed : Bool) (outcome : KillOutcome)
  | signal (file : StatFile) (outcome : KillOutcome)
  | finish

/-- A record that can be read is that of the process which has the number then. -/
def Truthful (T : Table) (pid : ℕ) (file : StatFile) : Prop :=
  match readIdentity pid file with
  | .found identity =>
    ∃ t ∈ T.tasks, t.pid = pid ∧ t.ppid = identity.ppid ∧ t.start = identity.starttime
  | _ => True

instance (T : Table) (pid : ℕ) (file : StatFile) : Decidable (Truthful T pid file) := by
  unfold Truthful
  split <;> infer_instance

/-- The processes that a call of `kill` is for. -/
def reached (T : Table) : Target → List Task
  | .group pgid => T.tasks.filter (·.pgid = pgid)
  | .process pid => T.tasks.filter (·.pid = pid)

/-- What calls of `kill` deliver. -/
def deliver (T : Table) (outcome : KillOutcome) (kills : List Kill) : List (Task × Signal) :=
  if outcome = .delivered then kills.flatMap fun k => (reached T k.target).map (·, k.signum)
  else []

/-- `waitpid` returns 0: there are children, and none is a zombie. -/
def drained (T : Table) (self : ℕ) : Prop :=
  (∃ t ∈ T.tasks, t.ppid = self) ∧ ∀ t ∈ T.tasks, t.ppid = self → t.zombie = false

instance (T : Table) (self : ℕ) : Decidable (drained T self) := by
  unfold drained
  infer_instance

/-- Whether the loop over the entries of `/proc` was broken off. -/
def brokenOff (seen : List (ProcEntry × Bool)) : Bool :=
  ((seen.map Prod.fst).foldl Collected.inspect Collected.initial).stopped

namespace System

/-- The end of a pass. -/
def conclude (cfg : Setting) (s : System) (r : Round) : System :=
  { s with
    vars := (s.vars.pass cfg r).after
    stage := if (s.vars.pass cfg r).leaves then .left else .waiting [] }

/-- A pass up to its action. When `signal_tree` gets no memory, it returns at once. -/
def check (cfg : Setting) (s : System) (r : Round) (allocated : Bool) : System :=
  match (s.vars.checked cfg r).action (r.time cfg) with
  | .signal signum =>
    if allocated then { s with stage := .scanning r signum [] }
    else s.conclude cfg { r with treeOk := false, treeUncertain := true }
  | _ => s.conclude cfg r

/-- The end of the scan, and the call of `kill` for the group. -/
def signalGroup (cfg : Setting) (self : Supervisor) (s : System) (round : Round)
    (signum : Signal) (scan : Scan) (outcome : KillOutcome) : System :=
  let t : Tree := ⟨[], true, scan.uncertain⟩
  let t := if signalsGroup self cfg.child then t.send (.group cfg.child) signum outcome else t
  { s with
    stage := .signalling round signum t scan.items
    received := s.received ++ deliver s.table outcome t.kills }

/-- The step over one item, from the second look at its record to `kill`. -/
def signalNext (cfg : Setting) (self : Supervisor) (s : System) (round : Round) (signum : Signal)
    (t : Tree) (item : Identity × Bool) (pending : List (Identity × Bool)) (file : StatFile)
    (outcome : KillOutcome) : System :=
  let t' := signalItem self cfg.child signum outcome file t item
  { s with
    stage := .signalling round signum t' pending
    received := s.received ++ deliver s.table outcome (t'.kills.drop t.kills.length) }

def step (cfg : Setting) (self : Supervisor) (s : System) (e : Event) : Option System :=
  match e, s.stage with
  | .move m, _ =>
    if m.actor ≠ some self.pid then (s.table.move m).map ({ s with table := · }) else none
  | .reap child, .waiting reaped =>
    (s.table.move (.reap self.pid child.pid)).map
      ({ s with table := ·, stage := .waiting (reaped ++ [child]) })
  | .noChildren, .waiting _ =>
    if ∀ t ∈ s.table.tasks, t.ppid ≠ self.pid then some { s with stage := .left } else none
  | .check round allocated, .waiting reaped =>
    if round.reaped = reaped ∧ (round.waitFails = true ∨ drained s.table self.pid) then
      some (s.check cfg round allocated)
    else none
  | .read entry, .scanning round signum seen =>
    if brokenOff seen = false ∧ ∀ pid ∈ entryPid entry.name, Truthful s.table pid entry.stat then
      some { s with
        stage := .scanning round signum
          (seen ++ [(entry, (entryPid entry.name).any s.table.marks)]) }
    else none
  | .scanned opened failed outcome, .scanning round signum seen =>
    some (s.signalGroup cfg self round signum
      (scanDescendants cfg.child ⟨opened, seen.map Prod.fst, failed⟩) outcome)
  | .signal file outcome, .signalling round signum t (item :: pending) =>
    if Truthful s.table item.1.pid file then
      some (s.signalNext cfg self round signum t item pending file outcome)
    else none
  | .finish, .signalling round _ t [] =>
    some (s.conclude cfg { round with treeOk := t.ok, treeUncertain := t.uncertain })
  | _, _ => none

/-- A run over a list of events. -/
def exec (cfg : Setting) (self : Supervisor) : List Event → System → Option System
  | [], s => some s
  | e :: events, s => (s.step cfg self e).bind (exec cfg self events)

theorem exec_append (cfg : Setting) (self : Supervisor) (events later : List Event) (s : System) :
    exec cfg self (events ++ later) s =
      (exec cfg self events s).bind (exec cfg self later) := by
  induction events generalizing s with
  | nil => rfl
  | cons e events ih =>
    simp only [List.cons_append, exec, Option.bind_assoc]
    congr 1
    funext s'
    exact ih s'

end System

/-- The processes before the command is started, the supervisor among them. -/
structure Host (watch : Supervisor) where
  table : Table
  lawful : table.Lawful
  unmarked : ∀ t ∈ table.tasks, t.marked = false
  supervisor : ∃ t ∈ table.tasks, t.pid = watch.pid ∧ t.pgid = watch.pgrp ∧ t.zombie = false ∧
    t.subreaper = true

/-- `fork` of the command, and the loop before its first pass. -/
def Host.start {self : Supervisor} (host : Host self) (child : ℕ) (first : Option Interrupt)
    (failedStart : Bool) : Option System :=
  (host.table.move (.fork self.pid child)).map fun T =>
    ⟨T.mark child, .initial first failedStart, .waiting [], []⟩

section Alone
variable {cfg : Setting} {self : Supervisor} {env : TreeEnv} {round : Round} {signum : Signal}

/-- The step over an item, with what `signal_tree` meets. -/
def TreeEnv.signalEvent (env : TreeEnv) (item : Identity × Bool) : Event :=
  .signal (env.reread item.1.pid) (env.outcome (.process item.1.pid))

/-- The loop over the items, when no other process moves. -/
theorem exec_signalEvents (pending : List (Identity × Bool)) {s : System} {t : Tree}
    (hstage : s.stage = .signalling round signum t pending)
    (htruthful : ∀ pid, Truthful s.table pid (env.reread pid)) :
    ∃ s', System.exec cfg self (pending.map env.signalEvent) s = some s' ∧ s'.vars = s.vars ∧
      s'.stage = .signalling round signum (pending.foldl (fun t item =>
        signalItem self cfg.child signum (env.outcome (.process item.1.pid))
          (env.reread item.1.pid) t item) t) [] := by
  induction pending generalizing s t with
  | nil => exact ⟨s, rfl, rfl, hstage⟩
  | cons item pending ih =>
    have hstep : s.step cfg self (env.signalEvent item) = some (s.signalNext cfg self round signum
        t item pending (env.reread item.1.pid) (env.outcome (.process item.1.pid))) := by
      simp [System.step, TreeEnv.signalEvent, hstage, htruthful]
    obtain ⟨s', hexec, hvars, hstage'⟩ := ih (s := s.signalNext cfg self round signum t item pending
      (env.reread item.1.pid) (env.outcome (.process item.1.pid))) rfl htruthful
    refine ⟨s', ?_, hvars, hstage'⟩
    rw [List.map_cons, System.exec, hstep]
    exact hexec

/-- When no other process moves, the steps after the entries are read are those of `signal_tree`,
and the pass ends with what it returns. -/
theorem exec_signalTree {s : System} {seen : List (ProcEntry × Bool)}
    (hstage : s.stage = .scanning round signum seen) (hallocated : env.allocated = true)
    (hentries : env.listing.entries = seen.map Prod.fst)
    (htruthful : ∀ pid, Truthful s.table pid (env.reread pid)) :
    let tree := signalTree self cfg.child signum env
    ∃ s', System.exec cfg self
        (.scanned env.listing.opened env.listing.failed (env.outcome (.group cfg.child)) ::
          ((scanDescendants cfg.child env.listing).items.map env.signalEvent ++ [.finish])) s =
          some s' ∧
      s'.vars = (s.vars.pass cfg
        { round with treeOk := tree.ok, treeUncertain := tree.uncertain }).after := by
  have hlisting : (⟨env.listing.opened, seen.map Prod.fst, env.listing.failed⟩ : Listing) =
      env.listing := by
    rw [← hentries]
  obtain ⟨s', hexec, hvars, hstage'⟩ := @exec_signalEvents cfg self env round signum
    (scanDescendants cfg.child env.listing).items (s.signalGroup cfg self round signum
      (scanDescendants cfg.child env.listing) (env.outcome (.group cfg.child))) _ rfl htruthful
  have hscanned : s.step cfg self (.scanned env.listing.opened env.listing.failed
      (env.outcome (.group cfg.child))) = some (s.signalGroup cfg self round signum
        (scanDescendants cfg.child env.listing) (env.outcome (.group cfg.child))) := by
    simp only [System.step, hstage, hlisting]
  have htree : signalTree self cfg.child signum env =
      (scanDescendants cfg.child env.listing).items.foldl (fun t item =>
        signalItem self cfg.child signum (env.outcome (.process item.1.pid))
          (env.reread item.1.pid) t item)
        (if signalsGroup self cfg.child then
          (⟨[], true, (scanDescendants cfg.child env.listing).uncertain⟩ : Tree).send
            (.group cfg.child) signum (env.outcome (.group cfg.child))
        else ⟨[], true, (scanDescendants cfg.child env.listing).uncertain⟩) := by
    simp only [signalTree, hallocated, Bool.not_true, Bool.false_eq_true, if_false]
  rw [← htree] at hstage'
  refine ⟨s'.conclude cfg { round with
    treeOk := (signalTree self cfg.child signum env).ok
    treeUncertain := (signalTree self cfg.child signum env).uncertain }, ?_, ?_⟩
  · rw [System.exec, hscanned, Option.bind_some, System.exec_append, hexec, Option.bind_some]
    simp [System.exec, System.step, hstage']
  · rw [System.conclude, hvars]
    rfl

end Alone

end Agentwatch
