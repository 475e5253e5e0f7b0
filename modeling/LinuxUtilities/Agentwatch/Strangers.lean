import LinuxUtilities.Agentwatch.Escalation
import LinuxUtilities.Agentwatch.Interleaving

/-! Whom the signals reach while processes come and go: the runs in which `signal_tree` signals
the command and its descendants alone, and one in which it signals a stranger. -/
namespace Agentwatch
open CString ProcessTable

namespace System
variable (cfg : Setting) (self : Supervisor) (s : System)

/-- The identities read so far by a scan, each with whether its process was marked then. -/
def records : List (Identity × Bool) :=
  match s.stage with
  | .scanning _ _ seen => seen.filterMap fun e => (noted e.1).map (·, e.2)
  | _ => []

/-- The items that are still to be signalled. -/
def targets : List Identity :=
  match s.stage with
  | .signalling _ _ _ pending =>
    (pending.filter fun item => !skips self cfg.child item).map Prod.fst
  | _ => []

/-- `signal_tree` runs, or may still be called. -/
def armed : Bool :=
  match s.stage with
  | .waiting _ => !s.vars.killed
  | .left => false
  | _ => true

/-- The number of a new process is not mistaken for another. While a scan goes on, no stranger
is given the number of a descendant that was read, and no descendant that of the parent of a
stranger that was read. Then no stranger is given the number of an item still to be signalled
in the tick in which that item was started. -/
def SparesFork (parent pid : ℕ) : Prop :=
  if s.table.marks parent then ∀ r ∈ s.records, r.2 = false → pid ≠ r.1.ppid
  else (∀ r ∈ s.records, r.2 = true → pid ≠ r.1.pid) ∧
    ∀ i ∈ s.targets cfg self, pid = i.pid → s.table.ticks ≠ i.starttime

instance (parent pid : ℕ) : Decidable (s.SparesFork cfg self parent pid) := by
  unfold SparesFork
  infer_instance

/-- What a move of another process leaves alone while there are signals to come. No stranger is
given the number of the command, or put into the group of that number, and no new process is
mistaken for another. -/
def Spares (m : Move) : Prop :=
  s.table.Avoids cfg.child m ∧ ∀ f ∈ m.forks, s.SparesFork cfg self f.1 f.2

instance (m : Move) : Decidable (s.Spares cfg self m) :=
  inferInstanceAs (Decidable (_ ∧ _))

/-- The condition on an event. -/
def Undisturbed : Event → Prop
  | .move m => s.armed = true → s.Spares cfg self m
  | _ => True

instance (e : Event) : Decidable (s.Undisturbed cfg self e) := by
  cases e <;> unfold Undisturbed <;> infer_instance

/-- Every event of a run meets the condition. -/
def RunsUndisturbed : List Event → System → Prop
  | [], _ => True
  | e :: events, s => s.Undisturbed cfg self e ∧
      match s.step cfg self e with
      | some s' => RunsUndisturbed events s'
      | none => True

instance decidableRunsUndisturbed : (events : List Event) → (s : System) →
    Decidable (RunsUndisturbed cfg self events s)
  | [], _ => .isTrue trivial
  | e :: events, s => by
    have := decidableRunsUndisturbed events
    unfold RunsUndisturbed
    have : Decidable (match s.step cfg self e with
        | some s' => RunsUndisturbed cfg self events s'
        | none => True) := by
      split <;> infer_instance
    infer_instance

end System

/-- What the records of a scan keep: those below the root or below a marked process are marked,
and the numbers of the marked processes read, and of the parents of the others, are in good
hands. -/
structure ScanSound (T : Table) (root : ℕ) (records : List (Identity × Bool)) : Prop where
  pid_ne : ∀ r ∈ records, r.1.pid ≠ 0
  child : ∀ r ∈ records, r.1.ppid = root → r.2 = true
  link : ∀ r ∈ records, ∀ q ∈ records, r.1.ppid = q.1.pid → q.2 = true → r.2 = true
  owned : ∀ r ∈ records, r.2 = true → ∀ t ∈ T.tasks, t.pid = r.1.pid → t.marked = true
  foreign : ∀ r ∈ records, r.2 = false → ∀ t ∈ T.tasks, t.pid = r.1.ppid → t.marked = false

/-- What holds while there are signals to come. -/
structure Safe (cfg : Setting) (watch : Supervisor) (s : System) : Prop where
  owns : s.table.Owns cfg.child
  scan : ScanSound s.table cfg.child s.records
  targets : ∀ i ∈ s.targets cfg watch, ∀ t ∈ s.table.tasks, t.pid = i.pid →
    t.start = i.starttime → t.marked = true

/-- What every step of an undisturbed run keeps. -/
structure Spared (cfg : Setting) (watch : Supervisor) (s : System) : Prop where
  lawful : s.table.Lawful
  deadline : s.vars.killed = true → s.vars.cleanupDeadline ≠ 0
  safe : s.armed = true → Safe cfg watch s
  received : ∀ r ∈ s.received, r.1.marked = true

namespace ScanSound
variable {T : Table} {root : ℕ} {records : List (Identity × Bool)}

theorem nil : ScanSound T root [] := by
  constructor <;> simp

/-- A further record, of a process of the table. -/
theorem read (h : ScanSound T root records) (hT : T.Lawful) (hroot : root ≠ 0)
    (howns : T.Owns root) {t : Task} (ht : t ∈ T.tasks) {i : Identity} (hpid : t.pid = i.pid)
    (hppid : t.ppid = i.ppid) : ScanSound T root (records ++ [(i, t.marked)]) := by
  -- a process with a live marked parent is marked
  have hparent : ∀ n, t.ppid = n → n ≠ 0 → (∀ q ∈ T.tasks, q.pid = n → q.marked = true) →
      t.marked = true := by
    rintro n rfl hn hmarked
    rcases hT.parent t ht with hzero | ⟨q, hq, hqpid, -⟩
    · exact absurd hzero hn
    · exact hT.inherits t ht q hq hqpid (hmarked q hq hqpid)
  constructor <;> simp only [List.mem_append, List.mem_singleton]
  · rintro r (hr | rfl)
    · exact h.pid_ne r hr
    · exact hpid ▸ hT.pid_ne t ht
  · rintro r (hr | rfl) hr'
    · exact h.child r hr hr'
    · exact hparent root (hppid.trans hr') hroot fun q hq hqpid => howns q hq (.inl hqpid)
  · rintro r (hr | rfl) q (hq | rfl) hlink hmarked
    · exact h.link r hr q hq hlink hmarked
    · by_contra hr'
      have hforeign := h.foreign r hr (by simpa using hr') t ht (hpid.trans hlink.symm)
      rw [hforeign] at hmarked
      contradiction
    · exact hparent q.1.pid (hppid.trans hlink) (h.pid_ne q hq) (h.owned q hq hmarked)
    · exact hmarked
  · rintro r (hr | rfl) hmarked s hs hspid
    · exact h.owned r hr hmarked s hs hspid
    · rw [hT.eq_of_pid hs ht (hspid.trans hpid.symm)]
      exact hmarked
  · rintro r (hr | rfl) hmarked s hs hspid
    · exact h.foreign r hr hmarked s hs hspid
    · by_contra hs'
      have htrue := hT.inherits t ht s hs (hspid.trans hppid.symm) (by simpa using hs')
      exact absurd (htrue.symm.trans hmarked) (by decide)

/-- What the marking loop connects is marked. -/
theorem connected (h : ScanSound T root records) {items : List Identity}
    (hitems : ∀ i ∈ items, ∃ marked, (i, marked) ∈ records) :
    ∀ item ∈ connect root items, item.2 = true → (item.1, true) ∈ records := by
  intro item hitem hconnected
  have hjoined := (Saturation.saturate_marked_iff _ item hitem).mp hconnected
  obtain ⟨marked, hrecord⟩ := hitems item.1 (Saturation.mem_of_mem_saturate hitem)
  suffices hmarked : ∀ r ∈ records, r.1 = item.1 → r.2 = true by
    obtain rfl : marked = true := hmarked _ hrecord rfl
    exact hrecord
  generalize item.1 = i at hjoined
  induction hjoined with
  | base hseed =>
    rintro r hr rfl
    exact h.child r hr (of_decide_eq_true hseed)
  | @step a b hlink hb _ ih =>
    rintro r hr rfl
    obtain ⟨marked, hrecord⟩ := hitems b hb
    exact h.link r hr _ hrecord (of_decide_eq_true hlink) (ih _ hrecord rfl)

end ScanSound

/-- What `kill` delivers for an item goes to a process with the number and the start time of
the item. -/
theorem signalItem_sent {self : Supervisor} {root : ℕ} {signum : Signal} {outcome : KillOutcome}
    {file : StatFile} {t : Tree} {item : Identity × Bool} {k : Kill}
    (h : k ∈ (signalItem self root signum outcome file t item).kills.drop t.kills.length) :
    k = ⟨.process item.1.pid, signum⟩ ∧ skips self root item = false ∧
      ∃ current, readIdentity item.1.pid file = .found current ∧
        current.starttime = item.1.starttime := by
  rw [signalItem_kills, List.drop_left, Option.mem_toList] at h
  exact individual_eq_some.mp h

theorem mem_deliver {T : Table} {outcome : KillOutcome} {kills : List Kill} {r : Task × Signal}
    (h : r ∈ deliver T outcome kills) : ∃ k ∈ kills, r.1 ∈ reached T k.target := by
  unfold deliver at h
  split at h
  · obtain ⟨k, hk, hr⟩ := List.mem_flatMap.mp h
    obtain ⟨t, ht, rfl⟩ := List.mem_map.mp hr
    exact ⟨k, hk, ht⟩
  · simp at h

namespace Supervision
variable {cfg : Setting} {s : Supervision}

/-- After `SIGKILL` nothing is sent. -/
theorem action_ne_signal (hkilled : s.killed = true) (hdeadline : s.cleanupDeadline ≠ 0) (now : ℕ)
    (signum : Signal) : s.action now ≠ .signal signum := by
  unfold action
  simp only [hkilled, hdeadline, decide_false, Bool.and_false, Bool.not_true, Bool.false_and,
    Bool.false_eq_true, if_false]
  split <;> simp

/-- `SIGKILL` is sent only after a deadline was set. -/
theorem cleanup_of_action_kill {now : ℕ} (h : s.action now = .signal .kill) :
    s.cleanupDeadline ≠ 0 := by
  intro hzero
  unfold action at h
  simp only [hzero, decide_true, Bool.and_true] at h
  cases hterm : s.terminating with
  | false =>
    simp only [hterm, Bool.false_and, Bool.false_eq_true, if_false] at h
    split at h <;> contradiction
  | true =>
    simp only [hterm, if_true] at h
    contradiction

theorem extend_killed (s : Supervision) (now period : ℕ) :
    (s.extend now period).killed = s.killed := by
  unfold extend
  split <;> rfl

theorem extend_cleanup (now : ℕ) {period : ℕ} (hperiod : 0 < period) (h : s.cleanupDeadline ≠ 0) :
    (s.extend now period).cleanupDeadline ≠ 0 := by
  unfold extend addMs
  split
  next => exact h
  next heq =>
    split at heq
    · contradiction
    · obtain rfl := Option.some.inj heq
      dsimp only
      omega

/-- A pass keeps a deadline for as long as `SIGKILL` is sent, and never takes that back. -/
theorem pass_killed (h : s.killed = true → s.cleanupDeadline ≠ 0) (r : Round) :
    ((s.pass cfg r).after.killed = true → (s.pass cfg r).after.cleanupDeadline ≠ 0) ∧
      (s.killed = true → (s.pass cfg r).after.killed = true) := by
  obtain ⟨hdeadline, hkilled⟩ := @checked_cleanup cfg s r
  rw [← hdeadline, ← hkilled] at h
  rw [← hkilled]
  unfold pass
  generalize s.checked cfg r = c at h
  dsimp only
  split
  · exact ⟨h, id⟩
  next signum haction =>
    cases signum with
    | term =>
      simp only [pause, settle, noteFailure, extend_killed]
      exact ⟨fun hc => extend_cleanup _ cfg.options.grace_pos (h hc), id⟩
    | kill =>
      have hset := cleanup_of_action_kill haction
      simp only [pause, settle, noteFailure, extend_killed]
      exact ⟨fun _ => extend_cleanup _ (by decide) hset, fun _ => trivial⟩
  · exact ⟨h, id⟩

end Supervision

section Steps
variable {cfg : Setting} {self : Supervisor} {s s' : System}

/-- A move that spares the strangers, of another process or by `waitpid`. -/
theorem Safe.apply (h : Safe cfg self s) (hT : s.table.Lawful) {m : Move}
    (hspares : s.Spares cfg self m) (htable : s'.table = s.table.apply m)
    (hrecords : s'.records = s.records) (htargets : s'.targets cfg self = s.targets cfg self) :
    Safe cfg self s' := by
  obtain ⟨havoids, hforks⟩ := hspares
  have hmarks : ∀ parent p, s.table.find parent = some p → s.table.marks parent = p.marked := by
    intro parent p hp
    rw [Table.marks, hp]
    rfl
  constructor
  · rw [htable]
    exact h.owns.apply hT havoids
  · rw [htable, hrecords]
    refine ⟨h.scan.pid_ne, h.scan.child, h.scan.link, ?_, ?_⟩
    · intro r hr hmarked t ht hpid
      rcases Table.mem_apply ht with ⟨q, hq, hqpid, -, hqmarked⟩ | ⟨parent, p, rfl, hp, ht'⟩
      · exact hqmarked ▸ h.scan.owned r hr hmarked q hq (hqpid.trans hpid)
      · have hinherit : t.marked = p.marked := by rw [ht']; rfl
        by_contra hstranger
        rw [hinherit, ← hmarks parent p hp] at hstranger
        have hfork := hforks _ rfl
        rw [System.SparesFork, if_neg hstranger] at hfork
        exact hfork.1 r hr hmarked hpid
    · intro r hr hmarked t ht hpid
      rcases Table.mem_apply ht with ⟨q, hq, hqpid, -, hqmarked⟩ | ⟨parent, p, rfl, hp, ht'⟩
      · exact hqmarked ▸ h.scan.foreign r hr hmarked q hq (hqpid.trans hpid)
      · have hinherit : t.marked = p.marked := by rw [ht']; rfl
        by_contra hown
        rw [hinherit, ← hmarks parent p hp, Bool.not_eq_false] at hown
        have hfork := hforks _ rfl
        rw [System.SparesFork, if_pos hown] at hfork
        exact hfork r hr hmarked hpid
  · rw [htable, htargets]
    intro i hi t ht hpid hstart
    rcases Table.mem_apply ht with ⟨q, hq, hqpid, hqstart, hqmarked⟩ | ⟨parent, p, rfl, hp, ht'⟩
    · exact hqmarked ▸ h.targets i hi q hq (hqpid.trans hpid) (hqstart.trans hstart)
    · have hinherit : t.marked = p.marked := by rw [ht']; rfl
      have hticks : t.start = s.table.ticks := by rw [ht']; rfl
      by_contra hstranger
      rw [hinherit, ← hmarks parent p hp] at hstranger
      have hfork := hforks _ rfl
      rw [System.SparesFork, if_neg hstranger] at hfork
      exact hfork.2 i hi hpid (hticks.symm.trans hstart)

theorem Spared.move (h : Spared cfg self s) {m : Move} (hm : s.table.move m = some s'.table)
    (hspares : s.armed = true → s.Spares cfg self m) (hvars : s'.vars = s.vars)
    (hreceived : s'.received = s.received) (harmed : s'.armed = s.armed)
    (hrecords : s'.records = s.records) (htargets : s'.targets cfg self = s.targets cfg self) :
    Spared cfg self s' := by
  obtain ⟨-, htable⟩ := Table.of_move hm
  constructor
  · exact h.lawful.move hm
  · rw [hvars]
    exact h.deadline
  · rw [harmed]
    exact fun ha => (h.safe ha).apply h.lawful (hspares ha) htable hrecords htargets
  · rw [hreceived]
    exact h.received

/-- The end of a pass. -/
theorem Spared.conclude (h : Spared cfg self s) (r : Round)
    (harmed : s.vars.killed = false → s.armed = true) :
    Spared cfg self (s.conclude cfg r) := by
  obtain ⟨hdeadline, hkilled⟩ := @Supervision.pass_killed cfg s.vars h.deadline r
  refine ⟨h.lawful, hdeadline, ?_, h.received⟩
  intro ha
  -- nothing is left of a scan
  have hstage : (s.conclude cfg r).records = [] ∧ (s.conclude cfg r).targets cfg self = [] := by
    unfold System.records System.targets System.conclude
    cases (s.vars.pass cfg r).leaves <;> exact ⟨rfl, rfl⟩
  have hrunning : s.vars.killed = false := by
    by_contra hs
    have hafter := hkilled (by simpa using hs)
    unfold System.armed System.conclude at ha
    cases hleaves : (s.vars.pass cfg r).leaves <;> simp [hleaves, hafter] at ha
  have hsafe := h.safe (harmed hrunning)
  refine ⟨hsafe.owns, ?_, ?_⟩
  · rw [hstage.1]
    exact .nil
  · rw [hstage.2]
    intro i hi
    simp at hi

/-- The checks of a pass. -/
theorem Spared.check (h : Spared cfg self s) {reaped : List Reaped}
    (hstage : s.stage = .waiting reaped) (r : Round) (allocated : Bool) :
    Spared cfg self (s.check cfg r allocated) := by
  have harmed : s.vars.killed = false → s.armed = true := by
    intro hkilled
    simp [System.armed, hstage, hkilled]
  unfold System.check
  split
  next signum haction =>
    split
    · refine ⟨h.lawful, h.deadline, ?_, h.received⟩
      intro _
      have hrunning : s.vars.killed = false := by
        by_contra hs
        have hs : s.vars.killed = true := by simpa using hs
        obtain ⟨hdeadline, hkilled⟩ := @Supervision.checked_cleanup cfg s.vars r
        exact Supervision.action_ne_signal (hkilled.trans hs)
          (hdeadline ▸ h.deadline hs) _ _ haction
      refine ⟨(h.safe (harmed hrunning)).owns, .nil, ?_⟩
      intro i hi
      simp [System.targets] at hi
    · exact h.conclude _ harmed
  · exact h.conclude _ harmed

/-- An entry of `/proc` is read. -/
theorem Spared.read (h : Spared cfg self s) (hchild : cfg.child ≠ 0) {round : Round}
    {signum : Signal} {seen : List (ProcEntry × Bool)}
    (hstage : s.stage = .scanning round signum seen) {entry : ProcEntry}
    (htruthful : ∀ pid ∈ entryPid entry.name, Truthful s.table pid entry.stat) :
    Spared cfg self { s with
      stage := .scanning round signum
        (seen ++ [(entry, (entryPid entry.name).any s.table.marks)]) } := by
  refine ⟨h.lawful, h.deadline, ?_, h.received⟩
  intro _
  have hsafe := h.safe (by simp [System.armed, hstage])
  have hscan := hsafe.scan
  refine ⟨hsafe.owns, ?_, by simp [System.targets]⟩
  simp only [System.records, hstage] at hscan
  simp only [System.records, List.filterMap_append, List.filterMap_cons, List.filterMap_nil]
  cases hnoted : noted entry with
  | none => simpa using hscan
  | some i =>
    obtain ⟨pid, hpid, hread⟩ := noted_eq_some.mp hnoted
    have hrecord := htruthful pid hpid
    unfold Truthful at hrecord
    rw [hread] at hrecord
    obtain ⟨t, ht, rfl, hppid, -⟩ := hrecord
    have hmarks : (entryPid entry.name).any s.table.marks = t.marked := by
      simp [hpid, h.lawful.marks_eq ht]
    rw [hmarks]
    exact hscan.read h.lawful hchild hsafe.owns ht (readIdentity_pid hread).symm hppid

/-- The scan ends, and the group is signalled. -/
theorem Spared.signalGroup (h : Spared cfg self s) {round : Round} {signum : Signal}
    {seen : List (ProcEntry × Bool)} (hstage : s.stage = .scanning round signum seen)
    (opened failed : Bool) (outcome : KillOutcome) :
    Spared cfg self (s.signalGroup cfg self round signum
      (scanDescendants cfg.child ⟨opened, seen.map Prod.fst, failed⟩) outcome) := by
  have hsafe := h.safe (by simp [System.armed, hstage])
  have hscan := hsafe.scan
  simp only [System.records, hstage] at hscan
  refine ⟨h.lawful, h.deadline, ?_, ?_⟩
  · intro _
    refine ⟨hsafe.owns, .nil, ?_⟩
    intro i hi t ht hpid _
    simp only [System.targets, System.signalGroup, List.mem_map, List.mem_filter] at hi
    obtain ⟨item, ⟨hitem, hskips⟩, rfl⟩ := hi
    have hconnected : item.2 = true := by
      by_contra hconnected
      simp [skips, hconnected] at hskips
    unfold scanDescendants at hitem
    split at hitem
    · simp at hitem
    refine hscan.owned _ (hscan.connected ?_ item hitem hconnected) rfl t ht hpid
    intro i hi
    obtain ⟨entry, hentry, hnoted⟩ := exists_noted hi
    obtain ⟨e, he, rfl⟩ := List.mem_map.mp hentry
    exact ⟨e.2, List.mem_filterMap.mpr ⟨e, he, by rw [hnoted]; rfl⟩⟩
  · intro r hr
    rcases List.mem_append.mp hr with hr | hr
    · exact h.received r hr
    · obtain ⟨k, hk, hr⟩ := mem_deliver hr
      have htarget : k.target = .group cfg.child := by
        split at hk
        · simp only [Tree.send, List.nil_append, List.mem_singleton] at hk
          rw [hk]
        · simp at hk
      rw [htarget] at hr
      obtain ⟨hmem, hpgid⟩ := List.mem_filter.mp hr
      exact hsafe.owns r.1 hmem (.inr (by simpa using hpgid))

/-- An item is read again, and signalled. -/
theorem Spared.signalNext (h : Spared cfg self s) {round : Round} {signum : Signal} {t : Tree}
    {item : Identity × Bool} {pending : List (Identity × Bool)}
    (hstage : s.stage = .signalling round signum t (item :: pending)) {file : StatFile}
    (htruthful : Truthful s.table item.1.pid file) (outcome : KillOutcome) :
    Spared cfg self (s.signalNext cfg self round signum t item pending file outcome) := by
  have hsafe := h.safe (by simp [System.armed, hstage])
  have htargets := hsafe.targets
  simp only [System.targets, hstage] at htargets
  refine ⟨h.lawful, h.deadline, ?_, ?_⟩
  · intro _
    refine ⟨hsafe.owns, .nil, ?_⟩
    intro i hi
    refine htargets i ?_
    simp only [System.targets, System.signalNext, List.mem_map, List.mem_filter] at hi
    obtain ⟨item', ⟨hitem', hskips⟩, rfl⟩ := hi
    exact List.mem_map_of_mem
      (List.mem_filter.mpr ⟨List.mem_cons_of_mem item hitem', hskips⟩)
  · intro r hr
    rcases List.mem_append.mp hr with hr | hr
    · exact h.received r hr
    · obtain ⟨k, hk, hr⟩ := mem_deliver hr
      obtain ⟨rfl, hskips, current, hread, hstart⟩ := signalItem_sent hk
      obtain ⟨hmem, hpid⟩ := List.mem_filter.mp hr
      unfold Truthful at htruthful
      rw [hread] at htruthful
      obtain ⟨q, hq, hqpid, -, hqstart⟩ := htruthful
      have heq : r.1 = q := h.lawful.eq_of_pid hmem hq (by simpa [hqpid] using hpid)
      rw [heq]
      refine htargets item.1 ?_ q hq hqpid (hqstart.trans hstart)
      exact List.mem_map_of_mem (List.mem_filter.mpr ⟨List.mem_cons_self, by simp [hskips]⟩)

/-- Every step of an undisturbed run. -/
theorem Spared.step (h : Spared cfg self s) (hchild : cfg.child ≠ 0) {e : Event}
    (hspares : s.Undisturbed cfg self e) (hstep : s.step cfg self e = some s') :
    Spared cfg self s' := by
  unfold System.step at hstep
  split at hstep
  next m hstage =>
    split at hstep
    · obtain ⟨T, hT, rfl⟩ := Option.map_eq_some_iff.mp hstep
      exact h.move hT hspares rfl rfl rfl rfl rfl
    · contradiction
  next child reaped hstage =>
    obtain ⟨T, hT, rfl⟩ := Option.map_eq_some_iff.mp hstep
    refine h.move hT (fun _ => ⟨trivial, by simp [Move.forks]⟩) rfl rfl ?_ ?_ ?_
    · simp [System.armed, hstage]
    · simp [System.records, hstage]
    · simp [System.targets, hstage]
  next reaped hstage =>
    split at hstep
    · obtain rfl := Option.some.inj hstep
      exact ⟨h.lawful, h.deadline, fun ha => by simp [System.armed] at ha, h.received⟩
    · contradiction
  next round allocated reaped hstage =>
    split at hstep
    · obtain rfl := Option.some.inj hstep
      exact h.check hstage round allocated
    · contradiction
  next entry round signum seen hstage =>
    split at hstep
    next hguard =>
      obtain rfl := Option.some.inj hstep
      exact h.read hchild hstage hguard.2
    next => contradiction
  next opened failed outcome round signum seen hstage =>
    obtain rfl := Option.some.inj hstep
    exact h.signalGroup hstage opened failed outcome
  next file outcome round signum t item pending hstage =>
    split at hstep
    next htruthful =>
      obtain rfl := Option.some.inj hstep
      exact h.signalNext hstage htruthful outcome
    next => contradiction
  next round signum t hstage =>
    obtain rfl := Option.some.inj hstep
    exact h.conclude _ fun _ => by simp [System.armed, hstage]
  next => contradiction

/-- Every undisturbed run. -/
theorem Spared.exec {events : List Event} (h : Spared cfg self s) (hchild : cfg.child ≠ 0)
    (hspares : System.RunsUndisturbed cfg self events s)
    (hexec : System.exec cfg self events s = some s') : Spared cfg self s' := by
  induction events generalizing s with
  | nil => exact Option.some.inj hexec ▸ h
  | cons e events ih =>
    obtain ⟨he, hevents⟩ := hspares
    obtain ⟨next, hstep, hexec⟩ := Option.bind_eq_some_iff.mp hexec
    rw [hstep] at hevents
    exact ih (h.step hchild he hstep) hevents hexec

/-- The command has just been forked. -/
theorem spared_start (host : Host self) {first : Option Interrupt} {failedStart : Bool}
    (hstart : host.start cfg.child first failedStart = some s) :
    Spared cfg self s ∧ cfg.child ≠ 0 := by
  obtain ⟨T, hT, rfl⟩ := Option.map_eq_some_iff.mp hstart
  obtain ⟨hallows, rfl⟩ := Table.of_move hT
  obtain ⟨hlawful, howns⟩ := host.lawful.launch hallows
  refine ⟨⟨hlawful, fun hkilled => ?_, fun _ => ⟨howns, .nil, ?_⟩, ?_⟩, hallows.2.1⟩
  · simp [Supervision.initial] at hkilled
  · simp [System.targets]
  · simp

end Steps

/-- In a run that spares the strangers, whoever receives a signal of `signal_tree` is the
command or one of its descendants, however the moves of the other processes and the steps of
the supervisor follow each other. -/
theorem exec_received_marked (cfg : Setting) {self : Supervisor} (host : Host self)
    (first : Option Interrupt) (failedStart : Bool) (events : List Event) (s s' : System)
    (hstart : host.start cfg.child first failedStart = some s)
    (hspares : System.RunsUndisturbed cfg self events s)
    (hexec : System.exec cfg self events s = some s') :
    ∀ r ∈ s'.received, r.1.marked = true := by
  obtain ⟨hinitial, hchild⟩ := spared_start host hstart
  exact (hinitial.exec hchild hspares hexec).received

namespace Watched

/-- The first process, a shell, and the supervisor 100. -/
def host : Host ⟨100, 100⟩ where
  table := ⟨[⟨1, 0, 1, 1, 0, false, false, false⟩, ⟨50, 1, 50, 50, 500, false, false, false⟩,
    ⟨100, 50, 100, 50, 1000, true, false, false⟩], 1100⟩
  lawful := by constructor <;> decide
  unmarked := by decide
  supervisor := by decide

/-- The command is 200. -/
def setting : Setting := ⟨shortOptions, 200, 0, some 5⟩

/-- The directory of a process under `/proc`. -/
def name (pid : ℕ) : CStr := ⟨decimal pid, fun h => (StatRecord.plain_of_mem_decimal h).1 rfl⟩

/-- The record of a process. -/
def record (pid ppid start : ℕ) : StatFile :=
  .readable (decimal pid ++ ascii " (sh) S " ++ decimal ppid ++
    StatRecord.spaced (List.replicate 17 0 ++ [(start : ℤ)]) ++ [10])

/-- The number, the parent and the start time of the processes that `/proc` lists first. -/
def listed : List (ℕ × ℕ × ℕ) := [(1, 0, 0), (50, 1, 500), (100, 50, 1000)]

def reads (processes : List (ℕ × ℕ × ℕ)) : List Event :=
  processes.map fun p => .read ⟨name p.1, record p.1 p.2.1 p.2.2⟩

/-- A pass in which `SIGTERM` has arrived. -/
def interrupted (reaped : List Reaped) : Event :=
  .check ⟨reaped, false, [.term], some 1, true, false, false⟩ true

/-- The command 200 forks 201, which leaves its group. The shell forks 300, and the number is
used again. All are read, and the items signalled. -/
def ownTree : List Event :=
  let processes := listed ++ [(200, 100, 1100), (201, 200, 1100), (300, 50, 1101)]
  [.move (.setpgid 200 200), .move (.fork 200 201), .move (.setsid 201), .move (.fork 50 300),
      .move (.exit 300), .move (.reap 50 300), .move .tick, .move (.fork 50 300), interrupted []] ++
    reads processes ++ [.scanned true false .delivered] ++
    processes.map (fun p => .signal (record p.1 p.2.1 p.2.2) .delivered) ++ [.finish]

/-- The command 200 forks 201, which leaves its group, and exits. While 201 goes on, the shell
forks a process that gets the number 200, and a group of that number. -/
def numberReused : List Event :=
  [.move (.setpgid 200 200), .move (.fork 200 201), .move (.setsid 201), .move (.exit 200),
      .reap ⟨200, 0⟩, .move .tick, .move (.fork 50 200), .move (.setpgid 200 200),
      interrupted [⟨200, 0⟩]] ++
    reads (listed ++ [(200, 50, 1101), (201, 100, 1100)]) ++ [.scanned true false .delivered]

end Watched

/-- The command gets the signal with its group, and the process outside of it by its number. -/
theorem exec_received_marked_ownTree :
    ∃ s s', Watched.host.start 200 none false = some s ∧
      System.exec Watched.setting ⟨100, 100⟩ Watched.ownTree s = some s' ∧
      s'.received.map (fun r => (r.1.pid, r.2)) = [(200, .term), (201, .term)] ∧
      ∀ r ∈ s'.received, r.1.marked = true := by
  have hrun : ((Watched.host.start 200 none false).bind
      (System.exec Watched.setting ⟨100, 100⟩ Watched.ownTree)).map
        (·.received.map fun r => (r.1.pid, r.2)) = some [(200, .term), (201, .term)] := by
    decide +kernel
  have hspares : ∀ s ∈ Watched.host.start 200 none false,
      System.RunsUndisturbed Watched.setting ⟨100, 100⟩ Watched.ownTree s := by
    decide +kernel
  obtain ⟨s', hs', hreceived⟩ := Option.map_eq_some_iff.mp hrun
  obtain ⟨s, hs, hexec⟩ := Option.bind_eq_some_iff.mp hs'
  exact ⟨s, s', hs, hexec, hreceived,
    exec_received_marked Watched.setting Watched.host none false _ s s' hs (hspares s hs) hexec⟩

/-- A stranger gets the signal that is meant for the group of the command. -/
theorem exec_signals_stranger :
    ¬ ∀ (cfg : Setting) (self : Supervisor) (host : Host self) (first : Option Interrupt)
      (failedStart : Bool) (events : List Event) (s s' : System),
      host.start cfg.child first failedStart = some s →
        System.exec cfg self events s = some s' → ∀ r ∈ s'.received, r.1.marked = true := by
  intro h
  have hrun : ((Watched.host.start 200 none false).bind
      (System.exec Watched.setting ⟨100, 100⟩ Watched.numberReused)).map System.received =
        some [(⟨200, 50, 200, 50, 1101, false, false, false⟩, .term)] := by
    decide +kernel
  obtain ⟨s', hs', hreceived⟩ := Option.map_eq_some_iff.mp hrun
  obtain ⟨s, hs, hexec⟩ := Option.bind_eq_some_iff.mp hs'
  have hmarked := h Watched.setting ⟨100, 100⟩ Watched.host none false _ s s' hs hexec
  rw [hreceived] at hmarked
  exact absurd (hmarked _ (List.mem_singleton_self _)) (by decide)

end Agentwatch
