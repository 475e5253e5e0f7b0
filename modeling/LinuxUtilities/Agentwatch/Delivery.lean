import LinuxUtilities.Agentwatch.Retention

/-! How often a call of `signal_tree` signals a process when the process table does not change.
The group of the direct child and the items with a chain to it may have processes in common. -/
namespace Agentwatch
open CString

/-- A process: its pid, its group, what reading its record meets, and whether a signal that is
sent to it is delivered. -/
structure Member where
  pid : ℕ
  pgid : ℕ
  stat : StatFile
  accepts : Bool

/-- The identity that the record of a process gives. -/
def Member.identity? (m : Member) : Option Identity :=
  match readIdentity m.pid m.stat with
  | .found identity => some identity
  | _ => none

/-- An entry of `/proc`: a process, or a name that does not start with a digit. -/
inductive Shown where
  | member (m : Member)
  | other (name : CStr)

namespace Shown

def member? : Shown → Option Member
  | member m => some m
  | other _ => none

def entry : Shown → ProcEntry
  | member m => ⟨⟨decimal m.pid, fun h => (StatRecord.plain_of_mem_decimal h).1 rfl⟩, m.stat⟩
  | other name => ⟨name, .absent⟩

end Shown

def membersOf (entries : List Shown) : List Member := entries.filterMap Shown.member?

/-- The process table, as `/proc` lists it: any number of processes with different pids. -/
structure Population where
  entries : List Shown
  other_name : ∀ name, .other name ∈ entries → name.bytes.head?.any isDigit = false
  pid_pos : ∀ m ∈ membersOf entries, 0 < m.pid ∧ m.pid ≤ intMax
  nodup : ((membersOf entries).map Member.pid).Nodup

namespace Population

def members (p : Population) : List Member := membersOf p.entries

/-- The entries that `readdir` returns: all of them, or those before it fails. -/
def returned (p : Population) : Option ℕ → List Shown
  | none => p.entries
  | some n => p.entries.take n

/-- The identities that are retained of the entries returned. -/
def retained (p : Population) (failsAfter : Option ℕ) : List Identity :=
  (((membersOf (p.returned failsAfter)).take procEntryLimit).filterMap Member.identity?).take
    identityLimit

/-- The record of a pid. -/
def stat (p : Population) (pid : ℕ) : StatFile :=
  ((p.members.find? (·.pid = pid)).map Member.stat).getD .absent

/-- What `signal_tree` meets when the table does not change. -/
def env (p : Population) (allocated opened : Bool) (failsAfter : Option ℕ)
    (outcome : Target → KillOutcome) : TreeEnv :=
  ⟨allocated, ⟨opened, (p.returned failsAfter).map Shown.entry, failsAfter.isSome⟩, p.stat, outcome⟩

end Population

/-- How often calls of `kill` deliver a signal to a process: with its group, and by its pid. -/
def deliveries (kills : List Kill) (signum : Signal) (m : Member) : ℕ :=
  if m.accepts then kills.count ⟨.group m.pgid, signum⟩ + kills.count ⟨.process m.pid, signum⟩
  else 0

theorem Member.identity?_eq_some {m : Member} {i : Identity} :
    m.identity? = some i ↔ readIdentity m.pid m.stat = .found i := by
  unfold identity?
  cases readIdentity m.pid m.stat <;> simp

theorem Member.identity?_pid {m : Member} {i : Identity} (h : m.identity? = some i) :
    i.pid = m.pid :=
  readIdentity_pid (Member.identity?_eq_some.mp h)

/-- The pids of identities are among those of their processes, in their order. -/
theorem pids_sublist (members : List Member) :
    ((members.filterMap Member.identity?).map Identity.pid).Sublist (members.map Member.pid) := by
  induction members with
  | nil => exact .slnil
  | cons m members ih =>
    cases h : m.identity? with
    | none =>
      rw [List.filterMap_cons_none h]
      exact ih.cons _
    | some i =>
      rw [List.filterMap_cons_some h, List.map_cons, List.map_cons, Member.identity?_pid h]
      exact ih.cons_cons _

/-- The entries that count are the processes. -/
theorem filter_numeric_shown {entries : List Shown}
    (hother : ∀ name, .other name ∈ entries → name.bytes.head?.any isDigit = false) :
    (entries.map Shown.entry).filter numeric =
      (membersOf entries).map fun m => (Shown.member m).entry := by
  refine filter_numeric ?_ ?_
  · intro entry m h
    cases entry with
    | member q =>
      obtain rfl := Option.some.inj h
      exact ⟨rfl, numeric_decimal q.pid q.stat⟩
    | other name => contradiction
  · intro entry hentry h
    cases entry with
    | member q => contradiction
    | other name => exact hother name hentry

namespace Population
variable {p : Population} {failsAfter : Option ℕ}

theorem returned_sublist (p : Population) (failsAfter : Option ℕ) :
    (p.returned failsAfter).Sublist p.entries := by
  cases failsAfter with
  | none => exact .refl _
  | some n => exact List.take_sublist n _

theorem members_sublist (p : Population) (failsAfter : Option ℕ) :
    (membersOf (p.returned failsAfter)).Sublist p.members :=
  (p.returned_sublist failsAfter).filterMap _

theorem noted_member {m : Member} (hm : m ∈ p.members) :
    noted (Shown.member m).entry = m.identity? := by
  simp only [noted, Shown.entry, entryPid_decimal (p.pid_pos m hm)]
  rfl

/-- The items of a scan, when `/proc` opens. -/
theorem scan_items (p : Population) (root : ℕ) (allocated : Bool) (failsAfter : Option ℕ)
    (outcome : Target → KillOutcome) :
    (scanDescendants root (p.env allocated true failsAfter outcome).listing).items =
      connect root (p.retained failsAfter) := by
  have hother : ∀ name, .other name ∈ p.returned failsAfter →
      name.bytes.head?.any isDigit = false :=
    fun name h => p.other_name name ((p.returned_sublist failsAfter).subset h)
  have hcollect := Collected.foldl_inspect_items
    ((p.returned failsAfter).map Shown.entry) Collected.running_initial
  have hnoted : (((membersOf (p.returned failsAfter)).map
      fun m => (Shown.member m).entry).take procEntryLimit).filterMap noted =
        ((membersOf (p.returned failsAfter)).take procEntryLimit).filterMap Member.identity? := by
    rw [← List.map_take, List.filterMap_map]
    refine List.filterMap_congr ?_
    intro m hm
    exact noted_member ((p.members_sublist failsAfter).subset (List.mem_of_mem_take hm))
  rw [filter_numeric_shown hother] at hcollect
  simp only [Collected.initial, Nat.sub_zero, List.length_nil, List.nil_append,
    hnoted] at hcollect
  simp only [scanDescendants, env, Bool.not_true, Bool.false_eq_true, if_false,
    Collected.initial, hcollect, retained]

theorem retained_pids_sublist (p : Population) (failsAfter : Option ℕ) :
    ((p.retained failsAfter).map Identity.pid).Sublist (p.members.map Member.pid) := by
  have htake : ((p.retained failsAfter).map Identity.pid).Sublist
      ((((membersOf (p.returned failsAfter)).take procEntryLimit).filterMap
        Member.identity?).map Identity.pid) :=
    (List.take_sublist _ _).map _
  have hmembers : ((membersOf (p.returned failsAfter)).take procEntryLimit).Sublist p.members :=
    (List.take_sublist _ _).trans (p.members_sublist failsAfter)
  exact (htake.trans (pids_sublist _)).trans (hmembers.map _)

theorem exists_member_of_retained {i : Identity} (h : i ∈ p.retained failsAfter) :
    ∃ m ∈ p.members, m.identity? = some i := by
  obtain ⟨m, hm, hidentity⟩ := List.mem_filterMap.mp (List.mem_of_mem_take h)
  exact ⟨m, (p.members_sublist failsAfter).subset (List.mem_of_mem_take hm), hidentity⟩

theorem eq_of_pid {m m' : Member} (hm : m ∈ p.members) (hm' : m' ∈ p.members)
    (h : m.pid = m'.pid) : m = m' :=
  List.inj_on_of_nodup_map p.nodup hm hm' h

theorem stat_of_mem {m : Member} (hm : m ∈ p.members) : p.stat m.pid = m.stat := by
  have hfind : p.members.find? (·.pid = m.pid) = some m := find?_key p.nodup hm
  rw [stat, hfind]
  rfl

variable {self : Supervisor} {root : ℕ} {signum : Signal} {opened : Bool}
  {outcome : Target → KillOutcome}

theorem nodup_kills (p : Population) :
    (signalTree self root signum (p.env true opened failsAfter outcome)).kills.Nodup := by
  refine Agentwatch.nodup_kills ?_
  cases opened with
  | false => exact List.nodup_nil
  | true =>
    have hpids : (connect root (p.retained failsAfter)).map (fun item => item.1.pid) =
        (p.retained failsAfter).map Identity.pid := by
      have hfst := Saturation.saturate_unmarked_map_fst (fun a : Identity => decide (a.ppid = root))
        (fun a b => decide (a.ppid = b.pid)) (p.retained failsAfter)
      conv_rhs => rw [← hfst, List.map_map]
      rfl
    rw [p.scan_items, hpids]
    exact (p.retained_pids_sublist failsAfter).nodup p.nodup

/-- A process is signalled by its pid when its identity is retained and has a chain to the
root. -/
theorem process_mem_kills_iff {m : Member} (hm : m ∈ p.members) :
    ⟨.process m.pid, signum⟩ ∈
        (signalTree self root signum (p.env true opened failsAfter outcome)).kills ↔
      opened = true ∧ m.pid ≠ root ∧ m.pid ≠ self.pid ∧
        ∃ i ∈ p.retained failsAfter, i.pid = m.pid ∧ ChainTo root (p.retained failsAfter) i := by
  rw [Agentwatch.process_mem_kills_iff rfl]
  cases opened with
  | false => simp [scanDescendants, env]
  | true =>
    rw [p.scan_items]
    constructor
    · intro h
      obtain ⟨item, hitem, hpid, hskips, -⟩ := h
      simp only [skips, Bool.or_eq_false_iff, Bool.not_eq_false', decide_eq_false_iff_not]
        at hskips
      refine ⟨rfl, hpid ▸ hskips.2, hpid ▸ hskips.1.2, item.1,
        Saturation.mem_of_mem_saturate hitem, hpid, ?_⟩
      rw [← joined_iff_chainTo]
      exact (Saturation.saturate_marked_iff _ item hitem).mp hskips.1.1
    · intro h
      obtain ⟨-, hroot, hself, i, hi, hpid, hchain⟩ := h
      obtain ⟨item, hitem, rfl⟩ := Saturation.exists_mem_saturate
        (fun a : Identity => decide (a.ppid = root)) (fun a b => decide (a.ppid = b.pid)) hi
      have hmarked : item.2 = true :=
        (Saturation.saturate_marked_iff _ item hitem).mpr (joined_iff_chainTo.mpr hchain)
      obtain ⟨q, hq, hidentity⟩ := exists_member_of_retained hi
      obtain rfl : q = m := eq_of_pid hq hm ((Member.identity?_pid hidentity).symm.trans hpid)
      refine ⟨item, hitem, hpid, ?_, item.1, ?_, rfl⟩
      · simp [skips, hmarked, hpid, hself, hroot]
      · exact (congrArg (readIdentity q.pid) (p.stat_of_mem hm)).trans
          (Member.identity?_eq_some.mp hidentity)

end Population

/-- No process is signalled twice if and only if no process of the group that is signalled has,
besides, a chain to the direct child. -/
theorem signalTree_delivers_once_iff (p : Population) (self : Supervisor) (child : ℕ)
    (signum : Signal) (allocated opened : Bool) (failsAfter : Option ℕ)
    (outcome : Target → KillOutcome) :
    (∀ m ∈ p.members, deliveries (signalTree self child signum
        (p.env allocated opened failsAfter outcome)).kills signum m ≤ 1) ↔
      (allocated = true → opened = true → signalsGroup self child = true →
        ∀ m ∈ p.members, m.accepts = true → m.pgid = child → m.pid ≠ child → m.pid ≠ self.pid →
          ∀ i ∈ p.retained failsAfter, i.pid = m.pid →
            ¬ ChainTo child (p.retained failsAfter) i) := by
  cases allocated with
  | false => simp [deliveries, signalTree, Population.env]
  | true =>
    have htwice : ∀ m ∈ p.members, deliveries (signalTree self child signum
        (p.env true opened failsAfter outcome)).kills signum m ≤ 1 ↔
          (m.accepts = true → ¬ ((signalsGroup self child = true ∧ m.pgid = child) ∧
            (opened = true ∧ m.pid ≠ child ∧ m.pid ≠ self.pid ∧ ∃ i ∈ p.retained failsAfter,
              i.pid = m.pid ∧ ChainTo child (p.retained failsAfter) i))) := by
      intro m hm
      have hgroup := @group_mem_kills_iff self child signum
        (p.env true opened failsAfter outcome) rfl m.pgid
      have hprocess := @Population.process_mem_kills_iff p failsAfter self child signum opened
        outcome m hm
      unfold deliveries
      rw [← hgroup, ← hprocess, p.nodup_kills.count, p.nodup_kills.count]
      by_cases haccepts : m.accepts = true
      · simp only [haccepts, if_true]
        split <;> split <;> simp_all
      · simp [haccepts]
    constructor
    · intro h _ hopened hgroup m hm haccepts hpgid hroot hself i hi hpid hchain
      exact (htwice m hm).mp (h m hm) haccepts
        ⟨⟨hgroup, hpgid⟩, hopened, hroot, hself, i, hi, hpid, hchain⟩
    · intro h m hm
      refine (htwice m hm).mpr ?_
      intro haccepts hboth
      obtain ⟨⟨hgroup, hpgid⟩, hopened, hroot, hself, i, hi, hpid, hchain⟩ := hboth
      exact h rfl hopened hgroup m hm haccepts hpgid hroot hself i hi hpid hchain

/-- The supervisor 100, the direct child 200, and its child 201, which is in its group. -/
def pipeline : Population where
  entries := [.member ⟨100, 50, .absent, true⟩,
    .member ⟨200, 200, .readable (ascii "200 (sh) S 100" ++
      StatRecord.spaced (List.replicate 17 0 ++ [1100]) ++ [10]), true⟩,
    .member ⟨201, 200, .readable (ascii "201 (cat) S 200" ++
      StatRecord.spaced (List.replicate 17 0 ++ [1101]) ++ [10]), true⟩]
  other_name := by simp
  pid_pos := by simp [membersOf, Shown.member?, intMax]
  nodup := by decide

/-- The process 201 is signalled with its group and by its pid. -/
theorem signalTree_delivers_twice :
    ¬ ∀ (p : Population) (self : Supervisor) (child : ℕ) (signum : Signal)
      (allocated opened : Bool) (failsAfter : Option ℕ) (outcome : Target → KillOutcome),
      ∀ m ∈ p.members, deliveries (signalTree self child signum
        (p.env allocated opened failsAfter outcome)).kills signum m ≤ 1 := by
  intro h
  have hkills : (signalTree ⟨100, 50⟩ 200 .term (pipeline.env true true none
      fun _ => .delivered)).kills = [⟨.group 200, .term⟩, ⟨.process 201, .term⟩] := by
    decide +kernel
  have honce := h pipeline ⟨100, 50⟩ 200 .term true true none fun _ => .delivered
  rw [hkills] at honce
  revert honce
  decide

end Agentwatch
