import LinuxUtilities.Agentwatch.Collecting

/-! Whom a call of `signal_tree` reaches when the process table does not change. -/
namespace Agentwatch
open CString

/-- A process: its pid, its group, and its record. -/
structure Process where
  pid : ℕ
  pgid : ℕ
  record : StatRecord

namespace Process

def ppid (p : Process) : ℕ := p.record.ppid

/-- The directory of a process under `/proc`. -/
def name (p : Process) : CStr :=
  ⟨decimal p.pid, fun h => (StatRecord.plain_of_mem_decimal h).1 rfl⟩

/-- The record of a process can be read. -/
def stat (p : Process) : StatFile := .readable (p.record.text p.pid)

def identity (p : Process) : Identity := ⟨p.pid, p.ppid, p.record.start⟩

end Process

/-- An entry of `/proc`: a process, or a name that is no pid. -/
inductive Listed where
  | process (p : Process)
  | other (name : CStr)

namespace Listed

def process? : Listed → Option Process
  | process p => some p
  | other _ => none

def entry : Listed → ProcEntry
  | process p => ⟨p.name, p.stat⟩
  | other name => ⟨name, .absent⟩

end Listed

def processesOf (entries : List Listed) : List Process := entries.filterMap Listed.process?

/-- The process table, as `/proc` lists it: at most 4096 processes with different pids and
records that fit, and other names, none of which starts with a digit. -/
structure Snapshot where
  entries : List Listed
  other_name : ∀ name, .other name ∈ entries → name.bytes.head?.any isDigit = false
  pid_pos : ∀ p ∈ processesOf entries, 0 < p.pid ∧ p.pid ≤ intMax
  fits : ∀ p ∈ processesOf entries, (p.record.text p.pid).length ≤ procRecordLimit
  nodup : ((processesOf entries).map Process.pid).Nodup
  few : (processesOf entries).length ≤ identityLimit

namespace Snapshot

def processes (s : Snapshot) : List Process := processesOf s.entries

/-- The observed parent chain of a process leads to a pid. -/
inductive LeadsTo (s : Snapshot) (ancestor : ℕ) : Process → Prop where
  | child {p : Process} : p.ppid = ancestor → LeadsTo s ancestor p
  | step {p q : Process} : q ∈ s.processes → p.ppid = q.pid → LeadsTo s ancestor q →
      LeadsTo s ancestor p

/-- The record of a pid. -/
def stat (s : Snapshot) (pid : ℕ) : StatFile :=
  ((s.processes.find? (·.pid = pid)).map Process.stat).getD .absent

/-- Every `kill` is permitted: it fails only when there is nobody to signal. -/
def permitted (s : Snapshot) : Target → KillOutcome
  | .group pgid => if s.processes.any (·.pgid = pgid) then .delivered else .missing
  | .process pid => if s.processes.any (·.pid = pid) then .delivered else .missing

/-- What `signal_tree` meets when the table does not change. -/
def env (s : Snapshot) (allocated : Bool) : TreeEnv :=
  ⟨allocated, ⟨true, s.entries.map Listed.entry, false⟩, s.stat, s.permitted⟩

end Snapshot

/-- A call of `kill` delivers its signal to a process. -/
def Receives (kills : List Kill) (signum : Signal) (p : Process) : Prop :=
  ⟨.group p.pgid, signum⟩ ∈ kills ∨ ⟨.process p.pid, signum⟩ ∈ kills

section Listing
variable {entries : List Listed}

/-- The entries that count are the processes. -/
theorem filter_numeric_entry
    (hother : ∀ name, .other name ∈ entries → name.bytes.head?.any isDigit = false) :
    (entries.map Listed.entry).filter numeric =
      (processesOf entries).map fun p => ⟨p.name, p.stat⟩ := by
  refine filter_numeric ?_ ?_
  · intro entry p h
    cases entry with
    | process q =>
      obtain rfl := Option.some.inj h
      exact ⟨rfl, numeric_decimal q.pid q.stat⟩
    | other name => contradiction
  · intro entry hentry h
    cases entry with
    | process q => contradiction
    | other name => exact hother name hentry

/-- Each process gives its identity. -/
theorem filterMap_noted (hpid : ∀ p ∈ processesOf entries, 0 < p.pid ∧ p.pid ≤ intMax)
    (hfits : ∀ p ∈ processesOf entries, (p.record.text p.pid).length ≤ procRecordLimit) :
    ((processesOf entries).map fun p => (⟨p.name, p.stat⟩ : ProcEntry)).filterMap noted =
      (processesOf entries).map Process.identity := by
  rw [List.filterMap_map, ← List.filterMap_eq_map]
  refine List.filterMap_congr ?_
  intro p hp
  exact noted_eq_some.mpr
    ⟨p.pid, entryPid_decimal (hpid p hp), readIdentity_text p.record p.pid (hfits p hp)⟩

/-- What is retained of processes within the limit on entries: the first identities. -/
theorem collected_items
    (hother : ∀ name, .other name ∈ entries → name.bytes.head?.any isDigit = false)
    (hpid : ∀ p ∈ processesOf entries, 0 < p.pid ∧ p.pid ≤ intMax)
    (hfits : ∀ p ∈ processesOf entries, (p.record.text p.pid).length ≤ procRecordLimit)
    (hwithin : (processesOf entries).length ≤ procEntryLimit) :
    ((entries.map Listed.entry).foldl Collected.inspect Collected.initial).items =
      ((processesOf entries).map Process.identity).take identityLimit := by
  have hnumeric : ((entries.map Listed.entry).filter numeric).take procEntryLimit =
      (processesOf entries).map fun p => ⟨p.name, p.stat⟩ := by
    rw [filter_numeric_entry hother]
    exact List.take_of_length_le (by rwa [List.length_map])
  have hcollect := Collected.foldl_inspect_items (entries.map Listed.entry)
    Collected.running_initial
  simpa only [Collected.initial, Nat.sub_zero, List.length_nil, List.nil_append, hnumeric,
    filterMap_noted hpid hfits] using hcollect

end Listing

namespace Snapshot
variable {s : Snapshot} {root : ℕ}

theorem scan_items (s : Snapshot) (root : ℕ) (allocated : Bool) :
    (scanDescendants root (s.env allocated).listing).items =
      connect root (s.processes.map Process.identity) := by
  have hlimits : identityLimit ≤ procEntryLimit := by decide
  have hcollect := collected_items s.other_name s.pid_pos s.fits (s.few.trans hlimits)
  rw [List.take_of_length_le (by rw [List.length_map]; exact s.few)] at hcollect
  simp only [scanDescendants, env, Bool.not_true, Bool.false_eq_true, if_false, hcollect]
  rfl

theorem eq_of_pid {p q : Process} (hp : p ∈ s.processes) (hq : q ∈ s.processes)
    (h : p.pid = q.pid) : p = q :=
  List.inj_on_of_nodup_map s.nodup hp hq h

theorem stat_of_mem {p : Process} (hp : p ∈ s.processes) : s.stat p.pid = p.stat := by
  have hfind : s.processes.find? (·.pid = p.pid) = some p := find?_key s.nodup hp
  rw [stat, hfind]
  rfl

/-- An identity is joined to the root when the parent chain of its process leads there. -/
theorem joined_iff_leadsTo {p : Process} :
    Saturation.Joined (fun a : Identity => decide (a.ppid = root))
        (fun a b => decide (a.ppid = b.pid)) (s.processes.map Process.identity) p.identity ↔
      s.LeadsTo root p := by
  constructor
  · intro h
    generalize ha : p.identity = a at h
    induction h generalizing p with
    | base hseed =>
      subst ha
      exact .child (of_decide_eq_true hseed)
    | step hlink hb _ ih =>
      subst ha
      obtain ⟨q, hq, rfl⟩ := List.mem_map.mp hb
      exact .step hq (of_decide_eq_true hlink) (ih rfl)
  · intro h
    induction h with
    | child hppid => exact .base (decide_eq_true hppid)
    | @step p q hq hppid _ ih =>
      have hlink : p.identity.ppid = q.identity.pid := hppid
      exact .step (decide_eq_true hlink) (List.mem_map_of_mem hq) ih

/-- The items are the processes, connected when their parent chains lead to the root. -/
theorem mem_connect_iff {item : Identity × Bool} :
    item ∈ connect root (s.processes.map Process.identity) →
      ∃ p ∈ s.processes, item.1 = p.identity ∧ (item.2 = true ↔ s.LeadsTo root p) := by
  intro h
  obtain ⟨p, hp, heq⟩ := List.mem_map.mp (Saturation.mem_of_mem_saturate h)
  have hmarked := Saturation.saturate_marked_iff _ item h
  rw [← heq, joined_iff_leadsTo] at hmarked
  exact ⟨p, hp, heq.symm, hmarked⟩

/-- A process that a call of `signal_tree` can reach: it is in the group that is signalled, or
it is not the root and its parent chain leads to the root. -/
def Covered (s : Snapshot) (self : Supervisor) (root : ℕ) (p : Process) : Prop :=
  (signalsGroup self root = true ∧ p.pgid = root) ∨ (p.pid ≠ root ∧ s.LeadsTo root p)

variable {self : Supervisor} {signum : Signal}

theorem process_mem_kills_iff {p : Process} (hp : p ∈ s.processes) (hself : p.pid ≠ self.pid) :
    ⟨.process p.pid, signum⟩ ∈ (signalTree self root signum (s.env true)).kills ↔
      p.pid ≠ root ∧ s.LeadsTo root p := by
  have hread : readIdentity p.pid (s.stat p.pid) = .found p.identity := by
    rw [stat_of_mem hp]
    exact readIdentity_text p.record p.pid (s.fits p hp)
  rw [Agentwatch.process_mem_kills_iff rfl, scan_items]
  constructor
  · intro h
    obtain ⟨item, hitem, hpid, hskips, -⟩ := h
    obtain ⟨q, hq, hidentity, hmarked⟩ := mem_connect_iff hitem
    obtain rfl : q = p := eq_of_pid hq hp (by rw [← hpid, hidentity]; rfl)
    simp only [skips, Bool.or_eq_false_iff, Bool.not_eq_false', decide_eq_false_iff_not] at hskips
    exact ⟨hpid ▸ hskips.2, hmarked.mp hskips.1.1⟩
  · intro h
    obtain ⟨hroot, hleads⟩ := h
    obtain ⟨item, hitem, hidentity⟩ :
        ∃ item ∈ connect root (s.processes.map Process.identity), item.1 = p.identity :=
      Saturation.exists_mem_saturate _ _ (List.mem_map_of_mem hp)
    obtain ⟨q, hq, hq', hmarked⟩ := mem_connect_iff hitem
    obtain rfl : p = q := eq_of_pid hp hq (congrArg Identity.pid (hidentity.symm.trans hq'))
    have hpid : item.1.pid = p.pid := by rw [hidentity]; rfl
    refine ⟨item, hitem, hpid, ?_, p.identity, hread, by rw [hidentity]⟩
    simp [skips, hmarked.mpr hleads, hpid, hself, hroot]

/-- Whether a process other than the supervisor is signalled. -/
theorem receives_iff {allocated : Bool} {p : Process} (hp : p ∈ s.processes)
    (hself : p.pid ≠ self.pid) :
    Receives (signalTree self root signum (s.env allocated)).kills signum p ↔
      allocated = true ∧ s.Covered self root p := by
  cases allocated with
  | false => simp [Receives, signalTree, env]
  | true =>
    unfold Receives Covered
    rw [group_mem_kills_iff rfl, process_mem_kills_iff hp hself]
    simp

end Snapshot

/-- A call of `signal_tree` reaches every process below the supervisor if and only if it gets
memory and all of them can be reached through the group or the parent chain of the direct
child. -/
theorem signalTree_reaches_iff (s : Snapshot) (self : Supervisor) (child : ℕ) (signum : Signal)
    (allocated : Bool) :
    (∀ p ∈ s.processes, p.pid ≠ self.pid → s.LeadsTo self.pid p →
        Receives (signalTree self child signum (s.env allocated)).kills signum p) ↔
      ∀ p ∈ s.processes, p.pid ≠ self.pid → s.LeadsTo self.pid p →
        allocated = true ∧ s.Covered self child p := by
  constructor
  · intro h p hp hself hleads
    exact (Snapshot.receives_iff hp hself).mp (h p hp hself hleads)
  · intro h p hp hself hleads
    exact (Snapshot.receives_iff hp hself).mpr (h p hp hself hleads)

/-- The record of a sleeping process. -/
def sleeping (comm : List UInt8) (ppid start : ℕ) (hcomm : (0 : UInt8) ∉ comm)
    (hppid : ppid ≤ intMax) (hstart : start ≤ ulongMax) : StatRecord where
  comm := comm
  state := 83
  ppid := ppid
  fields := List.replicate 17 0
  start := start
  tail := []
  comm_nulFree := hcomm
  state_ne_zero := by decide
  state_ne_paren := by decide
  ppid_le := hppid
  fields_length := rfl
  fields_le := by decide
  start_le := hstart

/-- The supervisor 100 and a process 201 that it has adopted, in a group of its own. The direct
child 200 is gone. -/
def adopted : Snapshot where
  entries := [
    .process ⟨100, 100, sleeping (ascii "agentwatch") 50 1000 (by decide) (by decide) (by decide)⟩,
    .process ⟨201, 201, sleeping (ascii "helper") 100 1200 (by decide) (by decide) (by decide)⟩]
  other_name := by simp
  pid_pos := by simp [processesOf, Listed.process?]; decide
  fits := by decide +kernel
  nodup := by decide
  few := by decide

/-- The adopted process is not reached. -/
theorem signalTree_misses_adopted :
    ¬ ∀ p ∈ adopted.processes, p.pid ≠ 100 → adopted.LeadsTo 100 p →
      Receives (signalTree ⟨100, 100⟩ 200 .term (adopted.env true)).kills .term p := by
  intro h
  have hkills : (signalTree ⟨100, 100⟩ 200 .term (adopted.env true)).kills =
      [⟨.group 200, .term⟩] := by decide +kernel
  have hreceives := h _ (List.mem_cons_of_mem _ List.mem_cons_self) (by decide) (.child rfl)
  rw [hkills] at hreceives
  simp [Receives] at hreceives

end Agentwatch
