import LinuxUtilities.Agentwatch.Stat
import LinuxUtilities.Agentwatch.Supervise
import LinuxUtilities.Foundation.Saturation

/-! `scan_descendants` and `signal_tree`: which signals are sent to whom, for what they meet in
`/proc`. -/
namespace Agentwatch
open CString

def identityLimit : ℕ := 4096

def procEntryLimit : ℕ := 65536

/-- An entry that `readdir` returns: its name, and what reading the record of the pid that it
names then meets. -/
structure ProcEntry where
  name : CStr
  stat : StatFile

/-- What listing `/proc` meets: whether it opens, the entries, and whether `readdir` fails
after them. -/
structure Listing where
  opened : Bool
  entries : List ProcEntry
  failed : Bool

/-- The pid that a name is converted to; nothing when the entry is skipped. -/
def entryPid (name : CStr) : Option ℕ :=
  match strtol name.bytes with
  | some ⟨value, rest, range⟩ =>
    if range ∨ rest ≠ [] ∨ value ≤ 0 ∨ intMax < value then none else some value.toNat
  | none => none

/-- The variables of the loop over the entries, whether `errno` is set, and whether the loop
was broken off. -/
structure Collected where
  items : List Identity
  inspected : ℕ
  uncertain : Bool
  errno : Bool
  stopped : Bool
  deriving DecidableEq

namespace Collected

def initial : Collected := ⟨[], 0, false, false, false⟩

/-- What `read_identity` does to the variables. An identity is only found after `errno` was
cleared, and a process is only gone after `errno` was set. -/
def note (c : Collected) : Reading → Collected
  | .found identity => { c with items := c.items ++ [identity], errno := false }
  | .gone => { c with errno := true }
  | .unknown => { c with uncertain := true, errno := true }

/-- The body of the loop. -/
def inspect (c : Collected) (entry : ProcEntry) : Collected :=
  if c.stopped then c
  else if ¬ entry.name.bytes.head?.any isDigit then c
  else if procEntryLimit < c.inspected + 1 then
    { c with inspected := c.inspected + 1, uncertain := true, stopped := true }
  else
    let c := { c with inspected := c.inspected + 1 }
    match entryPid entry.name with
    | none => { c with errno := (strtol entry.name.bytes).any Converted.range }
    | some value =>
      if c.items.length = identityLimit then { c with uncertain := true, stopped := true }
      else c.note (readIdentity value entry.stat)

end Collected

/-- The body of the marking loop: an item is connected when its parent is the root or a
connected item. -/
def connect (root : ℕ) (items : List Identity) : List (Identity × Bool) :=
  Saturation.saturate (fun a => a.ppid = root) (fun a b => a.ppid = b.pid)
    (items.map (·, false))

/-- The items, each with its flag `connected`, and whether the scan is uncertain. -/
structure Scan where
  items : List (Identity × Bool)
  uncertain : Bool

/-- `scan_descendants`. -/
def scanDescendants (root : ℕ) (listing : Listing) : Scan :=
  if !listing.opened then ⟨[], true⟩
  else
    let c := listing.entries.foldl Collected.inspect Collected.initial
    ⟨connect root c.items, c.uncertain || (!c.stopped && (c.errno || listing.failed))⟩

/-- Whom `kill` is called for. -/
inductive Target where
  | group (pgid : ℕ)
  | process (pid : ℕ)
  deriving DecidableEq, Repr

/-- A call of `kill`. -/
structure Kill where
  target : Target
  signum : Signal
  deriving DecidableEq, Repr

/-- How a call of `kill` ends: with 0, with `ESRCH`, or with another error. -/
inductive KillOutcome where
  | delivered
  | missing
  | failed
  deriving DecidableEq, Repr

/-- The supervisor: `getpid()` and `getpgrp()`. -/
structure Supervisor where
  pid : ℕ
  pgrp : ℕ

/-- What came of a call of `signal_tree`: the calls of `kill`, what it returns, and whether it
is uncertain. -/
structure Tree where
  kills : List Kill
  ok : Bool
  uncertain : Bool
  deriving DecidableEq

namespace Tree

def send (t : Tree) (target : Target) (signum : Signal) (outcome : KillOutcome) : Tree :=
  { t with kills := t.kills ++ [⟨target, signum⟩], ok := t.ok && outcome ≠ .failed }

end Tree

/-- Whether the group of the root is signalled. -/
def signalsGroup (self : Supervisor) (root : ℕ) : Bool := 1 < root && root ≠ self.pgrp

/-- Whether the loop over the items passes an item over. -/
def skips (self : Supervisor) (root : ℕ) (item : Identity × Bool) : Bool :=
  !item.2 || item.1.pid = self.pid || item.1.pid = root

/-- The body of the loop over the items, with what reading the record again meets. -/
def signalItem (self : Supervisor) (root : ℕ) (signum : Signal) (outcome : KillOutcome)
    (file : StatFile) (t : Tree) (item : Identity × Bool) : Tree :=
  if skips self root item then t
  else match readIdentity item.1.pid file with
    | .found current =>
      if current.starttime = item.1.starttime then t.send (.process item.1.pid) signum outcome
      else t
    | .unknown => { t with uncertain := true }
    | .gone => t

/-- What `signal_tree` meets: whether it gets memory, the listing, the record that a process
has when it is read again, and how each `kill` ends. -/
structure TreeEnv where
  allocated : Bool
  listing : Listing
  reread : ℕ → StatFile
  outcome : Target → KillOutcome

/-- `signal_tree`. -/
def signalTree (self : Supervisor) (root : ℕ) (signum : Signal) (env : TreeEnv) : Tree :=
  if !env.allocated then ⟨[], false, true⟩
  else
    let scan := scanDescendants root env.listing
    let t : Tree := ⟨[], true, scan.uncertain⟩
    let t := if signalsGroup self root then
        t.send (.group root) signum (env.outcome (.group root))
      else t
    scan.items.foldl (fun t item => signalItem self root signum
      (env.outcome (.process item.1.pid)) (env.reread item.1.pid) t item) t

/-- The call of `kill` for an item. -/
def individual (self : Supervisor) (root : ℕ) (signum : Signal) (file : StatFile)
    (item : Identity × Bool) : Option Kill :=
  if skips self root item then none
  else match readIdentity item.1.pid file with
    | .found current =>
      if current.starttime = item.1.starttime then some ⟨.process item.1.pid, signum⟩ else none
    | _ => none

section Calls
variable {self : Supervisor} {root : ℕ} {signum : Signal} {env : TreeEnv}

/-- An item is signalled when it is not passed over and its start time is read again. -/
theorem individual_eq_some {file : StatFile} {item : Identity × Bool} {k : Kill} :
    individual self root signum file item = some k ↔
      k = ⟨.process item.1.pid, signum⟩ ∧ skips self root item = false ∧
        ∃ current, readIdentity item.1.pid file = .found current ∧
          current.starttime = item.1.starttime := by
  unfold individual
  split
  next hskip => simp [hskip]
  next hskip =>
    split
    next current hread =>
      split
      next hstart => simp [hread, hstart, hskip, eq_comm]
      next hstart => simp [hread, hstart]
    next hread =>
      simp only [reduceCtorEq, false_iff]
      intro h
      obtain ⟨-, -, current, hfound, -⟩ := h
      exact hread current hfound

theorem signalItem_kills {outcome : KillOutcome} {file : StatFile} {item : Identity × Bool}
    {t : Tree} : (signalItem self root signum outcome file t item).kills =
      t.kills ++ (individual self root signum file item).toList := by
  unfold signalItem individual
  split
  · simp
  cases hread : readIdentity item.1.pid file with
  | found current =>
    by_cases hstart : current.starttime = item.1.starttime
    · simp [hstart, Tree.send]
    · simp [hstart]
  | gone => simp
  | unknown => simp

theorem signalItems_kills {items : List (Identity × Bool)} {t : Tree} :
    (items.foldl (fun t item => signalItem self root signum
        (env.outcome (.process item.1.pid)) (env.reread item.1.pid) t item) t).kills =
      t.kills ++ items.filterMap
        fun item => individual self root signum (env.reread item.1.pid) item := by
  induction items generalizing t with
  | nil => simp
  | cons item items ih =>
    rw [List.foldl_cons, ih, signalItem_kills, List.filterMap_cons, List.append_assoc]
    cases individual self root signum (env.reread item.1.pid) item <;> rfl

/-- The calls of `kill` of a call of `signal_tree`: one for the group, and one for each item
that is not passed over and whose start time is read again. -/
theorem signalTree_kills (h : env.allocated = true) :
    (signalTree self root signum env).kills =
      (if signalsGroup self root then [⟨.group root, signum⟩] else []) ++
        (scanDescendants root env.listing).items.filterMap
          fun item => individual self root signum (env.reread item.1.pid) item := by
  simp only [signalTree, h, Bool.not_true, Bool.false_eq_true, if_false, signalItems_kills]
  split
  · rfl
  · rfl

theorem group_mem_kills_iff (h : env.allocated = true) {pgid : ℕ} :
    ⟨.group pgid, signum⟩ ∈ (signalTree self root signum env).kills ↔
      signalsGroup self root = true ∧ pgid = root := by
  have hitem : ∀ item : Identity × Bool,
      individual self root signum (env.reread item.1.pid) item ≠ some ⟨.group pgid, signum⟩ := by
    intro item hsent
    exact Target.noConfusion (Kill.mk.inj (individual_eq_some.mp hsent).1).1
  rw [signalTree_kills h]
  split
  next hgroup => simp [hgroup, hitem]
  next hgroup => simp [hgroup, hitem]

theorem process_mem_kills_iff (h : env.allocated = true) {pid : ℕ} :
    ⟨.process pid, signum⟩ ∈ (signalTree self root signum env).kills ↔
      ∃ item ∈ (scanDescendants root env.listing).items, item.1.pid = pid ∧
        skips self root item = false ∧ ∃ current,
          readIdentity pid (env.reread pid) = .found current ∧
            current.starttime = item.1.starttime := by
  have hgroup : (⟨.process pid, signum⟩ : Kill) ∉
      (if signalsGroup self root then [⟨.group root, signum⟩] else []) := by
    split <;> simp
  rw [signalTree_kills h, List.mem_append, or_iff_right hgroup, List.mem_filterMap]
  constructor
  · intro hsent
    obtain ⟨item, hitem, hsent⟩ := hsent
    obtain ⟨hkill, hskips, hread⟩ := individual_eq_some.mp hsent
    obtain rfl : pid = item.1.pid := Target.process.inj (Kill.mk.inj hkill).1
    exact ⟨item, hitem, rfl, hskips, hread⟩
  · intro hsent
    obtain ⟨item, hitem, rfl, hskips, hread⟩ := hsent
    exact ⟨item, hitem, individual_eq_some.mpr ⟨rfl, hskips, hread⟩⟩

/-- When no two items have the same pid, no call of `kill` is made twice. -/
theorem nodup_kills
    (hnodup : ((scanDescendants root env.listing).items.map fun item => item.1.pid).Nodup) :
    (signalTree self root signum env).kills.Nodup := by
  cases hallocated : env.allocated with
  | false => simp [signalTree, hallocated]
  | true =>
    have hindividual : ((scanDescendants root env.listing).items.filterMap
        fun item => individual self root signum (env.reread item.1.pid) item).Nodup := by
      refine List.pairwise_filterMap.mpr ((List.pairwise_map.mp hnodup).imp ?_)
      intro a b hpid k hk k' hk' heq
      rw [(individual_eq_some.mp hk).1, (individual_eq_some.mp hk').1] at heq
      exact hpid (Target.process.inj (Kill.mk.inj heq).1)
    rw [signalTree_kills hallocated]
    split
    · refine List.nodup_append.mpr ⟨List.nodup_singleton _, hindividual, ?_⟩
      intro k hk k' hk' heq
      obtain ⟨item, -, hitem⟩ := List.mem_filterMap.mp hk'
      rw [List.mem_singleton.mp hk, (individual_eq_some.mp hitem).1] at heq
      exact Target.noConfusion (Kill.mk.inj heq).1
    · exact hindividual

end Calls

end Agentwatch
