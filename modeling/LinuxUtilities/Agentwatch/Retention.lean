import LinuxUtilities.Agentwatch.Closure
import LinuxUtilities.Agentwatch.Coverage

/-! What a scan retains of a listing of any length, and which descendants it marks. Identities are
retained before it is known whom they descend from, so the limit on them cuts the listing. -/
namespace Agentwatch
open CString

/-- A listing of `/proc` in any order: up to 65536 processes, each with a record that fits, and
other names, none of which starts with a digit. -/
structure Enumeration where
  entries : List Listed
  other_name : ∀ name, .other name ∈ entries → name.bytes.head?.any isDigit = false
  pid_pos : ∀ p ∈ processesOf entries, 0 < p.pid ∧ p.pid ≤ intMax
  fits : ∀ p ∈ processesOf entries, (p.record.text p.pid).length ≤ procRecordLimit
  within : (processesOf entries).length ≤ procEntryLimit

namespace Enumeration
variable (e : Enumeration) (root : ℕ)

def processes : List Process := processesOf e.entries

/-- The identities, in the order of the listing. -/
def identities : List Identity := e.processes.map Process.identity

/-- The listing as `scan_descendants` meets it. -/
def listing (failed : Bool) : Listing := ⟨true, e.entries.map Listed.entry, failed⟩

/-- The parent chain of a process, over all listed ones, ends below the root. -/
def Descends (p : Process) : Prop := ChainTo root e.identities p.identity

/-- Every descendant of the root is marked. -/
def Complete (failed : Bool) : Prop :=
  ∀ p ∈ e.processes, e.Descends root p →
    (p.identity, true) ∈ (scanDescendants root (e.listing failed)).items

/-- What is retained: the first identities of the listing. -/
theorem scan_items (failed : Bool) :
    (scanDescendants root (e.listing failed)).items =
      connect root (e.identities.take identityLimit) := by
  have hcollect := collected_items e.other_name e.pid_pos e.fits e.within
  simp only [scanDescendants, listing, Bool.not_true, Bool.false_eq_true, if_false, hcollect]
  rfl

/-- A scan of more processes than are retained is uncertain. -/
theorem scan_uncertain (failed : Bool) (h : identityLimit < e.processes.length) :
    (scanDescendants root (e.listing failed)).uncertain = true := by
  have hnoted : ((e.entries.map Listed.entry).filter numeric).filterMap noted = e.identities := by
    rw [filter_numeric_entry e.other_name, filterMap_noted e.pid_pos e.fits]
    rfl
  have hmany : identityLimit < Collected.initial.items.length +
      (((e.entries.map Listed.entry).filter numeric).filterMap noted).length := by
    rw [hnoted, identities, List.length_map]
    exact h.trans_le (Nat.le_add_left _ _)
  have huncertain := Collected.foldl_inspect_uncertain _ Collected.running_initial hmany
  simp [scanDescendants, listing, huncertain]

theorem mem_scan_items {failed : Bool} {p : Process} :
    (p.identity, true) ∈ (scanDescendants root (e.listing failed)).items ↔
      p.identity ∈ e.identities.take identityLimit ∧
        ChainTo root (e.identities.take identityLimit) p.identity := by
  rw [e.scan_items]
  constructor
  · intro h
    refine ⟨Saturation.mem_of_mem_saturate h, ?_⟩
    rw [← joined_iff_chainTo]
    exact (Saturation.saturate_marked_iff _ _ h).mp rfl
  · rintro ⟨hretained, hchain⟩
    obtain ⟨item, hitem, hidentity⟩ := Saturation.exists_mem_saturate
      (fun a : Identity => decide (a.ppid = root)) (fun a b => decide (a.ppid = b.pid)) hretained
    have hmarked : item.2 = true := by
      rw [Saturation.saturate_marked_iff _ _ hitem, joined_iff_chainTo, hidentity]
      exact hchain
    rwa [← hidentity, ← hmarked]

end Enumeration

/-- The scan marks every descendant of the root if and only if every one is among the first 4096
listed processes, and a scan of more processes is uncertain. -/
theorem scanDescendants_complete_iff (e : Enumeration) (root : ℕ) (failed : Bool) :
    (e.Complete root failed ↔ ∀ p ∈ e.processes, e.Descends root p →
      p.identity ∈ e.identities.take identityLimit) ∧
    (identityLimit < e.processes.length →
      (scanDescendants root (e.listing failed)).uncertain = true) := by
  refine ⟨⟨?_, ?_⟩, e.scan_uncertain root failed⟩
  · intro hcomplete p hp hdescends
    exact ((e.mem_scan_items root).mp (hcomplete p hp hdescends)).1
  · intro hretained p hp hdescends
    refine (e.mem_scan_items root).mpr ⟨hretained p hp hdescends, ?_⟩
    unfold Enumeration.Descends at hretained hdescends
    simp only [← joined_iff_chainTo] at hretained hdescends ⊢
    refine hdescends.mono_of_joined ?_
    intro identity hidentity hjoined
    obtain ⟨q, hq, rfl⟩ := List.mem_map.mp hidentity
    exact hretained q hq hjoined

namespace Crowd

theorem parent_le {ppid : ℕ} (h : ppid ≤ 200) : ppid ≤ intMax := h.trans (by decide)

theorem nameless : (0 : UInt8) ∉ ([] : List UInt8) := List.not_mem_nil

theorem start_le : 0 ≤ ulongMax := Nat.zero_le ulongMax

/-- A process without a name. -/
def process (pid ppid : ℕ) (h : ppid ≤ 200) : Process :=
  ⟨pid, pid, sleeping [] ppid 0 nameless (parent_le h) start_le⟩

/-- The root 200 and 4095 further processes below the first one. -/
def bystander (i : ℕ) : Process := process (200 + i) 1 (Nat.le_add_left 1 199)

/-- A child of the root. -/
def child : Process := process 5000 200 le_rfl

def listed : List Process := (List.range identityLimit).map bystander ++ [child]

theorem mem_listed {p : Process} (h : p ∈ listed) :
    p = child ∨ ∃ i < identityLimit, p = bystander i := by
  rcases List.mem_append.mp h with h | h
  · obtain ⟨i, hi, rfl⟩ := List.mem_map.mp h
    exact .inr ⟨i, List.mem_range.mp hi, rfl⟩
  · exact .inl (List.mem_singleton.mp h)

theorem processesOf_listed : processesOf (listed.map .process) = listed := by
  simp [processesOf, List.filterMap_map, Function.comp_def, Listed.process?]

theorem pid_lt {p : Process} (h : p ∈ listed) : 200 ≤ p.pid ∧ p.pid < 10 ^ 4 := by
  rcases mem_listed h with rfl | ⟨i, hi, rfl⟩
  · decide
  · have hlimit : identityLimit = 4096 := rfl
    have hpid : (bystander i).pid = 200 + i := rfl
    omega

theorem length_text_le {p : Process} (h : p ∈ listed) :
    (p.record.text p.pid).length ≤ procRecordLimit := by
  have hdecimal : (decimal p.pid).length ≤ 4 := length_decimal_le (by decide) (pid_lt h).2
  have hafter : p.record.comm.length + p.record.afterName.length ≤ 100 := by
    rcases mem_listed h with rfl | ⟨i, -, rfl⟩
    · decide
    · have hrecord : (bystander i).record = (bystander 0).record := rfl
      rw [hrecord]
      decide
  have hlimit : procRecordLimit = 4096 := rfl
  simp only [StatRecord.text, List.length_append, List.length_cons, List.length_nil]
  omega

def listing : Enumeration where
  entries := listed.map .process
  other_name := by simp
  pid_pos := by
    rw [processesOf_listed]
    intro p hp
    have hpid := pid_lt hp
    have hmax : 10 ^ 4 ≤ intMax := by decide
    omega
  fits := by
    rw [processesOf_listed]
    exact fun p hp => length_text_le hp
  within := by
    rw [processesOf_listed]
    simp [listed, identityLimit, procEntryLimit]

theorem processes_listing : listing.processes = listed := by
  simp only [Enumeration.processes, listing, processesOf_listed]

theorem bystander_ppid (i : ℕ) : (bystander i).identity.ppid = 1 := rfl

/-- No bystander descends from the root. -/
theorem eq_child_of_descends {p : Process} (hp : p ∈ listing.processes)
    (h : listing.Descends 200 p) : p = child := by
  rw [processes_listing] at hp
  rcases mem_listed hp with rfl | ⟨i, -, rfl⟩
  · rfl
  · unfold Enumeration.Descends at h
    rw [← joined_iff_chainTo] at h
    cases h with
    | base hseed =>
      have hppid := of_decide_eq_true hseed
      rw [bystander_ppid] at hppid
      exact absurd hppid (by decide)
    | step hlink hb _ =>
      obtain ⟨q, hq, rfl⟩ := List.mem_map.mp hb
      rw [processes_listing] at hq
      have hpid : 1 = q.pid := of_decide_eq_true hlink
      have hlower := (pid_lt hq).1
      omega

theorem child_descends : listing.Descends 200 child :=
  joined_iff_chainTo.mp (.base rfl)

/-- The child comes after the identities that are retained. -/
theorem child_not_retained : child.identity ∉ listing.identities.take identityLimit := by
  have hidentities : listing.identities.take identityLimit =
      ((List.range identityLimit).map bystander).map Process.identity := by
    rw [Enumeration.identities, processes_listing, listed, List.map_append]
    exact List.take_left' (by rw [List.length_map, List.length_map, List.length_range])
  rw [hidentities]
  intro h
  obtain ⟨p, hp, hidentity⟩ := List.mem_map.mp h
  obtain ⟨i, -, rfl⟩ := List.mem_map.mp hp
  have hppid := congrArg Identity.ppid hidentity
  rw [bystander_ppid] at hppid
  exact absurd hppid (by decide)

end Crowd

/-- A child of the root that is listed after 4096 other processes is not marked. -/
theorem scanDescendants_misses_child :
    ¬ ∀ (e : Enumeration) (root : ℕ),
      (∃ few : List Identity, few.length ≤ identityLimit ∧
        ∀ p ∈ e.processes, e.Descends root p → p.identity ∈ few) → e.Complete root false := by
  intro h
  have hcomplete := h Crowd.listing 200 ⟨[Crowd.child.identity], by decide, by
    intro p hp hdescends
    rw [Crowd.eq_child_of_descends hp hdescends]
    exact List.mem_singleton_self _⟩
  have hmem : Crowd.child ∈ Crowd.listing.processes := by
    rw [Crowd.processes_listing]
    exact List.mem_append_right _ (List.mem_singleton_self _)
  have hmarked := hcomplete Crowd.child hmem Crowd.child_descends
  exact Crowd.child_not_retained ((Crowd.listing.mem_scan_items 200).mp hmarked).1

end Agentwatch
