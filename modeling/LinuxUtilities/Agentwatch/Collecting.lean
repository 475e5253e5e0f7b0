import LinuxUtilities.Agentwatch.SignalTree

/-! The loop of `scan_descendants` over the entries of `/proc`: which identities it retains within
the limits on entries and on identities, and when it is uncertain. -/
namespace Agentwatch
open CString

/-- The identity that an entry of `/proc` gives. -/
def noted (entry : ProcEntry) : Option Identity :=
  match entryPid entry.name with
  | none => none
  | some pid =>
    match readIdentity pid entry.stat with
    | .found identity => some identity
    | _ => none

theorem noted_eq_some {entry : ProcEntry} {identity : Identity} :
    noted entry = some identity ↔ ∃ pid, entryPid entry.name = some pid ∧
      readIdentity pid entry.stat = .found identity := by
  unfold noted
  cases entryPid entry.name with
  | none => simp
  | some pid => cases hread : readIdentity pid entry.stat <;> simp [hread]

/-- An entry that counts: its name starts with a digit. -/
def numeric (entry : ProcEntry) : Bool := entry.name.bytes.head?.any isDigit

namespace Collected
variable {c : Collected} {entry : ProcEntry}

/-- Before a limit is reached: the loop has not been broken off, and no count exceeds its limit. -/
structure Running (c : Collected) : Prop where
  going : c.stopped = false
  inspected_le : c.inspected ≤ procEntryLimit
  length_le : c.items.length ≤ identityLimit

theorem inspect_stopped (h : c.stopped = true) : c.inspect entry = c := by
  simp [inspect, h]

theorem foldl_inspect_stopped (entries : List ProcEntry) (h : c.stopped = true) :
    entries.foldl inspect c = c := by
  induction entries with
  | nil => rfl
  | cons entry entries ih => rw [List.foldl_cons, inspect_stopped h, ih]

theorem inspect_not_numeric (h : numeric entry = false) : c.inspect entry = c := by
  unfold numeric at h
  simp [inspect, h]

/-- The entry past the limit on entries breaks the loop off. -/
theorem inspect_full (h : c.Running) (hnumeric : numeric entry = true)
    (hfull : c.inspected = procEntryLimit) :
    (c.inspect entry).items = c.items ∧ (c.inspect entry).uncertain = true ∧
      (c.inspect entry).stopped = true := by
  unfold numeric at hnumeric
  simp [inspect, h.going, hnumeric, hfull]

/-- An entry that names a pid breaks the loop off when no more identities are retained. -/
theorem inspect_limit (h : c.Running) (hnumeric : numeric entry = true)
    (hroom : c.inspected < procEntryLimit) (hpid : (entryPid entry.name).isSome = true)
    (hlimit : c.items.length = identityLimit) :
    (c.inspect entry).items = c.items ∧ (c.inspect entry).uncertain = true ∧
      (c.inspect entry).stopped = true := by
  unfold numeric at hnumeric
  obtain ⟨pid, hpid⟩ := Option.isSome_iff_exists.mp hpid
  have hinspected : ¬ procEntryLimit < c.inspected + 1 := by omega
  simp [inspect, h.going, hnumeric, hinspected, hpid, hlimit]

/-- An entry that gives no identity is counted. -/
theorem inspect_none (h : c.Running) (hnumeric : numeric entry = true)
    (hroom : c.inspected < procEntryLimit) (hnoted : noted entry = none)
    (hcontinues : entryPid entry.name = none ∨ c.items.length < identityLimit) :
    (c.inspect entry).items = c.items ∧ (c.inspect entry).inspected = c.inspected + 1 ∧
      (c.inspect entry).stopped = false := by
  unfold numeric at hnumeric
  have hinspected : ¬ procEntryLimit < c.inspected + 1 := by omega
  unfold inspect
  simp only [h.going, hnumeric, hinspected, not_true_eq_false, Bool.false_eq_true, if_false]
  cases hpid : entryPid entry.name with
  | none => exact ⟨rfl, rfl, rfl⟩
  | some pid =>
    have hlt : c.items.length < identityLimit := by simpa [hpid] using hcontinues
    simp only [hlt.ne, if_false]
    cases hread : readIdentity pid entry.stat with
    | found identity => simp [noted, hpid, hread] at hnoted
    | gone => exact ⟨rfl, rfl, rfl⟩
    | unknown => exact ⟨rfl, rfl, rfl⟩

/-- An entry that gives an identity is counted, and the identity retained. -/
theorem inspect_some (h : c.Running) (hnumeric : numeric entry = true)
    (hroom : c.inspected < procEntryLimit) {identity : Identity}
    (hnoted : noted entry = some identity) (hlt : c.items.length < identityLimit) :
    c.inspect entry =
      { c with items := c.items ++ [identity], inspected := c.inspected + 1, errno := false } := by
  unfold numeric at hnumeric
  have hinspected : ¬ procEntryLimit < c.inspected + 1 := by omega
  unfold inspect
  simp only [h.going, hnumeric, hinspected, not_true_eq_false, Bool.false_eq_true, if_false]
  obtain ⟨pid, hpid, hread⟩ := noted_eq_some.mp hnoted
  simp only [hpid, hlt.ne, if_false, hread, note]

/-- The identities that are retained: those of the entries within the limit on entries, up to
the limit on identities. -/
theorem foldl_inspect_items (entries : List ProcEntry) (h : c.Running) :
    (entries.foldl inspect c).items = c.items ++
      (((entries.filter numeric).take (procEntryLimit - c.inspected)).filterMap noted).take
        (identityLimit - c.items.length) := by
  induction entries generalizing c with
  | nil => simp
  | cons entry entries ih =>
    rw [List.foldl_cons]
    cases hnumeric : numeric entry with
    | false =>
      rw [inspect_not_numeric hnumeric, List.filter_cons_of_neg (by simp [hnumeric])]
      exact ih h
    | true =>
      rw [List.filter_cons_of_pos hnumeric]
      rcases h.inspected_le.eq_or_lt with hfull | hroom
      · obtain ⟨hitems, -, hstopped⟩ := inspect_full h hnumeric hfull
        rw [foldl_inspect_stopped _ hstopped, hitems, hfull]
        simp
      have htake : procEntryLimit - c.inspected = procEntryLimit - (c.inspected + 1) + 1 := by
        omega
      rw [htake, List.take_succ_cons]
      rcases h.length_le.eq_or_lt with hlimit | hlt
      · cases hpid : entryPid entry.name with
        | none =>
          have hnoted : noted entry = none := by simp [noted, hpid]
          obtain ⟨hitems, hinspected, hstopped⟩ := inspect_none h hnumeric hroom hnoted (.inl hpid)
          have hrunning : (c.inspect entry).Running :=
            ⟨hstopped, by rw [hinspected]; exact hroom, by rw [hitems]; exact h.length_le⟩
          rw [ih hrunning, hitems, hlimit]
          simp
        | some pid =>
          obtain ⟨hitems, -, hstopped⟩ := inspect_limit h hnumeric hroom (by simp [hpid]) hlimit
          rw [foldl_inspect_stopped _ hstopped, hitems, hlimit]
          simp
      cases hnoted : noted entry with
      | none =>
        obtain ⟨hitems, hinspected, hstopped⟩ := inspect_none h hnumeric hroom hnoted (.inr hlt)
        have hrunning : (c.inspect entry).Running :=
          ⟨hstopped, by rw [hinspected]; exact hroom, by rw [hitems]; exact h.length_le⟩
        rw [ih hrunning, hitems, hinspected, List.filterMap_cons_none hnoted]
      | some identity =>
        have hrunning : Running { c with
            items := c.items ++ [identity], inspected := c.inspected + 1, errno := false } :=
          ⟨h.going, hroom, by simpa using hlt⟩
        have hretain : identityLimit - c.items.length =
            identityLimit - (c.items.length + 1) + 1 := by omega
        rw [inspect_some h hnumeric hroom hnoted hlt, ih hrunning,
          List.filterMap_cons_some hnoted, hretain, List.take_succ_cons]
        simp

/-- A listing of more identities than are retained makes the scan uncertain. -/
theorem foldl_inspect_uncertain (entries : List ProcEntry) (h : c.Running)
    (hmany : identityLimit < c.items.length + ((entries.filter numeric).filterMap noted).length) :
    (entries.foldl inspect c).uncertain = true := by
  induction entries generalizing c with
  | nil => exact absurd h.length_le (by simpa using hmany)
  | cons entry entries ih =>
    rw [List.foldl_cons]
    cases hnumeric : numeric entry with
    | false =>
      rw [List.filter_cons_of_neg (by simp [hnumeric])] at hmany
      rw [inspect_not_numeric hnumeric]
      exact ih h hmany
    | true =>
      rw [List.filter_cons_of_pos hnumeric] at hmany
      rcases h.inspected_le.eq_or_lt with hfull | hroom
      · obtain ⟨-, huncertain, hstopped⟩ := inspect_full h hnumeric hfull
        rw [foldl_inspect_stopped _ hstopped, huncertain]
      have hnone : noted entry = none →
          (entryPid entry.name = none ∨ c.items.length < identityLimit) →
            ((entries.foldl inspect (c.inspect entry)).uncertain) = true := by
        intro hnoted hcontinues
        obtain ⟨hitems, hinspected, hstopped⟩ := inspect_none h hnumeric hroom hnoted hcontinues
        rw [List.filterMap_cons_none hnoted, ← hitems] at hmany
        exact ih ⟨hstopped, by rw [hinspected]; exact hroom, by rw [hitems]; exact h.length_le⟩
          hmany
      rcases h.length_le.eq_or_lt with hlimit | hlt
      · cases hpid : entryPid entry.name with
        | none => exact hnone (by simp [noted, hpid]) (.inl hpid)
        | some pid =>
          obtain ⟨-, huncertain, hstopped⟩ := inspect_limit h hnumeric hroom (by simp [hpid]) hlimit
          rw [foldl_inspect_stopped _ hstopped, huncertain]
      cases hnoted : noted entry with
      | none => exact hnone hnoted (.inr hlt)
      | some identity =>
        rw [inspect_some h hnumeric hroom hnoted hlt]
        refine ih ⟨h.going, hroom, by simpa using hlt⟩ ?_
        rw [List.filterMap_cons_some hnoted] at hmany
        simp only [List.length_append, List.length_cons, List.length_nil] at hmany ⊢
        omega

theorem running_initial : initial.Running := ⟨rfl, Nat.zero_le _, Nat.zero_le _⟩

end Collected

/-- What a scan retains was read from an entry. -/
theorem exists_noted {entries : List ProcEntry} {i : Identity}
    (h : i ∈ (entries.foldl Collected.inspect Collected.initial).items) :
    ∃ entry ∈ entries, noted entry = some i := by
  rw [Collected.foldl_inspect_items entries Collected.running_initial, Collected.initial,
    List.nil_append] at h
  obtain ⟨entry, hentry, hnoted⟩ := List.mem_filterMap.mp (List.mem_of_mem_take h)
  exact ⟨entry, (List.mem_filter.mp (List.mem_of_mem_take hentry)).1, hnoted⟩

/-- The entries that count, in a list of processes and of other names. -/
theorem filter_numeric {α β : Type} {entry : α → ProcEntry} {process? : α → Option β}
    {own : β → ProcEntry} {items : List α}
    (hprocess : ∀ a b, process? a = some b → entry a = own b ∧ numeric (own b) = true)
    (hother : ∀ a ∈ items, process? a = none → numeric (entry a) = false) :
    (items.map entry).filter numeric = (items.filterMap process?).map own := by
  induction items with
  | nil => rfl
  | cons a items ih =>
    have hrest := ih fun a h => hother a (List.mem_cons_of_mem _ h)
    rw [List.map_cons]
    cases hselect : process? a with
    | none =>
      have hnumeric := hother a List.mem_cons_self hselect
      rw [List.filter_cons_of_neg (by simp [hnumeric]), List.filterMap_cons_none hselect, hrest]
    | some b =>
      obtain ⟨hentry, hnumeric⟩ := hprocess a b hselect
      rw [List.filter_cons_of_pos (by rwa [hentry]), List.filterMap_cons_some hselect, hrest,
        List.map_cons, hentry]

theorem numeric_decimal (pid : ℕ) {hnulFree} (file : StatFile) :
    numeric ⟨⟨decimal pid, hnulFree⟩, file⟩ = true := by
  obtain ⟨b, text, hname, hb⟩ := head_decimal pid
  simp [numeric, hname, hb]

theorem entryPid_decimal {pid : ℕ} (h : 0 < pid ∧ pid ≤ intMax) {hnulFree} :
    entryPid ⟨decimal pid, hnulFree⟩ = some pid := by
  have hlong : pid ≤ longMax := h.2.trans (by decide)
  have hstrtol : strtol (decimal pid) = some ⟨pid, [], false⟩ := by
    simpa using @strtol_decimal [] pid hlong (by simp)
  have hrange : ¬ (false = true ∨ ([] : List UInt8) ≠ [] ∨ (pid : ℤ) ≤ 0 ∨
      (intMax : ℤ) < pid) := by
    simp only [Bool.false_eq_true, ne_eq, not_true_eq_false, false_or]
    omega
  simp only [entryPid, hstrtol, if_neg hrange, Int.toNat_natCast]

/-- The item with a key is found by it when the keys differ. -/
theorem find?_key {α : Type} {key : α → ℕ} {items : List α} (hnodup : (items.map key).Nodup)
    {a : α} (ha : a ∈ items) : items.find? (fun b => key b = key a) = some a := by
  cases hfind : items.find? (fun b => key b = key a) with
  | none => simpa using List.find?_eq_none.mp hfind a ha
  | some b =>
    have hkey : key b = key a := by simpa using List.find?_some hfind
    rw [List.inj_on_of_nodup_map hnodup (List.mem_of_find?_eq_some hfind) ha hkey]

end Agentwatch
