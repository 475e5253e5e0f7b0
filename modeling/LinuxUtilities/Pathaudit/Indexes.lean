import LinuxUtilities.Pathaudit.Record

/-! The hash indexes of the winner and shadow tables over whole runs of appends, with
every allocation granted or refused at will. -/
namespace Pathaudit
open CString LinearProbing

/-- What holds of the index of a buffer. The last field says that no stored position is
`SIZE_MAX`, the mark of an empty slot. -/
structure Buffer.Indexed {α : Type} (hash : α → ℕ) (b : Buffer α) : Prop where
  capacity : b.indexCap = 0 ∨ ∃ k, b.indexCap = 2 ^ k
  load : 2 * b.items.length ≤ b.indexCap
  slots : ∀ s < b.indexCap, slot b.indexSlots s = none ∨
    ∃ i < b.items.length, slot b.indexSlots s = some i
  once : ∀ i < b.items.length, ∃! s, s < b.indexCap ∧ slot b.indexSlots s = some i
  reachable : ∀ i (hi : i < b.items.length), ∃ d,
    slot b.indexSlots ((hash b.items[i] + d) % b.indexCap) = some i ∧
      ∀ e < d, slot b.indexSlots ((hash b.items[i] + e) % b.indexCap) ≠ none
  unmarked : ∀ s i, slot b.indexSlots s = some i → i < sizeMax

/-- What every append keeps of a buffer. -/
structure Buffer.Kept {α : Type} (hash : α → ℕ) (itemSize : ℕ) (b : Buffer α) : Prop where
  ok : b.Ok hash
  fits : b.items.length ≤ b.cap
  cap_le : b.cap ≤ sizeMax / itemSize

section Buffers
variable {α : Type} {hash : α → ℕ}

/-- The fuel of the doubling loop never decides its outcome. -/
theorem growCap_fuel {len fuel newCap : ℕ} (hle : newCap ≤ sizeMax)
    (hfuel : sizeMax < newCap * 2 ^ fuel) (more : ℕ) :
    growCap len (fuel + more) newCap = growCap len fuel newCap := by
  induction fuel generalizing newCap with
  | zero =>
    simp only [pow_zero, mul_one] at hfuel
    omega
  | succ fuel ih =>
    rw [Nat.add_right_comm]
    simp only [growCap]
    split
    · split
      · rfl
      · exact ih (by omega) (by rw [mul_assoc, ← pow_succ']; exact hfuel)
    · rfl

theorem Buffer.empty_kept (itemSize : ℕ) : (Buffer.empty : Buffer α).Kept hash itemSize :=
  ⟨Buffer.empty_ok, Nat.le_refl 0, Nat.zero_le _⟩

/-- One append ends, whatever its allocations do. It stores the item, or it leaves the
items and the slots alone. -/
theorem bufferAppend_kept {itemSize : ℕ} {b : Buffer α} (hb : b.Kept hash itemSize) (item : α)
    (allocs : AppendAllocs) :
    ∃ done b', bufferAppend hash itemSize b item allocs = some (done, b') ∧
      b'.Kept hash itemSize ∧ b'.items = (if done then b.items ++ [item] else b.items) ∧
      (done = false → b'.indexSlots = b.indexSlots) := by
  have hfits := hb.fits
  unfold bufferAppend
  extract_lets newCap grown
  split
  · exact ⟨false, b, rfl, hb, rfl, fun _ => rfl⟩
  next hroom =>
    have hgrown : b.items.length + 1 ≤ grown.cap ∧ grown.cap ≤ sizeMax / itemSize := by
      simp only [grown]
      split
      next hfull =>
        push Not at hroom
        obtain ⟨hlt, hle, -⟩ := hroom hfull
        exact ⟨by omega, hle⟩
      next hfull => exact ⟨by omega, hb.cap_le⟩
    have hkeep : b.items.length ≤ grown.cap := by omega
    rcases indexInsertTail_spec hb.ok item grown.cap allocs.slots with hf | ⟨slots, ht, hI⟩
    · exact ⟨false, ⟨b.items, grown.cap, b.indexSlots⟩,
        (congrArg (Option.map _) hf).trans rfl, ⟨hb.ok, hkeep, hgrown.2⟩, rfl, fun _ => rfl⟩
    · have hlen : (b.items ++ [item]).length = b.items.length + 1 := by simp
      exact ⟨true, ⟨b.items ++ [item], grown.cap, slots⟩, (congrArg (Option.map _) ht).trans rfl,
        ⟨.inr hI, by simp only [hlen]; exact hgrown.1, hgrown.2⟩, rfl, by simp⟩

theorem Buffer.Kept.indexed {itemSize : ℕ} {b : Buffer α} (hb : b.Kept hash itemSize)
    (hsize : 1 < itemSize) : b.Indexed hash := by
  have hlen : b.items.length ≤ sizeMax / itemSize := hb.fits.trans hb.cap_le
  have hlt : sizeMax / itemSize < sizeMax := Nat.div_lt_self (by decide) hsize
  rcases hb.ok with ⟨hnil, hitems⟩ | hI
  · have hslot (s : ℕ) : slot b.indexSlots s = none := by simp [hnil, slot]
    have hcap : b.indexCap = 0 := by simp [Buffer.indexCap, hnil]
    have hzero : b.items.length = 0 := by simp [hitems]
    refine ⟨.inl hcap, by omega, fun s _ => .inl (hslot s), fun i hi => by omega,
      fun i hi => by omega, fun s i hs => ?_⟩
    rw [hslot] at hs
    contradiction
  · have hcap : b.indexCap = b.indexSlots.length := rfl
    have hpos := hI.length_pos
    refine ⟨.inr hI.pow, hI.load, fun s _ => ?_, fun i hi => ?_, fun i hi => ?_, fun s i hs => ?_⟩
    · cases hs : slot b.indexSlots s with
      | none => exact .inl rfl
      | some i => exact .inr ⟨i, hI.bound s i hs, rfl⟩
    · obtain ⟨d, hd, -⟩ := hI.stored i hi
      refine ⟨_, ⟨Nat.mod_lt _ hpos, hd⟩, ?_⟩
      rintro t ⟨ht, hti⟩
      exact hI.unique t _ i ht (Nat.mod_lt _ hpos) hti hd
    · have hat : Buffer.hashAt hash b.items i = hash b.items[i] := by
        rw [Buffer.hashAt, List.getElem?_eq_getElem hi, Option.elim_some]
      obtain ⟨d, hd⟩ := hI.stored i hi
      rw [hat] at hd
      exact ⟨d, hd⟩
    · have := hI.bound s i hs
      omega

end Buffers

/-- One call of `winners_append` or `shadows_append`, with its allocations. -/
inductive AppendCall
  | winners (command path : CStr) (allocs : AppendAllocs)
  | shadows (command winner shadow : CStr) (shadowIndex : ℕ) (allocs : AppendAllocs)

def AppendCall.run (h : Hashes) (t : Tables) : AppendCall → Option (Bool × Tables)
  | .winners command path allocs =>
    (winnersAppend h t.winners command path allocs).map fun r =>
      (r.1, { t with winners := r.2 })
  | .shadows command winner shadow shadowIndex allocs =>
    (shadowsAppend h t.shadows command winner shadow shadowIndex allocs).map fun r =>
      (r.1, { t with shadows := r.2 })

/-- A run of calls. They go on after a failed one, and `none` is a probe loop of one of
them that never ends. -/
def runAppends (h : Hashes) : List AppendCall → Tables → Option Tables
  | [], t => some t
  | call :: calls, t => do
    let r ← call.run h t
    runAppends h calls r.2

/-- The stored items of the two tables. -/
def Tables.contents (t : Tables) : List WinnerEntry × List ShadowRecord :=
  (t.winners.items, t.shadows.items)

/-- The contents with the item of a call. -/
def AppendCall.store (c : List WinnerEntry × List ShadowRecord) :
    AppendCall → List WinnerEntry × List ShadowRecord
  | .winners command path _ => (c.1 ++ [⟨command, path⟩], c.2)
  | .shadows command winner shadow shadowIndex _ =>
    (c.1, c.2 ++ [⟨command, winner, shadow, shadowIndex⟩])

structure Tables.Kept (h : Hashes) (t : Tables) : Prop where
  winners : t.winners.Kept (fun e => h.commandBytes e.command) 16
  shadows : t.shadows.Kept (fun r => h.commandShadowPair r.command r.shadow) 32

/-- Both indexes are in order. -/
structure Tables.Indexed (h : Hashes) (t : Tables) : Prop where
  winners : t.winners.Indexed fun e => h.commandBytes e.command
  shadows : t.shadows.Indexed fun r => h.commandShadowPair r.command r.shadow

/-- Every lookup ends, and it finds exactly the stored keys. -/
structure Tables.Searchable (h : Hashes) (t : Tables) : Prop where
  winners : ∀ command, ∃ found, winnersFind h t.winners command = some found ∧
    (found.isSome ↔ ∃ e ∈ t.winners.items, e.command = command) ∧
    ∀ e, found = some e → e ∈ t.winners.items ∧ e.command = command
  shadows : ∀ command winner shadow,
    ∃ found, shadowTupleRecorded h t.shadows command winner shadow = some found ∧
      (found = true ↔
        ∃ r ∈ t.shadows.items, r.command = command ∧ r.shadow = shadow ∧ r.winner = winner)

/-- Two states of the tables that no lookup tells apart. -/
def Tables.SameLookups (h : Hashes) (t t' : Tables) : Prop :=
  (∀ command, winnersFind h t'.winners command = winnersFind h t.winners command) ∧
    ∀ command winner shadow, shadowTupleRecorded h t'.shadows command winner shadow =
      shadowTupleRecorded h t.shadows command winner shadow

section Runs
variable {h : Hashes}

theorem Tables.empty_kept : Tables.empty.Kept h :=
  ⟨Buffer.empty_kept 16, Buffer.empty_kept 32⟩

theorem Tables.Kept.indexed {t : Tables} (ht : t.Kept h) : t.Indexed h :=
  ⟨ht.winners.indexed (by decide), ht.shadows.indexed (by decide)⟩

theorem Tables.Kept.searchable {t : Tables} (ht : t.Kept h) : t.Searchable h := by
  refine ⟨fun command => ?_, shadowTupleRecorded_spec ht.shadows.ok⟩
  rcases winnersFind_spec ht.winners.ok command with ⟨hfind, hnone⟩ | ⟨e, he, hfind, hkey⟩
  · refine ⟨none, hfind, ?_, by simp⟩
    simp only [Option.isSome_none, Bool.false_eq_true, false_iff]
    rintro ⟨e, he, hkey⟩
    exact hnone e he hkey
  · refine ⟨some e, hfind, ?_, ?_⟩
    · simp only [Option.isSome_some, true_iff]
      exact ⟨e, he, hkey⟩
    · rintro e' he'
      obtain rfl := Option.some.inj he'
      exact ⟨he, hkey⟩

/-- A lookup reads the items and the slots only. -/
theorem winnersFind_congr {b b' : Buffer WinnerEntry} (hitems : b'.items = b.items)
    (hslots : b'.indexSlots = b.indexSlots) (command : CStr) :
    winnersFind h b' command = winnersFind h b command := by
  rw [winnersFind, winnersFind, Buffer.indexCap, Buffer.indexCap, hitems, hslots]

theorem shadowTupleRecorded_congr {b b' : Buffer ShadowRecord} (hitems : b'.items = b.items)
    (hslots : b'.indexSlots = b.indexSlots) (command winner shadow : CStr) :
    shadowTupleRecorded h b' command winner shadow =
      shadowTupleRecorded h b command winner shadow := by
  rw [shadowTupleRecorded, shadowTupleRecorded, Buffer.indexCap, Buffer.indexCap, hitems, hslots]

/-- The step: one call keeps the tables, and it stores its item or changes no lookup. -/
theorem AppendCall.run_kept {t : Tables} (ht : t.Kept h) (call : AppendCall) :
    ∃ done t', call.run h t = some (done, t') ∧ t'.Kept h ∧
      t'.contents = (if done then call.store t.contents else t.contents) ∧
      (done = false → t.SameLookups h t') := by
  cases call with
  | winners command path allocs =>
    obtain ⟨done, b', hrun, hb, hitems, hslots⟩ :=
      bufferAppend_kept ht.winners ⟨command, path⟩ allocs
    refine ⟨done, { t with winners := b' }, ?_, ⟨hb, ht.shadows⟩, ?_, ?_⟩
    · rw [AppendCall.run, winnersAppend, hrun, Option.map_some]
    · cases done <;> simpa [Tables.contents, AppendCall.store] using hitems
    · rintro rfl
      exact ⟨winnersFind_congr (by simpa using hitems) (hslots rfl), fun _ _ _ => rfl⟩
  | shadows command winner shadow shadowIndex allocs =>
    obtain ⟨done, b', hrun, hb, hitems, hslots⟩ :=
      bufferAppend_kept ht.shadows ⟨command, winner, shadow, shadowIndex⟩ allocs
    refine ⟨done, { t with shadows := b' }, ?_, ⟨ht.winners, hb⟩, ?_, ?_⟩
    · rw [AppendCall.run, shadowsAppend, hrun, Option.map_some]
    · cases done <;> simpa [Tables.contents, AppendCall.store] using hitems
    · rintro rfl
      exact ⟨fun _ => rfl, shadowTupleRecorded_congr (by simpa using hitems) (hslots rfl)⟩

theorem runAppends_kept (calls : List AppendCall) {t : Tables} (ht : t.Kept h) :
    ∃ t', runAppends h calls t = some t' ∧ t'.Kept h := by
  induction calls generalizing t with
  | nil => exact ⟨t, rfl, ht⟩
  | cons call calls ih =>
    obtain ⟨done, t₁, hrun, ht₁, -⟩ := call.run_kept ht
    obtain ⟨t', hrest, ht'⟩ := ih ht₁
    exact ⟨t', by rw [runAppends, hrun, Option.bind_eq_bind, Option.bind_some, hrest], ht'⟩

end Runs

/-- After any calls with any allocations both indexes are in order, every lookup ends and
finds exactly the stored keys, and one more call stores its item or changes no lookup. -/
theorem appends_indexed (h : Hashes) (calls : List AppendCall) :
    ∃ t, runAppends h calls .empty = some t ∧ t.Indexed h ∧ t.Searchable h ∧
      ∀ call : AppendCall, ∃ done t', call.run h t = some (done, t') ∧
        t'.contents = (if done then call.store t.contents else t.contents) ∧
        (done = false → t.SameLookups h t') := by
  obtain ⟨t, hrun, ht⟩ := runAppends_kept calls (Tables.empty_kept (h := h))
  refine ⟨t, hrun, ht.indexed, ht.searchable, fun call => ?_⟩
  obtain ⟨done, t', hcall, -, hcontents, hsame⟩ := call.run_kept ht
  exact ⟨done, t', hcall, hcontents, hsame⟩

end Pathaudit
