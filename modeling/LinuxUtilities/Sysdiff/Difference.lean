import LinuxUtilities.Foundation.MapDifference
import LinuxUtilities.Sysdiff.Emit
import LinuxUtilities.Sysdiff.Parse

/-! `compare_snapshots` prints the difference of the two maps, whatever the order of the
lines. -/
namespace Sysdiff
open CString MapDifference

/-- Every allocation and every write to standard output to come succeeds. -/
structure Proc.Healthy (p : Proc) : Prop where
  allocs : Granted p.allocs
  outs : ∀ o ∈ p.outs, o = none

theorem Quiet.healthy {p p' : Proc} (hq : Quiet p p') (h : p.Healthy) : p'.Healthy :=
  ⟨hq.allocs, hq.outs ▸ h.outs⟩

/-- The text was put on standard output. -/
structure Wrote (p p' : Proc) (text : List UInt8) : Prop where
  healthy : p'.Healthy
  stdout : p'.stdout = p.stdout ++ text

/-- An action that puts a text when nothing fails. -/
def Puts (action : Proc → Except (Errno × Proc) Proc) (text : List UInt8) : Prop :=
  ∀ p, p.Healthy → ∃ p', action p = .ok p' ∧ Wrote p p' text

theorem Puts.bind {first next : Proc → Except (Errno × Proc) Proc} {s t : List UInt8}
    (h : Puts first s) (h' : Puts next t) : Puts (fun p => first p >>= next) (s ++ t) := by
  intro p hp
  obtain ⟨p', heq, hw⟩ := h p hp
  obtain ⟨p'', heq', hw'⟩ := h' p' hw.healthy
  refine ⟨p'', ?_, hw'.healthy, ?_⟩
  · simp only [heq]
    exact heq'
  · rw [hw'.stdout, hw.stdout, List.append_assoc]

theorem fputs_puts (text : List UInt8) : Puts (fputs text) text := by
  intro p hp
  have hhead : p.outs.head?.join = none := by
    cases ho : p.outs with
    | nil => rfl
    | cons o rest => simp [hp.outs o (by simp [ho])]
  unfold fputs
  rw [hhead]
  exact ⟨_, rfl, ⟨hp.allocs, fun o ho => hp.outs o (List.mem_of_mem_tail ho)⟩, rfl⟩

theorem pieces_puts (pieces : List (List UInt8)) :
    Puts (fun p => pieces.foldlM (fun p piece => fputs piece p) p) pieces.flatten := by
  induction pieces with
  | nil =>
    intro p hp
    exact ⟨p, rfl, hp, by simp⟩
  | cons piece pieces ih =>
    simp only [List.foldlM_cons, List.flatten_cons]
    exact (fputs_puts piece).bind ih

/-- The text of a value in an output line. -/
def renderValue (value : CStr) : List UInt8 := (escapedValue value.bytes).flatten

/-- The output line of a delta. -/
def renderDelta : Delta CStr CStr → List UInt8
  | .added key value =>
    ascii "+ " ++ (key.bytes ++ (ascii "=" ++ (renderValue value ++ ascii "\n")))
  | .removed key value =>
    ascii "- " ++ (key.bytes ++ (ascii "=" ++ (renderValue value ++ ascii "\n")))
  | .changed key old new =>
    ascii "~ " ++ (key.bytes ++ (ascii ": " ++ (renderValue old ++ (ascii " -> " ++
      (renderValue new ++ ascii "\n")))))

theorem putEscapedValue_puts (value : CStr) : Puts (putEscapedValue value) (renderValue value) :=
  pieces_puts _

theorem emitAdded_puts (key value : CStr) :
    Puts (emitAdded key value) (renderDelta (.added key value)) :=
  (fputs_puts _).bind ((fputs_puts _).bind ((fputs_puts _).bind
    ((putEscapedValue_puts value).bind (fputs_puts _))))

theorem emitRemoved_puts (key value : CStr) :
    Puts (emitRemoved key value) (renderDelta (.removed key value)) :=
  (fputs_puts _).bind ((fputs_puts _).bind ((fputs_puts _).bind
    ((putEscapedValue_puts value).bind (fputs_puts _))))

theorem emitChanged_puts (key old new : CStr) :
    Puts (emitChanged key old new) (renderDelta (.changed key old new)) :=
  (fputs_puts _).bind ((fputs_puts _).bind ((fputs_puts _).bind
    ((putEscapedValue_puts old).bind ((fputs_puts _).bind
      ((putEscapedValue_puts new).bind (fputs_puts _))))))

/-- The pairs of the entries. -/
def entryPairs (items : List Entry) : List (CStr × CStr) := items.map fun e => (e.key, e.value)

@[simp] theorem entryPairs_nil : entryPairs [] = [] := rfl

@[simp] theorem entryPairs_cons (e : Entry) (items : List Entry) :
    entryPairs (e :: items) = (e.key, e.value) :: entryPairs items := rfl

/-- What is left of the loop after one line: it goes on with its flag set. -/
theorem loop_after {action : Proc → Except (Errno × Proc) Proc}
    {loop : Proc → Except (Errno × Proc) (Bool × Proc)}
    {changed : Bool} {d : Delta CStr CStr} {ds : List (Delta CStr CStr)} {p : Proc}
    (h : Puts action (renderDelta d)) (hp : p.Healthy)
    (ih : ∀ p, p.Healthy → ∃ p', loop p = .ok (true || !ds.isEmpty, p') ∧
      Wrote p p' (ds.flatMap renderDelta)) :
    ∃ p', (action p >>= loop) = .ok (changed || !(d :: ds).isEmpty, p') ∧
      Wrote p p' ((d :: ds).flatMap renderDelta) := by
  obtain ⟨p₁, heq, hw⟩ := h p hp
  obtain ⟨p₂, heq', hw'⟩ := ih p₁ hw.healthy
  refine ⟨p₂, ?_, hw'.healthy, ?_⟩
  · rw [heq]
    simp only [List.isEmpty_cons, Bool.not_false, Bool.or_true]
    rw [Bool.true_or] at heq'
    exact heq'
  · rw [hw'.stdout, hw.stdout, List.flatMap_cons, List.append_assoc]

/-- The loop of `emit_diff` prints the difference and tells whether there is any. -/
theorem emitDiffLoop_spec (before after : List Entry) (changed : Bool) (p : Proc) (hp : p.Healthy) :
    let ds := diff (entryPairs before) (entryPairs after)
    ∃ p', emitDiffLoop before after changed p = .ok (changed || !ds.isEmpty, p') ∧
      Wrote p p' (ds.flatMap renderDelta) := by
  induction before, after, changed, p using emitDiffLoop.induct with
  | case1 changed p =>
    refine ⟨p, ?_, hp, ?_⟩
    · simp [emitDiffLoop, diff]
    · simp [diff]
  | case2 a after changed p ih =>
    rw [emitDiffLoop, entryPairs_cons, entryPairs_nil, diff]
    exact loop_after (emitAdded_puts a.key a.value) hp ih
  | case3 b before changed p ih =>
    rw [emitDiffLoop, entryPairs_cons, entryPairs_nil, diff]
    exact loop_after (emitRemoved_puts b.key b.value) hp ih
  | case4 b before a after changed p cmp hcmp hvalue ih =>
    have hkey : b.key = a.key := strcmp_eq_zero.mp hcmp
    have hne : b.value ≠ a.value := fun h => hvalue (strcmp_eq_zero.mpr h)
    rw [emitDiffLoop, entryPairs_cons, entryPairs_cons, diff, if_pos hkey, if_neg hne]
    simp only [show strcmp b.key.bytes a.key.bytes = 0 from hcmp, ↓reduceIte]
    rw [if_pos hvalue]
    exact loop_after (emitChanged_puts b.key b.value a.value) hp ih
  | case5 b before a after changed p cmp hcmp hvalue ih =>
    have hkey : b.key = a.key := strcmp_eq_zero.mp hcmp
    have heq : b.value = a.value := strcmp_eq_zero.mp (not_not.mp hvalue)
    rw [emitDiffLoop, entryPairs_cons, entryPairs_cons, diff, if_pos hkey, if_pos heq]
    simp only [show strcmp b.key.bytes a.key.bytes = 0 from hcmp, ↓reduceIte]
    rw [if_neg hvalue]
    exact ih hp
  | case6 b before a after changed p cmp hcmp hlt ih =>
    have hkey : b.key ≠ a.key := fun h => hcmp (strcmp_eq_zero.mpr h)
    rw [emitDiffLoop, entryPairs_cons, entryPairs_cons, diff, if_neg hkey,
      if_pos (strcmp_neg.mp hlt)]
    simp only [show ¬ strcmp b.key.bytes a.key.bytes = 0 from hcmp,
      show strcmp b.key.bytes a.key.bytes < 0 from hlt, ↓reduceIte]
    exact loop_after (emitRemoved_puts b.key b.value) hp ih
  | case7 b before a after changed p cmp hcmp hlt ih =>
    have hkey : b.key ≠ a.key := fun h => hcmp (strcmp_eq_zero.mpr h)
    rw [emitDiffLoop, entryPairs_cons, entryPairs_cons, diff, if_neg hkey,
      if_neg fun h => hlt (strcmp_neg.mpr h)]
    simp only [show ¬ strcmp b.key.bytes a.key.bytes = 0 from hcmp,
      show ¬ strcmp b.key.bytes a.key.bytes < 0 from hlt, ↓reduceIte]
    exact loop_after (emitAdded_puts a.key a.value) hp ih

/-- The text of a comparison with these differences. -/
def compareOutput (ds : List (Delta CStr CStr)) : List UInt8 :=
  if ds = [] then ascii "no changes\n" else ds.flatMap renderDelta

/-- `emit_diff` prints the difference and tells by its status whether there is any. -/
theorem emitDiff_spec (before after : Snapshot) {p : Proc} (hp : p.Healthy) :
    let ds := diff (entryPairs before.items) (entryPairs after.items)
    (emitDiff before after p).1 = (if ds = [] then 0 else 1) ∧
      (emitDiff before after p).2.stdout = p.stdout ++ compareOutput ds := by
  obtain ⟨p₁, hloop, hw₁⟩ := emitDiffLoop_spec before.items after.items false p hp
  -- completing standard output adds nothing to it
  have hcomplete : ∀ (status : ℕ) (p : Proc), p.Healthy →
      (completeStdout status p).1 = status ∧ (completeStdout status p).2.stdout = p.stdout := by
    intro status p hp
    obtain ⟨p', heq, hw⟩ := fputs_puts [] p hp
    unfold completeStdout
    rw [heq]
    exact ⟨rfl, by simpa using hw.stdout⟩
  unfold emitDiff compareOutput
  rw [hloop]
  generalize diff (entryPairs before.items) (entryPairs after.items) = ds at hw₁ ⊢
  cases ds with
  | nil =>
    obtain ⟨p₂, hputs, hw₂⟩ := fputs_puts (ascii "no changes\n") p₁ hw₁.healthy
    obtain ⟨hstatus, hstdout⟩ := hcomplete 0 p₂ hw₂.healthy
    simp only [List.isEmpty_nil, Bool.not_true, Bool.or_false, hputs, ↓reduceIte]
    refine ⟨hstatus, ?_⟩
    rw [hstdout, hw₂.stdout, hw₁.stdout]
    simp
  | cons d ds =>
    obtain ⟨hstatus, hstdout⟩ := hcomplete 1 p₁ hw₁.healthy
    simp only [List.isEmpty_cons, Bool.not_false, Bool.or_true, reduceCtorEq, ↓reduceIte]
    exact ⟨hstatus, hstdout.trans hw₁.stdout⟩

/-- What a comparison of two streams is to print and return. -/
structure Compared (before after : List UInt8) (status : ℕ) (out : List UInt8) : Prop where
  invalid : ¬ (Format1 before ∧ Format1 after) → status = 2 ∧ out = []
  valid : Format1 before → Format1 after → ∃ ds,
    IsDifference (snapshotMap before) (snapshotMap after) ds ∧
      status = (if ds = [] then 0 else 1) ∧ out = compareOutput ds

/-- The outcome depends on the two maps only. -/
theorem Compared.unique {before after before' after' : List UInt8} {status status' : ℕ}
    {out out' : List UInt8} (h : Compared before after status out)
    (h' : Compared before' after' status' out')
    (hb : (Format1 before' ↔ Format1 before) ∧ snapshotMap before' = snapshotMap before)
    (ha : (Format1 after' ↔ Format1 after) ∧ snapshotMap after' = snapshotMap after) :
    status' = status ∧ out' = out := by
  by_cases hvalid : Format1 before ∧ Format1 after
  · obtain ⟨ds, hds, hstatus, hout⟩ := h.valid hvalid.1 hvalid.2
    obtain ⟨ds', hds', hstatus', hout'⟩ := h'.valid (hb.1.mpr hvalid.1) (ha.1.mpr hvalid.2)
    rw [hb.2, ha.2] at hds'
    obtain rfl := hds.unique hds'
    exact ⟨hstatus'.trans hstatus.symm, hout'.trans hout.symm⟩
  · obtain ⟨hstatus, hout⟩ := h.invalid hvalid
    obtain ⟨hstatus', hout'⟩ := h'.invalid (by rwa [hb.1, ha.1])
    exact ⟨hstatus'.trans hstatus.symm, hout'.trans hout.symm⟩

theorem sorted_entryPairs {items : List Entry} (h : items.Pairwise fun a b => a.key < b.key) :
    Sorted (entryPairs items) :=
  List.pairwise_map.mpr h

theorem pairs_entryPairs {items : List Entry} {m : Set (CStr × CStr)}
    (h : ∀ e, e ∈ items ↔ (e.key, e.value) ∈ m) : pairs (entryPairs items) = m := by
  ext ⟨key, value⟩
  rw [mem_pairs, entryPairs, List.mem_map]
  constructor
  · rintro ⟨e, he, hpair⟩
    rw [← hpair]
    exact (h e).mp he
  · intro hm
    exact ⟨⟨key, value⟩, (h ⟨key, value⟩).mpr hm, rfl⟩

/-- `compare_snapshots` on two streams that can be read to their ends. -/
theorem compareSnapshots_compared (q : QSort compareEntriesByKey) (beforePath afterPath : CStr)
    (before after : List UInt8) {p : Proc} (hp : p.Healthy) :
    ∃ out, (compareSnapshots q beforePath afterPath (.ok ⟨before, false, none⟩)
        (.ok ⟨after, false, none⟩) p).2.stdout = p.stdout ++ out ∧
      Compared before after (compareSnapshots q beforePath afterPath (.ok ⟨before, false, none⟩)
        (.ok ⟨after, false, none⟩) p).1 out := by
  unfold compareSnapshots
  by_cases hb : Format1 before
  · obtain ⟨s, p₁, heq, hsorted, hmem, hq⟩ := parseSnapshot_format1 q beforePath hp.allocs hb
    rw [heq]
    have hp₁ := hq.healthy hp
    by_cases ha : Format1 after
    · obtain ⟨s', p₂, heq', hsorted', hmem', hq'⟩ := parseSnapshot_format1 q afterPath hp₁.allocs ha
      have hp₂ := hq'.healthy hp₁
      obtain ⟨hstatus, hstdout⟩ := emitDiff_spec s s' hp₂
      simp only [heq', ne_eq, not_true_eq_false, ↓reduceIte]
      refine ⟨_, ?_, fun hno => absurd ⟨hb, ha⟩ hno, fun _ _ => ⟨_, ?_, hstatus, rfl⟩⟩
      · rw [hstdout, hq'.stdout, hq.stdout]
      · rw [← pairs_entryPairs hmem, ← pairs_entryPairs hmem']
        exact diff_isDifference (sorted_entryPairs hsorted) (sorted_entryPairs hsorted')
    · obtain ⟨p₂, heq', hq'⟩ := parseSnapshot_invalid q afterPath hp₁.allocs ha
      simp only [heq', ne_eq, not_true_eq_false, ↓reduceIte, OfNat.ofNat_ne_zero,
        not_false_eq_true]
      refine ⟨[], ?_, fun _ => ⟨rfl, rfl⟩, fun _ h => absurd h ha⟩
      rw [hq'.stdout, hq.stdout, List.append_nil]
  · obtain ⟨p₁, heq, hq⟩ := parseSnapshot_invalid q beforePath hp.allocs hb
    rw [heq]
    simp only [ne_eq, ↓reduceIte, OfNat.ofNat_ne_zero, not_false_eq_true]
    refine ⟨[], ?_, fun _ => ⟨rfl, rfl⟩, fun h _ => absurd h hb⟩
    rw [hq.stdout, List.append_nil]

/-- A line that may be put anywhere: blank or a comment, within the limits. -/
structure Filler (line : List UInt8) : Prop where
  kind : Blank line ∨ Comment line
  length : line.length ≤ maxLineBytes
  nulFree : (0 : UInt8) ∉ line

/-- The second stream has the LF-terminated lines of the first in some order, with blank
and comment lines put between them, and within the limit on its size if the first was. A
last line without LF stays last; where there was none, a filler line may come last. -/
structure Rearranged (bytes bytes' : List UInt8) : Prop where
  lines : ∃ lines fillers lines' last last', bytes = Lines.join 10 lines last ∧
    bytes' = Lines.join 10 lines' last' ∧ lines'.Perm (lines ++ fillers) ∧
    (∀ line ∈ lines, 10 ∉ line) ∧ (∀ line ∈ fillers, 10 ∉ line ∧ Filler (dropCr line)) ∧
    10 ∉ last ∧ 10 ∉ last' ∧ (last' = last ∨ last = [] ∧ Filler last')
  size : bytes.length ≤ maxSnapshotBytes → bytes'.length ≤ maxSnapshotBytes

theorem mem_dropCr_of_ne {line : List UInt8} {ch : UInt8} (h : ch ∈ line) (hne : ch ≠ 13) :
    ch ∈ dropCr line := by
  unfold dropCr
  split
  next hlast =>
    obtain ⟨init, rfl⟩ := List.getLast?_eq_some_iff.mp hlast
    simpa [hne] using h
  next => exact h

theorem Filler.not_record {line : List UInt8} (h : Filler line) {pair : CStr × CStr} :
    ¬ (ValidKey pair.1.bytes ∧ line = pair.1.bytes ++ 61 :: pair.2.bytes) := by
  intro hrecord
  have hsome := (recordOf_eq_some h.nulFree (e := ⟨pair.1, pair.2⟩)).mpr hrecord
  rw [recordOf_eq_none h.kind] at hsome
  contradiction

/-- The contents of a rearranged stream are those of the first and fillers. -/
theorem Rearranged.snapshotLines_perm {bytes bytes' : List UInt8} (h : Rearranged bytes bytes') :
    ∃ added, (snapshotLines bytes').Perm (snapshotLines bytes ++ added) ∧
      ∀ line ∈ added, Filler line := by
  obtain ⟨lines, fillers, lines', last, last', rfl, rfl, hperm, hlines, hfillers, hlast, hlast',
    htail⟩ := h.lines
  have hlines' : ∀ line ∈ lines', 10 ∉ line := by
    intro line hline
    obtain hold | hnew := List.mem_append.mp (hperm.mem_iff.mp hline)
    · exact hlines line hold
    · exact (hfillers line hnew).1
  have hsplit := Lines.split_join 10 hlines hlast
  have hsplit' := Lines.split_join 10 hlines' hlast'
  rw [snapshotLines, snapshotLines, hsplit, hsplit']
  have hmap : (lines'.map dropCr).Perm (lines.map dropCr ++ fillers.map dropCr) := by
    rw [← List.map_append]
    exact hperm.map dropCr
  have hmapped : ∀ line ∈ fillers.map dropCr, Filler line := by
    intro line hline
    obtain ⟨raw, hraw, rfl⟩ := List.mem_map.mp hline
    exact (hfillers raw hraw).2
  unfold contents
  obtain rfl | ⟨rfl, hfiller⟩ := htail
  · refine ⟨fillers.map dropCr, (hmap.append_right _).trans ?_, hmapped⟩
    rw [List.append_assoc, List.append_assoc]
    exact List.perm_append_comm.append_left _
  · refine ⟨fillers.map dropCr ++ if last' = [] then [] else [last'], ?_, ?_⟩
    · simpa only [List.append_assoc, ↓reduceIte, List.append_nil] using hmap.append_right _
    · intro line hline
      obtain hline | hline := List.mem_append.mp hline
      · exact hmapped line hline
      · split at hline
        · simp at hline
        · rwa [List.mem_singleton.mp hline]

/-- The limits on a stream as a whole do not see a rearrangement. -/
theorem Rearranged.stream {bytes bytes' : List UInt8} (h : Rearranged bytes bytes') :
    (bytes'.length ≤ maxSnapshotBytes ↔ bytes.length ≤ maxSnapshotBytes) ∧
      (0 ∈ bytes' ↔ 0 ∈ bytes) := by
  have hsize := h.size
  obtain ⟨lines, fillers, lines', last, last', rfl, rfl, hperm, -, hfillers, -, -, htail⟩ := h.lines
  constructor
  · refine ⟨fun hle => le_trans ?_ hle, hsize⟩
    rw [Lines.length_join_perm 10 hperm, Lines.join, Lines.join, List.flatMap_append]
    simp only [List.length_append]
    have hlast : last.length ≤ last'.length := by
      obtain rfl | ⟨rfl, -⟩ := htail
      · exact le_rfl
      · exact Nat.zero_le _
    omega
  · rw [Lines.mem_join 10 (by decide), Lines.mem_join 10 (by decide)]
    have hfill : ∀ line ∈ fillers, (0 : UInt8) ∉ line := fun line hline hzero =>
      (hfillers line hline).2.nulFree (mem_dropCr_of_ne hzero (by decide))
    have hlines : (∃ line ∈ lines', (0 : UInt8) ∈ line) ↔ ∃ line ∈ lines, (0 : UInt8) ∈ line := by
      constructor
      · rintro ⟨line, hline, hzero⟩
        obtain hold | hnew := List.mem_append.mp (hperm.mem_iff.mp hline)
        · exact ⟨line, hold, hzero⟩
        · exact absurd hzero (hfill line hnew)
      · rintro ⟨line, hline, hzero⟩
        exact ⟨line, hperm.mem_iff.mpr (List.mem_append_left _ hline), hzero⟩
    rw [hlines]
    obtain rfl | ⟨rfl, hfiller⟩ := htail
    · exact Iff.rfl
    · simp [hfiller.nulFree]

/-- A rearranged stream is a snapshot if the first is, with the same map. -/
theorem Rearranged.same {bytes bytes' : List UInt8} (h : Rearranged bytes bytes') :
    (Format1 bytes' ↔ Format1 bytes) ∧ snapshotMap bytes' = snapshotMap bytes := by
  obtain ⟨hsize, hnul⟩ := h.stream
  obtain ⟨added, hperm, hadded⟩ := h.snapshotLines_perm
  have hrecords : (records bytes').Perm (records bytes) := by
    have hnone : added.filterMap recordOf = [] := by
      rw [List.filterMap_eq_nil_iff]
      exact fun line hline => recordOf_eq_none (hadded line hline).kind
    have hfilter := hperm.filterMap recordOf
    rwa [List.filterMap_append, hnone, List.append_nil] at hfilter
  have hforall : ∀ {good : List UInt8 → Prop}, (∀ line, Filler line → good line) →
      ((∀ line ∈ snapshotLines bytes', good line) ↔ ∀ line ∈ snapshotLines bytes, good line) := by
    intro good hgood
    constructor
    · intro hall line hline
      exact hall line (hperm.mem_iff.mpr (List.mem_append_left _ hline))
    · intro hall line hline
      obtain hold | hnew := List.mem_append.mp (hperm.mem_iff.mp hline)
      · exact hall line hold
      · exact hgood line (hadded line hnew)
  constructor
  · have hlength := hforall fun line (hf : Filler line) => hf.length
    have hkind := hforall fun line (hf : Filler line) =>
      (Or.elim hf.kind .inl fun hc => .inr (.inl hc) : LineKind line)
    have hcount := hrecords.length_eq
    have hkeys := (hrecords.map Entry.key).nodup_iff
    constructor
    · rintro ⟨h₁, h₂, h₃, h₄, h₅, h₆⟩
      exact ⟨hsize.mp h₁, mt hnul.mpr h₂, hlength.mp h₃, hkind.mp h₄, hcount ▸ h₅, hkeys.mp h₆⟩
    · rintro ⟨h₁, h₂, h₃, h₄, h₅, h₆⟩
      exact ⟨hsize.mpr h₁, mt hnul.mp h₂, hlength.mpr h₃, hkind.mpr h₄, hcount.symm ▸ h₅,
        hkeys.mpr h₆⟩
  · ext pair
    constructor
    · rintro ⟨line, hline, hrecord⟩
      obtain hold | hnew := List.mem_append.mp (hperm.mem_iff.mp hline)
      · exact ⟨line, hold, hrecord⟩
      · exact absurd hrecord (hadded line hnew).not_record
    · rintro ⟨line, hline, hrecord⟩
      exact ⟨line, hperm.mem_iff.mpr (List.mem_append_left _ hline), hrecord⟩

/-- `compare_snapshots` refuses what is no snapshot, prints the difference of the two maps
otherwise, and gives the same for rearranged streams, also under another sort. -/
theorem compareSnapshots_spec (q : QSort compareEntriesByKey) (beforePath afterPath : CStr)
    (before after : List UInt8) (p : Proc) (hp : p.Healthy) :
    let result := compareSnapshots q beforePath afterPath (.ok ⟨before, false, none⟩)
      (.ok ⟨after, false, none⟩) p
    ∃ out, result.2.stdout = p.stdout ++ out ∧ Compared before after result.1 out ∧
      ∀ (q' : QSort compareEntriesByKey) (beforePath' afterPath' : CStr)
        (before' after' : List UInt8) (p' : Proc), p'.Healthy →
        Rearranged before before' → Rearranged after after' →
        let result' := compareSnapshots q' beforePath' afterPath' (.ok ⟨before', false, none⟩)
          (.ok ⟨after', false, none⟩) p'
        result'.1 = result.1 ∧ result'.2.stdout = p'.stdout ++ out := by
  intro result
  obtain ⟨out, hstdout, hcompared⟩ :=
    compareSnapshots_compared q beforePath afterPath before after hp
  refine ⟨out, hstdout, hcompared, ?_⟩
  intro q' beforePath' afterPath' before' after' p' hp' hbefore hafter result'
  obtain ⟨out', hstdout', hcompared'⟩ :=
    compareSnapshots_compared q' beforePath' afterPath' before' after' hp'
  obtain ⟨hstatus, rfl⟩ := hcompared.unique hcompared' hbefore.same hafter.same
  exact ⟨hstatus, hstdout'⟩

/-- Two entries swapped under a comment compare the same. -/
theorem compareSnapshots_spec_swapped :
    let p : Proc := ⟨[true, true], [none], [], [], fun _ => []⟩
    let after : Except Errno InputFile := .ok ⟨ascii "a.x=1\n", false, none⟩
    let result := compareSnapshots mergeSortEntries (.lit "s") (.lit "t")
      (.ok ⟨ascii "a.x=1\nb.y=2\n", false, none⟩) after p
    let result' := compareSnapshots mergeSortEntries (.lit "s") (.lit "t")
      (.ok ⟨ascii "b.y=2\n# c\na.x=1\n", false, none⟩) after p
    result'.1 = result.1 ∧ result'.2.stdout = result.2.stdout := by
  intro p after result result'
  have hp : p.Healthy := ⟨by simp [p, Granted], by simp [p]⟩
  have hbefore : Rearranged (ascii "a.x=1\nb.y=2\n") (ascii "b.y=2\n# c\na.x=1\n") := by
    refine ⟨⟨[ascii "a.x=1", ascii "b.y=2"], [ascii "# c"],
      [ascii "b.y=2", ascii "# c", ascii "a.x=1"], [], [], rfl, rfl, by decide, by decide, ?_,
      by decide, by decide, .inl rfl⟩, fun _ => by decide⟩
    intro line hline
    rw [List.mem_singleton.mp hline]
    exact ⟨by decide, by decide, by decide, by decide⟩
  have hafter : Rearranged (ascii "a.x=1\n") (ascii "a.x=1\n") :=
    ⟨⟨[ascii "a.x=1"], [], [ascii "a.x=1"], [], [], rfl, rfl, by decide, by decide, by simp,
      by decide, by decide, .inl rfl⟩, fun _ => by decide⟩
  obtain ⟨out, hstdout, -, hsame⟩ := compareSnapshots_spec mergeSortEntries (.lit "s") (.lit "t")
    (ascii "a.x=1\nb.y=2\n") (ascii "a.x=1\n") p hp
  obtain ⟨hstatus, hstdout'⟩ :=
    hsame mergeSortEntries (.lit "s") (.lit "t") _ _ p hp hbefore hafter
  exact ⟨hstatus, hstdout'.trans hstdout.symm⟩

end Sysdiff
