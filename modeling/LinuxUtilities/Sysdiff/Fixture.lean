import LinuxUtilities.Foundation.FixedWidth
import LinuxUtilities.Sysdiff.Main

/-! The snapshots of the benchmark, and what `sysdiff` prints for them at every size. -/
namespace Sysdiff
open CString MapDifference

/-- `f"bench.k{index:06d}"`. -/
def benchKey (index : ℕ) : List UInt8 := ascii "bench.k" ++ zeroPadded 6 index

/-- The body of the loop of `generate_controlled_snapshot_texts`. -/
def appendSlot (lines : List (List UInt8) × List (List UInt8)) (index : ℕ) :
    List (List UInt8) × List (List UInt8) :=
  let key := benchKey index
  let slot := index % 10
  if slot = 0 then (lines.1 ++ [key ++ ascii "=old"], lines.2 ++ [key ++ ascii "=new"])
  else if slot = 1 then (lines.1 ++ [key ++ ascii "=gone"], lines.2)
  else if slot = 2 then (lines.1, lines.2 ++ [key ++ ascii "=added"])
  else (lines.1 ++ [key ++ ascii "=same"], lines.2 ++ [key ++ ascii "=same"])

/-- `"\n".join(lines) + "\n"`. -/
def joinLines (lines : List (List UInt8)) : List UInt8 := [10].intercalate lines ++ [10]

/-- `generate_controlled_snapshot_texts`; an error is a `ValueError`. -/
def generateControlledSnapshotTexts (entryCount : ℤ) : Except String (List UInt8 × List UInt8) :=
  if entryCount < 1 then .error "entry_count must be >= 1"
  else
    let lines := (List.range entryCount.toNat).foldl appendSlot ([], [])
    .ok (joinLines lines.1, joinLines lines.2)

/-- The value of a key before. -/
def benchBefore (index : ℕ) : Option CStr :=
  match index % 10 with
  | 0 => some (.lit "old")
  | 1 => some (.lit "gone")
  | 2 => none
  | _ => some (.lit "same")

/-- The value of a key after. -/
def benchAfter (index : ℕ) : Option CStr :=
  match index % 10 with
  | 0 => some (.lit "new")
  | 1 => none
  | 2 => some (.lit "added")
  | _ => some (.lit "same")

theorem benchKey_nulFree (index : ℕ) : (0 : UInt8) ∉ benchKey index := by
  intro h
  rcases List.mem_append.mp h with h | h
  · revert h
    decide
  · exact absurd (isDigit_of_mem_zeroPadded h) (by decide)

def benchKeyStr (index : ℕ) : CStr := ⟨benchKey index, benchKey_nulFree index⟩

theorem validKey_benchKey (index : ℕ) : ValidKey (benchKey index) := by
  have hdigit : ∀ b ∈ zeroPadded 6 index, isDigit b = true := fun b => isDigit_of_mem_zeroPadded
  have hdot : 46 ∉ zeroPadded 6 index := fun h => absurd (hdigit 46 h) (by decide)
  refine ⟨?_, ?_, ?_, ?_, ?_⟩
  · intro b hb
    rcases List.mem_append.mp hb with hb | hb
    · have hfront : (ascii "bench.k").all isKeyByte = true := by decide
      exact List.all_eq_true.mp hfront b hb
    · obtain ⟨hlower, hupper⟩ := isDigit_iff.mp (hdigit b hb)
      simp [isKeyByte, UInt8.le_iff_toNat_le, hlower, hupper]
  · exact List.mem_append_left _ (by decide)
  · rw [benchKey, List.isChain_append]
    refine ⟨by decide, ?_, ?_⟩
    · apply List.Pairwise.isChain
      rw [List.pairwise_iff_forall_sublist]
      intro a b hab hboth
      have hmem := hab.subset List.mem_cons_self
      rw [hboth.1] at hmem
      exact hdot hmem
    · intro a _ b hb hboth
      have hmem := List.mem_of_mem_head? hb
      rw [hboth.2] at hmem
      exact hdot hmem
  · rw [benchKey, show ascii "bench.k" = 98 :: ascii "ench.k" by decide,
      List.cons_append, List.head?_cons]
    decide
  · intro hlast
    have hmem := List.mem_of_mem_getLast? hlast
    rw [benchKey, List.getLast?_append] at hlast
    cases hpad : (zeroPadded 6 index).getLast? with
    | none =>
      have hlen := congrArg List.length (List.getLast?_eq_none_iff.mp hpad)
      rw [zeroPadded, List.length_append, List.length_replicate, List.length_nil] at hlen
      omega
    | some b =>
      rw [hpad] at hlast
      obtain rfl : b = 46 := by simpa using hlast
      exact hdot (List.mem_of_mem_getLast? hpad)

/-- The entries of a table of values. -/
def benchEntries (value : ℕ → Option CStr) (count : ℕ) : List Entry :=
  (List.range count).filterMap fun i => (value i).map fun v => ⟨benchKeyStr i, v⟩

/-- The line of an entry. -/
def entryLine (e : Entry) : List UInt8 := e.key.bytes ++ 61 :: e.value.bytes

theorem benchEntries_succ (value : ℕ → Option CStr) (count : ℕ) :
    benchEntries value (count + 1) = benchEntries value count ++
      ((value count).map fun v => (⟨benchKeyStr count, v⟩ : Entry)).toList := by
  rw [benchEntries, List.range_succ, List.filterMap_append, benchEntries]
  congr 1

/-- The loop writes the lines of the two tables. -/
theorem foldl_appendSlot (count : ℕ) : (List.range count).foldl appendSlot ([], []) =
    ((benchEntries benchBefore count).map entryLine,
      (benchEntries benchAfter count).map entryLine) := by
  induction count with
  | zero => rfl
  | succ count ih =>
    have hlt : count % 10 < 10 := Nat.mod_lt _ (by decide)
    have htext : ascii "=old" = 61 :: (CStr.lit "old").bytes ∧
        ascii "=new" = 61 :: (CStr.lit "new").bytes ∧
        ascii "=gone" = 61 :: (CStr.lit "gone").bytes ∧
        ascii "=added" = 61 :: (CStr.lit "added").bytes ∧
        ascii "=same" = 61 :: (CStr.lit "same").bytes := by decide
    obtain ⟨hold, hnew, hgone, hadded, hsame⟩ := htext
    rw [List.range_succ, List.foldl_append, ih, benchEntries_succ, benchEntries_succ]
    simp only [List.foldl_cons, List.foldl_nil, appendSlot, benchBefore, benchAfter, hold, hnew,
      hgone, hadded, hsame]
    generalize count % 10 = slot at hlt
    interval_cases slot <;> simp [entryLine, benchKeyStr]

theorem joinLines_eq {lines : List (List UInt8)} (hne : lines ≠ []) :
    joinLines lines = Lines.join 10 lines [] := by
  rw [joinLines, Lines.join, List.append_nil]
  induction lines with
  | nil => contradiction
  | cons l lines ih =>
    cases lines with
    | nil => simp
    | cons l' lines =>
      have hrest := ih (List.cons_ne_nil _ _)
      rw [List.intercalate_cons_cons, List.flatMap_cons, ← hrest]
      simp

/-- Lines without an LF or a CR, each with an LF after it, are the lines of their text. -/
theorem snapshotLines_joinLines {lines : List (List UInt8)} (hne : lines ≠ [])
    (hlines : ∀ l ∈ lines, 10 ∉ l ∧ 13 ∉ l) : snapshotLines (joinLines lines) = lines := by
  have hsplit := Lines.split_join 10 (fun l hl => (hlines l hl).1) (List.not_mem_nil (a := 10))
  have hcr : lines.map dropCr = lines := by
    refine (List.map_congr_left fun l hl => ?_).trans (List.map_id lines)
    exact if_neg fun hlast => (hlines l hl).2 (List.mem_of_getLast? hlast)
  rw [snapshotLines, joinLines_eq hne, hsplit, contents, hcr, if_pos rfl, List.append_nil]

/-- Entries that are written one to a line. -/
structure Writable (es : List Entry) : Prop where
  ne_nil : es ≠ []
  keys : ∀ e ∈ es, ValidKey e.key.bytes
  values : ∀ e ∈ es, 10 ∉ e.value.bytes ∧ 13 ∉ e.value.bytes
  nodup : (es.map Entry.key).Nodup

namespace Writable
variable {es : List Entry}

theorem lines (h : Writable es) :
    snapshotLines (joinLines (es.map entryLine)) = es.map entryLine := by
  apply snapshotLines_joinLines (by simpa using h.ne_nil)
  intro l hl
  obtain ⟨e, he, rfl⟩ := List.mem_map.mp hl
  have hkey {b : UInt8} (hb : isKeyByte b = false) : b ∉ e.key.bytes := key_byte_ne (h.keys e he) hb
  have hvalue := h.values e he
  simp only [entryLine, List.mem_append, List.mem_cons, not_or]
  exact ⟨⟨hkey (by decide), by decide, hvalue.1⟩, ⟨hkey (by decide), by decide, hvalue.2⟩⟩

theorem nulFree_entryLine (e : Entry) : (0 : UInt8) ∉ entryLine e := by
  simp only [entryLine, List.mem_append, List.mem_cons, not_or]
  exact ⟨e.key.nulFree, by decide, e.value.nulFree⟩

theorem recordOf_entryLine (h : Writable es) {e : Entry} (he : e ∈ es) :
    recordOf (entryLine e) = some e :=
  (recordOf_eq_some (nulFree_entryLine e)).mpr ⟨h.keys e he, rfl⟩

/-- What is written is read back. -/
theorem records_eq (h : Writable es) : records (joinLines (es.map entryLine)) = es := by
  have hread : es.filterMap (recordOf ∘ entryLine) = es.filterMap some :=
    List.filterMap_congr fun e he => h.recordOf_entryLine he
  rw [records, h.lines, List.filterMap_map, hread, List.filterMap_some]

theorem nulFree (h : Writable es) : (0 : UInt8) ∉ joinLines (es.map entryLine) := by
  rw [joinLines_eq (by simpa using h.ne_nil), Lines.mem_join 10 (by decide)]
  rintro (⟨l, hl, hzero⟩ | hzero)
  · obtain ⟨e, -, rfl⟩ := List.mem_map.mp hl
    exact nulFree_entryLine e hzero
  · exact List.not_mem_nil hzero

/-- The entries that are written are the map of the text. -/
theorem snapshotMap_eq (h : Writable es) :
    snapshotMap (joinLines (es.map entryLine)) = pairs (entryPairs es) := by
  refine (pairs_entryPairs fun e => ?_).symm
  rw [← mem_records h.nulFree, h.records_eq]

/-- With short lines, only the number of entries decides whether the text is a snapshot. -/
theorem format1_iff (h : Writable es) {width : ℕ}
    (hwidth : ∀ e ∈ es, (entryLine e).length < width) (hline : width ≤ maxLineBytes)
    (hsize : maxSnapshotEntries * width ≤ maxSnapshotBytes) :
    Format1 (joinLines (es.map entryLine)) ↔ es.length ≤ maxSnapshotEntries := by
  constructor
  · intro hf
    have hcount := hf.count
    rwa [h.records_eq] at hcount
  · intro hcount
    have hlength : (joinLines (es.map entryLine)).length ≤ es.length * width := by
      rw [joinLines_eq (by simpa using h.ne_nil), Lines.join, List.append_nil, List.flatMap_map,
        List.length_flatMap]
      have hsum := List.sum_le_card_nsmul (es.map fun e => (entryLine e ++ [10]).length) width (by
        intro n hn
        obtain ⟨e, he, rfl⟩ := List.mem_map.mp hn
        have hlt := hwidth e he
        simp only [List.length_append, List.length_singleton]
        omega)
      simpa using hsum
    have hmono := Nat.mul_le_mul_right width hcount
    refine ⟨by omega, h.nulFree, ?_, ?_, ?_, ?_⟩
    · rw [h.lines]
      intro l hl
      obtain ⟨e, he, rfl⟩ := List.mem_map.mp hl
      exact (hwidth e he).le.trans hline
    · rw [h.lines]
      intro l hl
      obtain ⟨e, he, rfl⟩ := List.mem_map.mp hl
      exact .inr (.inr (by rw [h.recordOf_entryLine he]; rfl))
    · rwa [h.records_eq]
    · rw [h.records_eq]
      exact h.nodup

end Writable

theorem benchKeyStr_lt {m n : ℕ} (hn : n < 10 ^ 6) (h : m < n) : benchKeyStr m < benchKeyStr n := by
  rw [← strcmp_neg]
  show strcmp (benchKey m) (benchKey n) < 0
  rw [benchKey, benchKey, strcmp_append_left]
  exact strcmp_zeroPadded (by decide) hn h

theorem benchKeyStr_injective : Function.Injective benchKeyStr := by
  intro m n h
  have hpad : zeroPadded 6 m = zeroPadded 6 n :=
    List.append_cancel_left (congrArg CStr.bytes h)
  rw [← digitsValue_zeroPadded 6 m, hpad, digitsValue_zeroPadded]

theorem mod_succ_add (slot count : ℕ) (hslot : slot < 10) :
    (count + 1 + (9 - slot)) / 10 = (count + (9 - slot)) / 10 + if count % 10 = slot then 1 else 0 := by
  split <;> omega

/-- One slot of ten has no value before, and one none after. -/
theorem length_benchEntries (count : ℕ) :
    (benchEntries benchBefore count).length + (count + 7) / 10 = count ∧
      (benchEntries benchAfter count).length + (count + 8) / 10 = count := by
  induction count with
  | zero => exact ⟨rfl, rfl⟩
  | succ count ih =>
    have hlt : count % 10 < 10 := Nat.mod_lt _ (by decide)
    have htwo := mod_succ_add 2 count (by decide)
    have hone := mod_succ_add 1 count (by decide)
    simp only [benchEntries_succ, List.length_append, Option.length_toList, Option.isSome_map,
      benchBefore, benchAfter] at ih htwo hone ⊢
    generalize count % 10 = slot at hlt htwo hone ⊢
    interval_cases slot <;> simp_all <;> omega

theorem writable_benchEntries {value : ℕ → Option CStr} {count : ℕ}
    (hne : benchEntries value count ≠ [])
    (hvalue : ∀ i v, value i = some v → 10 ∉ v.bytes ∧ 13 ∉ v.bytes) :
    Writable (benchEntries value count) := by
  have hmem (e : Entry) (he : e ∈ benchEntries value count) :
      ∃ i, e.key = benchKeyStr i ∧ value i = some e.value := by
    obtain ⟨i, -, hi⟩ := List.mem_filterMap.mp he
    obtain ⟨v, hv, rfl⟩ := Option.map_eq_some_iff.mp hi
    exact ⟨i, rfl, hv⟩
  refine ⟨hne, ?_, ?_, ?_⟩
  · intro e he
    obtain ⟨i, hkey, -⟩ := hmem e he
    rw [hkey]
    exact validKey_benchKey i
  · intro e he
    obtain ⟨i, -, hv⟩ := hmem e he
    exact hvalue i e.value hv
  · rw [benchEntries, List.map_filterMap]
    apply List.nodup_range.filterMap
    intro i j key hi hj
    simp only [Option.map_map, Option.mem_def, Option.map_eq_some_iff, Function.comp_apply] at hi hj
    obtain ⟨-, -, rfl⟩ := hi
    obtain ⟨-, -, hkey⟩ := hj
    exact (benchKeyStr_injective hkey).symm

theorem entryPairs_benchEntries (value : ℕ → Option CStr) (count : ℕ) :
    entryPairs (benchEntries value count) = tabulate benchKeyStr value (List.range count) := by
  rw [entryPairs, benchEntries, tabulate, List.map_filterMap]
  simp only [Option.map_map]
  rfl

theorem benchBefore_clear (i : ℕ) (v : CStr) (h : benchBefore i = some v) :
    (10 ∉ v.bytes ∧ 13 ∉ v.bytes) ∧ v.bytes.length ≤ 4 := by
  have hlt : i % 10 < 10 := Nat.mod_lt _ (by decide)
  unfold benchBefore at h
  generalize i % 10 = slot at hlt h
  interval_cases slot <;> first | contradiction | (obtain rfl := Option.some.inj h; decide)

theorem benchAfter_clear (i : ℕ) (v : CStr) (h : benchAfter i = some v) :
    (10 ∉ v.bytes ∧ 13 ∉ v.bytes) ∧ v.bytes.length ≤ 5 := by
  have hlt : i % 10 < 10 := Nat.mod_lt _ (by decide)
  unfold benchAfter at h
  generalize i % 10 = slot at hlt h
  interval_cases slot <;> first | contradiction | (obtain rfl := Option.some.inj h; decide)

/-- The lines that `sysdiff` is to print for an index. -/
def benchOutput (index : ℕ) : List UInt8 :=
  match index % 10 with
  | 0 => ascii "~ " ++ benchKey index ++ ascii ": old -> new\n"
  | 1 => ascii "- " ++ benchKey index ++ ascii "=gone\n"
  | 2 => ascii "+ " ++ benchKey index ++ ascii "=added\n"
  | _ => []

theorem flatMap_deltaAt (index : ℕ) :
    (deltaAt (benchKeyStr index) (benchBefore index) (benchAfter index)).flatMap renderDelta =
      benchOutput index := by
  have hlt : index % 10 < 10 := Nat.mod_lt _ (by decide)
  unfold benchBefore benchAfter benchOutput
  generalize index % 10 = slot at hlt
  have hchanged : CStr.lit "old" ≠ CStr.lit "new" := by decide
  have htexts : renderValue (.lit "old") = ascii "old" ∧ renderValue (.lit "new") = ascii "new" ∧
      renderValue (.lit "gone") = ascii "gone" ∧ renderValue (.lit "added") = ascii "added" := by
    decide
  obtain ⟨hold, hnew, hgone, hadded⟩ := htexts
  interval_cases slot <;>
    simp [deltaAt, hchanged, renderDelta, hold, hnew, hgone, hadded, benchKeyStr, ascii]

/-- A text of the benchmark is a snapshot as long as it has no more entries than `sysdiff`
takes. -/
theorem format1_benchEntries {value : ℕ → Option CStr} {count : ℕ}
    (h : Writable (benchEntries value count)) (hcount : count ≤ 10 ^ 6)
    (hvalue : ∀ i v, value i = some v → v.bytes.length ≤ 5) :
    Format1 (joinLines ((benchEntries value count).map entryLine)) ↔
      (benchEntries value count).length ≤ maxSnapshotEntries := by
  apply @Writable.format1_iff _ h 20
  · intro e he
    obtain ⟨i, hi, hei⟩ := List.mem_filterMap.mp he
    obtain ⟨v, hv, rfl⟩ := Option.map_eq_some_iff.mp hei
    have hpad : (zeroPadded 6 i).length = 6 :=
      length_zeroPadded (by decide) ((List.mem_range.mp hi).trans_le hcount)
    have hfront : (ascii "bench.k").length = 7 := by decide
    have hlen := hvalue i v hv
    simp only [entryLine, benchKeyStr, benchKey, List.length_append, List.length_cons, hpad, hfront]
    omega
  · decide
  · decide

/-- For every number of entries the benchmark asks for, `sysdiff` finds the changed, removed and
added keys of its two texts, in the order of their numbers, up to 72818 entries; beyond, it
refuses the texts. -/
theorem fixture_compared {files : Files} (hsig : files.sigpipe = none)
    (q : QSort compareEntriesByKey) (name x y : CStr) {count : ℤ} {before after : List UInt8}
    (hgen : generateControlledSnapshotTexts count = .ok (before, after))
    (hx : files.fopen x = .ok ⟨before, false, none⟩)
    (hy : files.fopen y = .ok ⟨after, false, none⟩) {p : Proc} (hp : p.Healthy) :
    let run := main files q [name, .lit "compare", x, y] p
    (count ≤ 72818 → run.1 = 1 ∧
      run.2.stdout = p.stdout ++ (List.range count.toNat).flatMap benchOutput) ∧
    (72818 < count → run.1 = 2 ∧ run.2.stdout = p.stdout) := by
  unfold generateControlledSnapshotTexts at hgen
  split at hgen
  · contradiction
  next hpos =>
    rw [foldl_appendSlot] at hgen
    obtain ⟨rfl, rfl⟩ := Prod.mk.inj (Except.ok.inj hgen)
    generalize hn : count.toNat = n at *
    obtain ⟨hlb, hla⟩ := length_benchEntries n
    have hwb : Writable (benchEntries benchBefore n) := by
      refine writable_benchEntries ?_ fun i v hv => (benchBefore_clear i v hv).1
      rw [← List.length_pos_iff]
      omega
    have hwa : Writable (benchEntries benchAfter n) := by
      refine writable_benchEntries ?_ fun i v hv => (benchAfter_clear i v hv).1
      rw [← List.length_pos_iff]
      omega
    intro run
    obtain ⟨out, hout, hcompared⟩ := compareSnapshots_compared q x y
      (joinLines ((benchEntries benchBefore n).map entryLine))
      (joinLines ((benchEntries benchAfter n).map entryLine)) hp
    have hrun : run = compareSnapshots q x y
        (.ok ⟨joinLines ((benchEntries benchBefore n).map entryLine), false, none⟩)
        (.ok ⟨joinLines ((benchEntries benchAfter n).map entryLine), false, none⟩) p := by
      show main files q _ p = _
      rw [main_compare hsig, hx, hy]
    rw [← hrun] at hout hcompared
    constructor
    · intro hle
      have hfb := (format1_benchEntries hwb (by omega) fun i v hv =>
        ((benchBefore_clear i v hv).2.trans (by decide))).mpr (by unfold maxSnapshotEntries; omega)
      have hfa := (format1_benchEntries hwa (by omega) fun i v hv =>
        (benchAfter_clear i v hv).2).mpr (by unfold maxSnapshotEntries; omega)
      obtain ⟨ds, hds, hstatus, hprinted⟩ := hcompared.valid hfb hfa
      rw [hwb.snapshotMap_eq, hwa.snapshotMap_eq, entryPairs_benchEntries,
        entryPairs_benchEntries] at hds
      have hkeys : (List.range n).Pairwise fun i j => benchKeyStr i < benchKeyStr j := by
        refine (List.pairwise_lt_range).imp_of_mem fun {i j} _ hj hij => ?_
        have hj' := List.mem_range.mp hj
        exact benchKeyStr_lt (by omega) hij
      have heq := hds.unique (isDifference_tabulate hkeys)
      have hne : ds ≠ [] := by
        rw [heq]
        intro hnil
        have hzero := List.flatMap_eq_nil_iff.mp hnil 0 (List.mem_range.mpr (by omega))
        revert hzero
        decide
      rw [if_neg hne] at hstatus
      refine ⟨hstatus, ?_⟩
      rw [hout, hprinted, compareOutput, if_neg hne, heq, List.flatMap_assoc]
      exact congrArg _ (List.flatMap_congr fun i _ => flatMap_deltaAt i)
    · intro hlt
      have hinvalid : ¬ (Format1 (joinLines ((benchEntries benchBefore n).map entryLine)) ∧
          Format1 (joinLines ((benchEntries benchAfter n).map entryLine))) := by
        rintro ⟨hf, -⟩
        have hcount := hf.count
        rw [hwb.records_eq] at hcount
        unfold maxSnapshotEntries at hcount
        omega
      obtain ⟨hstatus, hnone⟩ := hcompared.invalid hinvalid
      rw [hout, hnone, List.append_nil]
      exact ⟨hstatus, rfl⟩

/-- The two texts with three entries. -/
def smallFixture : Files where
  fopen path :=
    if path = .lit "before.snapshot" then
      .ok ⟨ascii "bench.k000000=old\nbench.k000001=gone\n", false, none⟩
    else .ok ⟨ascii "bench.k000000=new\nbench.k000002=added\n", false, none⟩
  sigpipe := none

theorem fixture_compared_three :
    (main smallFixture mergeSortEntries [.lit "sysdiff", .lit "compare", .lit "before.snapshot",
      .lit "after.snapshot"] ⟨[], [], [], [], fun _ => []⟩).2.stdout =
    ascii ("~ bench.k000000: old -> new\n- bench.k000001=gone\n" ++
      "+ bench.k000002=added\n") := by
  have hp : (⟨[], [], [], [], fun _ => []⟩ : Proc).Healthy := ⟨by simp [Granted], by simp⟩
  have hgen : generateControlledSnapshotTexts 3 =
      .ok (ascii "bench.k000000=old\nbench.k000001=gone\n",
        ascii "bench.k000000=new\nbench.k000002=added\n") := by decide +kernel
  have hsig : smallFixture.sigpipe = none := rfl
  have hrun := ((fixture_compared hsig mergeSortEntries (.lit "sysdiff") (.lit "before.snapshot")
    (.lit "after.snapshot") hgen rfl rfl hp).1 (by decide)).2
  rw [hrun]
  decide +kernel

end Sysdiff
