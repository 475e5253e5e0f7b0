import LinuxUtilities.Foundation.DeltaAlgebra
import LinuxUtilities.Sysdiff.Rendering

/-! `main` of `sysdiff`, and how its outputs for several pairs of snapshots hang together. -/
namespace Sysdiff
open CString MapDifference

def usageText : List UInt8 :=
  ascii "usage: sysdiff --help|--version|compare BEFORE_SNAPSHOT AFTER_SNAPSHOT\n"

def versionText : List UInt8 := ascii "sysdiff 0.1.0\n"

/-- A text to standard output, then `complete_stdout`. -/
def printAndComplete (text : List UInt8) (p : Proc) : ℕ × Proc :=
  match fputs text p with
  | .error (err, p) => emitWriteError err p
  | .ok p => completeStdout 0 p

/-- What opening and reading each path gives, and what `signal` answers. -/
structure Files where
  fopen : CStr → Except Errno InputFile
  sigpipe : Option Errno

/-- `main`, on all of `argv`. -/
def main (files : Files) (q : QSort compareEntriesByKey) (argv : List CStr) (p : Proc) :
    ℕ × Proc :=
  if argv.length < 1 then
    (2, { p with stderr := p.stderr ++ ascii "sysdiff: invalid argument vector\n" })
  else
    match files.sigpipe with
    | some err =>
      let text := ascii "sysdiff: cannot ignore SIGPIPE: " ++ p.strerror err ++ ascii "\n"
      (2, { p with stderr := p.stderr ++ text })
    | none =>
      match argv.tail with
      | [] => printAndComplete usageText p
      | command :: operands =>
        if operands = [] ∧ command = .lit "--help" then printAndComplete usageText p
        else if operands = [] ∧ command = .lit "--version" then printAndComplete versionText p
        else if command = .lit "compare" then
          match operands with
          | [before, after] =>
            compareSnapshots q before after (files.fopen before) (files.fopen after) p
          | _ =>
            let text := ascii "sysdiff: compare requires BEFORE_SNAPSHOT and AFTER_SNAPSHOT\n"
            (2, { p with stderr := p.stderr ++ text ++ usageText })
        else
          let text := ascii "sysdiff: unknown command: " ++ escapedBytes command ++ ascii "\n"
          (2, { p with stderr := p.stderr ++ text ++ usageText })

/-- A path that holds a snapshot in format 1, which can be read to its end. -/
def Files.Has (files : Files) (path : CStr) (bytes : List UInt8) : Prop :=
  files.fopen path = .ok ⟨bytes, false, none⟩ ∧ Format1 bytes

theorem main_compare {files : Files} (hsig : files.sigpipe = none) (q : QSort compareEntriesByKey)
    (name before after : CStr) (p : Proc) :
    main files q [name, .lit "compare", before, after] p =
      compareSnapshots q before after (files.fopen before) (files.fopen after) p := by
  have hlen : ¬ [name, .lit "compare", before, after].length < 1 := by simp
  unfold main
  rw [if_neg hlen, hsig]
  simp

theorem functional_snapshotMap {bytes : List UInt8} (h : Format1 bytes) :
    Functional (snapshotMap bytes) := by
  intro key v w hv hw
  have hmem := (mem_records h.nulFree (e := ⟨key, v⟩)).mpr hv
  have hmem' := (mem_records h.nulFree (e := ⟨key, w⟩)).mpr hw
  have heq := List.inj_on_of_nodup_map h.unique hmem hmem' rfl
  exact congrArg Entry.value heq

/-- What `compare` prints for two snapshots. -/
theorem main_prints {files : Files} (hsig : files.sigpipe = none) (q : QSort compareEntriesByKey)
    (name : CStr) {before after : CStr} {b a : List UInt8} (hb : files.Has before b)
    (ha : files.Has after a) {p : Proc} (hp : p.Healthy) :
    ∃ ds, IsDifference (snapshotMap b) (snapshotMap a) ds ∧
      (∀ d ∈ ds, ValidKey d.key.bytes) ∧
      (main files q [name, .lit "compare", before, after] p).1 = (if ds = [] then 0 else 1) ∧
      (main files q [name, .lit "compare", before, after] p).2.stdout =
        p.stdout ++ compareOutput ds := by
  obtain ⟨out, hstdout, hcompared⟩ := compareSnapshots_compared q before after b a hp
  obtain ⟨ds, hds, hstatus, rfl⟩ := hcompared.valid hb.2 ha.2
  rw [main_compare hsig, hb.1, ha.1]
  exact ⟨ds, hds, validKey_of_isDifference hds, hstatus, hstdout⟩

/-- A printed value, read back. -/
def readValue (text : List UInt8) : CStr :=
  .ofBytes (PrefixCode.decode (EscapedText.unescape plain) text).1

/-- A printed line without its newline, read back. -/
def readDelta : List UInt8 → Option (Delta CStr CStr)
  | 43 :: 32 :: text =>
    (Separator.splitFirst [61] text).map fun r => .added (.ofBytes r.1) (readValue r.2)
  | 45 :: 32 :: text =>
    (Separator.splitFirst [61] text).map fun r => .removed (.ofBytes r.1) (readValue r.2)
  | 126 :: 32 :: text => do
    let (key, values) ← Separator.splitFirst [58, 32] text
    let (old, new) ← Separator.splitFirst separator values
    return .changed (.ofBytes key) (readValue old) (readValue new)
  | _ => none

/-- What a comparison has printed, read back. -/
def readOutput (out : List UInt8) : List (Delta CStr CStr) :=
  if out = ascii "no changes\n" then [] else (Lines.split 10 out).1.filterMap readDelta

theorem readValue_renderValue (value : CStr) : readValue (renderValue value) = value := by
  have hend : EscapedText.unescape plain [] = none := rfl
  have hread := (renderBytes_spells value.bytes).decode hend hend
  rw [List.append_nil] at hread
  show CStr.ofBytes (PrefixCode.decode _ (renderBytes value.bytes)).1 = value
  rw [hread]
  exact CStr.ofBytes_self value

theorem readDelta_deltaText {d : Delta CStr CStr} (h : ValidKey d.key.bytes) :
    readDelta (deltaText d) = some d := by
  have hsplit {c : UInt8} (hc : c ∉ d.key.bytes) (sep text : List UInt8) :
      Separator.splitFirst (c :: sep) (d.key.bytes ++ (c :: sep ++ text)) =
        some (d.key.bytes, text) :=
    (Separator.clear_of_notMem hc).splitFirst (List.cons_ne_nil _ _)
  cases d with
  | added key value =>
    have hkey := hsplit (c := 61) (key_byte_ne h (by decide)) [] (renderValue value)
    simp only [List.cons_append, List.nil_append, Delta.key_added] at hkey
    simp only [deltaText, readDelta, hkey, Option.map_some, CStr.ofBytes_self,
      readValue_renderValue]
  | removed key value =>
    have hkey := hsplit (c := 61) (key_byte_ne h (by decide)) [] (renderValue value)
    simp only [List.cons_append, List.nil_append, Delta.key_removed] at hkey
    simp only [deltaText, readDelta, hkey, Option.map_some, CStr.ofBytes_self,
      readValue_renderValue]
  | changed key old new =>
    have hkey := hsplit (c := 58) (key_byte_ne h (by decide)) [32]
      (renderValue old ++ (separator ++ renderValue new))
    have hvalues := splitFirst_values old new []
    simp only [List.cons_append, List.nil_append, Delta.key_changed] at hkey
    simp only [List.append_nil] at hvalues
    simp only [deltaText, readDelta, hkey, hvalues, bind, Option.bind, CStr.ofBytes_self,
      readValue_renderValue, pure]

/-- The differences are read back from what is printed for them. -/
theorem readOutput_compareOutput {ds : List (Delta CStr CStr)}
    (h : ∀ d ∈ ds, ValidKey d.key.bytes) : readOutput (compareOutput ds) = ds := by
  cases ds with
  | nil => rfl
  | cons d ds =>
    have hne : compareOutput (d :: ds) ≠ ascii "no changes\n" := by
      intro heq
      have hnil : compareOutput (d :: ds) = compareOutput [] := heq
      exact List.cons_ne_nil d ds (compareOutput_injOn h (by simp) hnil)
    have hlines : compareOutput (d :: ds) = Lines.join 10 ((d :: ds).map deltaText) [] := by
      rw [compareOutput, if_neg (List.cons_ne_nil d ds), Lines.join, List.append_nil,
        List.flatMap_map]
      exact List.flatMap_congr fun e _ => renderDelta_eq e
    have hsplit : Lines.split 10 (Lines.join 10 ((d :: ds).map deltaText) []) =
        ((d :: ds).map deltaText, []) := by
      apply Lines.split_join
      · intro l hl
        obtain ⟨e, he, rfl⟩ := List.mem_map.mp hl
        exact newline_notMem_deltaText (h e he)
      · exact List.not_mem_nil
    have hread : (d :: ds).filterMap (readDelta ∘ deltaText) = (d :: ds).filterMap some :=
      List.filterMap_congr fun e he => readDelta_deltaText (h e he)
    rw [readOutput, if_neg hne, hlines, hsplit, List.filterMap_map, hread, List.filterMap_some]

/-- What is printed for two snapshots tells what is printed for them the other way round. -/
def mirrorOutput (out : List UInt8) : List UInt8 :=
  compareOutput ((readOutput out).map Delta.flip)

/-- What is printed for a first and a second snapshot and for the second and a third tells what
is printed for the first and the third. -/
def joinOutputs (out out' : List UInt8) : List UInt8 :=
  compareOutput (compose (readOutput out) (readOutput out'))

/-- The outputs of `compare` are patches: read back, one takes the first snapshot's map to the
second's; the other order of the operands prints its mirror; and two in a row join to what is
printed for the ends, without a look at the snapshots. -/
theorem main_outputs_patch {files : Files} (hsig : files.sigpipe = none)
    (q : QSort compareEntriesByKey) (name : CStr) {x y z : CStr} {a b c : List UInt8}
    (hx : files.Has x a) (hy : files.Has y b) (hz : files.Has z c) {p : Proc} (hp : p.Healthy)
    (hout : p.stdout = []) :
    let out (u v : CStr) := (main files q [name, .lit "compare", u, v] p).2.stdout
    patched (readOutput (out x y)) (snapshotMap a) = snapshotMap b ∧
      out y x = mirrorOutput (out x y) ∧ out x z = joinOutputs (out x y) (out y z) ∧
      (out x y = out x z → snapshotMap b = snapshotMap c) ∧
      (out x z = out y z → snapshotMap a = snapshotMap b) := by
  intro out
  have hprints {u v : CStr} {s t : List UInt8} (hu : files.Has u s) (hv : files.Has v t) :
      IsDifference (snapshotMap s) (snapshotMap t) (readOutput (out u v)) ∧
        out u v = compareOutput (readOutput (out u v)) := by
    obtain ⟨ds, hds, hkeys, -, hstdout⟩ := main_prints hsig q name hu hv hp
    rw [hout, List.nil_append] at hstdout
    have hread : readOutput (out u v) = ds := by
      show readOutput (main files q _ p).2.stdout = ds
      rw [hstdout, readOutput_compareOutput hkeys]
    rw [hread]
    exact ⟨hds, hstdout⟩
  have ha := functional_snapshotMap hx.2
  have hb := functional_snapshotMap hy.2
  have hc := functional_snapshotMap hz.2
  obtain ⟨hxy, -⟩ := hprints hx hy
  obtain ⟨hyx, hyx'⟩ := hprints hy hx
  obtain ⟨hyz, -⟩ := hprints hy hz
  obtain ⟨hxz, hxz'⟩ := hprints hx hz
  refine ⟨hxy.patched_eq hb, ?_, ?_, fun heq => ?_, fun heq => ?_⟩
  · rw [hyx', mirrorOutput, hxy.flip.unique hyx]
  · rw [hxz', joinOutputs, (hxy.compose hyz ha hb hc).unique hxz]
  · rw [heq] at hxy
    exact hxy.after_unique hxz hb hc
  · rw [heq] at hxz
    exact hxz.before_unique hyz ha hb

/-- Three snapshots of one setting. -/
def sampleFiles : Files where
  fopen path :=
    if path = .lit "a" then .ok ⟨ascii "s.x=1\n", false, none⟩
    else if path = .lit "b" then .ok ⟨ascii "s.x=2\n", false, none⟩
    else .ok ⟨ascii "# none\n", false, none⟩
  sigpipe := none

theorem main_outputs_patch_sample :
    let out (u v : CStr) := (main sampleFiles mergeSortEntries [.lit "sysdiff", .lit "compare", u, v]
      ⟨[], [], [], [], fun _ => []⟩).2.stdout
    out (.lit "a") (.lit "c") = joinOutputs (out (.lit "a") (.lit "b")) (out (.lit "b") (.lit "c")) := by
  have ha : sampleFiles.Has (.lit "a") (ascii "s.x=1\n") :=
    ⟨rfl, by decide, by decide, by decide, by decide, by decide, by decide⟩
  have hb : sampleFiles.Has (.lit "b") (ascii "s.x=2\n") :=
    ⟨rfl, by decide, by decide, by decide, by decide, by decide, by decide⟩
  have hc : sampleFiles.Has (.lit "c") (ascii "# none\n") :=
    ⟨rfl, by decide, by decide, by decide, by decide, by decide, by decide⟩
  have hp : (⟨[], [], [], [], fun _ => []⟩ : Proc).Healthy := ⟨by simp [Granted], by simp⟩
  exact (main_outputs_patch rfl mergeSortEntries (.lit "sysdiff") ha hb hc hp rfl).2.2.1

end Sysdiff
