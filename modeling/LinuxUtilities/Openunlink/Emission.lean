import LinuxUtilities.Openunlink.LineBuffer
import LinuxUtilities.Openunlink.Scan

/-! `emit_finding` and the memory after its buffer: no byte of it is written, whatever the numbers,
the target and the size of the buffer, and with the size that is allocated the line is whole. -/
namespace Openunlink
open CString

section Frame
variable {dst beyond : List UInt8} {cap : ℕ}

/-- The part of `emit_finding` before the write stays within the buffer. -/
theorem formatFinding_frame (pid fd size : ℕ) (target : List UInt8) (hcap : cap ≤ dst.length) :
    formatFinding pid fd size target cap (dst ++ beyond) =
      ((formatFinding pid fd size target cap dst).1,
        (formatFinding pid fd size target cap dst).2 ++ beyond) := by
  have hlength : (snprintf dst 0 cap (findingHead pid fd size)).1.length = dst.length :=
    length_snprintf (findingHead pid fd size)
  unfold formatFinding
  rw [snprintf_frame (findingHead pid fd size) (by omega)]
  simp only
  split
  · rfl
  obtain ⟨hrun, hescaped⟩ := @escapeAppend_frame cap
    (snprintf dst 0 cap (findingHead pid fd size)).2
    (snprintf dst 0 cap (findingHead pid fd size)).1 beyond target (by omega) (by omega)
  rw [hrun]
  generalize hresult : escapeAppend cap target (snprintf dst 0 cap (findingHead pid fd size)).1
    (snprintf dst 0 cap (findingHead pid fd size)).2 = result at hescaped ⊢
  obtain ⟨ok, buf, n⟩ := result
  simp only at hescaped ⊢
  cases ok with
  | false => rfl
  | true =>
    simp only
    split
    · rfl
    next hroom =>
      have hbuf : (store buf n [34, 10, 0]).length = buf.length := length_store
      rw [store_frame (by simp only [List.length_cons, List.length_nil]; omega),
        List.take_append_of_le_length (by omega)]

end Frame

/-- With the buffer that is allocated, `emit_finding` writes the whole line and fails only when
`fwrite` takes over less. The memory after the buffer stays as it was. -/
theorem emitFinding_writes_line (sys : System) {fd size : ℕ} {target : List UInt8} {p : Process}
    {buf beyond : List UInt8} (hpid : p.st.pid ≤ intMax) (hfd : fd ≤ intMax)
    (hsize : size < 2 ^ 64) (htarget : target.length ≤ targetLenCap)
    (hcap : p.st.lineCap = findingLineCapacity) (hbuf : p.st.lineBuf = some (buf ++ beyond))
    (hlength : buf.length = findingLineCapacity) :
    ∃ buf', buf'.length = buf.length ∧
      formatFinding p.st.pid fd size target findingLineCapacity (buf ++ beyond) =
        (some (findingLine p.st.pid fd size target), buf' ++ beyond) ∧
      (emitFinding sys fd size target p).2.st.lineBuf = some (buf' ++ beyond) ∧
      ((emitFinding sys fd size target p).1 = true ↔
        Stream.fwriteCount (sys.fwrite p.writes) (findingLine p.st.pid fd size target) =
          (findingLine p.st.pid fd size target).length) ∧
      (emitFinding sys fd size target p).2.stdout =
        p.stdout.fwrite (sys.fwrite p.writes) (findingLine p.st.pid fd size target) := by
  obtain ⟨buf', hformat, hlength'⟩ := formatFinding_fits hpid hfd hsize htarget hlength
  have hframe := @formatFinding_frame buf beyond findingLineCapacity p.st.pid fd size target
    hlength.ge
  rw [hformat] at hframe
  refine ⟨buf', hlength', hframe, ?_⟩
  have hne : findingLine p.st.pid fd size target ≠ [] := by simp [findingLine]
  have hpositive : findingLineCapacity ≠ 0 := by
    rw [findingLineCapacity_eq]
    decide
  unfold emitFinding
  simp only [hbuf, hcap, hpositive, if_false, hframe, writeStdoutBytes, hne]
  split
  next hwrite =>
    obtain ⟨hcount, rfl⟩ := Prod.mk.inj hwrite
    exact ⟨rfl, by simpa using hcount, rfl⟩
  next hwrite =>
    obtain ⟨hcount, rfl⟩ := Prod.mk.inj hwrite
    exact ⟨rfl, by simpa using hcount, rfl⟩

/-- The process 7 before its first finding, with three bytes after its buffer. -/
def beforeFinding : Process :=
  { Process.init 7 with
    st.lineCap := findingLineCapacity
    st.lineBuf := some (List.replicate findingLineCapacity 0 ++ [1, 2, 3]) }

/-- Every call succeeds. -/
def willing : System where
  openDir := fun _ => none
  dup := true
  mallocFds := true
  mallocLink := true
  mallocLine := true
  garbage := fun _ => 0
  fdopendir := true
  entries := []
  closedir := true
  look := fun _ => ⟨.error ENOENT, .error ENOENT, .error ENOENT⟩
  fwrite := fun _ => ⟨none, 0, false⟩
  fflush := none
  close := true
  exitDrained := 0

/-- A target with a quotation mark. -/
theorem emitFinding_writes_quoted :
    (emitFinding willing 3 5 (ascii "/tmp/\"") beforeFinding).1 = true ∧
      (emitFinding willing 3 5 (ascii "/tmp/\"") beforeFinding).2.stdout.pending =
        findingLine 7 3 5 (ascii "/tmp/\"") := by
  obtain ⟨buf', -, -, -, hwritten, hstdout⟩ := @emitFinding_writes_line willing 3 5
    (ascii "/tmp/\"") beforeFinding (List.replicate findingLineCapacity 0) [1, 2, 3] (by decide)
    (by decide) (by decide) (by decide) rfl rfl List.length_replicate
  refine ⟨hwritten.mpr rfl, ?_⟩
  rw [hstdout]
  rfl

end Openunlink
