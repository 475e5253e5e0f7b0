import LinuxUtilities.Openunlink.Setup

/-! The contract of a run: its status, its one diagnostic, and its lines, by the outcomes of
the calls it makes. -/
namespace Openunlink
open CString Checkpoints

/-- Two looks at one regular file, at the second of which no link is left. -/
structure Unlinked (first second : Stat) : Prop where
  regular : first.isReg = true
  dev : first.dev = second.dev
  ino : first.ino = second.ino
  stillRegular : second.isReg = true
  nlink : second.nlink = 0
  size : 0 ≤ second.size

/-- A descriptor that was stably observed as an unlinked regular file. -/
def StablyUnlinked (look : Look) : Prop :=
  ∃ first target second, look.first = .ok first ∧ look.link = .ok target ∧
    target.val.length ≤ targetLenCap ∧ look.second = .ok second ∧ Unlinked first second

inductive Verdict where
  | silent
  | advisory (code : Advisory)
  | finding (size : UInt64) (target : List UInt8)

/-- The classification of a descriptor: the first case that applies. -/
def classify (look : Look) : Verdict :=
  match look.first with
  | .error err => .advisory (if mapFstatatErrno err then .fdUnstable else .fdUnreadable)
  | .ok first =>
    if ¬ first.isReg then .silent
    else
      match look.link with
      | .error err => .advisory (if mapReadlinkatErrno err then .fdUnstable else .fdUnreadable)
      | .ok target =>
        if targetLenCap < target.val.length then .advisory .targetLengthLimit
        else
          match look.second with
          | .error err => .advisory (if mapFstatatErrno err then .fdUnstable else .fdUnreadable)
          | .ok second =>
            if first.dev ≠ second.dev ∨ first.ino ≠ second.ino ∨ ¬ second.isReg then
              .advisory .fdUnstable
            else if second.nlink ≠ 0 then .silent
            else if second.size < 0 then .advisory .fdSizeRange
            else .finding second.size.toUInt64 target.val

/-- The finding line of a descriptor, if it has one. -/
def Verdict.finding? (pid fd : ℕ) : Verdict → Option (List UInt8)
  | finding size target => some (findingLine pid fd size.toNat target)
  | _ => none

/-- The advisory of a descriptor, if it has one. -/
def Verdict.advisory? (pid fd : ℕ) : Verdict → Option Diagnostic
  | advisory code => some (.fdAdvisory code pid fd)
  | _ => none

def report (sys : System) (fd : ℕ) : Verdict := classify (sys.look (decimal fd))

def findings (sys : System) (pid : ℕ) (fds : List ℕ) : List (List UInt8) :=
  fds.filterMap fun fd => (report sys fd).finding? pid fd

def advisories (sys : System) (pid : ℕ) (fds : List ℕ) : List Diagnostic :=
  fds.filterMap fun fd => (report sys fd).advisory? pid fd

/-- The advisory about the number of descriptors, if there is one. -/
def countAdvisories (sys : System) (pid : ℕ) : List Diagnostic :=
  if overLimit sys then [.countAdvisory pid] else []

theorem classify_finding {look : Look} {size : UInt64} {target : List UInt8}
    (h : classify look = .finding size target) :
    target.length ≤ targetLenCap ∧ StablyUnlinked look := by
  unfold classify at h
  split at h
  · exact Verdict.noConfusion h
  next first hfirst =>
    split at h
    · exact Verdict.noConfusion h
    next hreg =>
      split at h
      · exact Verdict.noConfusion h
      next link hlink =>
        split at h
        · exact Verdict.noConfusion h
        next hlen =>
          split at h
          · exact Verdict.noConfusion h
          next second hsecond =>
            split at h
            · exact Verdict.noConfusion h
            next hsame =>
              split at h
              · exact Verdict.noConfusion h
              next hnlink =>
                split at h
                · exact Verdict.noConfusion h
                next hsize =>
                  obtain ⟨-, rfl⟩ := Verdict.finding.inj h
                  push Not at hsame hreg hnlink
                  obtain ⟨hdev, hino, hstill⟩ := hsame
                  exact ⟨Nat.not_lt.mp hlen, first, link, second, hfirst, hlink,
                    Nat.not_lt.mp hlen, hsecond, hreg, hdev, hino, hstill, hnlink,
                    Int64.not_lt.mp hsize⟩

theorem StablyUnlinked.classify {look : Look} (h : StablyUnlinked look) :
    ∃ size target, Openunlink.classify look = .finding size target := by
  obtain ⟨first, target, second, hfirst, hlink, hlen, hsecond, hunlinked⟩ := h
  refine ⟨second.size.toUInt64, target.val, ?_⟩
  unfold Openunlink.classify
  simp only [hfirst, hunlinked.regular, not_true_eq_false, ↓reduceIte, hlink,
    Nat.not_lt.mpr hlen, hsecond, hunlinked.dev, hunlinked.ino, hunlinked.stillRegular, ne_eq,
    or_self, hunlinked.nlink, Int64.not_lt.mpr hunlinked.size]

/-- A descriptor has a finding line exactly if it was stably unlinked. -/
theorem finding?_isSome_iff {look : Look} {pid fd : ℕ} :
    ((classify look).finding? pid fd).isSome ↔ StablyUnlinked look := by
  constructor
  · intro h
    cases hclass : classify look with
    | finding size target => exact (classify_finding hclass).2
    | silent | advisory => simp [hclass, Verdict.finding?] at h
  · intro h
    obtain ⟨size, target, hclass⟩ := h.classify
    simp [hclass, Verdict.finding?]

theorem convertSize_eq (value : Int64) :
    convertSize value = if value < 0 then none else some value.toUInt64 := by
  have hback : value.toUInt64.toInt64 = value := rfl
  simp [convertSize, hback]

/-- `inspect_one` does what the classification says. -/
theorem inspectOne_eq (sys : System) {fd : ℕ} (hfd : fd ≤ intMax) (p : Process) :
    ∃ events, inspectOne sys fd p =
      match report sys fd with
      | .silent => .ok { p with events := events }
      | .advisory code => .ok ({ p with events := events }.emitFdAdvisory code fd)
      | .finding size target =>
        match emitFinding sys fd size.toNat target { p with events := events } with
        | (false, p) => failOp .stdoutWrite p
        | (true, p) => .ok p := by
  unfold inspectOne report classify
  rw [formatFdName_eq hfd]
  simp only
  cases (sys.look (decimal fd)).first with
  | error err => exact ⟨_, rfl⟩
  | ok first =>
    by_cases hreg : first.isReg
    swap
    · simp only [hreg, Bool.false_eq_true, not_false_eq_true, ↓reduceIte]
      exact ⟨_, rfl⟩
    simp only [hreg, not_true_eq_false, ↓reduceIte]
    cases (sys.look (decimal fd)).link with
    | error err => exact ⟨_, rfl⟩
    | ok target =>
      by_cases hlen : targetLenCap < target.val.length
      · simp only [hlen, ↓reduceIte, ite_self]
        exact ⟨_, rfl⟩
      have hbuf : ¬ target.val.length = targetBufSize := by
        unfold targetLenCap at hlen
        unfold targetBufSize
        omega
      simp only [hlen, hbuf, ↓reduceIte]
      cases (sys.look (decimal fd)).second with
      | error err => exact ⟨_, rfl⟩
      | ok second =>
        simp only
        split
        · exact ⟨_, rfl⟩
        split
        · exact ⟨_, rfl⟩
        rw [convertSize_eq]
        by_cases hsize : second.size < 0
        · simp only [hsize, ↓reduceIte]
          exact ⟨_, rfl⟩
        · simp only [hsize, ↓reduceIte]
          exact ⟨_, rfl⟩

/-- What was taken over by a stream, in order. -/
def Stream.all (s : Stream) : List UInt8 := s.reached ++ s.pending

theorem Stream.push_all (s : Stream) (bytes : List UInt8) (drained : ℕ) (error : Bool) :
    (s.push bytes drained error).all = s.all ++ bytes := by
  simp only [push, all, List.append_assoc, List.take_append_drop]

/-- `emit_finding` writes the line of the finding, and fails only when the write does. -/
theorem emitFinding_eq (sys : System) {fd size : ℕ} {target : List UInt8} {p : Process}
    (halloc : Allocated p) (hpid : p.st.pid ≤ intMax) (hfd : fd ≤ intMax) (hsize : size < 2 ^ 64)
    (htarget : target.length ≤ targetLenCap) :
    ∃ buf, buf.length = findingLineCapacity ∧
      let line := findingLine p.st.pid fd size target
      let whole := decide (Stream.fwriteCount (sys.fwrite p.writes) line = line.length)
      emitFinding sys fd size target p =
        (whole, { p with
          st.lineBuf := some buf
          st.hadFinding := p.st.hadFinding || whole
          stdout := p.stdout.fwrite (sys.fwrite p.writes) line
          writes := p.writes + 1 }) := by
  obtain ⟨hcap, buf, hbuf, hlen⟩ := halloc
  obtain ⟨buf', hformat, hlen'⟩ := formatFinding_fits hpid hfd hsize htarget hlen
  have hne : findingLine p.st.pid fd size target ≠ [] := by simp [findingLine]
  have hcap0 : ¬ findingLineCapacity = 0 := by
    rw [findingLineCapacity_eq]
    decide
  refine ⟨buf', hlen'.trans hlen, ?_⟩
  intro line whole
  unfold emitFinding
  simp only [hbuf, hcap, hcap0, ↓reduceIte, hformat, writeStdoutBytes, hne]
  cases hwhole : whole with
  | false =>
    simp only [whole, line] at hwhole
    simp only [hwhole, Bool.or_false]
    rfl
  | true =>
    simp only [whole, line] at hwhole
    simp only [hwhole, Bool.or_true]
    rfl

/-- A failed write, by the line and its place among the writes. -/
def writeFailure (sys : System) (line : List UInt8 × ℕ) : Option OpCode :=
  if Stream.fwriteCount (sys.fwrite line.2) line.1 = line.1.length then none
  else some .stdoutWrite

/-- What can fail once lines are printed, in the order of the run. -/
def outputFailures (sys : System) (lines : List (List UInt8)) : List (Option OpCode) :=
  lines.zipIdx.map (writeFailure sys) ++
    [if sys.fflush = none ∧ ∀ i < lines.length, (sys.fwrite i).error = false then none
      else some .stdoutWrite,
      if sys.close then none else some .processScan]

/-- What holds while descriptors are inspected, some of which are `done`. -/
structure Inspecting (sys : System) (pid : ℕ) (done : List ℕ) (p : Process) : Prop
    extends Allocated p where
  op : p.st.op = none
  writes : p.writes = (findings sys pid done).length
  stdout : p.stdout.all = (findings sys pid done).flatten
  error : p.stdout.error = true ↔ ∃ i < p.writes, (sys.fwrite i).error = true
  stderr : p.stderr = countAdvisories sys pid ++ advisories sys pid done
  hadFinding : p.st.hadFinding = true ↔ findings sys pid done ≠ []
  hadAdvisory : p.st.hadAdvisory = true ↔ p.stderr ≠ []
  pid : p.st.pid = pid

/-- What holds when printing has stopped, at or before the last of the descriptors. -/
structure Stopped (sys : System) (pid : ℕ) (fds : List ℕ) (p : Process) : Prop where
  stdout : p.stdout.all <+: (findings sys pid fds).flatten
  stderr : ∃ done, done <+: fds ∧ p.stderr = countAdvisories sys pid ++ advisories sys pid done
  pid : p.st.pid = pid

section Inspection
variable {sys : System} {pid fd : ℕ} {fds done : List ℕ} {p : Process}

theorem findings_append (l m : List ℕ) :
    findings sys pid (l ++ m) = findings sys pid l ++ findings sys pid m :=
  List.filterMap_append

theorem Stopped.mono {fds' : List ℕ} (h : Stopped sys pid fds p) (hfds : fds <+: fds') :
    Stopped sys pid fds' p := by
  obtain ⟨rest, rfl⟩ := hfds
  obtain ⟨done, hdone, hstderr⟩ := h.stderr
  refine ⟨h.stdout.trans ?_, ⟨done, hdone.trans (List.prefix_append _ _), hstderr⟩, h.pid⟩
  rw [findings_append, List.flatten_append]
  exact List.prefix_append _ _

theorem Stopped.failed (h : Stopped sys pid fds p) (hop : p.st.op = none) (code : OpCode) :
    opCode (p.setOp code) = some code ∧ Stopped sys pid fds (p.setOp code) := by
  refine ⟨Process.setOp_op hop code, ?_, ?_, ?_⟩
  · rw [Process.setOp_stdout]
    exact h.stdout
  · rw [Process.setOp_stderr]
    exact h.stderr
  · rw [Process.setOp_pid]
    exact h.pid

theorem Inspecting.stopped (h : Inspecting sys pid fds p) : Stopped sys pid fds p :=
  ⟨h.stdout ▸ List.prefix_rfl, ⟨fds, List.prefix_rfl, h.stderr⟩, h.pid⟩

theorem findings_singleton :
    findings sys pid [fd] = ((report sys fd).finding? pid fd).toList := by
  simp only [findings, List.filterMap_cons, List.filterMap_nil]
  cases (report sys fd).finding? pid fd <;> rfl

theorem findings_concat : findings sys pid (done ++ [fd]) =
    findings sys pid done ++ ((report sys fd).finding? pid fd).toList := by
  rw [findings_append, findings_singleton]

theorem advisories_concat : advisories sys pid (done ++ [fd]) =
    advisories sys pid done ++ ((report sys fd).advisory? pid fd).toList := by
  simp only [advisories, List.filterMap_append, List.filterMap_cons, List.filterMap_nil]
  cases (report sys fd).advisory? pid fd <;> rfl

/-- The inspection of one descriptor prints its line, if it has one. -/
theorem inspectOne_passes (hpid : pid ≤ intMax) (hfd : fd ≤ intMax)
    (h : Inspecting sys pid done p) :
    Passes opCode
      ((((report sys fd).finding? pid fd).toList.zipIdx (findings sys pid done).length).map
        (writeFailure sys))
      (Inspecting sys pid (done ++ [fd])) (Stopped sys pid (done ++ [fd]))
      (inspectOne sys fd p) := by
  obtain ⟨events, hrun⟩ := inspectOne_eq sys hfd p
  rw [hrun]
  cases hreport : report sys fd with
  | silent =>
    apply Passes.ok
    have hfindings : findings sys pid (done ++ [fd]) = findings sys pid done := by
      rw [findings_concat, hreport]
      exact List.append_nil _
    have hadvisories : advisories sys pid (done ++ [fd]) = advisories sys pid done := by
      rw [advisories_concat, hreport]
      exact List.append_nil _
    constructor
    · exact ⟨h.lineCap, h.lineBuf⟩
    · exact h.op
    · exact hfindings ▸ h.writes
    · exact hfindings ▸ h.stdout
    · exact h.error
    · exact hadvisories ▸ h.stderr
    · exact hfindings ▸ h.hadFinding
    · exact h.hadAdvisory
    · exact h.pid
  | advisory code =>
    apply Passes.ok
    have hfindings : findings sys pid (done ++ [fd]) = findings sys pid done := by
      rw [findings_concat, hreport]
      exact List.append_nil _
    constructor
    · exact ⟨h.lineCap, h.lineBuf⟩
    · exact h.op
    · exact hfindings ▸ h.writes
    · exact hfindings ▸ h.stdout
    · exact h.error
    · rw [advisories_concat, hreport, ← List.append_assoc, ← h.stderr, ← h.pid]
      rfl
    · exact hfindings ▸ h.hadFinding
    · simp [Process.emitFdAdvisory]
    · exact h.pid
  | finding size target =>
    obtain ⟨buf, hbuf, hemit⟩ := emitFinding_eq sys (p := { p with events := events })
      ⟨h.lineCap, h.lineBuf⟩ (h.pid ▸ hpid) hfd size.toNat_lt (classify_finding hreport).1
    have hfindings : findings sys pid (done ++ [fd]) =
        findings sys pid done ++ [findingLine pid fd size.toNat target] := by
      rw [findings_concat, hreport]
      rfl
    have hadvisories : advisories sys pid (done ++ [fd]) = advisories sys pid done := by
      rw [advisories_concat, hreport]
      exact List.append_nil _
    have hpushed : ∀ r, (p.stdout.fwrite r (findingLine pid fd size.toNat target)).all =
        (findings sys pid done).flatten ++ (findingLine pid fd size.toNat target).take
          (Stream.fwriteCount r (findingLine pid fd size.toNat target)) := by
      intro r
      rw [Stream.fwrite, Stream.push_all, h.stdout]
    have hfailure : ((((Verdict.finding size target).finding? pid fd).toList.zipIdx
        (findings sys pid done).length).map (writeFailure sys)) =
          [writeFailure sys (findingLine pid fd size.toNat target, p.writes)] := by
      rw [h.writes]
      rfl
    rw [hfailure, writeFailure]
    simp only
    rw [show emitFinding sys fd size.toNat target { p with events := events } = _ from hemit]
    simp only [h.pid]
    by_cases hwhole : Stream.fwriteCount (sys.fwrite p.writes)
        (findingLine pid fd size.toNat target) = (findingLine pid fd size.toNat target).length
    · simp only [hwhole, decide_true, Bool.or_true, ↓reduceIte]
      refine ⟨_, rfl, ⟨h.lineCap, buf, rfl, hbuf⟩, h.op, ?_, ?_, ?_, ?_, ?_, h.hadAdvisory, rfl⟩
      · simp [hfindings, h.writes]
      · rw [hpushed, hwhole, List.take_length, hfindings, List.flatten_append,
          List.flatten_singleton]
      · show (p.stdout.error || (sys.fwrite p.writes).error) = true ↔ _
        rw [Bool.or_eq_true, h.error, Nat.exists_lt_succ_right]
      · rw [hadvisories]
        exact h.stderr
      · simp [hfindings]
    · simp only [hwhole, decide_false, Bool.or_false, ↓reduceIte]
      have hstopped : Stopped sys pid (done ++ [fd])
          { p with
            st.pid := pid
            st.lineBuf := some buf
            stdout := p.stdout.fwrite (sys.fwrite p.writes) (findingLine pid fd size.toNat target)
            writes := p.writes + 1
            events := events } := by
        refine ⟨?_, ⟨done, List.prefix_append _ _, h.stderr⟩, rfl⟩
        rw [hpushed, hfindings, List.flatten_append, List.flatten_singleton]
        exact (List.prefix_append_right_inj _).mpr (List.take_prefix _ _)
      exact ⟨_, rfl, hstopped.failed h.op _⟩

/-- The loop over the descriptors prints their lines, up to the first write that fails. -/
theorem inspectAll_passes (hpid : pid ≤ intMax) (hfds : ∀ fd ∈ fds, fd ≤ intMax)
    (h : Inspecting sys pid done p) :
    Passes opCode
      (((findings sys pid fds).zipIdx (findings sys pid done).length).map (writeFailure sys))
      (Inspecting sys pid (done ++ fds)) (Stopped sys pid (done ++ fds))
      (inspectAll sys fds p) := by
  induction fds generalizing done p with
  | nil =>
    rw [List.append_nil]
    exact Passes.ok h
  | cons fd fds ih =>
    rw [List.forall_mem_cons] at hfds
    have hcons : findings sys pid (fd :: fds) =
        ((report sys fd).finding? pid fd).toList ++ findings sys pid fds := by
      rw [← List.singleton_append, findings_append, findings_singleton]
    rw [hcons, List.zipIdx_append, List.map_append, List.append_cons]
    unfold inspectAll
    apply Passes.bind ((inspectOne_passes hpid hfds.1 h).imp (fun _ => id) _)
    · intro p' hp'
      have hrest := ih hfds.2 hp'
      rw [findings_concat, List.length_append] at hrest
      exact hrest
    · exact fun p' hp' => hp'.mono (List.prefix_append _ _)

/-- All lines have reached the output once the flush has succeeded. -/
theorem flushStdout_passes (h : Inspecting sys pid fds p) :
    Passes opCode
      [if sys.fflush = none ∧ ∀ i < (findings sys pid fds).length, (sys.fwrite i).error = false
        then none else some .stdoutWrite]
      (fun p' => Inspecting sys pid fds p' ∧ p'.stdout.pending = []) (Stopped sys pid fds)
      (flushStdout sys p) := by
  have hall : ∀ drained error, (p.stdout.push [] drained error).all = p.stdout.all := by
    intro drained error
    rw [Stream.push_all, List.append_nil]
  unfold flushStdout
  cases hflush : sys.fflush with
  | some drained =>
    simp only [reduceCtorEq, false_and, ↓reduceIte, ne_eq, not_false_eq_true, true_or]
    have hstopped : Stopped sys pid fds { p with stdout := p.stdout.fflush (some drained) } :=
      ⟨(hall drained true).symm ▸ h.stopped.stdout, h.stopped.stderr, h.pid⟩
    exact ⟨_, rfl, hstopped.failed h.op _⟩
  | none =>
    have hflushed : Inspecting sys pid fds { p with stdout := p.stdout.fflush none } := by
      refine ⟨⟨h.lineCap, h.lineBuf⟩, h.op, h.writes, ?_, ?_, h.stderr, h.hadFinding,
        h.hadAdvisory, h.pid⟩
      · exact (hall _ false).trans h.stdout
      · show (p.stdout.error || false) = true ↔ _
        rw [Bool.or_false]
        exact h.error
    have herror : ¬ (p.stdout.fflush none).error = true ↔
        ∀ i < (findings sys pid fds).length, (sys.fwrite i).error = false := by
      rw [hflushed.error, ← h.writes]
      push Not
      simp only [Bool.not_eq_true]
    simp only [ne_eq, not_true_eq_false, false_or, true_and, ← herror]
    by_cases hset : (p.stdout.fflush none).error = true
    · simp only [hset, not_true_eq_false, ↓reduceIte]
      exact ⟨_, rfl, hflushed.stopped.failed h.op _⟩
    · simp only [hset, not_false_eq_true, Bool.false_eq_true, ↓reduceIte]
      refine ⟨_, rfl, hflushed, ?_⟩
      simp [Stream.fflush, Stream.push]

theorem closeProcess_passes (h : Inspecting sys pid fds p) (hflushed : p.stdout.pending = []) :
    Passes opCode [if sys.close then none else some .processScan]
      (fun p' => Inspecting sys pid fds p' ∧ p'.stdout.pending = []) (Stopped sys pid fds)
      (closeProcess sys p) := by
  have hclosed : Inspecting sys pid fds { p.note .closed p.st.dirFd with st.dirFd := none } :=
    ⟨⟨h.lineCap, h.lineBuf⟩, h.op, h.writes, h.stdout, h.error, h.stderr, h.hadFinding,
      h.hadAdvisory, h.pid⟩
  apply Passes.check
  · exact fun _ => hclosed.stopped.failed h.op _
  · exact fun _ => Passes.ok ⟨hclosed, hflushed⟩

end Inspection

/-- `run_scan` from the first descriptor it inspects on. -/
def printLines (sys : System) : Step := fun p => do
  let p := if p.st.fdCountLimit then p.emitCountAdvisory else p
  let p ← inspectAll sys p.st.retained p
  let p ← flushStdout sys p
  closeProcess sys p

theorem runScan_eq (sys : System) (q : QSort fdCmp) (p : Process) :
    runScan sys q p = setUp sys q p >>= printLines sys := by
  simp only [runScan, setUp, bind_assoc]
  rfl

/-- The first advisory is that about the number of descriptors. -/
theorem Ready.inspecting {sys : System} {pid : ℕ} {fds : List ℕ} {p : Process}
    (h : Ready pid fds (overLimit sys) p) (halloc : Allocated p) :
    Inspecting sys pid [] (if p.st.fdCountLimit then p.emitCountAdvisory else p) ∧
      (if p.st.fdCountLimit then p.emitCountAdvisory else p).st.retained = fds := by
  have hstdout : p.stdout.all = (findings sys pid []).flatten := by
    rw [h.stdout]
    rfl
  have herror : p.stdout.error = true ↔ ∃ i < p.writes, (sys.fwrite i).error = true := by
    simp [h.stdout, h.writes, Stream.empty]
  have hfinding : p.st.hadFinding = true ↔ findings sys pid [] ≠ [] := by
    simp [h.hadFinding, findings]
  rw [h.limit]
  cases hlimit : overLimit sys with
  | false =>
    have hcount : countAdvisories sys pid = [] := by simp [countAdvisories, hlimit]
    refine ⟨⟨halloc, h.op, h.writes, hstdout, herror, ?_, hfinding, ?_, h.pid⟩, h.retained⟩
    · simpa [hcount, advisories] using h.stderr
    · simp [h.hadAdvisory, h.stderr]
  | true =>
    have hcount : countAdvisories sys pid = [.countAdvisory pid] := by
      simp [countAdvisories, hlimit]
    refine ⟨⟨⟨halloc.1, halloc.2⟩, h.op, h.writes, hstdout, herror, ?_, hfinding, ?_, h.pid⟩,
      h.retained⟩
    · simp [Process.emitCountAdvisory, h.stderr, h.pid, hcount, advisories]
    · simp [Process.emitCountAdvisory]

theorem printLines_passes {sys : System} {pid : ℕ} {p : Process} (hpid : pid ≤ intMax)
    (h : Ready pid (ascending sys) (overLimit sys) p) (halloc : Allocated p) :
    Passes opCode (outputFailures sys (findings sys pid (ascending sys)))
      (fun p' => Inspecting sys pid (ascending sys) p' ∧ p'.stdout.pending = [])
      (Stopped sys pid (ascending sys)) (printLines sys p) := by
  obtain ⟨hinspecting, hretained⟩ := h.inspecting halloc
  unfold printLines
  simp only [hretained]
  apply (inspectAll_passes hpid (fun _ => le_intMax_of_mem_ascending) hinspecting).bind
  intro p hp
  apply (flushStdout_passes hp).bind
  intro p ⟨hp, hflushed⟩
  exact closeProcess_passes hp hflushed

/-- All that can fail in a run, in the order of the run. -/
def failures (sys : System) (pid : ℕ) : List (Option OpCode) :=
  setupFailures sys pid ++ outputFailures sys (findings sys pid (ascending sys))

/-- The code of the first failure of a run. -/
def firstFailure (sys : System) (pid : ℕ) : Option OpCode := (failures sys pid).findSome? id

def Diagnostic.isOperational : Diagnostic → Bool
  | operational _ _ => true
  | _ => false

theorem cleanupScan_stdout (p : Process) : (cleanupScan p).stdout = p.stdout := by
  unfold cleanupScan
  split <;> rfl

theorem cleanupScan_stderr (p : Process) : (cleanupScan p).stderr = p.stderr := by
  unfold cleanupScan
  split <;> rfl

/-- What the rest of `main` makes of a scan that failed with a code. -/
theorem scanProcess_of_error {sys : System} {q : QSort fdCmp} {pid : ℕ} {p : Process}
    {code : OpCode} (hrun : runScan sys q (.init pid) = .error p) (hop : p.st.op = some code) :
    (scanProcess sys q pid).status = 2 ∧
      (scanProcess sys q pid).stderr = p.stderr ++ [.operational code p.st.pid] ∧
      (scanProcess sys q pid).stdout <+: p.stdout.all := by
  have hemit : p.emitOperational =
      { p with stderr := p.stderr ++ [.operational code p.st.pid] } := by
    simp [Process.emitOperational, hop]
  refine ⟨?_, ?_, ?_⟩
  · simp [scanProcess, hrun, finishStatus, hop]
  · simp [scanProcess, hrun, cleanupScan_stderr, hemit]
  · simp only [scanProcess, hrun, cleanupScan_stdout, hemit, Stream.push, Stream.all,
      List.append_nil]
    exact (List.prefix_append_right_inj _).mpr (List.take_prefix _ _)

/-- What the rest of `main` makes of a scan in which nothing failed. -/
theorem scanProcess_of_ok {sys : System} {q : QSort fdCmp} {pid : ℕ} {p : Process}
    (hrun : runScan sys q (.init pid) = .ok p) (hop : p.st.op = none)
    (hflushed : p.stdout.pending = []) :
    (scanProcess sys q pid).status = (if p.st.hadFinding || p.st.hadAdvisory then 1 else 0) ∧
      (scanProcess sys q pid).stderr = p.stderr ∧
      (scanProcess sys q pid).stdout = p.stdout.all := by
  have hemit : p.emitOperational = p := by simp [Process.emitOperational, hop]
  refine ⟨?_, ?_, ?_⟩
  · simp [scanProcess, hrun, finishStatus, hop]
  · simp [scanProcess, hrun, cleanupScan_stderr, hemit]
  · simp [scanProcess, hrun, cleanupScan_stdout, hemit, Stream.push, Stream.all, hflushed]

section Lines
variable {sys : System} {pid : ℕ} {fds : List ℕ}

/-- The lines of the descriptors are no diagnostics of a failure. -/
theorem filter_isOperational :
    (countAdvisories sys pid ++ advisories sys pid fds).filter Diagnostic.isOperational = [] := by
  rw [List.filter_eq_nil_iff]
  intro d hd
  obtain hd | hd := List.mem_append.mp hd
  · unfold countAdvisories at hd
    split at hd
    · rw [List.mem_singleton.mp hd]
      simp [Diagnostic.isOperational]
    · exact absurd hd List.not_mem_nil
  · obtain ⟨fd, -, hfd⟩ := List.mem_filterMap.mp hd
    cases hreport : report sys fd with
    | advisory code =>
      rw [hreport] at hfd
      obtain rfl := Option.some.inj hfd
      simp [Diagnostic.isOperational]
    | silent | finding => simp [hreport, Verdict.advisory?] at hfd

theorem findings_ne_nil_iff :
    findings sys pid fds ≠ [] ↔ ∃ fd ∈ fds, StablyUnlinked (sys.look (decimal fd)) := by
  constructor
  · intro h
    obtain ⟨line, hmem⟩ := List.exists_mem_of_ne_nil _ h
    obtain ⟨fd, hfd, hline⟩ := List.mem_filterMap.mp hmem
    exact ⟨fd, hfd, finding?_isSome_iff.mp (Option.isSome_of_eq_some hline)⟩
  · rintro ⟨fd, hfd, hunlinked⟩
    have hsome : ((report sys fd).finding? pid fd).isSome := finding?_isSome_iff.mpr hunlinked
    obtain ⟨line, hline⟩ := Option.isSome_iff_exists.mp hsome
    exact List.ne_nil_of_mem (List.mem_filterMap.mpr ⟨fd, hfd, hline⟩)

/-- A finding line is not empty. -/
theorem flatten_findings_ne_nil_iff :
    (findings sys pid fds).flatten ≠ [] ↔ findings sys pid fds ≠ [] := by
  constructor
  · intro h hnil
    rw [hnil] at h
    exact h rfl
  · intro h hnil
    obtain ⟨line, hmem⟩ := List.exists_mem_of_ne_nil _ h
    obtain ⟨fd, -, hline⟩ := List.mem_filterMap.mp hmem
    have hempty := List.flatten_eq_nil_iff.mp hnil line hmem
    cases hreport : report sys fd with
    | finding size target =>
      rw [hreport] at hline
      obtain rfl := Option.some.inj hline
      simp [findingLine] at hempty
    | silent | advisory => simp [hreport, Verdict.finding?] at hline

theorem mem_ascending {fd : ℕ} : fd ∈ ascending sys ↔ fd ∈ retained sys :=
  (List.mergeSort_perm _ _).mem_iff

/-- Once duplicates are excluded, the descriptors are in strictly ascending order. -/
theorem ascending_strict (h : (setupFailures sys pid).findSome? id = none) :
    (ascending sys).Pairwise (· < ·) := by
  have hnodup : (retained sys).Nodup := by
    by_contra hdup
    have hlast := List.findSome?_eq_none_iff.mp h (some .processScan)
      (by simp [setupFailures, hdup])
    exact Option.some_ne_none _ hlast
  have hle : (ascending sys).Pairwise (· ≤ ·) := List.pairwise_mergeSort' (· ≤ ·) _
  have hne : (ascending sys).Pairwise (· ≠ ·) := List.nodup_mergeSort.mpr hnodup
  exact (hle.and hne).imp fun ⟨hab, hne⟩ => lt_of_le_of_ne hab hne

end Lines

/-- What is said of a run: its status, the diagnostic of its first failure, what it finds when
nothing fails, and the order of its lines in every case. -/
structure Conforms (sys : System) (pid : ℕ) (out : Outcome) : Prop where
  status : out.status = 0 ∨ out.status = 1 ∨ out.status = 2
  failed : out.status = 2 ↔ firstFailure sys pid ≠ none
  operational : out.stderr.filter Diagnostic.isOperational =
    (firstFailure sys pid).toList.map (Diagnostic.operational · pid)
  finished : firstFailure sys pid = none →
    (out.status = 1 ↔ out.stdout ≠ [] ∨ out.stderr ≠ []) ∧
    (out.stdout ≠ [] ↔ ∃ fd ∈ retained sys, StablyUnlinked (sys.look (decimal fd))) ∧
    out.stdout = (findings sys pid (ascending sys)).flatten ∧
    out.stderr = countAdvisories sys pid ++ advisories sys pid (ascending sys)
  lines : ∃ fds done counts, fds.Pairwise (· < ·) ∧ (∀ fd ∈ fds, fd ∈ retained sys) ∧
    done <+: fds ∧ counts <+: countAdvisories sys pid ∧
    out.stdout <+: (findings sys pid fds).flatten ∧
    out.stderr = counts ++ advisories sys pid done ++
      (firstFailure sys pid).toList.map (Diagnostic.operational · pid)
  unstarted : (setupFailures sys pid).findSome? id ≠ none → out.stdout = []

section Runs
variable {sys : System} {q : QSort fdCmp} {pid : ℕ} {p : Process} {c : OpCode}

/-- A run whose set-up fails has printed nothing but the failure. -/
theorem conforms_of_untouched (hfirst : (setupFailures sys pid).findSome? id = some c)
    (hrun : runScan sys q (.init pid) = .error p) (hop : p.st.op = some c)
    (huntouched : Untouched pid p) : Conforms sys pid (scanProcess sys q pid) := by
  have hfailure : firstFailure sys pid = some c := by
    rw [firstFailure, failures, List.findSome?_append, hfirst]
    rfl
  obtain ⟨hstatus, hstderr, hstdout⟩ := scanProcess_of_error hrun hop
  rw [huntouched.stdout] at hstdout
  rw [huntouched.stderr, huntouched.pid, List.nil_append] at hstderr
  have hempty : (scanProcess sys q pid).stdout = [] := List.prefix_nil.mp hstdout
  refine ⟨.inr (.inr hstatus), ?_, ?_, ?_, ?_, fun _ => hempty⟩
  · exact ⟨fun _ => by simp [hfailure], fun _ => hstatus⟩
  · rw [hstderr, hfailure]
    rfl
  · simp [hfailure]
  · rw [hfailure]
    refine ⟨[], [], [], List.Pairwise.nil, by simp, List.prefix_rfl, List.nil_prefix, ?_, hstderr⟩
    rw [hempty]
    exact List.nil_prefix

/-- A run that fails while it prints has kept the order of its lines. -/
theorem conforms_of_stopped (hnone : (setupFailures sys pid).findSome? id = none)
    (hfailure : firstFailure sys pid = some c) (hrun : runScan sys q (.init pid) = .error p)
    (hop : p.st.op = some c) (hstopped : Stopped sys pid (ascending sys) p) :
    Conforms sys pid (scanProcess sys q pid) := by
  obtain ⟨hstatus, hstderr, hstdout⟩ := scanProcess_of_error hrun hop
  obtain ⟨done, hdone, hlines⟩ := hstopped.stderr
  rw [hlines, hstopped.pid] at hstderr
  refine ⟨.inr (.inr hstatus), ?_, ?_, ?_, ?_, fun h => absurd hnone h⟩
  · exact ⟨fun _ => by simp [hfailure], fun _ => hstatus⟩
  · rw [hstderr, List.filter_append, filter_isOperational, hfailure]
    rfl
  · simp [hfailure]
  · rw [hfailure]
    exact ⟨ascending sys, done, countAdvisories sys pid, ascending_strict hnone,
      fun _ => mem_ascending.mp, hdone, List.prefix_rfl, hstdout.trans hstopped.stdout, hstderr⟩

/-- A run in which nothing fails has printed all its lines. -/
theorem conforms_of_inspecting (hnone : (setupFailures sys pid).findSome? id = none)
    (hnothing : firstFailure sys pid = none) (hrun : runScan sys q (.init pid) = .ok p)
    (hp : Inspecting sys pid (ascending sys) p) (hflushed : p.stdout.pending = []) :
    Conforms sys pid (scanProcess sys q pid) := by
  obtain ⟨hstatus, hstderr, hstdout⟩ := scanProcess_of_ok hrun hp.op hflushed
  have hprinted : (scanProcess sys q pid).stdout ≠ [] ↔
      findings sys pid (ascending sys) ≠ [] := by
    rw [hstdout, hp.stdout]
    exact flatten_findings_ne_nil_iff
  have hone : (scanProcess sys q pid).status = 1 ↔
      (scanProcess sys q pid).stdout ≠ [] ∨ (scanProcess sys q pid).stderr ≠ [] := by
    rw [hprinted, ← hp.hadFinding, hstderr, ← hp.hadAdvisory, ← Bool.or_eq_true, hstatus]
    split <;> simp_all
  rw [hp.stderr] at hstderr
  rw [hp.stdout] at hstdout
  have hclean : (scanProcess sys q pid).status = 0 ∨ (scanProcess sys q pid).status = 1 := by
    rw [hstatus]
    split <;> simp
  refine ⟨hclean.imp_right .inl, ?_, ?_, fun _ => ⟨hone, ?_, hstdout, hstderr⟩, ?_,
    fun h => absurd hnone h⟩
  · simp only [hnothing, ne_eq, not_true_eq_false, iff_false]
    omega
  · rw [hstderr, filter_isOperational, hnothing]
    rfl
  · rw [hprinted, findings_ne_nil_iff]
    simp only [mem_ascending]
  · refine ⟨ascending sys, ascending sys, countAdvisories sys pid, ascending_strict hnone,
      fun _ => mem_ascending.mp, List.prefix_rfl, List.prefix_rfl, ?_, ?_⟩
    · rw [hstdout]
    · rw [hstderr, hnothing]
      exact (List.append_nil _).symm

/-- Every run ends in one of these three ways. -/
theorem scanProcess_conforms (q : QSort fdCmp) (hpid : pid ≤ intMax) :
    Conforms sys pid (scanProcess sys q pid) := by
  have hsetup : Passes opCode (setupFailures sys pid) _ _ (setUp sys q (.init pid)) :=
    setUp_passes q hpid
  obtain ⟨hnone, p, hrun, hready, halloc⟩ | ⟨c, p, hfirst, hrun, hop, huntouched⟩ := hsetup.cases
  · have hrest : firstFailure sys pid =
        (outputFailures sys (findings sys pid (ascending sys))).findSome? id := by
      rw [firstFailure, failures, List.findSome?_append, hnone]
      rfl
    have hscan : runScan sys q (.init pid) = printLines sys p := by
      rw [runScan_eq, hrun]
      rfl
    obtain ⟨hnothing, p', hend, hp', hflushed⟩ | ⟨c, p', hfirst, hend, hop, hstopped⟩ :=
      (printLines_passes hpid hready halloc).cases
    · exact conforms_of_inspecting hnone (hrest.trans hnothing) (hscan.trans hend) hp' hflushed
    · exact conforms_of_stopped hnone (hrest.trans hfirst) (hscan.trans hend) hop hstopped
  · have herror : runScan sys q (.init pid) = .error p := by
      rw [runScan_eq, hrun]
      rfl
    exact conforms_of_untouched hfirst herror hop huntouched

end Runs

/-- The contract of a run: its status, the diagnostic of its first failure, what it finds
when nothing fails, and the order of its lines in every case. -/
theorem scanProcess_contract (sys : System) (q : QSort fdCmp) (text : CStr) (pid : ℕ)
    (hpid : parsePid text = some pid) :
    let out := scanProcess sys q pid
    (out.status = 0 ∨ out.status = 1 ∨ out.status = 2) ∧
      (out.status = 2 ↔ firstFailure sys pid ≠ none) ∧
      out.stderr.filter Diagnostic.isOperational =
        (firstFailure sys pid).toList.map (Diagnostic.operational · pid) ∧
      (firstFailure sys pid = none →
        (out.status = 1 ↔ out.stdout ≠ [] ∨ out.stderr ≠ []) ∧
        (out.stdout ≠ [] ↔ ∃ fd ∈ retained sys, StablyUnlinked (sys.look (decimal fd))) ∧
        out.stdout = (findings sys pid (ascending sys)).flatten ∧
        out.stderr = countAdvisories sys pid ++ advisories sys pid (ascending sys)) ∧
      (∃ fds done counts, fds.Pairwise (· < ·) ∧ (∀ fd ∈ fds, fd ∈ retained sys) ∧
        done <+: fds ∧ counts <+: countAdvisories sys pid ∧
        out.stdout <+: (findings sys pid fds).flatten ∧
        out.stderr = counts ++ advisories sys pid done ++
          (firstFailure sys pid).toList.map (Diagnostic.operational · pid)) ∧
      ((setupFailures sys pid).findSome? id ≠ none → out.stdout = []) := by
  intro out
  have h : Conforms sys pid out := scanProcess_conforms q (parseCanonicalInt_le hpid)
  exact ⟨h.status, h.failed, h.operational, h.finished, h.lines, h.unstarted⟩

/-- A process with one descriptor, whose file has no link left. -/
def oneUnlinked : System where
  openDir _ := none
  dup := true
  mallocFds := true
  mallocLink := true
  mallocLine := true
  garbage _ := 0
  fdopendir := true
  entries := [.entry (.lit "."), .entry (.lit "3")]
  closedir := true
  look _ :=
    { first := .ok ⟨1, 2, 0o100644, 0, 5⟩
      link := .ok ⟨ascii "/tmp/x (deleted)", by decide⟩
      second := .ok ⟨1, 2, 0o100644, 0, 5⟩ }
  fwrite _ := ⟨none, 0, false⟩
  fflush := none
  close := true
  exitDrained := 0

def sortFds : QSort fdCmp := .byKey id fdCmp_nonpos

theorem scanProcess_contract_unlinked :
    (scanProcess oneUnlinked sortFds 7).status = 1 ∧
      (scanProcess oneUnlinked sortFds 7).stdout ≠ [] := by
  obtain ⟨-, -, -, hclean, -, -⟩ :=
    scanProcess_contract oneUnlinked sortFds (.lit "7") 7 (by decide)
  obtain ⟨hone, hprinted, -⟩ := hclean (by decide +kernel)
  have hfound : (scanProcess oneUnlinked sortFds 7).stdout ≠ [] := by
    apply hprinted.mpr
    refine ⟨3, by decide +kernel, _, _, _, rfl, rfl, by decide, rfl, ?_⟩
    constructor <;> decide
  exact ⟨hone.mpr (.inl hfound), hfound⟩

end Openunlink
