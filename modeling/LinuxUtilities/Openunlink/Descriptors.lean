import LinuxUtilities.Foundation.Handles
import LinuxUtilities.Openunlink.Scan

/-! Who closes the descriptor of the process directory and its duplicate, whatever fails in a
run. The duplicate belongs to the directory stream once `fdopendir` has succeeded. -/
namespace Openunlink
open CString Handles

def FdEvent.asHandle : FdEvent → Event Fd
  | opened fd => .opened fd
  | used fd => .used fd
  | adopted fd => .used fd
  | closed fd => .closed fd
  | streamClosed fd => .closed fd

namespace Process

/-- The operations on descriptors so far. -/
def trace (p : Process) : List (Event Fd) := p.events.map FdEvent.asHandle

/-- The descriptors that the state has to release. -/
def held (p : Process) : List Fd := p.st.dirFd.toList ++ p.st.dupFd.toList ++ p.st.dir.toList

end Process

/-- No descriptor is held but those of the state, each by one of its fields. The directory
stream holds those that it has taken over and not yet closed. -/
structure Owns (p : Process) : Prop where
  ledger : Ledger (fun _ => False) 2 p.trace p.held
  exclusive : p.st.dir ≠ none → p.st.dupFd = none
  adopted : ∀ fd, .adopted fd ∈ p.events ↔ p.st.dir = some fd ∨ .streamClosed fd ∈ p.events
  closed : ∀ fd, .closed fd ∈ p.events → .adopted fd ∉ p.events
  duplicate : ∀ fd, p.st.dupFd = some fd ∨ .adopted fd ∈ p.events → fd = .duplicate

/-- A run ends with an invariant, or fails with the descriptors held by the state. -/
def Ends (good : Process → Prop) : Except Process Process → Prop
  | .ok p => good p
  | .error p => Owns p

section Owned
variable {p p' : Process} {good good' : Process → Prop}

theorem Ends.bind {x : Except Process Process} {f : Step} (hx : Ends good x)
    (hf : ∀ p, good p → Ends good' (f p)) : Ends good' (x >>= f) := by
  cases x with
  | ok p => exact hf p hx
  | error p => exact hx

/-- The fields of the state and the operations are the same. -/
structure SameHandles (p p' : Process) : Prop where
  events : p'.events = p.events
  dirFd : p'.st.dirFd = p.st.dirFd
  dupFd : p'.st.dupFd = p.st.dupFd
  dir : p'.st.dir = p.st.dir

theorem Owns.congr (h : Owns p) (hs : SameHandles p p') : Owns p' := by
  have htrace : p'.trace = p.trace := congrArg (List.map FdEvent.asHandle) hs.events
  have hheld : p'.held = p.held := by
    unfold Process.held
    rw [hs.dirFd, hs.dupFd, hs.dir]
  refine ⟨?_, ?_, ?_, ?_, ?_⟩
  · rw [htrace, hheld]
    exact h.ledger
  · rw [hs.dir, hs.dupFd]
    exact h.exclusive
  · rw [hs.events, hs.dir]
    exact h.adopted
  · rw [hs.events]
    exact h.closed
  · rw [hs.events, hs.dupFd]
    exact h.duplicate

theorem sameHandles_setOp (code : OpCode) (p : Process) : SameHandles p (p.setOp code) := by
  unfold Process.setOp
  split <;> constructor <;> rfl

theorem sameHandles_emitFdAdvisory (code : Advisory) (fd : ℕ) (p : Process) :
    SameHandles p (p.emitFdAdvisory code fd) := by
  constructor <;> rfl

theorem Owns.failOp (h : Owns p) (code : OpCode) : Ends good (failOp code p) :=
  h.congr (sameHandles_setOp code p)

theorem trace_note (p : Process) (event : Fd → FdEvent) (fd : Fd) :
    (p.note event (some fd)).trace = p.trace ++ [(event fd).asHandle] := by
  simp [Process.trace, Process.note]

/-- A descriptor that is held is passed to a call. -/
theorem Owns.uses (h : Owns p) {fd : Option Fd} (hheld : ∀ d ∈ fd, d ∈ p.held) :
    Owns (p.note .used fd) := by
  cases fd with
  | none =>
    refine h.congr ?_
    constructor <;> simp [Process.note]
  | some d =>
    refine ⟨?_, h.exclusive, ?_, ?_, ?_⟩
    · rw [trace_note]
      exact h.ledger.uses (.inl (hheld d rfl))
    · simpa [Process.note] using h.adopted
    · simpa [Process.note] using h.closed
    · simpa [Process.note] using h.duplicate

theorem Owns.uses_dirFd (h : Owns p) : Owns (p.note .used p.st.dirFd) :=
  h.uses fun d hd => by simp [Process.held, Option.mem_def.mp hd]

theorem Owns.uses_dupFd (h : Owns p) : Owns (p.note .used p.st.dupFd) :=
  h.uses fun d hd => by simp [Process.held, Option.mem_def.mp hd]

theorem Owns.uses_dir (h : Owns p) : Owns (p.note .used p.st.dir) :=
  h.uses fun d hd => by simp [Process.held, Option.mem_def.mp hd]

/-- A descriptor that is held has not been closed. -/
theorem Owns.not_closed (h : Owns p) {fd : Fd} (hheld : fd ∈ p.held) :
    .closed fd ∉ p.events ∧ .streamClosed fd ∉ p.events := by
  have hclosed := (h.ledger.mem_held.mp hheld).2
  exact ⟨fun hmem => hclosed (List.mem_map_of_mem hmem),
    fun hmem => hclosed (List.mem_map_of_mem hmem)⟩

/-- `fdopendir` takes the duplicate over. -/
theorem Owns.adopt (h : Owns p) (hdir : p.st.dir = none) :
    Owns { p.note .adopted p.st.dupFd with st.dir := p.st.dupFd, st.dupFd := none } := by
  cases hdup : p.st.dupFd with
  | none =>
    refine h.congr ?_
    constructor <;> simp [Process.note, hdup, hdir]
  | some d =>
    have hheld : d ∈ p.held := by simp [Process.held, hdup]
    have hfresh := h.not_closed hheld
    refine ⟨?_, fun _ => rfl, ?_, ?_, ?_⟩
    · have htrace := h.ledger.uses (.inl hheld)
      rw [show p.held = p.st.dirFd.toList ++ [d] by simp [Process.held, hdup, hdir]] at htrace
      simpa [Process.trace, Process.note, Process.held, FdEvent.asHandle] using htrace
    · intro fd
      have hadopted := h.adopted fd
      simp only [hdir, reduceCtorEq, false_or] at hadopted
      simp [Process.note, hadopted, or_comm, eq_comm]
    · intro fd hmem
      have hclosed : .closed fd ∈ p.events := by simpa [Process.note] using hmem
      have hne : fd ≠ d := by
        intro heq
        exact hfresh.1 (heq ▸ hclosed)
      simpa [Process.note, hne] using h.closed fd hclosed
    · intro fd hmem
      have hfd : .adopted fd ∈ p.events ∨ fd = d := by simpa [Process.note] using hmem
      rcases hfd with hfd | rfl
      · exact h.duplicate fd (.inr hfd)
      · exact h.duplicate fd (.inl hdup)

/-- `closedir` closes the descriptor of the stream. -/
theorem Owns.closeDir (h : Owns p) :
    Owns { p.note .streamClosed p.st.dir with st.dir := none } := by
  cases hdir : p.st.dir with
  | none =>
    refine h.congr ?_
    constructor <;> simp [Process.note, hdir]
  | some d =>
    have hheld : d ∈ p.held := by simp [Process.held, hdir]
    have hadopted : .adopted d ∈ p.events := (h.adopted d).mpr (.inl hdir)
    refine ⟨?_, by simp, ?_, ?_, ?_⟩
    · have hledger := h.ledger
      rw [show p.held = p.st.dirFd.toList ++ p.st.dupFd.toList ++ [d] by
        simp [Process.held, hdir]] at hledger
      simpa [Process.trace, Process.note, Process.held, FdEvent.asHandle] using
        hledger.closes_last
    · intro fd
      have hother := h.adopted fd
      simp only [hdir, Option.some.injEq] at hother
      simp [Process.note, hother, or_comm, eq_comm]
    · intro fd hclosed
      have hclosed : .closed fd ∈ p.events := by simpa [Process.note] using hclosed
      simpa [Process.note] using h.closed fd hclosed
    · simpa [Process.note] using h.duplicate

/-- `close` of the descriptor that is held last, when there is no stream. -/
theorem Owns.closes (h : Owns p) {d : Fd} (hdir : p.st.dir = none) (hheld : p.held = p'.held ++ [d])
    (hevents : p'.events = p.events ++ [.closed d]) (hdir' : p'.st.dir = none)
    (hdup : ∀ fd, p'.st.dupFd = some fd → p.st.dupFd = some fd) : Owns p' := by
  have hmem : d ∈ p.held := by simp [hheld]
  have hadopted : .adopted d ∉ p.events := by
    rw [h.adopted d, hdir]
    simp [(h.not_closed hmem).2]
  refine ⟨?_, fun hne => absurd hdir' hne, ?_, ?_, ?_⟩
  · have hledger := h.ledger
    rw [hheld] at hledger
    simpa [Process.trace, hevents, FdEvent.asHandle] using hledger.closes_last
  · simpa [hevents, hdir', hdir] using h.adopted
  · intro fd hclosed
    rw [hevents] at hclosed ⊢
    have hclosed : .closed fd ∈ p.events ∨ fd = d := by simpa using hclosed
    rcases hclosed with hclosed | rfl
    · simpa using h.closed fd hclosed
    · simpa using hadopted
  · intro fd hmem
    have hfd : p'.st.dupFd = some fd ∨ .adopted fd ∈ p.events := by simpa [hevents] using hmem
    exact h.duplicate fd (hfd.imp_left (hdup fd))

theorem Owns.closeDup (h : Owns p) (hdir : p.st.dir = none) :
    Owns { p.note .closed p.st.dupFd with st.dupFd := none } := by
  cases hdup : p.st.dupFd with
  | none =>
    refine h.congr ?_
    constructor <;> simp [Process.note, hdup]
  | some d =>
    refine h.closes hdir ?_ rfl hdir (by simp)
    simp [Process.held, Process.note, hdup, hdir]

theorem Owns.closeDirFd (h : Owns p) (hdir : p.st.dir = none) (hdup : p.st.dupFd = none) :
    Owns { p.note .closed p.st.dirFd with st.dirFd := none } := by
  cases hprocess : p.st.dirFd with
  | none =>
    refine h.congr ?_
    constructor <;> simp [Process.note, hprocess]
  | some d =>
    refine h.closes hdir ?_ rfl hdir fun _ => id
    simp [Process.held, Process.note, hprocess, hdup, hdir]

/-- The duplicate, if there is one, belongs to the stream. -/
structure Streaming (p : Process) : Prop extends Owns p where
  dupFd : p.st.dupFd = none

/-- There is no duplicate, and no stream. -/
structure Detached (p : Process) : Prop extends Streaming p where
  dir : p.st.dir = none

theorem Streaming.congr (h : Streaming p) (hs : SameHandles p p') : Streaming p' :=
  ⟨h.toOwns.congr hs, hs.dupFd.trans h.dupFd⟩

theorem Detached.congr (h : Detached p) (hs : SameHandles p p') : Detached p' :=
  ⟨h.toStreaming.congr hs, hs.dir.trans h.dir⟩

theorem Streaming.uses_dir (h : Streaming p) : Streaming (p.note .used p.st.dir) :=
  ⟨h.toOwns.uses_dir, h.dupFd⟩

theorem Detached.uses_dirFd (h : Detached p) : Detached (p.note .used p.st.dirFd) :=
  ⟨⟨h.toOwns.uses_dirFd, h.dupFd⟩, h.dir⟩

end Owned

section Steps
variable {sys : System} {p : Process}

/-- What the process directory is opened from: nothing was done to a descriptor. -/
theorem openProcess_ends (pid : ℕ) :
    Ends (fun p => Owns p ∧ p.events = [.opened .process] ∧ p.st.dirFd = some .process ∧
      p.st.dupFd = none ∧ p.st.dir = none) (openProcess sys (.init pid)) := by
  have hinit : Owns (.init pid) :=
    ⟨.start, fun _ => rfl, by simp [Process.init], by simp [Process.init],
      by simp [Process.init]⟩
  unfold openProcess
  split
  · exact hinit.failOp _
  split
  · exact hinit.failOp _
  split
  · exact hinit.failOp _
  · refine ⟨⟨?_, fun _ => rfl, ?_, ?_, ?_⟩, rfl, rfl, rfl, rfl⟩
    · exact Ledger.start.opens (by simp) (by simp) (by decide)
    · simp [Process.note, Process.init]
    · simp [Process.note, Process.init]
    · simp [Process.note, Process.init]

theorem duplicate_ends (h : Owns p) (hevents : p.events = [.opened .process])
    (hdirFd : p.st.dirFd = some .process) (hdupFd : p.st.dupFd = none) (hdir : p.st.dir = none) :
    Ends (fun p => Owns p ∧ p.st.dir = none) (duplicate sys p) := by
  unfold duplicate
  split
  · exact h.uses_dirFd.failOp _
  · refine ⟨⟨?_, fun hne => absurd hdir hne, ?_, ?_, ?_⟩, hdir⟩
    · have hfresh : ∀ e ∈ (p.note .used p.st.dirFd).trace, e.handle ≠ Fd.duplicate := by
        simp [Process.trace, Process.note, hevents, hdirFd, FdEvent.asHandle, Event.handle]
      have hroom : (p.note .used p.st.dirFd).held.length < 2 := by
        simp [Process.note, Process.held, hdirFd, hdupFd, hdir]
      have hopened := h.uses_dirFd.ledger.opens hfresh not_false hroom
      simpa [Process.trace, Process.note, Process.held, hevents, hdirFd, hdupFd, hdir,
        FdEvent.asHandle] using hopened
    · simp [Process.note, hevents, hdirFd, hdir]
    · simp [Process.note, hevents, hdirFd]
    · simp [Process.note, hevents, hdirFd, eq_comm]

theorem allocateScanBuffers_ends (h : Owns p) (hdir : p.st.dir = none) :
    Ends (fun p => Owns p ∧ p.st.dir = none) (allocateScanBuffers sys p) := by
  unfold allocateScanBuffers
  split
  · exact h.failOp _
  split
  · exact h.failOp _
  simp only
  split
  · refine Owns.failOp (h.congr ?_) _
    constructor <;> rfl
  split
  · refine Owns.failOp (h.congr ?_) _
    constructor <;> rfl
  split
  · refine Owns.failOp (h.congr ?_) _
    constructor <;> rfl
  · refine ⟨h.congr ?_, hdir⟩
    constructor <;> rfl

theorem openStream_ends (h : Owns p) (hdir : p.st.dir = none) :
    Ends Streaming (openStream sys p) := by
  unfold openStream
  split
  · exact h.uses_dupFd.failOp _
  · exact ⟨h.uses_dupFd.adopt hdir, rfl⟩

theorem enumerateFds_ends (entries : List ReaddirResult) (h : Streaming p) :
    Ends Streaming (enumerateFds entries p) := by
  induction entries generalizing p with
  | nil => exact h.uses_dir
  | cons entry entries ih =>
    cases entry with
    | failed => exact h.uses_dir.toOwns.failOp _
    | entry name =>
      unfold enumerateFds
      simp only
      split
      · exact ih h.uses_dir
      split
      · exact h.uses_dir.toOwns.failOp _
      split
      · refine h.uses_dir.congr ?_
        constructor <;> rfl
      · refine ih (h.uses_dir.congr ?_)
        constructor <;> rfl

theorem closeStream_ends (h : Streaming p) : Ends Detached (closeStream sys p) := by
  unfold closeStream
  split
  · exact h.toOwns.closeDir.failOp _
  · exact ⟨⟨h.toOwns.closeDir, h.dupFd⟩, rfl⟩

theorem sortAndCheckDuplicates_ends (q : QSort fdCmp) (h : Detached p) :
    Ends Detached (sortAndCheckDuplicates q p) := by
  have hsorted : Detached (if 1 < p.st.retained.length then
      { p with st.fds := some (q.sort p.st.retained) } else p) := by
    split
    · refine h.congr ?_
      constructor <;> rfl
    · exact h
  have hchecked : ∀ p, Detached p → Ends Detached
      (if neighboursEqual p.st.retained then failOp .processScan p else .ok p) := by
    intro p h
    split
    · exact h.toOwns.failOp _
    · exact h
  exact hchecked _ hsorted

theorem sameHandles_emitFinding (fd size : ℕ) (target : List UInt8) (p : Process) :
    SameHandles p (emitFinding sys fd size target p).2 := by
  have hwrite : ∀ (data : List UInt8) (p : Process),
      SameHandles p (writeStdoutBytes sys data p).2 := by
    intro data p
    unfold writeStdoutBytes
    split <;> constructor <;> rfl
  unfold emitFinding
  split
  · constructor <;> rfl
  split
  · constructor <;> rfl
  split
  · constructor <;> rfl
  next line buf _ =>
    have hline := hwrite line { p with st.lineBuf := some buf }
    split
    next heq =>
      rw [heq] at hline
      exact ⟨hline.events, hline.dirFd, hline.dupFd, hline.dir⟩
    next heq =>
      rw [heq] at hline
      exact ⟨hline.events, hline.dirFd, hline.dupFd, hline.dir⟩

theorem inspectOne_ends (fd : ℕ) (h : Detached p) : Ends Detached (inspectOne sys fd p) := by
  have hfirst := h.uses_dirFd
  have hlink := hfirst.uses_dirFd
  have hsecond := hlink.uses_dirFd
  unfold inspectOne
  split
  · exact h.toOwns.failOp _
  simp only
  split
  · exact hfirst.congr (sameHandles_emitFdAdvisory _ _ _)
  split
  · exact hfirst
  split
  · exact hlink.congr (sameHandles_emitFdAdvisory _ _ _)
  split
  · exact hlink.congr (sameHandles_emitFdAdvisory _ _ _)
  split
  · exact hlink.congr (sameHandles_emitFdAdvisory _ _ _)
  split
  · exact hsecond.congr (sameHandles_emitFdAdvisory _ _ _)
  split
  · exact hsecond.congr (sameHandles_emitFdAdvisory _ _ _)
  split
  · exact hsecond
  split
  · exact hsecond.congr (sameHandles_emitFdAdvisory _ _ _)
  next size _ =>
    split
    next p' heq =>
      have hsame := congrArg Prod.snd heq ▸ sameHandles_emitFinding fd _ _ _
      exact (hsecond.congr hsame).toOwns.failOp _
    next p' heq =>
      have hsame := congrArg Prod.snd heq ▸ sameHandles_emitFinding fd _ _ _
      exact hsecond.congr hsame

theorem inspectAll_ends (fds : List ℕ) (h : Detached p) : Ends Detached (inspectAll sys fds p) := by
  induction fds generalizing p with
  | nil => exact h
  | cons fd fds ih => exact (inspectOne_ends fd h).bind fun _ => ih

theorem flushStdout_ends (h : Detached p) : Ends Detached (flushStdout sys p) := by
  have hflushed : Detached { p with stdout := p.stdout.fflush sys.fflush } := by
    refine h.congr ?_
    constructor <;> rfl
  unfold flushStdout
  simp only
  split
  · exact hflushed.toOwns.failOp _
  · exact hflushed

theorem closeProcess_ends (h : Detached p) : Ends Owns (closeProcess sys p) := by
  have hclosed := h.toOwns.closeDirFd h.dir h.dupFd
  unfold closeProcess
  split
  · exact hclosed.failOp _
  · exact hclosed

/-- However a scan ends, the state holds what is open. -/
theorem runScan_ends (q : QSort fdCmp) (pid : ℕ) : Ends Owns (runScan sys q (.init pid)) := by
  unfold runScan
  refine (openProcess_ends pid).bind fun p hopened => ?_
  obtain ⟨howns, hevents, hdirFd, hdupFd, hdir⟩ := hopened
  refine (duplicate_ends howns hevents hdirFd hdupFd hdir).bind fun p hduplicate => ?_
  refine (allocateScanBuffers_ends hduplicate.1 hduplicate.2).bind fun p halloc => ?_
  refine (openStream_ends halloc.1 halloc.2).bind fun p hstream => ?_
  refine (enumerateFds_ends sys.entries hstream).bind fun p henumerated => ?_
  refine (closeStream_ends henumerated).bind fun p hdetached => ?_
  refine (sortAndCheckDuplicates_ends q hdetached).bind fun p hsorted => ?_
  have hcounted : Detached (if p.st.fdCountLimit then p.emitCountAdvisory else p) := by
    split
    · refine hsorted.congr ?_
      constructor <;> rfl
    · exact hsorted
  refine (inspectAll_ends _ hcounted).bind fun p hinspected => ?_
  refine (flushStdout_ends hinspected).bind fun p hflushed => ?_
  exact closeProcess_ends hflushed

/-- `cleanup_scan` releases what the state holds. -/
theorem cleanupScan_owns (h : Owns p) : Owns (cleanupScan p) ∧ (cleanupScan p).held = [] := by
  have hfirst : Owns (if p.st.dir.isSome then
      { p.note .streamClosed p.st.dir with st.dir := none, st.dupFd := none } else p) := by
    split
    next hdir =>
      refine h.closeDir.congr ?_
      have hdup : p.st.dupFd = none := h.exclusive (by simpa [Option.isSome_iff_ne_none] using hdir)
      constructor <;> simp [Process.note, hdup]
    next => exact h
  have hnone : (if p.st.dir.isSome then
      { p.note .streamClosed p.st.dir with st.dir := none, st.dupFd := none } else p).st.dir =
        none := by
    split
    · rfl
    next hdir => simpa using hdir
  have hsecond := hfirst.closeDup hnone
  have hthird := hsecond.closeDirFd hnone rfl
  refine ⟨hthird.congr ?_, ?_⟩
  · constructor <;> rfl
  · have hheld : (cleanupScan p).held = [].append ((cleanupScan p).st.dir.toList) := rfl
    have hdir : (cleanupScan p).st.dir = none := hnone
    rw [hheld, hdir]
    rfl

end Steps

theorem opened_mem_handles {events : List FdEvent} {fd : Fd} :
    Event.opened fd ∈ events.map FdEvent.asHandle ↔ .opened fd ∈ events := by
  rw [List.mem_map]
  constructor
  · intro h
    obtain ⟨e, he, heq⟩ := h
    cases e with
    | opened fd' => exact Event.opened.inj heq ▸ he
    | used fd' | adopted fd' | closed fd' | streamClosed fd' => contradiction
  · intro h
    exact ⟨_, h, rfl⟩

theorem closed_mem_handles {events : List FdEvent} {fd : Fd} :
    Event.closed fd ∈ events.map FdEvent.asHandle ↔
      .closed fd ∈ events ∨ .streamClosed fd ∈ events := by
  rw [List.mem_map]
  constructor
  · intro h
    obtain ⟨e, he, heq⟩ := h
    cases e with
    | closed fd' => exact .inl (Event.closed.inj heq ▸ he)
    | streamClosed fd' => exact .inr (Event.closed.inj heq ▸ he)
    | opened fd' | used fd' | adopted fd' => contradiction
  · intro h
    rcases h with h | h
    · exact ⟨_, h, rfl⟩
    · exact ⟨_, h, rfl⟩

/-- Whatever succeeds or fails in a run, each of the two descriptors that was made is closed
exactly once, and nothing is done to it afterwards. What `fdopendir` has taken over, which is the
duplicate or nothing, is closed by `closedir` alone, and all else by `close` alone. -/
theorem scanProcess_releases (sys : System) (q : QSort fdCmp) (pid : ℕ) :
    Disciplined 2 ((scanProcess sys q pid).events.map FdEvent.asHandle) ∧
      ∀ fd, (.adopted fd ∈ (scanProcess sys q pid).events → fd = .duplicate) ∧
        (.streamClosed fd ∈ (scanProcess sys q pid).events ↔
          .adopted fd ∈ (scanProcess sys q pid).events) ∧
        (.closed fd ∈ (scanProcess sys q pid).events ↔
          .opened fd ∈ (scanProcess sys q pid).events ∧
            .adopted fd ∉ (scanProcess sys q pid).events) := by
  have hscan : Owns (match runScan sys q (.init pid) with
      | .ok p => p
      | .error p => p) := by
    have hends := @runScan_ends sys q pid
    generalize runScan sys q (.init pid) = result at hends ⊢
    cases result with
    | ok p => exact hends
    | error p => exact hends
  generalize hp : (match runScan sys q (.init pid) with
      | .ok p => p
      | .error p => p) = p at hscan
  have hreported : Owns p.emitOperational := by
    refine hscan.congr ?_
    unfold Process.emitOperational
    split <;> constructor <;> rfl
  have hevents : (scanProcess sys q pid).events = (cleanupScan p.emitOperational).events := by
    rw [← hp]
    rfl
  obtain ⟨howns, hheld⟩ := cleanupScan_owns hreported
  have hledger := howns.ledger
  rw [hheld] at hledger
  have hdir : (cleanupScan p.emitOperational).st.dir = none := by
    simpa using (List.append_eq_nil_iff.mp hheld).2
  rw [hevents]
  refine ⟨hledger.disciplined, fun fd => ?_⟩
  have hadopted := howns.adopted fd
  rw [hdir] at hadopted
  have hstream : .streamClosed fd ∈ (cleanupScan p.emitOperational).events ↔
      .adopted fd ∈ (cleanupScan p.emitOperational).events := by
    simpa using hadopted.symm
  refine ⟨fun h => howns.duplicate fd (.inr h), hstream, ?_⟩
  constructor
  · intro hclosed
    have hopened := hledger.opened_of_closed (closed_mem_handles.mpr (.inl hclosed))
    exact ⟨opened_mem_handles.mp hopened, howns.closed fd hclosed⟩
  · intro h
    obtain ⟨hopened, hnotAdopted⟩ := h
    by_contra hnotClosed
    have hnone : Event.closed fd ∉ (cleanupScan p.emitOperational).trace := by
      intro hmem
      rcases closed_mem_handles.mp hmem with hclosed | hclosed
      · exact hnotClosed hclosed
      · exact hnotAdopted (hstream.mp hclosed)
    exact absurd (hledger.mem_held.mpr ⟨opened_mem_handles.mpr hopened, hnone⟩) List.not_mem_nil

end Openunlink
