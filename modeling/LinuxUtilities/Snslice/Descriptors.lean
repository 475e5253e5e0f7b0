import LinuxUtilities.Foundation.Handles
import LinuxUtilities.Snslice.Failures

/-! The descriptors that a run opens, and when each of them is closed exactly once. -/
namespace Snslice
open CString Handles

def FdEvent.asHandle : FdEvent → Event ℕ
  | opened fd => .opened fd
  | used fd => .used fd
  | closed fd => .closed fd

/-- The operations on descriptors so far. -/
def World.trace (w : World) : List (Event ℕ) := w.events.map FdEvent.asHandle

/-- `STDIN_FILENO`. -/
def stdinFileno : ℕ := 0

/-- The input of a run: the standard input, or a file with what `stat` answers, whether it
is a directory, and what `open` does. -/
inductive InputSource where
  | stdin
  | file (path : CStr) (stat : Except Errno Bool) (opened : Option Errno)

/-- `open` of the input, when it succeeds. -/
def World.openInput (w : World) : ℕ × World :=
  (w.nextFd, { w with nextFd := w.nextFd + 1, events := w.events ++ [.opened w.nextFd] })

/-- `main` from the choice of its input on. -/
def sliceSource (cfg : SnSliceConfig) (source : InputSource) (w : World) : ℕ × World :=
  match source with
  | .stdin => sliceInput cfg stdinFileno false w
  | .file path stat opened =>
    let san := sanitizeString path 1024
    match stat with
    | .error err =>
      (2, emitDiagnostic "INPUT_NOT_FOUND"
        (ascii "cannot access input file '" ++ san ++ ascii "': " ++ w.strerror err) w)
    | .ok true =>
      (2, emitDiagnostic "INPUT_IS_DIRECTORY"
        (ascii "input file is a directory: '" ++ san ++ ascii "'") w)
    | .ok false =>
      match opened with
      | some err =>
        (2, emitDiagnostic "INPUT_NOT_FOUND"
          (ascii "cannot open input file '" ++ san ++ ascii "': " ++ w.strerror err) w)
      | none => sliceInput cfg w.openInput.1 true w.openInput.2

section Clean
variable (cfg : SnSliceConfig)

/-- The byte is none that ends the run. -/
def byteClean (c : UInt8) (st : SnSliceState) : Prop :=
  c ≠ 0 ∧ st.recordBytes + 1 ≤ maxRecordBytes ∧ (recordStep cfg.format st.csvState c).isSome

/-- The calls of `write` to come take all of the data. -/
def writeTakes (data : List UInt8) (w : World) : Prop := (writeLoop data w.writes w.errno).ok = true

/-- The slice is written, when the chunk it goes to is open or can be opened. -/
def sliceClean (data : List UInt8) (r : Run) : Prop :=
  data ≠ [] → match r.st.activeChunkFd with
    | some _ => writeTakes data r.world
    | none => ∀ fd r', openChunk cfg r = .ok (fd, r') → writeTakes data r'.world

/-- Each byte and each slice of the block is clean, as far as the block is scanned. -/
def blockClean : List UInt8 → List UInt8 → Run → Prop
  | slice, [], r => sliceClean cfg slice r
  | slice, c :: rest, r => byteClean cfg c r.st ∧ ∀ boundary r',
      acceptByte cfg c r = .ok (boundary, r') →
        if boundary then sliceClean cfg (slice ++ [c]) r' ∧ ∀ r'',
          endRecord cfg (slice ++ [c]) r' = .ok r'' → blockClean [] rest r''
        else blockClean (slice ++ [c]) rest r'

/-- The input may end here. -/
def endClean (st : SnSliceState) : Prop :=
  st.totalInputBytes = 0 ∨ match cfg.format with
    | .ndjson => st.recordBytes = 0
    | .csv => st.csvState ≠ .quoted

/-- No read fails for good, each block is clean and so is the end, as far as the run gets:
nothing leads it into `abort_cleanup`. -/
def streamClean : List ReadResult → Run → Prop
  | [], r => endClean cfg r.st
  | .failed err :: reads, r =>
    err = EINTR ∧ streamClean reads { readInput reads r with world.errno := err }
  | .data block :: reads, r =>
    let r := readInput reads r
    if block.val = [] then endClean cfg r.st
    else
      let r := { r with st.totalInputBytes := r.st.totalInputBytes + block.val.length }
      blockClean cfg [] block.val r ∧ ∀ r', scanBlock cfg [] block.val r = .ok r' →
        streamClean reads r'

/-- The input is not a file that was opened, or the run over it is clean. -/
def sourceClean (source : InputSource) (w : World) : Prop :=
  ∀ path, source = .file path (.ok false) none →
    streamClean cfg w.reads ⟨.init w.openInput.1 true, w.openInput.2⟩

end Clean

section Trace
variable (w : World)

theorem World.close_trace (fd : ℕ) : (w.close fd).2.trace = w.trace ++ [.closed fd] := by
  unfold World.close
  split <;> simp [World.trace, FdEvent.asHandle]

/-- `open` of a chunk makes a descriptor with the next name, or none. -/
theorem World.openExcl_trace {path : CStr} {w' : World} {made : Option ℕ}
    (h : w.openExcl path = (made, w')) :
    made = none ∧ w'.trace = w.trace ∧ w'.nextFd = w.nextFd ∨
      made = some w.nextFd ∧ w'.trace = w.trace ++ [.opened w.nextFd] ∧
        w'.nextFd = w.nextFd + 1 := by
  unfold World.openExcl at h
  dsimp only at h
  split at h
  · obtain ⟨rfl, rfl⟩ := Prod.mk.inj h
    exact .inl ⟨rfl, rfl, rfl⟩
  · split at h
    · obtain ⟨rfl, rfl⟩ := Prod.mk.inj h
      exact .inl ⟨rfl, rfl, rfl⟩
    · obtain ⟨rfl, rfl⟩ := Prod.mk.inj h
      exact .inr ⟨rfl, by simp [World.trace, FdEvent.asHandle], rfl⟩

theorem World.unlink_trace (path : CStr) : (w.unlink path).trace = w.trace := by
  unfold World.unlink
  split <;> rfl

theorem World.writeAll_trace (fd : ℕ) (data : List UInt8) :
    (w.writeAll fd data).2.trace = w.trace ++ [.used fd] := by
  simp [World.writeAll, World.trace, FdEvent.asHandle]

end Trace

/-- How a computation ends: where its steps are `clean` it succeeds or fails one way, and
elsewhere it fails the other way. -/
def Settles {β : Type} (failed aborted : Run → Prop) (clean : Prop) (good : β → Prop) :
    Except Run β → Prop
  | .ok b => clean ∧ good b
  | .error r => clean ∧ failed r ∨ ¬ clean ∧ aborted r

section Settles
variable {β γ : Type} {failed aborted : Run → Prop} {clean clean' : Prop} {good good' : β → Prop}
  {x : Except Run β}

theorem Settles.congr (hx : Settles failed aborted clean good x) (hclean : clean ↔ clean')
    (hgood : ∀ b, good b → good' b) : Settles failed aborted clean' good' x := by
  cases x with
  | ok b => exact ⟨hclean.mp hx.1, hgood b hx.2⟩
  | error r => exact hx.imp (And.imp_left hclean.mp) (And.imp_left (mt hclean.mpr))

theorem Settles.bind {goodC : γ → Prop} {f : β → Except Run γ}
    (hx : Settles failed aborted clean good x) (next : β → Prop)
    (hf : ∀ b, x = .ok b → good b → Settles failed aborted (next b) goodC (f b)) :
    Settles failed aborted (clean ∧ ∀ b, x = .ok b → next b) goodC (x >>= f) := by
  cases x with
  | ok b =>
    apply (hf b rfl hx.2).congr _ fun _ => id
    constructor
    · intro hnext
      refine ⟨hx.1, fun b' hb' => ?_⟩
      obtain rfl := Except.ok.inj hb'
      exact hnext
    · exact fun h => h.2 b rfl
  | error r =>
    rcases hx with ⟨hclean, hfailed⟩ | ⟨hnot, haborted⟩
    · exact .inl ⟨⟨hclean, fun b hb => by contradiction⟩, hfailed⟩
    · exact .inr ⟨fun h => hnot h.1, haborted⟩

end Settles

/-- The input descriptor, when it has to be closed. -/
def ownInput (inputFd : ℕ) (closeInputFd : Bool) : List ℕ := if closeInputFd then [inputFd] else []

/-- The trace is in order, and the descriptors still to be closed are `held`. -/
structure Holds (held : List ℕ) (w : World) : Prop where
  ledger : Ledger (· = stdinFileno) 2 w.trace held
  named : ∀ e ∈ w.trace, e.handle < w.nextFd
  reserved : stdinFileno < w.nextFd

section Holds
variable {held : List ℕ} {fd : ℕ} {w : World}

theorem Holds.lt (h : Holds held w) (hfd : fd ∈ held) : fd < w.nextFd :=
  h.named _ (h.ledger.mem_held.mp hfd).1

theorem Holds.close (h : Holds (held ++ [fd]) w) : Holds held (w.close fd).2 := by
  have hfd := h.lt (List.mem_append_right held (List.mem_singleton_self fd))
  constructor
  · rw [World.close_trace]
    exact h.ledger.closes_last
  · rw [World.close_trace, World.close_nextFd]
    intro e he
    rcases List.mem_append.mp he with he | he
    · exact h.named e he
    · rw [List.mem_singleton.mp he]
      exact hfd
  · rw [World.close_nextFd]
    exact h.reserved

theorem Holds.unlink (h : Holds held w) (path : CStr) : Holds held (w.unlink path) := by
  constructor
  · rw [World.unlink_trace]
    exact h.ledger
  · rw [World.unlink_trace, World.unlink_nextFd]
    exact h.named
  · rw [World.unlink_nextFd]
    exact h.reserved

theorem Holds.write (h : Holds held w) (hfd : fd ∈ held) (data : List UInt8) :
    Holds held (w.writeAll fd data).2 := by
  constructor
  · rw [World.writeAll_trace]
    exact h.ledger.uses (.inl hfd)
  · rw [World.writeAll_trace]
    intro e he
    rcases List.mem_append.mp he with he | he
    · exact h.named e he
    · rw [List.mem_singleton.mp he]
      exact h.lt hfd
  · exact h.reserved

/-- A descriptor that is opened gets a name of its own. -/
theorem Holds.opened (h : Holds held w) (hlen : held.length < 2) {w' : World}
    (htrace : w'.trace = w.trace ++ [.opened w.nextFd]) (hnext : w'.nextFd = w.nextFd + 1) :
    Holds (held ++ [w.nextFd]) w' := by
  constructor
  · rw [htrace]
    refine h.ledger.opens (fun e he => (h.named e he).ne) (fun heq => ?_) hlen
    exact (heq ▸ h.reserved).ne rfl
  · rw [htrace, hnext]
    intro e he
    rcases List.mem_append.mp he with he | he
    · exact (h.named e he).trans (Nat.lt_succ_self _)
    · rw [List.mem_singleton.mp he]
      exact Nat.lt_succ_self _
  · rw [hnext]
    exact h.reserved.trans (Nat.lt_succ_self _)

/-- What a diagnostic, or a change of anything else, leaves in order. -/
theorem Holds.congr (h : Holds held w) {w' : World} (htrace : w'.trace = w.trace)
    (hnext : w'.nextFd = w.nextFd) : Holds held w' :=
  ⟨htrace ▸ h.ledger, hnext ▸ htrace ▸ h.named, hnext ▸ h.reserved⟩

end Holds

section Operations
variable {cfg : SnSliceConfig} {inputFd : ℕ} {closeInputFd : Bool} {r : Run} {data : List UInt8}

/-- A run that goes on: the input is open, and so is the active chunk. -/
structure Running (inputFd : ℕ) (closeInputFd : Bool) (r : Run) : Prop where
  input : r.st.inputFd = some inputFd
  close : r.st.closeInputFd = closeInputFd
  holds : Holds (ownInput inputFd closeInputFd ++ r.st.activeChunkFd.toList) r.world
  usable : inputFd ∈ ownInput inputFd closeInputFd ∨ inputFd = stdinFileno

/-- What follows keeps the count of the input. -/
def KeepsRunning (inputFd : ℕ) (closeInputFd : Bool) (r r' : Run) : Prop :=
  Running inputFd closeInputFd r' ∧ r'.st.totalInputBytes = r.st.totalInputBytes

/-- A chunk could not be opened or closed: the input is left to `main`. -/
def Failed (inputFd : ℕ) (closeInputFd : Bool) (r : Run) : Prop :=
  Holds (ownInput inputFd closeInputFd) r.world

/-- `abort_cleanup` has closed all, the input too. -/
def Aborted (inputFd : ℕ) (closeInputFd : Bool) (r : Run) : Prop :=
  Holds [] r.world ∧ (closeInputFd = true → .closed inputFd ∈ r.world.trace)

theorem ownInput_length (inputFd : ℕ) (closeInputFd : Bool) :
    (ownInput inputFd closeInputFd).length < 2 := by
  cases closeInputFd <;> simp [ownInput]

theorem Running.abortChunk (h : Running inputFd closeInputFd r) :
    Holds (ownInput inputFd closeInputFd) (abortChunk r).world ∧
      (abortChunk r).st.inputFd = some inputFd ∧
      (abortChunk r).st.closeInputFd = closeInputFd := by
  have hholds := h.holds
  unfold Snslice.abortChunk
  cases hactive : r.st.activeChunkFd with
  | none =>
    rw [hactive, Option.toList_none, List.append_nil] at hholds
    exact ⟨hholds, h.input, h.close⟩
  | some fd =>
    rw [hactive, Option.toList_some] at hholds
    dsimp only
    split
    · exact ⟨hholds.close, h.input, h.close⟩
    · exact ⟨hholds.close.unlink _, h.input, h.close⟩

theorem Running.aborted (h : Running inputFd closeInputFd r) :
    Aborted inputFd closeInputFd (abortCleanup r) := by
  obtain ⟨hholds, hinput, hclose⟩ := h.abortChunk
  rw [abortCleanup, abortInput, hinput, hclose]
  cases closeInputFd with
  | false => exact ⟨hholds, fun hfalse => by contradiction⟩
  | true =>
    dsimp only
    refine ⟨@Holds.close [] _ _ hholds, fun _ => ?_⟩
    rw [World.close_trace]
    exact List.mem_append_right _ (List.mem_singleton_self _)

theorem Aborted.diagnosed (h : Aborted inputFd closeInputFd r) (hazard : String)
    (details : List UInt8) :
    Aborted inputFd closeInputFd { r with world := emitDiagnostic hazard details r.world } :=
  ⟨h.1.congr rfl rfl, h.2⟩

/-- `open_chunk` opens the chunk, or leaves all as it was. -/
theorem openChunk_settles (h : Running inputFd closeInputFd r)
    (hactive : r.st.activeChunkFd = none) :
    Settles (Failed inputFd closeInputFd) (Aborted inputFd closeInputFd) True
      (fun a => KeepsRunning inputFd closeInputFd r a.2 ∧ a.2.st.activeChunkFd = some a.1)
      (openChunk cfg r) := by
  have hholds := h.holds
  rw [hactive, Option.toList_none, List.append_nil] at hholds
  unfold openChunk
  dsimp only
  split
  · exact .inl ⟨trivial, hholds.congr rfl rfl⟩
  · split
    next fd w hopen =>
      rcases r.world.openExcl_trace hopen with ⟨hnone, -⟩ | ⟨hsome, htrace, hnext⟩
      · contradiction
      · obtain rfl := Option.some.inj hsome
        refine ⟨trivial, ⟨⟨h.input, h.close, ?_, h.usable⟩, rfl⟩, rfl⟩
        exact hholds.opened (ownInput_length inputFd closeInputFd) htrace hnext
    next w hopen =>
      rcases r.world.openExcl_trace hopen with ⟨-, htrace, hnext⟩ | ⟨hsome, -⟩
      · split
        · exact .inl ⟨trivial, hholds.congr htrace hnext⟩
        · exact .inl ⟨trivial, hholds.congr htrace hnext⟩
      · contradiction

theorem writeOpen_settles (h : Running inputFd closeInputFd r) {fd : ℕ}
    (hactive : r.st.activeChunkFd = some fd) :
    Settles (Failed inputFd closeInputFd) (Aborted inputFd closeInputFd)
      (writeTakes data r.world) (KeepsRunning inputFd closeInputFd r) (writeOpen data fd r) := by
  have hmem : fd ∈ ownInput inputFd closeInputFd ++ r.st.activeChunkFd.toList := by
    rw [hactive]
    simp
  have hwrite := h.holds.write hmem data
  unfold writeOpen
  split
  next w hw =>
    rw [hw] at hwrite
    have htakes : writeTakes data r.world := congrArg Prod.fst hw
    exact ⟨htakes, ⟨h.input, h.close, hwrite, h.usable⟩, rfl⟩
  next w hw =>
    rw [hw] at hwrite
    have htakes : ¬ writeTakes data r.world := by
      have hfalse : (writeLoop data r.world.writes r.world.errno).ok = false :=
        congrArg Prod.fst hw
      simp [writeTakes, hfalse]
    have haborted : Aborted inputFd closeInputFd (abortCleanup ⟨r.st, w⟩) :=
      Running.aborted ⟨h.input, h.close, hwrite, h.usable⟩
    dsimp only
    split
    · exact .inr ⟨htakes, haborted.diagnosed _ _⟩
    · exact .inr ⟨htakes, haborted.diagnosed _ _⟩

theorem writeToChunk_settles (h : Running inputFd closeInputFd r) :
    Settles (Failed inputFd closeInputFd) (Aborted inputFd closeInputFd)
      (sliceClean cfg data r) (KeepsRunning inputFd closeInputFd r) (writeToChunk cfg data r) := by
  unfold writeToChunk sliceClean
  by_cases hnil : data = []
  · rw [if_pos hnil]
    exact ⟨fun hne => absurd hnil hne, h, rfl⟩
  · rw [if_neg hnil]
    cases hactive : r.st.activeChunkFd with
    | some fd => exact (writeOpen_settles h hactive).congr (by simp [hnil]) fun _ => id
    | none =>
      have hopen := @openChunk_settles cfg _ _ _ h hactive
      apply (hopen.bind (fun a => writeTakes data a.2.world) fun a _ ha => ?_).congr
        (by simp [hnil]) fun _ => id
      obtain ⟨⟨hrunning, htotal⟩, hfd⟩ := ha
      apply (writeOpen_settles hrunning hfd).congr Iff.rfl
      exact fun r' hr' => ⟨hr'.1, hr'.2.trans htotal⟩

/-- `close_chunk` closes the chunk also when it fails. -/
theorem closeChunk_settles (h : Running inputFd closeInputFd r) :
    Settles (Failed inputFd closeInputFd) (Aborted inputFd closeInputFd) True
      (fun r' => KeepsRunning inputFd closeInputFd r r' ∧ r'.st.activeChunkFd = none)
      (closeChunk r) := by
  have hholds := h.holds
  unfold closeChunk
  cases hactive : r.st.activeChunkFd with
  | none => exact ⟨trivial, ⟨h, rfl⟩, hactive⟩
  | some fd =>
    rw [hactive, Option.toList_some] at hholds
    have hclosed := hholds.close
    dsimp only
    split
    next w hw =>
      rw [hw] at hclosed
      exact .inl ⟨trivial, (hclosed.unlink _).congr rfl rfl⟩
    next w hw =>
      rw [hw] at hclosed
      refine ⟨trivial, ⟨⟨h.input, h.close, ?_, h.usable⟩, rfl⟩, rfl⟩
      rw [Option.toList_none, List.append_nil]
      exact hclosed

theorem endRecord_settles (h : Running inputFd closeInputFd r) :
    Settles (Failed inputFd closeInputFd) (Aborted inputFd closeInputFd)
      (sliceClean cfg data r) (KeepsRunning inputFd closeInputFd r) (endRecord cfg data r) := by
  unfold endRecord
  have hwrite := @writeToChunk_settles cfg _ _ _ data h
  apply (hwrite.bind (fun _ => True) fun r₁ _ hr₁ => ?_).congr
    (and_iff_left fun _ _ => trivial) fun _ => id
  obtain ⟨hrunning, htotal⟩ := hr₁
  have hcounted : Running inputFd closeInputFd
      { r₁ with st.recordBytes := 0, st.chunkRecords := r₁.st.chunkRecords + 1 } :=
    ⟨hrunning.input, hrunning.close, hrunning.holds, hrunning.usable⟩
  dsimp only
  split
  · apply (closeChunk_settles hcounted).congr Iff.rfl
    exact fun r' hr' => ⟨hr'.1.1, hr'.1.2.trans htotal⟩
  · exact ⟨trivial, hcounted, htotal⟩

theorem acceptByte_settles (h : Running inputFd closeInputFd r) (c : UInt8) :
    Settles (Failed inputFd closeInputFd) (Aborted inputFd closeInputFd)
      (byteClean cfg c r.st) (fun a => KeepsRunning inputFd closeInputFd r a.2)
      (acceptByte cfg c r) := by
  unfold acceptByte byteClean
  by_cases hzero : c = 0
  · rw [if_pos hzero]
    exact .inr ⟨fun hclean => hclean.1 hzero, h.aborted.diagnosed _ _⟩
  · rw [if_neg hzero]
    have hcounted : Running inputFd closeInputFd
        { r with st.recordBytes := r.st.recordBytes + 1 } :=
      ⟨h.input, h.close, h.holds, h.usable⟩
    dsimp only
    by_cases hlong : maxRecordBytes < r.st.recordBytes + 1
    · rw [if_pos hlong]
      refine .inr ⟨fun hclean => ?_, hcounted.aborted.diagnosed _ _⟩
      exact absurd hclean.2.1 (not_le.mpr hlong)
    · rw [if_neg hlong]
      split
      next s boundary hstep =>
        refine ⟨⟨hzero, not_lt.mp hlong, by rw [hstep]; rfl⟩, ?_, rfl⟩
        exact ⟨h.input, h.close, h.holds, h.usable⟩
      next hstep =>
        refine .inr ⟨fun hclean => ?_, hcounted.aborted.diagnosed _ _⟩
        rw [hstep] at hclean
        exact absurd hclean.2.2 (by simp)

theorem scanBlock_settles {slice block : List UInt8} (h : Running inputFd closeInputFd r) :
    Settles (Failed inputFd closeInputFd) (Aborted inputFd closeInputFd)
      (blockClean cfg slice block r) (KeepsRunning inputFd closeInputFd r)
      (scanBlock cfg slice block r) := by
  induction block generalizing slice r with
  | nil => exact writeToChunk_settles h
  | cons c rest ih =>
    unfold scanBlock blockClean
    have haccept := @acceptByte_settles cfg _ _ _ h c
    apply (haccept.bind (fun a => if a.1 then sliceClean cfg (slice ++ [c]) a.2 ∧ ∀ r'',
      endRecord cfg (slice ++ [c]) a.2 = .ok r'' → blockClean cfg [] rest r''
      else blockClean cfg (slice ++ [c]) rest a.2) fun a _ ha => ?_).congr
        (by rw [Prod.forall]) fun _ => id
    obtain ⟨boundary, r₁⟩ := a
    obtain ⟨hrunning, htotal⟩ := ha
    dsimp only at hrunning htotal ⊢
    cases boundary with
    | true =>
      rw [if_pos rfl, if_pos rfl]
      apply (endRecord_settles hrunning).bind
      rintro r₂ - ⟨hrunning₂, htotal₂⟩
      apply (ih hrunning₂).congr Iff.rfl
      exact fun r' hr' => ⟨hr'.1, hr'.2.trans (htotal₂.trans htotal)⟩
    | false =>
      rw [if_neg Bool.false_ne_true, if_neg Bool.false_ne_true]
      apply (ih hrunning).congr Iff.rfl
      exact fun r' hr' => ⟨hr'.1, hr'.2.trans htotal⟩

/-- All that was opened but the input is closed. -/
def Finished (inputFd : ℕ) (closeInputFd : Bool) (r : Run) : Prop :=
  Holds (ownInput inputFd closeInputFd) r.world

theorem finishInput_settles (h : Running inputFd closeInputFd r)
    (hidle : r.st.totalInputBytes = 0 → r.st.activeChunkFd = none) :
    Settles (Failed inputFd closeInputFd) (Aborted inputFd closeInputFd)
      (endClean cfg r.st) (Finished inputFd closeInputFd) (finishInput cfg r) := by
  have hclose : ∀ {s : Run}, Running inputFd closeInputFd s → endClean cfg r.st →
      Settles (Failed inputFd closeInputFd) (Aborted inputFd closeInputFd)
        (endClean cfg r.st) (Finished inputFd closeInputFd) (closeChunk s) := by
    intro s hs hclean
    apply (closeChunk_settles hs).congr (iff_of_true trivial hclean)
    rintro r' ⟨⟨hrunning, -⟩, hnone⟩
    have hholds := hrunning.holds
    rwa [hnone, Option.toList_none, List.append_nil] at hholds
  unfold finishInput
  by_cases hempty : r.st.totalInputBytes = 0
  · rw [if_pos hempty]
    refine ⟨.inl hempty, ?_⟩
    have hholds := h.holds
    rwa [hidle hempty, Option.toList_none, List.append_nil] at hholds
  · rw [if_neg hempty]
    cases hformat : cfg.format with
    | ndjson =>
      dsimp only
      by_cases hbytes : 0 < r.st.recordBytes
      · rw [if_pos hbytes]
        refine .inr ⟨fun hclean => ?_, h.aborted.diagnosed _ _⟩
        rw [endClean, hformat] at hclean
        exact hclean.elim hempty hbytes.ne'
      · rw [if_neg hbytes]
        apply hclose h
        rw [endClean, hformat]
        exact .inr (Nat.eq_zero_of_not_pos hbytes)
    | csv =>
      dsimp only
      by_cases hquoted : r.st.csvState = .quoted
      · rw [if_pos hquoted]
        refine .inr ⟨fun hclean => ?_, h.aborted.diagnosed _ _⟩
        rw [endClean, hformat] at hclean
        exact hclean.elim hempty fun hnot => hnot hquoted
      · rw [if_neg hquoted]
        have hclean : endClean cfg r.st := by
          rw [endClean, hformat]
          exact .inr hquoted
        split
        · exact hclose ⟨h.input, h.close, h.holds, h.usable⟩ hclean
        · exact hclose h hclean

/-- A `read` uses the input. -/
theorem Running.read (h : Running inputFd closeInputFd r) (reads : List ReadResult) :
    Running inputFd closeInputFd (readInput reads r) := by
  refine ⟨h.input, h.close, ?_, h.usable⟩
  have htrace : (readInput reads r).world.trace = r.world.trace ++ [.used inputFd] := by
    simp [readInput, h.input, World.trace, FdEvent.asHandle]
  have hlt : inputFd < r.world.nextFd := by
    rcases h.usable with hown | rfl
    · exact h.holds.lt (List.mem_append_left _ hown)
    · exact h.holds.reserved
  constructor
  · rw [htrace]
    exact h.holds.ledger.uses (h.usable.imp_left (List.mem_append_left _))
  · rw [htrace]
    intro e he
    rcases List.mem_append.mp he with he | he
    · exact h.holds.named e he
    · rw [List.mem_singleton.mp he]
      exact hlt
  · exact h.holds.reserved

theorem readLoop_settles {reads : List ReadResult} (h : Running inputFd closeInputFd r)
    (hidle : r.st.totalInputBytes = 0 → r.st.activeChunkFd = none) :
    Settles (Failed inputFd closeInputFd) (Aborted inputFd closeInputFd)
      (streamClean cfg reads r) (Finished inputFd closeInputFd) (readLoop cfg reads r) := by
  induction reads generalizing r with
  | nil => exact finishInput_settles (h.read []) hidle
  | cons answer reads ih =>
    have hread := h.read reads
    cases answer with
    | failed err =>
      unfold readLoop streamClean
      have herr : Running inputFd closeInputFd { readInput reads r with world.errno := err } :=
        ⟨hread.input, hread.close, hread.holds.congr rfl rfl, hread.usable⟩
      dsimp only
      by_cases hintr : err = EINTR
      · rw [if_pos hintr]
        exact (ih herr hidle).congr (and_iff_right hintr).symm fun _ => id
      · rw [if_neg hintr]
        exact .inr ⟨fun hclean => hintr hclean.1, herr.aborted.diagnosed _ _⟩
    | data block =>
      unfold readLoop streamClean
      dsimp only
      by_cases hnil : block.val = []
      · rw [if_pos hnil, if_pos hnil]
        exact finishInput_settles hread hidle
      · rw [if_neg hnil, if_neg hnil]
        have hcounted : Running inputFd closeInputFd { readInput reads r with
            st.totalInputBytes := (readInput reads r).st.totalInputBytes + block.val.length } :=
          ⟨hread.input, hread.close, hread.holds, hread.usable⟩
        apply (scanBlock_settles hcounted).bind
        rintro r' - ⟨hrunning, htotal⟩
        apply ih hrunning
        intro hzero
        have hpos := List.length_pos_iff.mpr hnil
        rw [htotal] at hzero
        dsimp only at hzero
        omega

/-- `main` closes the input that is left to it. -/
theorem Holds.finish {w : World} (h : Holds (ownInput inputFd closeInputFd) w) :
    Disciplined 2 (if closeInputFd then (w.close inputFd).2 else w).trace := by
  cases closeInputFd with
  | false => exact h.ledger.disciplined
  | true => exact (@Holds.close [] _ _ h).ledger.disciplined

theorem sliceInput_disciplined {w : World}
    (h : Running inputFd closeInputFd ⟨.init inputFd closeInputFd, w⟩) :
    Disciplined 2 (sliceInput cfg inputFd closeInputFd w).2.trace ↔
      (closeInputFd = true → streamClean cfg w.reads ⟨.init inputFd closeInputFd, w⟩) := by
  have hsettles := @readLoop_settles cfg _ _ _ w.reads h fun _ => rfl
  unfold sliceInput streamSlice
  cases hloop : readLoop cfg w.reads ⟨.init inputFd closeInputFd, w⟩ with
  | ok r =>
    rw [hloop] at hsettles
    obtain ⟨hclean, hfinished⟩ := hsettles
    exact iff_of_true hfinished.finish fun _ => hclean
  | error r =>
    rw [hloop] at hsettles
    rcases hsettles with ⟨hclean, hfailed⟩ | ⟨hnot, hholds, hclosed⟩
    · exact iff_of_true hfailed.finish fun _ => hclean
    · cases closeInputFd with
      | false => exact iff_of_true hholds.ledger.disciplined fun hfalse => by contradiction
      | true =>
        refine iff_of_false ?_ fun hclean => hnot (hclean rfl)
        dsimp only
        rw [if_pos rfl, World.close_trace]
        exact not_disciplined_of_closed (hclosed rfl)

end Operations

/-- Each descriptor that a run opens is closed once and not touched afterwards, with at most
two open at a time, if and only if its input is not a file or nothing leads the run over the
file into `abort_cleanup`. -/
theorem sliceSource_disciplined_iff (cfg : SnSliceConfig) (source : InputSource) (w : World)
    (hstart : w.events = []) (hreserved : stdinFileno < w.nextFd) :
    Disciplined 2 (sliceSource cfg source w).2.trace ↔ sourceClean cfg source w := by
  have hholds : Holds [] w := by
    have htrace : w.trace = [] := by rw [World.trace, hstart, List.map_nil]
    refine ⟨?_, ?_, hreserved⟩
    · rw [htrace]
      exact .start
    · rw [htrace]
      exact fun e he => absurd he List.not_mem_nil
  cases source with
  | stdin =>
    apply (@sliceInput_disciplined cfg stdinFileno false w ⟨rfl, rfl, hholds, .inr rfl⟩).trans
    refine iff_of_true (fun hfalse => by contradiction) fun path hpath => by contradiction
  | file path stat opened =>
    have hunopened : ∀ (hazard : String) (details : List UInt8),
        Disciplined 2 (emitDiagnostic hazard details w).trace :=
      fun hazard details => hholds.ledger.disciplined
    unfold sliceSource sourceClean
    match stat, opened with
    | .error err, _ => exact iff_of_true (hunopened _ _) fun path hpath => by simp at hpath
    | .ok true, _ => exact iff_of_true (hunopened _ _) fun path hpath => by simp at hpath
    | .ok false, some err =>
      exact iff_of_true (hunopened _ _) fun path hpath => by simp at hpath
    | .ok false, none =>
      have hopened : Holds [w.nextFd] w.openInput.2 := by
        apply hholds.opened Nat.zero_lt_two
        · simp [World.openInput, World.trace, FdEvent.asHandle]
        · rfl
      have hrunning : Running w.openInput.1 true ⟨.init w.openInput.1 true, w.openInput.2⟩ :=
        ⟨rfl, rfl, hopened, .inl (List.mem_singleton_self _)⟩
      apply (@sliceInput_disciplined cfg _ _ _ hrunning).trans
      exact ⟨fun hclean _ _ => hclean rfl, fun hclean _ => hclean path rfl⟩

/-- A file that holds a NUL byte. -/
def nulWorld : World where
  files := fun _ => none
  reads := [.data ⟨[0], by decide⟩]
  opens := []
  writes := []
  closes := []
  unlinks := []
  errno := 0
  strerror := fun _ => []
  targets := fun _ => none
  nextFd := 1
  events := []
  stderr := []

def nulConfig : SnSliceConfig := ⟨.ndjson, 0, 1, .lit ".", .lit "chunk_"⟩

theorem sliceSource_disciplined_iff_nul :
    Disciplined 2 (sliceSource nulConfig (.file (.lit "in") (.ok false) none) nulWorld).2.trace ↔
      sourceClean nulConfig (.file (.lit "in") (.ok false) none) nulWorld :=
  sliceSource_disciplined_iff nulConfig _ nulWorld rfl (by decide)

/-- The input is closed by `abort_cleanup` and once more by `main`. -/
theorem sliceSource_closes_twice :
    (sliceSource nulConfig (.file (.lit "in") (.ok false) none) nulWorld).2.trace =
        [.opened 1, .used 1, .closed 1, .closed 1] ∧
      ¬ Disciplined 2
        (sliceSource nulConfig (.file (.lit "in") (.ok false) none) nulWorld).2.trace := by
  have htrace : (sliceSource nulConfig (.file (.lit "in") (.ok false) none) nulWorld).2.trace =
      [.opened 1, .used 1, .closed 1, .closed 1] := by decide +kernel
  refine ⟨htrace, ?_⟩
  rw [htrace]
  exact @not_disciplined_of_closed _ _ 2 [.opened 1, .used 1, .closed 1] 1 (by decide)

end Snslice
