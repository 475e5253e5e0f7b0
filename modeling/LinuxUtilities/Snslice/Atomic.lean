import LinuxUtilities.Snslice.Failures

/-! A run that fails leaves the completed chunks and nothing else, and which ones does not
depend on how the input came in blocks. -/
namespace Snslice
open CString GreedyPartition

/-- Bytes that `stream_slice` takes without an error, with their cut. -/
structure Readable (format : FormatType) (input : List UInt8) (p : Cut) : Prop where
  cut : cutInput format .init input = some p
  nulFree : (0 : UInt8) ∉ input
  within : p.Within maxRecordBytes

section Readable
variable {format : FormatType} {l m : List UInt8} {p q : Cut} {c : UInt8}

theorem Accepted.readable (h : Accepted format l p) : Readable format l p :=
  ⟨h.cut, h.nulFree, h.within⟩

theorem Readable.init (format : FormatType) : Readable format [] .init :=
  ⟨rfl, by simp, by decide⟩

theorem Readable.unique (h : Readable format l p) (h' : Readable format l q) : p = q :=
  Option.some.inj (h.cut.symm.trans h'.cut)

theorem Readable.append (h : Readable format (l ++ m) q) :
    ∃ p, Readable format l p ∧ cutInput format p m = some q := by
  obtain ⟨p, hp, hq⟩ := cutInput_append h.cut
  refine ⟨p, ⟨hp, fun hmem => h.nulFree (List.mem_append_left _ hmem), ?_⟩, hq⟩
  exact Cut.Within.of_cutInput hq h.within

theorem Readable.ne_nil (h : Readable format l p) : ∀ x ∈ p.records, x ≠ [] :=
  cutInput_ne_nil (p := .init) (by simp [Cut.init]) h.cut

/-- The checks on a byte decide whether it can follow. -/
theorem Readable.concat_iff (h : Readable format l p) :
    Readable format (l ++ [c]) q ↔
      c ≠ 0 ∧ p.tail.length < maxRecordBytes ∧ p.step format c = some q := by
  constructor
  · intro hq
    obtain ⟨p', hp', hcut⟩ := hq.append
    obtain rfl := h.unique hp'
    obtain ⟨q', hstep, hnil⟩ := cutInput_cons hcut
    obtain rfl := Option.some.inj hnil
    refine ⟨?_, (Cut.Within.of_step hstep hq.within).2, hstep⟩
    rintro rfl
    exact hq.nulFree (by simp)
  · rintro ⟨hc, hlen, hstep⟩
    constructor
    · rw [cutInput, List.foldlM_append]
      simp only [List.foldlM_cons, List.foldlM_nil]
      rw [show List.foldlM (Cut.step format) Cut.init l = some p from h.cut]
      simp [hstep]
    · simpa using ⟨h.nulFree, hc.symm⟩
    · obtain ⟨s, boundary, -, rfl⟩ := Cut.step_eq_some hstep
      obtain ⟨hrecords, -⟩ := h.within
      cases boundary with
      | false => exact ⟨hrecords, by simpa using hlen⟩
      | true =>
        refine ⟨?_, by simp⟩
        intro x hx
        obtain hold | rfl := by simpa using hx
        · exact hrecords x hold
        · simpa using hlen

end Readable

/-- The bytes that the `read` results hand over before the end of file or an error, and
the error. -/
def delivered : List ReadResult → List UInt8 × Option Errno
  | [] => ([], none)
  | .failed err :: reads => if err = EINTR then delivered reads else ([], some err)
  | .data block :: reads =>
    if block.val = [] then ([], none)
    else (block.val ++ (delivered reads).1, (delivered reads).2)

/-- Why a run stops after some of the bytes, in a system whose calls on chunks all
succeed: the next byte is an error, the end of the input is one, or the next chunk is
needed and cannot be created. -/
inductive Cause (cfg : SnSliceConfig) (w : World) (input : List UInt8) (err : Option Errno)
    (l : List UInt8) (p : Cut) : Prop
  | rejected (c : UInt8) (before : l ++ [c] <+: input)
      (never : ∀ q, ¬ Readable cfg.format (l ++ [c]) q)
  | ended (all : l = input) (bad : err ≠ none ∨ ¬ p.Terminated cfg.format)
  | blocked (m : List UInt8) (q : Cut) (before : m <+: input) (reads : Readable cfg.format m q)
      (needed : (p.filling cfg).closed.length < (q.chunks cfg).length)
      (never : ¬ Creatable w (chunkPath cfg ((p.filling cfg).closed.length + 1)))

/-- How a run fails: some first part of the input was read, and of its chunks those that
are complete are left. -/
def Halted (cfg : SnSliceConfig) (w : World) (input : List UInt8) (err : Option Errno) (r : Run) :
    Prop :=
  ∃ l p, l <+: input ∧ Readable cfg.format l p ∧
    Left cfg w ((p.filling cfg).closed.map List.flatten) (Cause cfg w input err l p) r

/-- What holds before each byte of a run in which nothing failed. -/
structure Scanning (cfg : SnSliceConfig) (w : World) (p : Cut) (slice : List UInt8) (total : ℕ)
    (r : Run) : Prop where
  standing : ∃ content, content ++ slice = p.content cfg ∧
    Standing cfg w ((p.filling cfg).closed.map List.flatten) content r
  chunkRecords : r.st.chunkRecords = (p.filling cfg).current.length
  recordBytes : r.st.recordBytes = p.tail.length
  csvState : r.st.csvState = p.state
  total : r.st.totalInputBytes = total

section Scan
variable {cfg : SnSliceConfig} {w : World} {input l block slice : List UInt8} {err : Option Errno}
  {p q : Cut} {total : ℕ} {r : Run}

/-- A byte joins the slice, or is an error. -/
theorem acceptByte_ends {c : UInt8} (h : Scanning cfg w p slice total r)
    (hl : Readable cfg.format l p) (hc : l ++ [c] <+: input) :
    Ends
      (fun a => ∃ s, recordStep cfg.format p.state c = some (s, a.1) ∧
        (∃ q, Readable cfg.format (l ++ [c]) q) ∧
        Scanning cfg w ⟨p.records, p.tail ++ [c], s⟩ (slice ++ [c]) total a.2)
      (Halted cfg w input err) (acceptByte cfg c r) := by
  obtain ⟨content, hcontent, hstanding⟩ := h.standing
  have hhalt : ∀ r', SameChunk r r' → (∀ q, ¬ Readable cfg.format (l ++ [c]) q) →
      Left cfg w ((p.filling cfg).closed.map List.flatten) (Cause cfg w input err l p)
        (abortCleanup r') :=
    fun r' hsame hnever => (hstanding.congr hsame).left fun _ => .rejected c hc hnever
  have hbefore : l <+: input := (List.prefix_append l [c]).trans hc
  have hcounted : SameChunk r { r with st.recordBytes := r.st.recordBytes + 1 } := by
    constructor <;> rfl
  unfold acceptByte
  by_cases hzero : c = 0
  · have hleft := hhalt r (by constructor <;> rfl) fun q hq => (hl.concat_iff.mp hq).1 hzero
    simp only [hzero, ↓reduceIte]
    exact ⟨l, p, hbefore, hl, hleft.diagnosed _ _⟩
  simp only [hzero, ↓reduceIte]
  by_cases hlen : maxRecordBytes < r.st.recordBytes + 1
  · have hleft := hhalt _ hcounted fun q hq => by
      have hroom := (hl.concat_iff.mp hq).2.1
      rw [h.recordBytes] at hlen
      omega
    simp only [hlen, ↓reduceIte]
    exact ⟨l, p, hbefore, hl, hleft.diagnosed _ _⟩
  simp only [hlen, ↓reduceIte]
  cases hstep : recordStep cfg.format r.st.csvState c with
  | none =>
    rw [h.csvState] at hstep
    have hleft := hhalt _ hcounted fun q hq => by
      have hcut := (hl.concat_iff.mp hq).2.2
      simp [Cut.step, hstep] at hcut
    exact ⟨l, p, hbefore, hl, hleft.diagnosed _ _⟩
  | some next =>
    rw [h.csvState] at hstep
    obtain ⟨s, boundary⟩ := next
    have hroom : p.tail.length < maxRecordBytes := by
      rw [h.recordBytes] at hlen
      omega
    refine ⟨s, hstep, ⟨_, hl.concat_iff.mpr ⟨hzero, hroom, by rw [Cut.step, hstep]; rfl⟩⟩, ?_⟩
    constructor
    · refine ⟨content, ?_, hstanding.congr (by constructor <;> rfl)⟩
      rw [← List.append_assoc, hcontent, Cut.content, Cut.content, List.append_assoc]
      rfl
    · exact h.chunkRecords
    · simp [h.recordBytes]
    · rfl
    · exact h.total

/-- A record boundary completes the record, and the chunk when a limit is reached. -/
theorem endRecord_ends (h : Scanning cfg w p slice total r) (htail : p.tail ≠ []) :
    Ends (Scanning cfg w ⟨p.records ++ [p.tail], [], p.state⟩ [] total)
      (Left cfg w ((p.filling cfg).closed.map List.flatten)
        (¬ Creatable w (chunkPath cfg ((p.filling cfg).closed.length + 1))))
      (endRecord cfg slice r) := by
  obtain ⟨content, hcontent, hstanding⟩ := h.standing
  unfold endRecord
  apply Ends.bind ((writeToChunk_ends slice hstanding).imp (fun _ => id) _)
  · intro r₁ hwritten
    obtain ⟨hstanding₁, hrec₁, hsame₁⟩ := hwritten
    rw [hcontent] at hstanding₁
    let chunk := (p.filling cfg).current ++ [p.tail]
    have hflat : p.content cfg = chunk.flatten := by simp [Cut.content, chunk]
    have hne : chunk.flatten ≠ [] := by simp [chunk, htail]
    rw [hflat] at hstanding₁
    let r₂ : Run := { r₁ with st.recordBytes := 0, st.chunkRecords := r₁.st.chunkRecords + 1 }
    have hstanding₂ : Standing cfg w ((p.filling cfg).closed.map List.flatten) chunk.flatten r₂ :=
      hstanding₁.congr (by constructor <;> rfl)
    have hrecords : r₂.st.chunkRecords = chunk.length := by
      simp [r₂, hrec₁, h.chunkRecords, chunk]
    have hbytes : r₂.st.chunkBytes = chunk.flatten.length := by
      obtain ⟨hnil, -⟩ | ⟨-, fd, hactive⟩ := hstanding₂
      · exact absurd hnil hne
      · exact hactive.bytes
    have hsplit : shouldSplit cfg r₂.st = reachesLimit cfg chunk := shouldSplit_eq hbytes hrecords
    have hfilling : (⟨p.records ++ [p.tail], [], p.state⟩ : Cut).filling cfg =
        (p.filling cfg).push (reachesLimit cfg) p.tail := fill_concat _ _ _
    show Ends _ _ (if shouldSplit cfg r₂.st then closeChunk r₂ else .ok r₂)
    rw [hsplit]
    cases hcloses : reachesLimit cfg chunk with
    | true =>
      rw [Filling.push_closes hcloses] at hfilling
      simp only [↓reduceIte]
      apply (closeChunk_ends hstanding₂).imp
      · intro r₃ hclosed
        obtain ⟨hidle, hrec₃, hsame₃⟩ := hclosed
        simp only [hne, ↓reduceIte] at hidle
        constructor
        · refine ⟨[], by simp [Cut.content, hfilling], .inl ⟨rfl, ?_⟩⟩
          simpa only [hfilling, List.map_append, List.map_cons, List.map_nil] using hidle
        · simp [hrec₃ hne, hfilling]
        · exact hsame₃.recordBytes
        · exact hsame₃.csvState.trans (hsame₁.csvState.trans h.csvState)
        · exact hsame₃.total.trans (hsame₁.total.trans h.total)
      · intro r₃ hleft
        exact hleft.imp False.elim
    | false =>
      rw [Filling.push_open hcloses] at hfilling
      simp only [Bool.false_eq_true, ↓reduceIte]
      constructor
      · refine ⟨chunk.flatten, by simp [Cut.content, hfilling, chunk], ?_⟩
        simpa only [hfilling] using hstanding₂
      · simp only [hfilling]
        exact hrecords
      · rfl
      · exact hsame₁.csvState.trans h.csvState
      · exact hsame₁.total.trans h.total
  · intro r' hleft
    exact hleft.imp fun hnever => by simpa using hnever.2

/-- A block moves the state from the cut before it to the cut after it, or halts the run. -/
theorem scanBlock_ends (h : Scanning cfg w p slice total r) (hl : Readable cfg.format l p)
    (hblock : l ++ block <+: input) :
    Ends (fun r' => ∃ q, Readable cfg.format (l ++ block) q ∧ Scanning cfg w q [] total r')
      (Halted cfg w input err) (scanBlock cfg slice block r) := by
  induction block generalizing l p slice r with
  | nil =>
    rw [List.append_nil] at hblock ⊢
    obtain ⟨content, hcontent, hstanding⟩ := h.standing
    apply (writeToChunk_ends slice hstanding).imp
    · intro r' ⟨hstanding', hrec, hsame⟩
      refine ⟨p, hl, ?_⟩
      constructor
      · exact ⟨content ++ slice, by simpa using hcontent, hstanding'⟩
      · exact hrec.trans h.chunkRecords
      · exact hsame.recordBytes.trans h.recordBytes
      · exact hsame.csvState.trans h.csvState
      · exact hsame.total.trans h.total
    · intro r' hleft
      refine ⟨l, p, hblock, hl, hleft.imp ?_⟩
      rintro ⟨hne, hnever⟩
      rw [hcontent] at hne
      rw [List.length_map] at hnever
      exact .blocked l p hblock hl (Cut.closed_lt_chunks hne) hnever
  | cons c rest ih =>
    have hrest : (l ++ [c]) ++ rest <+: input := by simpa using hblock
    have hc : l ++ [c] <+: input := (List.prefix_append _ rest).trans hrest
    unfold scanBlock
    apply (acceptByte_ends h hl hc).bind
    rintro ⟨boundary, r₁⟩ ⟨s, hauto, ⟨q, hq⟩, hscanning⟩
    obtain ⟨-, -, hstep⟩ := hl.concat_iff.mp hq
    have hneeded := (Cut.length_chunks_step hstep).1
    obtain ⟨s', boundary', hauto', rfl⟩ := Cut.step_eq_some hstep
    obtain ⟨rfl, rfl⟩ := Prod.mk.inj (Option.some.inj (hauto.symm.trans hauto'))
    rw [show l ++ c :: rest = (l ++ [c]) ++ rest by simp]
    cases boundary with
    | false => exact ih hscanning hq hrest
    | true =>
      simp only [↓reduceIte]
      apply Ends.bind ((endRecord_ends hscanning (by simp)).imp (fun _ => id) _)
      · intro r₂ hscanning₂
        exact ih hscanning₂ hq hrest
      · intro r' hleft
        exact ⟨l, p, (List.prefix_append l [c]).trans hc, hl,
          hleft.imp fun hnever => .blocked _ _ hc hq hneeded hnever⟩

/-- A `read` and its result do not touch the chunks. -/
theorem Scanning.congr (h : Scanning cfg w p [] total r) {s : Run} {total' : ℕ}
    (hsame : SameChunk r s) (hrecords : s.st.chunkRecords = r.st.chunkRecords)
    (hscan : SameScan r.st s.st) (htotal : s.st.totalInputBytes = total') :
    Scanning cfg w p [] total' s := by
  obtain ⟨content, hcontent, hstanding⟩ := h.standing
  constructor
  · exact ⟨content, hcontent, hstanding.congr hsame⟩
  · exact hrecords.trans h.chunkRecords
  · exact hscan.recordBytes.trans h.recordBytes
  · exact hscan.csvState.trans h.csvState
  · exact htotal

/-- At the end of the input the last chunk is completed, or the end is an error. -/
theorem finishInput_ends (h : Scanning cfg w p [] l.length r) (hl : Readable cfg.format l p) :
    Ends
      (fun r' => p.Terminated cfg.format ∧ Idle cfg w ((p.chunks cfg).map List.flatten) r')
      (Halted cfg w l err) (finishInput cfg r) := by
  obtain ⟨content, hcontent, hstanding⟩ := h.standing
  rw [List.append_nil] at hcontent
  subst hcontent
  have hchunks : (p.chunks cfg).map List.flatten = _ := Cut.chunks_content hl.ne_nil
  have hclose : p.Terminated cfg.format → ∀ r', SameChunk r r' → Ends
      (fun r' => p.Terminated cfg.format ∧ Idle cfg w ((p.chunks cfg).map List.flatten) r')
      (Halted cfg w l err) (closeChunk r') := by
    intro hterm r' hsame
    apply (closeChunk_ends (hstanding.congr hsame)).imp
    · intro r'' ⟨hidle, _⟩
      rw [hchunks]
      exact ⟨hterm, hidle⟩
    · intro r'' hleft
      exact ⟨l, p, List.prefix_rfl, hl, hleft.imp False.elim⟩
  have habort : ¬ p.Terminated cfg.format →
      Left cfg w ((p.filling cfg).closed.map List.flatten) (Cause cfg w l err l p)
        (abortCleanup r) :=
    fun hbad => hstanding.left fun _ => .ended rfl (.inr hbad)
  unfold finishInput
  rw [h.total]
  by_cases hempty : l.length = 0
  · simp only [hempty, ↓reduceIte]
    obtain rfl := List.eq_nil_of_length_eq_zero hempty
    obtain rfl := hl.unique (Readable.init cfg.format)
    obtain ⟨-, hidle⟩ | ⟨hne, -⟩ := hstanding
    · exact ⟨by cases hformat : cfg.format <;> simp [Cut.Terminated, Cut.init], hidle⟩
    · exact absurd rfl hne
  · simp only [hempty, ↓reduceIte]
    rw [h.recordBytes, h.csvState]
    have hsame : SameChunk r r := by constructor <;> rfl
    cases hformat : cfg.format with
    | ndjson =>
      by_cases htail : p.tail = []
      · simp only [htail, List.length_nil, lt_irrefl, ↓reduceIte]
        rw [hformat] at hclose
        exact hclose htail r hsame
      · have hpos : 0 < p.tail.length := List.length_pos_iff.mpr htail
        simp only [hpos, ↓reduceIte]
        rw [hformat] at habort
        exact ⟨l, p, List.prefix_rfl, hl, (habort htail).diagnosed _ _⟩
    | csv =>
      by_cases hquoted : p.state = .quoted
      · simp only [hquoted, ↓reduceIte]
        rw [hformat] at habort
        exact ⟨l, p, List.prefix_rfl, hl, (habort (not_not.mpr hquoted)).diagnosed _ _⟩
      · simp only [hquoted, ↓reduceIte]
        rw [hformat] at hclose
        split
        · exact hclose hquoted _ (by constructor <;> rfl)
        · exact hclose hquoted r hsame

/-- What holds when `stream_slice` succeeds: all of the input was read and accepted, and
its chunks are complete. -/
def Completed (cfg : SnSliceConfig) (w : World) (input : List UInt8) (err : Option Errno)
    (r : Run) : Prop :=
  err = none ∧ ∃ q, Accepted cfg.format input q ∧ Idle cfg w ((q.chunks cfg).map List.flatten) r

/-- The end of file, wherever the loop meets it. -/
theorem endOfFile_ends (h : Scanning cfg w p [] l.length r) (hl : Readable cfg.format l p)
    (reads : List ReadResult) :
    Ends (Completed cfg w l none) (Halted cfg w l none) (finishInput cfg (readInput reads r)) := by
  have hread : Scanning cfg w p [] l.length (readInput reads r) :=
    h.congr (by constructor <;> rfl) rfl ⟨rfl, rfl⟩ h.total
  apply (finishInput_ends hread hl).imp
  · intro r' ⟨hterm, hidle⟩
    exact ⟨rfl, p, ⟨hl.cut, hl.nulFree, hl.within, hterm⟩, hidle⟩
  · exact fun _ => id

/-- The loop over the blocks moves the state from the cut before the blocks to that of the
whole input and completes the chunks, or halts the run. -/
theorem readLoop_ends {reads : List ReadResult} (h : Scanning cfg w p [] l.length r)
    (hl : Readable cfg.format l p) (hinput : l ++ (delivered reads).1 = input)
    (herr : (delivered reads).2 = err) :
    Ends (Completed cfg w input err) (Halted cfg w input err) (readLoop cfg reads r) := by
  induction reads generalizing l p r with
  | nil =>
    simp only [delivered, List.append_nil] at hinput herr
    subst hinput herr
    exact endOfFile_ends h hl []
  | cons o reads ih =>
    unfold readLoop
    cases o with
    | failed e =>
      have hread : Scanning cfg w p [] l.length { readInput reads r with world.errno := e } :=
        h.congr (by constructor <;> rfl) rfl ⟨rfl, rfl⟩ h.total
      by_cases he : e = EINTR
      · simp only [delivered, he, ↓reduceIte] at hinput herr hread ⊢
        exact ih hread hl hinput herr
      · simp only [delivered, he, ↓reduceIte, List.append_nil] at hinput herr ⊢
        subst hinput herr
        obtain ⟨content, -, hstanding⟩ := hread.standing
        have hcause : Cause cfg w l (some e) l p := .ended rfl (.inl (by simp))
        exact ⟨l, p, List.prefix_rfl, hl, (hstanding.left fun _ => hcause).diagnosed _ _⟩
    | data block =>
      by_cases hblock : block.val = []
      · simp only [delivered, hblock, ↓reduceIte, List.append_nil] at hinput herr ⊢
        subst hinput herr
        exact endOfFile_ends h hl reads
      · simp only [delivered, hblock, ↓reduceIte] at hinput herr ⊢
        have hread : Scanning cfg w p [] (l ++ block.val).length
            { readInput reads r with
              st.totalInputBytes := r.st.totalInputBytes + block.val.length } :=
          h.congr (by constructor <;> rfl) rfl ⟨rfl, rfl⟩ (by simp [h.total])
        have hbefore : l ++ block.val <+: input := ⟨(delivered reads).1, by simpa using hinput⟩
        apply (scanBlock_ends hread hl hbefore).bind
        intro r' hread'
        obtain ⟨q, hq, hscanning⟩ := hread'
        exact ih hscanning hq (by simpa using hinput) herr

theorem Scanning.init (cfg : SnSliceConfig) (w : World) (hunlinks : ∀ o ∈ w.unlinks, o = none)
    (inputFd : ℕ) (closeInputFd : Bool) :
    Scanning cfg w .init [] 0 ⟨.init inputFd closeInputFd, w⟩ := by
  constructor
  · exact ⟨[], rfl, .inl ⟨rfl, Smooth.refl w, hunlinks, ChunkFiles.refl,
      fun i hi => absurd hi (Nat.not_lt_zero i), rfl, rfl, rfl, rfl⟩⟩
  · rfl
  · rfl
  · rfl
  · rfl

/-- Every run completes its chunks or halts with those that are complete. -/
theorem streamSlice_ends (cfg : SnSliceConfig) (w : World) (hunlinks : ∀ o ∈ w.unlinks, o = none)
    (inputFd : ℕ) (closeInputFd : Bool) :
    Ends (Completed cfg w (delivered w.reads).1 (delivered w.reads).2)
      (Halted cfg w (delivered w.reads).1 (delivered w.reads).2)
      (streamSlice cfg ⟨.init inputFd closeInputFd, w⟩) :=
  readLoop_ends (Scanning.init cfg w hunlinks inputFd closeInputFd) (Readable.init cfg.format)
    rfl rfl

end Scan

section Halts
variable {cfg : SnSliceConfig} {w : World} {input l m : List UInt8} {err : Option Errno}
  {p q : Cut}

/-- More input only adds closed chunks. -/
theorem Cut.closed_prefix (h : cutInput cfg.format p l = some q) :
    (p.filling cfg).closed <+: (q.filling cfg).closed := by
  apply cutInput_induction (motive := fun q => (p.filling cfg).closed <+: (q.filling cfg).closed)
    _ List.prefix_rfl h
  intro q c q' hq hc
  obtain ⟨s, boundary, -, rfl⟩ := Cut.step_eq_some hc
  cases boundary with
  | false => exact hq
  | true =>
    apply hq.trans
    simp only [↓reduceIte, Cut.filling, fill_concat]
    unfold Filling.push
    split
    · exact List.prefix_append _ _
    · exact List.prefix_rfl

/-- Of two places where runs over one input stop, the later has no more closed chunks, since
what stops the first stops the second. -/
theorem Cause.closed_eq (hl : Readable cfg.format l p) (hm : Readable cfg.format m q)
    (hcause : Cause cfg w input err l p) (hbefore : l <+: m) (hinput : m <+: input)
    (hcreated : ∀ i < (q.filling cfg).closed.length, Creatable w (chunkPath cfg (i + 1))) :
    (p.filling cfg).closed = (q.filling cfg).closed := by
  obtain ⟨rest, rfl⟩ := hbefore
  obtain ⟨p', hp', hcut⟩ := hm.append
  obtain rfl := hl.unique hp'
  have hshorter := Cut.closed_prefix hcut
  have hsame : rest = [] → (p.filling cfg).closed = (q.filling cfg).closed := by
    rintro rfl
    obtain rfl := Option.some.inj hcut
    rfl
  cases hcause with
  | rejected c hc hnever =>
    cases rest with
    | nil => exact hsame rfl
    | cons d rest =>
      have hnext : l ++ [c] <+: l ++ d :: rest :=
        List.prefix_of_prefix_length_le hc hinput (by simp)
      obtain rfl : c = d := by simpa using hnext
      rw [List.append_cons] at hm
      obtain ⟨q', hq', -⟩ := hm.append
      exact absurd hq' (hnever q')
  | ended hall hbad =>
    apply hsame
    have hlen := hinput.length_le
    rw [← hall, List.length_append] at hlen
    exact List.eq_nil_of_length_eq_zero (by omega)
  | blocked n q' hn hq' hneeded hnever =>
    apply hshorter.eq_of_length
    by_contra hne
    have hlt := hshorter.length_le.lt_of_ne hne
    exact hnever (hcreated _ hlt)

/-- Where the whole input is accepted and its chunks can be created, no run stops. -/
theorem Cause.not_completed (hl : Readable cfg.format l p) (hcause : Cause cfg w input err l p)
    (hinput : Accepted cfg.format input q)
    (hcreated : ∀ i < (q.chunks cfg).length, Creatable w (chunkPath cfg (i + 1))) : err ≠ none := by
  have hshorter : ∀ n q', n <+: input → Readable cfg.format n q' →
      (q'.chunks cfg).length ≤ (q.chunks cfg).length := by
    rintro n q' ⟨rest, rfl⟩ hq'
    obtain ⟨q'', hq'', hcut⟩ := hinput.readable.append
    obtain rfl := hq'.unique hq''
    exact Cut.length_chunks_mono hcut
  cases hcause with
  | rejected c hc hnever =>
    obtain ⟨rest, rfl⟩ := hc
    obtain ⟨q', hq', -⟩ := hinput.readable.append
    exact absurd hq' (hnever q')
  | ended hall hbad =>
    obtain rfl := hall
    obtain rfl := hl.unique hinput.readable
    obtain herr | hterm := hbad
    · exact herr
    · exact absurd hinput.terminated hterm
  | blocked n q' hn hq' hneeded hnever =>
    exact absurd (hcreated _ (hneeded.trans_le (hshorter n q' hn hq'))) hnever

/-- Chunk files with the same contents over the same directory are the same. -/
theorem ChunkFiles.unique {before after after' : CStr → Option (List UInt8)}
    {contents : List (List UInt8)} (h : ChunkFiles cfg before after contents)
    (h' : ChunkFiles cfg before after' contents) : after = after' := by
  funext path
  by_cases hchunk : ∃ i < contents.length, path = chunkPath cfg (i + 1)
  · obtain ⟨i, hi, rfl⟩ := hchunk
    rw [h.held i hi, h'.held i hi]
  · push Not at hchunk
    rw [h.others path hchunk, h'.others path hchunk]

end Halts

/-- The state that `stream_slice` returns in. -/
def lastRun : Except Run Run → Run
  | .ok r => r
  | .error r => r

theorem sliceInput_files (cfg : SnSliceConfig) (w : World) (inputFd : ℕ) (closeInputFd : Bool) :
    (sliceInput cfg inputFd closeInputFd w).2.files =
      (lastRun (streamSlice cfg ⟨.init inputFd closeInputFd, w⟩)).world.files := by
  unfold sliceInput
  cases hrun : streamSlice cfg ⟨.init inputFd closeInputFd, w⟩ with
  | ok r | error r =>
    simp only [lastRun]
    split
    · exact World.close_files _ _
    · rfl

theorem Creatable.congr {w w' : World} {path : CStr} (h : Creatable w path)
    (hfiles : w'.files = w.files) : Creatable w' path :=
  ⟨h.fits, hfiles ▸ h.fresh⟩

section Fragments
variable {cfg : SnSliceConfig} {w w' : World} {input : List UInt8} {err : Option Errno} {r r' : Run}

theorem Idle.chunks_created {q : Cut} (h : Idle cfg w ((q.chunks cfg).map List.flatten) r) :
    ∀ i < (q.chunks cfg).length, Creatable w (chunkPath cfg (i + 1)) :=
  fun i hi => h.created i (by simpa using hi)

theorem Completed.files_eq (h : Completed cfg w input err r) (h' : Completed cfg w' input err r')
    (hfiles : w'.files = w.files) : r'.world.files = r.world.files := by
  obtain ⟨-, q, hq, hidle⟩ := h
  obtain ⟨-, q', hq', hidle'⟩ := h'
  obtain rfl := hq.readable.unique hq'.readable
  have hchunks := hidle'.files
  rw [hfiles] at hchunks
  exact hchunks.unique hidle.files

/-- The place where a run halts decides its files, and all runs halt in places that do so
alike. -/
theorem Halted.files_eq (hw : w.Healthy) (hw' : w'.Healthy) (h : Halted cfg w input err r)
    (h' : Halted cfg w' input err r') (hfiles : w'.files = w.files) :
    r'.world.files = r.world.files := by
  obtain ⟨l, p, hl, hp, hleft⟩ := h
  obtain ⟨m, q, hm, hq, hleft'⟩ := h'
  have hclosed : (p.filling cfg).closed = (q.filling cfg).closed := by
    obtain hbefore | hbefore := List.prefix_or_prefix_of_prefix hl hm
    · apply (hleft.caused hw).closed_eq hp hq hbefore hm
      intro i hi
      exact (hleft'.created i (by simpa using hi)).congr hfiles.symm
    · symm
      apply (hleft'.caused hw').closed_eq hq hp hbefore hl
      intro i hi
      exact (hleft.created i (by simpa using hi)).congr hfiles
  have hchunks := hleft'.files
  rw [hfiles, ← hclosed] at hchunks
  exact hchunks.unique hleft.files

/-- Of two runs over the same input not one completes and the other halts. -/
theorem Completed.not_halted (hw' : w'.Healthy) (h : Completed cfg w input err r)
    (hfiles : w'.files = w.files) : ¬ Halted cfg w' input err r' := by
  obtain ⟨herr, q, hq, hidle⟩ := h
  rintro ⟨l, p, -, hp, hleft⟩
  apply (hleft.caused hw').not_completed hp hq _ herr
  exact fun i hi => (hidle.chunks_created i hi).congr hfiles

end Fragments

/-- The failures that a run can meet. -/
inductive Failure (cfg : SnSliceConfig) (w after : World) : Prop
  /-- A NUL, a record over the limit, a byte after a closing quote, an end that the format
  does not allow. -/
  | malformed (never : ∀ p, ¬ Accepted cfg.format (delivered w.reads).1 p)
  | readError (failed : (delivered w.reads).2 ≠ none)
  /-- The path of a chunk is taken, or too long. -/
  | collision (p : Cut) (accepted : Accepted cfg.format (delivered w.reads).1 p) (i : ℕ)
      (chunk : i < (p.chunks cfg).length) (never : ¬ Creatable w (chunkPath cfg (i + 1)))
  /-- An `open`, `write` or `close` of a chunk failed on the way. -/
  | call (failed : ¬ Smooth w after)

theorem Completed.no_failure {cfg : SnSliceConfig} {w : World} {r : Run}
    (h : Completed cfg w (delivered w.reads).1 (delivered w.reads).2 r) :
    ¬ Failure cfg w r.world := by
  obtain ⟨herr, q, hq, hidle⟩ := h
  intro hfailure
  cases hfailure with
  | malformed hnever => exact hnever q hq
  | readError hfailed => exact hfailed herr
  | collision p hp i hi hnever =>
    obtain rfl := hp.readable.unique hq.readable
    exact hnever (hidle.chunks_created i hi)
  | call hfailed => exact hfailed hidle.smooth

/-- The status tells how the run ended. -/
theorem sliceInput_ends (cfg : SnSliceConfig) (w : World) (inputFd : ℕ) (closeInputFd : Bool)
    (hunlinks : ∀ o ∈ w.unlinks, o = none) :
    let last := lastRun (streamSlice cfg ⟨.init inputFd closeInputFd, w⟩)
    ((sliceInput cfg inputFd closeInputFd w).1 = 0 ∧
        Completed cfg w (delivered w.reads).1 (delivered w.reads).2 last) ∨
      (sliceInput cfg inputFd closeInputFd w).1 = 2 ∧
        Halted cfg w (delivered w.reads).1 (delivered w.reads).2 last := by
  have hends := streamSlice_ends cfg w hunlinks inputFd closeInputFd
  unfold sliceInput
  cases hrun : streamSlice cfg ⟨.init inputFd closeInputFd, w⟩ with
  | ok r =>
    rw [hrun] at hends
    exact .inl ⟨rfl, hends⟩
  | error r =>
    rw [hrun] at hends
    exact .inr ⟨rfl, hends⟩

/-- Every failure ends with status 2 and leaves the completed chunks, as many as the code
has counted and all that were created but at most one, with every other file as it was. If
all calls on chunks succeed, the status and the files are those of any other way in which
the same bytes, and the same error if there is one, come from `read`. -/
theorem sliceInput_atomic (cfg : SnSliceConfig) (w : World) (inputFd : ℕ) (closeInputFd : Bool)
    (hunlinks : ∀ o ∈ w.unlinks, o = none) :
    let last := lastRun (streamSlice cfg ⟨.init inputFd closeInputFd, w⟩)
    let out := sliceInput cfg inputFd closeInputFd w
    (out.1 = 0 ∨ out.1 = 2) ∧
      (Failure cfg w last.world → out.1 = 2) ∧
      (out.1 = 2 → ∃ l p, l <+: (delivered w.reads).1 ∧ Readable cfg.format l p ∧
        Filled (reachesLimit cfg) p.records (p.filling cfg) ∧
        last.st.chunkIndex = (p.filling cfg).closed.length + 1 ∧
        last.world.nextFd ≤ w.nextFd + (p.filling cfg).closed.length + 1 ∧
        ChunkFiles cfg w.files out.2.files ((p.filling cfg).closed.map List.flatten)) ∧
      ∀ w' : World, w.Healthy → w'.Healthy → (∀ o ∈ w'.unlinks, o = none) →
        w'.files = w.files → delivered w'.reads = delivered w.reads →
        (sliceInput cfg inputFd closeInputFd w').1 = out.1 ∧
          (sliceInput cfg inputFd closeInputFd w').2.files = out.2.files := by
  intro last out
  have hfiles : out.2.files = last.world.files := sliceInput_files cfg w inputFd closeInputFd
  have hends := sliceInput_ends cfg w inputFd closeInputFd hunlinks
  refine ⟨hends.imp And.left And.left, ?_, ?_, ?_⟩
  · intro hfailure
    obtain ⟨-, hdone⟩ | ⟨hstatus, -⟩ := hends
    · exact absurd hfailure hdone.no_failure
    · exact hstatus
  · intro hstatus
    obtain ⟨hzero, -⟩ | ⟨-, l, p, hl, hp, hleft⟩ := hends
    · rw [show out.1 = 0 from hzero] at hstatus
      contradiction
    · have hindex := hleft.index
      have hopened := hleft.opened
      rw [List.length_map] at hindex hopened
      refine ⟨l, p, hl, hp, fill_filled _ _, hindex, ?_, hfiles ▸ hleft.files⟩
      obtain hopened | hopened := hopened
      · exact hopened.le.trans (Nat.le_succ _)
      · exact hopened.le
  · intro w' hw hw' hunlinks' hsame hdelivered
    have hends' := sliceInput_ends cfg w' inputFd closeInputFd hunlinks'
    rw [hdelivered] at hends'
    rw [hfiles, sliceInput_files]
    obtain ⟨hstatus, hdone⟩ | ⟨hstatus, hhalt⟩ := hends
    · obtain ⟨hstatus', hdone'⟩ | ⟨-, hhalt'⟩ := hends'
      · exact ⟨hstatus'.trans hstatus.symm, hdone.files_eq hdone' hsame⟩
      · exact absurd hhalt' (hdone.not_halted hw' hsame)
    · obtain ⟨-, hdone'⟩ | ⟨hstatus', hhalt'⟩ := hends'
      · exact absurd hhalt (hdone'.not_halted hw hsame.symm)
      · exact ⟨hstatus'.trans hstatus.symm, hhalt.files_eq hw hw' hhalt' hsame⟩

/-- The disk is full after the first byte of the third record. -/
def fullDisk : World :=
  { pairsWorld with
    reads := [.data ⟨ascii "a\nb\nc\n", by decide⟩]
    writes := [.wrote 2, .wrote 2, .wrote 1, .failed 28] }

theorem sliceInput_atomic_full :
    (sliceInput pairsConfig 0 false fullDisk).1 = 2 ∧
      ∃ closed : List (List Record), (∀ chunk ∈ closed, reachesLimit pairsConfig chunk) ∧
        ChunkFiles pairsConfig fullDisk.files (sliceInput pairsConfig 0 false fullDisk).2.files
          (closed.map List.flatten) := by
  obtain ⟨-, hfails, hleft, -⟩ := sliceInput_atomic pairsConfig fullDisk 0 false
    (by simp [fullDisk, pairsWorld])
  have hspent : (lastRun (streamSlice pairsConfig ⟨.init 0 false, fullDisk⟩)).world.writes = [] :=
    List.isEmpty_iff.mp (by decide +kernel)
  have hstatus := hfails (.call fun hsmooth => by
    obtain ⟨taken, htaken, hgood⟩ := hsmooth.writes
    rw [hspent, List.append_nil] at htaken
    have hlast := hgood (.failed 28) (htaken ▸ by simp [fullDisk])
    simp [WriteResult.Good, EINTR] at hlast)
  obtain ⟨l, p, -, -, hfilled, -, -, hfiles⟩ := hleft hstatus
  exact ⟨hstatus, _, hfilled.closed, hfiles⟩

end Snslice
