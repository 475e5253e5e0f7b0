import LinuxUtilities.Snslice.Records

/-! Every way to cut an accepted input into blocks gives the files of its greedy
partition. -/
namespace Snslice
open CString GreedyPartition

/-- The output directory after a run: the chunks in order under their indices, and every
other file as it was. -/
structure ChunkFiles (cfg : SnSliceConfig) (before after : CStr → Option (List UInt8))
    (contents : List (List UInt8)) : Prop where
  held : ∀ i, (h : i < contents.length) → after (chunkPath cfg (i + 1)) = some contents[i]
  others : ∀ path, (∀ i < contents.length, path ≠ chunkPath cfg (i + 1)) →
    after path = before path

section Files
variable {cfg : SnSliceConfig} {before after : CStr → Option (List UInt8)}
  {contents : List (List UInt8)} {data : List UInt8}

theorem ChunkFiles.refl : ChunkFiles cfg before before [] := by
  constructor
  · intro i h
    simp at h
  · intro path _
    rfl

theorem chunkPath_ne {i j : ℕ} (h : i ≠ j) : chunkPath cfg (i + 1) ≠ chunkPath cfg (j + 1) := by
  intro heq
  have hij := chunkPath_injective cfg heq
  omega

/-- The next chunk is put after the chunks there are. -/
theorem ChunkFiles.push (h : ChunkFiles cfg before after contents) (data : List UInt8) :
    ChunkFiles cfg before
      (Function.update after (chunkPath cfg (contents.length + 1)) (some data))
      (contents ++ [data]) := by
  constructor
  · intro i hi
    rw [List.length_append, List.length_singleton] at hi
    by_cases hlast : i = contents.length
    · subst hlast
      simp
    · have hlt : i < contents.length := by omega
      rw [Function.update_of_ne (chunkPath_ne hlast), h.held i hlt, List.getElem_append_left hlt]
  · intro path hpath
    rw [List.length_append, List.length_singleton] at hpath
    rw [Function.update_of_ne (hpath _ (by omega))]
    exact h.others path fun i hi => hpath i (by omega)

/-- The last chunk is rewritten. -/
theorem ChunkFiles.replace (h : ChunkFiles cfg before after (contents ++ [data]))
    (data' : List UInt8) :
    ChunkFiles cfg before
      (Function.update after (chunkPath cfg (contents.length + 1)) (some data'))
      (contents ++ [data']) := by
  constructor
  · intro i hi
    rw [List.length_append, List.length_singleton] at hi
    by_cases hlast : i = contents.length
    · subst hlast
      simp
    · have hlt : i < contents.length := by omega
      have hold := h.held i (by simp; omega)
      rw [List.getElem_append_left hlt] at hold
      rw [Function.update_of_ne (chunkPath_ne hlast), hold, List.getElem_append_left hlt]
  · intro path hpath
    rw [List.length_append, List.length_singleton] at hpath
    rw [Function.update_of_ne (hpath _ (by omega))]
    exact h.others path fun i hi => hpath i (by simpa using hi)

theorem ChunkFiles.last (h : ChunkFiles cfg before after (contents ++ [data])) :
    after (chunkPath cfg (contents.length + 1)) = some data := by
  have hlast := h.held contents.length (by simp)
  simpa using hlast

theorem ChunkFiles.next (h : ChunkFiles cfg before after contents) :
    after (chunkPath cfg (contents.length + 1)) = before (chunkPath cfg (contents.length + 1)) := by
  apply h.others
  intro i hi
  exact chunkPath_ne (by omega)

end Files

/-- Every `open`, `write` and `close` to come succeeds; a `write` may be short or be
interrupted. -/
structure World.Healthy (w : World) : Prop where
  opens : ∀ o ∈ w.opens, o = none
  writes : ∀ o ∈ w.writes, o = .failed EINTR ∨ ∃ n, 0 < n ∧ o = .wrote n
  closes : ∀ o ∈ w.closes, o = none

theorem head?_join_eq_none {l : List (Option Errno)} (h : ∀ o ∈ l, o = none) :
    l.head?.join = none := by
  cases l with
  | nil => rfl
  | cons o l => simp [h o]

/-- A path that `open_chunk` can create. -/
structure Creatable (w : World) (path : CStr) : Prop where
  fits : path.length < pathMax
  fresh : w.files path = none

/-- Between two calls that work on chunks: the closed chunks are files, and so is the
content of the open one as far as it was written. -/
structure Sliced (cfg : SnSliceConfig) (w : World) (closed : List (List UInt8))
    (content : List UInt8) (r : Run) : Prop where
  healthy : r.world.Healthy
  files : ChunkFiles cfg w.files r.world.files
    (closed ++ if content = [] then [] else [content])
  index : r.st.chunkIndex = closed.length + 1
  bytes : r.st.chunkBytes = content.length
  idle : content = [] → r.st.activeChunkFd = none
  active : content ≠ [] → ∃ fd, r.st.activeChunkFd = some fd ∧
    r.world.targets fd = some (chunkPath cfg (closed.length + 1))

/-- The same while a chunk is open under a descriptor, if only just created. -/
structure Opened (cfg : SnSliceConfig) (w : World) (closed : List (List UInt8))
    (content : List UInt8) (fd : ℕ) (r : Run) : Prop where
  healthy : r.world.Healthy
  files : ChunkFiles cfg w.files r.world.files (closed ++ [content])
  index : r.st.chunkIndex = closed.length + 1
  bytes : r.st.chunkBytes = content.length
  active : r.st.activeChunkFd = some fd
  target : r.world.targets fd = some (chunkPath cfg (closed.length + 1))

/-- The fields of the state that the chunk operations leave alone. -/
structure SameScan (s t : SnSliceState) : Prop where
  recordBytes : t.recordBytes = s.recordBytes
  csvState : t.csvState = s.csvState

theorem SameScan.trans {s t u : SnSliceState} (h : SameScan s t) (h' : SameScan t u) :
    SameScan s u :=
  ⟨h'.1.trans h.1, h'.2.trans h.2⟩

theorem writeLoop_spec (data : List UInt8) {writes : List WriteResult} (err : Errno)
    (h : ∀ o ∈ writes, o = .failed EINTR ∨ ∃ n, 0 < n ∧ o = .wrote n) :
    (writeLoop data writes err).ok = true ∧ (writeLoop data writes err).bytes = data ∧
      ∀ o ∈ (writeLoop data writes err).writes, o ∈ writes := by
  induction writes generalizing data err with
  | nil =>
    unfold writeLoop
    split <;> simp_all
  | cons o rest ih =>
    unfold writeLoop
    split
    next hnil => simp [hnil]
    next hne =>
      have ih' := fun d e => ih d e fun x hx => h x (List.mem_cons_of_mem _ hx)
      obtain rfl | ⟨n, hn, rfl⟩ := h o List.mem_cons_self
      · obtain ⟨hok, hbytes, hleft⟩ := ih' data EINTR
        simp only [↓reduceIte]
        exact ⟨hok, hbytes, fun x hx => List.mem_cons_of_mem _ (hleft x hx)⟩
      · obtain ⟨hok, hbytes, hleft⟩ := ih' (data.drop n) err
        simp only [hn.ne', ↓reduceIte]
        refine ⟨hok, ?_, fun x hx => List.mem_cons_of_mem _ (hleft x hx)⟩
        rw [hbytes, List.take_append_drop]

section Operations
variable {cfg : SnSliceConfig} {w : World} {closed : List (List UInt8)} {content data : List UInt8}
  {r : Run}

theorem Sliced.opened (h : Sliced cfg w closed content r) (hne : content ≠ []) :
    ∃ fd, Opened cfg w closed content fd r := by
  obtain ⟨fd, hfd, htarget⟩ := h.active hne
  have hfiles := h.files
  simp only [hne, ↓reduceIte] at hfiles
  exact ⟨fd, h.healthy, hfiles, h.index, h.bytes, hfd, htarget⟩

theorem Opened.sliced {fd : ℕ} (h : Opened cfg w closed content fd r) (hne : content ≠ []) :
    Sliced cfg w closed content r := by
  constructor
  · exact h.healthy
  · simpa only [hne, ↓reduceIte] using h.files
  · exact h.index
  · exact h.bytes
  · exact fun hnil => absurd hnil hne
  · exact fun _ => ⟨fd, h.active, h.target⟩

/-- `open_chunk` creates the file of the next chunk. -/
theorem openChunk_spec (h : Sliced cfg w closed [] r)
    (hpath : Creatable w (chunkPath cfg (closed.length + 1))) :
    ∃ fd r', openChunk cfg r = .ok (fd, r') ∧ Opened cfg w closed [] fd r' ∧
      r'.st.chunkRecords = r.st.chunkRecords ∧ SameScan r.st r'.st := by
  have hfiles := h.files
  simp only [↓reduceIte, List.append_nil] at hfiles
  have hfresh : r.world.files (chunkPath cfg (closed.length + 1)) = none := by
    rw [hfiles.next, hpath.fresh]
  have hopen := head?_join_eq_none h.healthy.opens
  unfold openChunk World.openExcl
  simp only [h.index, Nat.not_le.mpr hpath.fits, ↓reduceIte, hopen, hfresh, Option.isSome_none,
    Bool.false_eq_true]
  refine ⟨_, _, rfl, ?_, rfl, ⟨rfl, rfl⟩⟩
  constructor
  · exact ⟨fun o ho => h.healthy.opens o (List.mem_of_mem_tail ho), h.healthy.writes,
      h.healthy.closes⟩
  · exact hfiles.push []
  · rfl
  · exact h.bytes
  · rfl
  · simp

/-- The write half of `write_to_chunk` appends to the open chunk. -/
theorem writeOpen_spec {fd : ℕ} (h : Opened cfg w closed content fd r) (hdata : data ≠ []) :
    ∃ r', writeOpen data fd r = .ok r' ∧ Sliced cfg w closed (content ++ data) r' ∧
      r'.st.chunkRecords = r.st.chunkRecords ∧ SameScan r.st r'.st := by
  obtain ⟨hok, hwritten, hleft⟩ :=
    writeLoop_spec data r.world.errno h.healthy.writes
  unfold writeOpen World.writeAll
  simp only [hok, h.target, hwritten, h.files.last, Option.map_some]
  refine ⟨_, rfl, ?_, rfl, ⟨rfl, rfl⟩⟩
  apply @Opened.sliced cfg w closed (content ++ data) _ fd _ (by simp [hdata])
  constructor
  · exact ⟨h.healthy.opens, fun o ho => h.healthy.writes o (hleft o ho), h.healthy.closes⟩
  · exact h.files.replace (content ++ data)
  · exact h.index
  · simp [h.bytes]
  · exact h.active
  · exact h.target

/-- `write_to_chunk` appends to the content of the open chunk, opening one if needed. -/
theorem writeToChunk_spec (data : List UInt8) (h : Sliced cfg w closed content r)
    (hpath : content ++ data ≠ [] → Creatable w (chunkPath cfg (closed.length + 1))) :
    ∃ r', writeToChunk cfg data r = .ok r' ∧ Sliced cfg w closed (content ++ data) r' ∧
      r'.st.chunkRecords = r.st.chunkRecords ∧ SameScan r.st r'.st := by
  unfold writeToChunk
  by_cases hdata : data = []
  · simp only [hdata, ↓reduceIte, List.append_nil]
    exact ⟨r, rfl, h, rfl, ⟨rfl, rfl⟩⟩
  · simp only [hdata, ↓reduceIte]
    by_cases hcontent : content = []
    · subst hcontent
      obtain ⟨fd, r₁, hopen, hopened, hrec, hscan⟩ :=
        openChunk_spec h (hpath (by simpa using hdata))
      obtain ⟨r₂, hwrite, hsliced, hrec', hscan'⟩ := writeOpen_spec hopened hdata
      simp only [h.idle rfl, hopen]
      exact ⟨r₂, hwrite, hsliced, hrec'.trans hrec, hscan.trans hscan'⟩
    · obtain ⟨fd, hopened⟩ := h.opened hcontent
      simp only [hopened.active]
      exact writeOpen_spec hopened hdata

/-- `close_chunk` does nothing when no chunk is open. -/
theorem closeChunk_idle (h : Sliced cfg w closed [] r) : closeChunk r = .ok r := by
  unfold closeChunk
  rw [h.idle rfl]

/-- `close_chunk` completes the open chunk. -/
theorem closeChunk_spec (h : Sliced cfg w closed content r) (hne : content ≠ []) :
    ∃ r', closeChunk r = .ok r' ∧ Sliced cfg w (closed ++ [content]) [] r' ∧
      r'.st.chunkRecords = 0 ∧ SameScan r.st r'.st := by
  obtain ⟨fd, hopened⟩ := h.opened hne
  have hclose := head?_join_eq_none h.healthy.closes
  unfold closeChunk World.close
  simp only [hopened.active, hclose]
  refine ⟨_, rfl, ?_, rfl, ⟨rfl, rfl⟩⟩
  constructor
  · exact ⟨h.healthy.opens, h.healthy.writes,
      fun o ho => h.healthy.closes o (List.mem_of_mem_tail ho)⟩
  · simpa using hopened.files
  · simp [h.index]
  · rfl
  · exact fun _ => rfl
  · exact fun hne => absurd rfl hne

end Operations

/-- What holds before each byte: the state stands for the cut of what was read, of which
the slice is not written yet. -/
structure Scanned (cfg : SnSliceConfig) (w : World) (p : Cut) (slice : List UInt8) (r : Run) :
    Prop where
  sliced : ∃ content, content ++ slice = p.content cfg ∧
    Sliced cfg w ((p.filling cfg).closed.map List.flatten) content r
  chunkRecords : r.st.chunkRecords = (p.filling cfg).current.length
  recordBytes : r.st.recordBytes = p.tail.length
  csvState : r.st.csvState = p.state

/-- The chunk paths that the cut needs can be created. -/
def Room (cfg : SnSliceConfig) (w : World) (p : Cut) : Prop :=
  ∀ i < (p.chunks cfg).length, Creatable w (chunkPath cfg (i + 1))

section Scan
variable {cfg : SnSliceConfig} {w : World} {p q : Cut} {slice : List UInt8} {r : Run}

/-- An accepted byte joins the slice. -/
theorem acceptByte_spec {c : UInt8} {s : CsvState} {boundary : Bool} (h : Scanned cfg w p slice r)
    (hc : c ≠ 0) (hlen : p.tail.length < maxRecordBytes)
    (hstep : recordStep cfg.format p.state c = some (s, boundary)) :
    ∃ r', acceptByte cfg c r = .ok (boundary, r') ∧
      Scanned cfg w ⟨p.records, p.tail ++ [c], s⟩ (slice ++ [c]) r' := by
  unfold acceptByte
  simp only [hc, ↓reduceIte, h.recordBytes, Nat.not_lt.mpr (Nat.succ_le_of_lt hlen), h.csvState,
    hstep]
  refine ⟨_, rfl, ?_⟩
  obtain ⟨content, hcontent, hsliced⟩ := h.sliced
  constructor
  · refine ⟨content, ?_, hsliced.healthy, hsliced.files, hsliced.index, hsliced.bytes,
      hsliced.idle, hsliced.active⟩
    rw [← List.append_assoc, hcontent, Cut.content, Cut.content, List.append_assoc]
    rfl
  · exact h.chunkRecords
  · simp
  · rfl

theorem shouldSplit_eq {st : SnSliceState} {chunk : List Record}
    (hbytes : st.chunkBytes = chunk.flatten.length) (hrecords : st.chunkRecords = chunk.length) :
    shouldSplit cfg st = reachesLimit cfg chunk := by
  rw [shouldSplit, reachesLimit, hbytes, hrecords]

/-- A record boundary completes the record, and the chunk when a limit is reached. -/
theorem endRecord_spec (h : Scanned cfg w p slice r) (htail : p.tail ≠ [])
    (hpath : Creatable w (chunkPath cfg ((p.filling cfg).closed.length + 1))) :
    ∃ r', endRecord cfg slice r = .ok r' ∧
      Scanned cfg w ⟨p.records ++ [p.tail], [], p.state⟩ [] r' := by
  obtain ⟨content, hcontent, hsliced⟩ := h.sliced
  obtain ⟨r₁, hwrite, hsliced₁, hrec₁, hscan₁⟩ :=
    writeToChunk_spec slice hsliced (by simpa using fun _ => hpath)
  rw [hcontent] at hsliced₁
  let chunk := (p.filling cfg).current ++ [p.tail]
  have hflat : p.content cfg = chunk.flatten := by simp [Cut.content, chunk]
  have hne : chunk.flatten ≠ [] := by simp [chunk, htail]
  rw [hflat] at hsliced₁
  have hrecords : r₁.st.chunkRecords + 1 = chunk.length := by
    simp [hrec₁, h.chunkRecords, chunk]
  have hsplit : shouldSplit cfg
      { r₁.st with recordBytes := 0, chunkRecords := r₁.st.chunkRecords + 1 } =
        reachesLimit cfg chunk :=
    shouldSplit_eq hsliced₁.bytes hrecords
  let r₂ : Run := { r₁ with st.recordBytes := 0, st.chunkRecords := r₁.st.chunkRecords + 1 }
  have hsliced₂ : Sliced cfg w ((p.filling cfg).closed.map List.flatten) chunk.flatten r₂ :=
    ⟨hsliced₁.healthy, hsliced₁.files, hsliced₁.index, hsliced₁.bytes, hsliced₁.idle,
      hsliced₁.active⟩
  have hfilling : (⟨p.records ++ [p.tail], [], p.state⟩ : Cut).filling cfg =
      (p.filling cfg).push (reachesLimit cfg) p.tail := fill_concat _ _ _
  unfold endRecord
  rw [hwrite, ok_bind]
  simp only [hsplit]
  cases hcloses : reachesLimit cfg chunk with
  | true =>
    rw [Filling.push_closes hcloses] at hfilling
    obtain ⟨r₃, hclose, hsliced₃, hrec₃, hscan₃⟩ := closeChunk_spec hsliced₂ hne
    refine ⟨r₃, hclose, ?_⟩
    constructor
    · refine ⟨[], by simp [Cut.content, hfilling], ?_⟩
      simpa only [hfilling, List.map_append, List.map_cons, List.map_nil] using hsliced₃
    · simp [hrec₃, hfilling]
    · exact hscan₃.recordBytes
    · exact hscan₃.csvState.trans (hscan₁.csvState.trans h.csvState)
  | false =>
    rw [Filling.push_open hcloses] at hfilling
    refine ⟨r₂, rfl, ?_⟩
    constructor
    · refine ⟨chunk.flatten, by simp [Cut.content, hfilling, chunk], ?_⟩
      simpa [hfilling] using hsliced₂
    · simp only [hfilling]
      exact hrecords
    · rfl
    · exact hscan₁.csvState.trans h.csvState

/-- A block moves the state from the cut before it to the cut after it. -/
theorem scanBlock_spec {block : List UInt8} (h : Scanned cfg w p slice r)
    (hcut : cutInput cfg.format p block = some q) (hnul : (0 : UInt8) ∉ block)
    (hwithin : q.Within maxRecordBytes) (hroom : Room cfg w q) :
    ∃ r', scanBlock cfg slice block r = .ok r' ∧ Scanned cfg w q [] r' := by
  induction block generalizing p slice r with
  | nil =>
    obtain rfl := Option.some.inj hcut
    obtain ⟨content, hcontent, hsliced⟩ := h.sliced
    have hpath : content ++ slice ≠ [] →
        Creatable w (chunkPath cfg (((p.filling cfg).closed.map List.flatten).length + 1)) := by
      intro hne
      rw [List.length_map]
      exact hroom _ (Cut.closed_lt_chunks (hcontent ▸ hne))
    obtain ⟨r', hwrite, hsliced', hrec, hscan⟩ := writeToChunk_spec slice hsliced hpath
    refine ⟨r', hwrite, ?_⟩
    constructor
    · exact ⟨content ++ slice, by simpa using hcontent, hsliced'⟩
    · exact hrec.trans h.chunkRecords
    · exact hscan.recordBytes.trans h.recordBytes
    · exact hscan.csvState.trans h.csvState
  | cons c rest ih =>
    obtain ⟨p', hstep, hrest⟩ := cutInput_cons hcut
    have hc : c ≠ 0 := by
      rintro rfl
      simp at hnul
    have hnul' : (0 : UInt8) ∉ rest := fun hmem => hnul (List.mem_cons_of_mem _ hmem)
    have hlen := (Cut.Within.of_step hstep (Cut.Within.of_cutInput hrest hwithin)).2
    have hclosed := (Cut.length_chunks_step hstep).1.trans_le (Cut.length_chunks_mono hrest)
    obtain ⟨s, boundary, hauto, rfl⟩ := Cut.step_eq_some hstep
    obtain ⟨r₁, haccept, hscanned₁⟩ := acceptByte_spec h hc hlen hauto
    unfold scanBlock
    simp only [haccept, ok_bind]
    cases boundary with
    | false =>
      exact ih hscanned₁ hrest hnul'
    | true =>
      obtain ⟨r₂, hend, hscanned₂⟩ := endRecord_spec hscanned₁ (by simp) (hroom _ hclosed)
      simp only [↓reduceIte, hend, ok_bind]
      exact ih hscanned₂ hrest hnul'

end Scan

def ReadResult.bytes : ReadResult → List UInt8
  | .data block => block.val
  | .failed _ => []

/-- The `read` results hand over the input in non-empty blocks; a `read` may be
interrupted. -/
structure Delivers (reads : List ReadResult) (input : List UInt8) : Prop where
  results : ∀ o ∈ reads, o = .failed EINTR ∨ ∃ block, o = .data block ∧ block.val ≠ []
  bytes : reads.flatMap ReadResult.bytes = input

section Loop
variable {cfg : SnSliceConfig} {w : World} {p q : Cut} {r : Run}

/-- A `read` and its result do not touch the chunks. -/
theorem Scanned.readInput (h : Scanned cfg w p [] r) (reads : List ReadResult) (err : Errno)
    (total : ℕ) :
    Scanned cfg w p []
      { Snslice.readInput reads r with world.errno := err, st.totalInputBytes := total } := by
  obtain ⟨content, hcontent, hsliced⟩ := h.sliced
  exact ⟨⟨content, hcontent, ⟨hsliced.healthy.opens, hsliced.healthy.writes,
    hsliced.healthy.closes⟩, hsliced.files, hsliced.index, hsliced.bytes, hsliced.idle,
    hsliced.active⟩, h.chunkRecords, h.recordBytes, h.csvState⟩

/-- At the end of an accepted input the rest of the last chunk is completed. -/
theorem finishInput_spec (h : Scanned cfg w p [] r) (hne : ∀ x ∈ p.records, x ≠ [])
    (hterm : p.Terminated cfg.format) :
    ∃ r', finishInput cfg r = .ok r' ∧
      ChunkFiles cfg w.files r'.world.files ((p.chunks cfg).map List.flatten) := by
  obtain ⟨content, hcontent, hsliced⟩ := h.sliced
  rw [List.append_nil] at hcontent
  subst hcontent
  rw [Cut.chunks_content hne]
  -- whatever the count of records, closing leaves the files as they are
  have hclose : ∀ n, ∃ r', closeChunk { r with st.chunkRecords := n } = .ok r' ∧
      ChunkFiles cfg w.files r'.world.files ((p.filling cfg).closed.map List.flatten ++
        if p.content cfg = [] then [] else [p.content cfg]) := by
    intro n
    have hsliced' : Sliced cfg w ((p.filling cfg).closed.map List.flatten) (p.content cfg)
        { r with st.chunkRecords := n } :=
      ⟨hsliced.healthy, hsliced.files, hsliced.index, hsliced.bytes, hsliced.idle, hsliced.active⟩
    by_cases hnil : p.content cfg = []
    · rw [hnil] at hsliced' ⊢
      exact ⟨_, closeChunk_idle hsliced', hsliced'.files⟩
    · obtain ⟨r', hclose, hfinal, -, -⟩ := closeChunk_spec hsliced' hnil
      refine ⟨r', hclose, ?_⟩
      simpa [hnil] using hfinal.files
  unfold finishInput
  split
  next htotal =>
    refine ⟨r, rfl, ?_⟩
    exact hsliced.files
  next =>
    rw [h.recordBytes, h.csvState]
    cases hformat : cfg.format with
    | ndjson =>
      rw [hformat] at hterm
      simp only [show p.tail = [] from hterm, List.length_nil, lt_irrefl, ↓reduceIte]
      exact hclose r.st.chunkRecords
    | csv =>
      rw [hformat] at hterm
      simp only [show p.state ≠ .quoted from hterm, ↓reduceIte]
      split
      · exact hclose (r.st.chunkRecords + 1)
      · exact hclose r.st.chunkRecords

/-- The loop over the blocks moves the state from the cut before the blocks to the cut
after them, and completes the chunks there. -/
theorem readLoop_spec {reads : List ReadResult} {input : List UInt8} (h : Scanned cfg w p [] r)
    (hreads : Delivers reads input) (hcut : cutInput cfg.format p input = some q)
    (hnul : (0 : UInt8) ∉ input) (hwithin : q.Within maxRecordBytes) (hroom : Room cfg w q)
    (hne : ∀ x ∈ p.records, x ≠ []) (hterm : q.Terminated cfg.format) :
    ∃ r', readLoop cfg reads r = .ok r' ∧
      ChunkFiles cfg w.files r'.world.files ((q.chunks cfg).map List.flatten) := by
  induction reads generalizing p r input with
  | nil =>
    obtain rfl := hreads.bytes
    obtain rfl := Option.some.inj hcut
    unfold readLoop
    exact finishInput_spec (h.readInput [] r.world.errno r.st.totalInputBytes) hne hterm
  | cons o reads ih =>
    have hrest : Delivers reads (reads.flatMap ReadResult.bytes) :=
      ⟨fun x hx => hreads.results x (List.mem_cons_of_mem _ hx), rfl⟩
    have hinput := hreads.bytes
    rw [List.flatMap_cons] at hinput
    subst hinput
    obtain rfl | ⟨block, rfl, hblock⟩ := hreads.results o List.mem_cons_self
    · unfold readLoop
      simp only [↓reduceIte]
      exact ih (h.readInput reads EINTR r.st.totalInputBytes) hrest hcut hnul hne
    · obtain ⟨p', hcut₁, hcut₂⟩ := cutInput_append hcut
      have hroom' : Room cfg w p' :=
        fun i hi => hroom i (hi.trans_le (Cut.length_chunks_mono hcut₂))
      have hwithin' := Cut.Within.of_cutInput hcut₂ hwithin
      rw [List.mem_append, not_or] at hnul
      obtain ⟨r', hscan, hscanned⟩ := scanBlock_spec
        (h.readInput reads r.world.errno (r.st.totalInputBytes + block.val.length))
        hcut₁ hnul.1 hwithin' hroom'
      unfold readLoop
      simp only [hblock, ↓reduceIte]
      obtain ⟨r'', hloop, hfiles⟩ := ih hscanned hrest hcut₂ hnul.2 (cutInput_ne_nil hne hcut₁)
      refine ⟨r'', ?_, hfiles⟩
      rw [← hloop]
      exact congrArg (· >>= readLoop cfg reads) hscan

end Loop

theorem Scanned.init (cfg : SnSliceConfig) (w : World) (hsys : w.Healthy) (inputFd : ℕ)
    (closeInputFd : Bool) : Scanned cfg w .init [] ⟨.init inputFd closeInputFd, w⟩ := by
  constructor
  · refine ⟨[], rfl, hsys, ChunkFiles.refl, rfl, rfl, fun _ => rfl, fun h => absurd rfl h⟩
  · rfl
  · rfl
  · rfl

/-- Every cut of an accepted input into `read` results leaves exactly the greedy
partition of its records, in files with the indices from 1 on. -/
theorem sliceInput_greedy (cfg : SnSliceConfig) (w : World) (input : List UInt8) (p : Cut)
    (inputFd : ℕ) (closeInputFd : Bool) (hinput : Accepted cfg.format input p)
    (hreads : Delivers w.reads input) (hsys : w.Healthy) (hroom : Room cfg w p) :
    (sliceInput cfg inputFd closeInputFd w).1 = 0 ∧
      IsGreedy (reachesLimit cfg) p.all (p.chunks cfg) ∧
      (∀ record ∈ p.all, record ≠ []) ∧
      ChunkFiles cfg w.files (sliceInput cfg inputFd closeInputFd w).2.files
        ((p.chunks cfg).map List.flatten) ∧
      (p.chunks cfg).flatten.flatten = input := by
  have hne : ∀ x ∈ p.records, x ≠ [] := cutInput_ne_nil (p := .init) (by simp [Cut.init]) hinput.cut
  have hgreedy := isGreedy_chunks (reachesLimit cfg) p.all
  obtain ⟨r, hrun, hfiles⟩ := readLoop_spec (Scanned.init cfg w hsys inputFd closeInputFd) hreads
    hinput.cut hinput.nulFree hinput.within hroom (by simp [Cut.init]) hinput.terminated
  have hslice : streamSlice cfg ⟨.init inputFd closeInputFd, w⟩ = .ok r := hrun
  have hkeep : (sliceInput cfg inputFd closeInputFd w).2.files = r.world.files := by
    simp only [sliceInput, hslice]
    split
    · exact World.close_files _ _
    · rfl
  refine ⟨by simp only [sliceInput, hslice], hgreedy, ?_, hkeep ▸ hfiles, ?_⟩
  · intro record hrecord
    unfold Cut.all at hrecord
    split at hrecord
    next => exact hne record hrecord
    next htail =>
      obtain hold | rfl := by simpa using hrecord
      · exact hne record hold
      · exact htail
  · have hall : (p.chunks cfg).flatten = p.all := hgreedy.flatten
    rw [hall, Cut.all_flatten, cutInput_flatten hinput.cut]
    simp [Cut.init]

/-- Two records a chunk, in the current directory. -/
def pairsConfig : SnSliceConfig := ⟨.ndjson, 0, 2, .lit ".", .lit "chunk_"⟩

/-- An empty directory; the second record comes in two blocks, with an interrupted `read`
between them and a short `write` after it. -/
def pairsWorld : World :=
  { files := fun _ => none
    reads := [.data ⟨ascii "a\nb", by decide⟩, .failed EINTR, .data ⟨ascii "b\nc\n", by decide⟩]
    opens := []
    writes := [.wrote 2, .wrote 1, .failed EINTR, .wrote 1]
    closes := []
    unlinks := []
    errno := 0
    strerror := fun _ => []
    targets := fun _ => none
    nextFd := 3
    events := []
    stderr := [] }

theorem sliceInput_greedy_pairs :
    (sliceInput pairsConfig 0 false pairsWorld).1 = 0 ∧
      ChunkFiles pairsConfig pairsWorld.files (sliceInput pairsConfig 0 false pairsWorld).2.files
        [ascii "a\nbb\n", ascii "c\n"] := by
  have hinput : Accepted .ndjson (ascii "a\nbb\nc\n")
      ⟨[ascii "a\n", ascii "bb\n", ascii "c\n"], [], .start⟩ :=
    ⟨rfl, by decide, by decide, rfl⟩
  have hreads : Delivers pairsWorld.reads (ascii "a\nbb\nc\n") := by
    constructor
    · rw [pairsWorld, List.forall_mem_cons, List.forall_mem_cons, List.forall_mem_cons]
      refine ⟨.inr ⟨_, rfl, by decide⟩, .inl rfl, .inr ⟨_, rfl, by decide⟩, by simp⟩
    · rfl
  have hsys : pairsWorld.Healthy := by
    constructor <;> simp [pairsWorld]
  have hroom : Room pairsConfig pairsWorld
      ⟨[ascii "a\n", ascii "bb\n", ascii "c\n"], [], .start⟩ := by
    intro i hi
    have hlt : i < 2 := hi
    interval_cases i
    · exact ⟨by decide, rfl⟩
    · exact ⟨by decide, rfl⟩
  obtain ⟨hstatus, -, -, hfiles, -⟩ := sliceInput_greedy pairsConfig pairsWorld _ _ 0 false
    hinput hreads hsys hroom
  exact ⟨hstatus, hfiles⟩

end Snslice
