import LinuxUtilities.Snslice.Malformed

/-! When a run in CSV mode fails with `MALFORMED_CSV`, over every cut of the input into
`read` results. -/
namespace Snslice
open CString

/-- What no successful step touches. -/
structure SameReport (r r' : Run) : Prop where
  stderr : r'.world.stderr = r.world.stderr
  total : r'.st.totalInputBytes = r.st.totalInputBytes

/-- A computation that says nothing when it succeeds. -/
def Silent (r : Run) (x : Except Run Run) : Prop := Ends (SameReport r) (fun _ => True) x

section Silent
variable {cfg : SnSliceConfig} {r r' : Run}

theorem SameReport.refl (r : Run) : SameReport r r := ⟨rfl, rfl⟩

theorem SameReport.trans {s : Run} (h : SameReport r s) (h' : SameReport s r') :
    SameReport r r' :=
  ⟨h'.stderr.trans h.stderr, h'.total.trans h.total⟩

theorem Silent.bind {x : Except Run Run} {f : Run → Except Run Run} (hx : Silent r x)
    (hf : ∀ s, Silent s (f s)) : Silent r (x >>= f) := by
  apply Ends.bind hx
  intro s hs
  exact (hf s).imp (fun _ h => hs.trans h) fun _ h => h

theorem Silent.of_ok {x : Except Run Run} (hx : Silent r x) (h : x = .ok r') :
    SameReport r r' := by
  rw [h] at hx
  exact hx

theorem World.openExcl_stderr (path : CStr) (w : World) :
    (w.openExcl path).2.stderr = w.stderr := by
  unfold World.openExcl
  dsimp only
  split
  · rfl
  · split <;> rfl

theorem World.close_stderr (fd : ℕ) (w : World) : (w.close fd).2.stderr = w.stderr := by
  unfold World.close
  split <;> rfl

theorem World.unlink_stderr (path : CStr) (w : World) : (w.unlink path).stderr = w.stderr := by
  unfold World.unlink
  split <;> rfl

theorem writeOpen_silent (data : List UInt8) (fd : ℕ) (r : Run) :
    Silent r (writeOpen data fd r) := by
  unfold writeOpen
  split
  next w hw =>
    refine ⟨?_, rfl⟩
    exact (congrArg (fun a => World.stderr a.2) hw).symm
  next => split <;> trivial

theorem openChunk_silent (cfg : SnSliceConfig) (r : Run) :
    Ends (fun a => SameReport r a.2) (fun _ => True) (openChunk cfg r) := by
  unfold openChunk
  dsimp only
  split
  · trivial
  · split
    next fd w hw =>
      refine ⟨?_, rfl⟩
      rw [← World.openExcl_stderr (chunkPath cfg r.st.chunkIndex) r.world, hw]
    next => split <;> trivial

theorem writeToChunk_silent (cfg : SnSliceConfig) (data : List UInt8) (r : Run) :
    Silent r (writeToChunk cfg data r) := by
  unfold writeToChunk
  split
  · exact .refl r
  · split
    · exact writeOpen_silent data _ r
    · apply Ends.bind (openChunk_silent cfg r)
      rintro ⟨fd, s⟩ hs
      exact (writeOpen_silent data fd s).imp (fun _ h => hs.trans h) fun _ h => h

theorem closeChunk_silent (r : Run) : Silent r (closeChunk r) := by
  unfold closeChunk
  split
  · exact .refl r
  next fd hfd =>
    dsimp only
    split
    · trivial
    next w hw =>
      refine ⟨?_, rfl⟩
      rw [← World.close_stderr fd r.world, hw]

theorem endRecord_silent (cfg : SnSliceConfig) (slice : List UInt8) (r : Run) :
    Silent r (endRecord cfg slice r) := by
  unfold endRecord
  apply (writeToChunk_silent cfg slice r).bind
  intro s
  dsimp only
  split
  · exact (closeChunk_silent _).imp (fun _ h => ⟨h.stderr, h.total⟩) fun _ h => h
  · exact ⟨rfl, rfl⟩

theorem acceptByte_silent (cfg : SnSliceConfig) (c : UInt8) (r : Run) :
    Ends (fun a => SameReport r a.2) (fun _ => True) (acceptByte cfg c r) := by
  unfold acceptByte
  split
  · trivial
  · dsimp only
    split
    · trivial
    · split
      · exact ⟨rfl, rfl⟩
      · trivial

theorem scanBlock_silent (cfg : SnSliceConfig) (slice block : List UInt8) (r : Run) :
    Silent r (scanBlock cfg slice block r) := by
  induction block generalizing slice r with
  | nil => exact writeToChunk_silent cfg slice r
  | cons c rest ih =>
    unfold scanBlock
    apply Ends.bind (acceptByte_silent cfg c r)
    rintro ⟨boundary, s⟩ hs
    dsimp only
    split
    · exact ((endRecord_silent cfg (slice ++ [c]) s).bind fun t => ih [] t).imp
        (fun _ h => hs.trans h) fun _ h => h
    · exact (ih (slice ++ [c]) s).imp (fun _ h => hs.trans h) fun _ h => h

theorem abortCleanup_stderr (r : Run) : (abortCleanup r).world.stderr = r.world.stderr := by
  have hchunk : (abortChunk r).world.stderr = r.world.stderr := by
    unfold abortChunk
    split
    · rfl
    · dsimp only
      split
      · exact World.close_stderr _ _
      · exact (World.unlink_stderr _ _).trans (World.close_stderr _ _)
  rw [← hchunk]
  unfold abortCleanup abortInput
  split
  · exact World.close_stderr _ _
  · rfl

end Silent

/-- The input from a cut on: no NUL, no record over the limit, and every chunk that a first
part of it needs can be created. -/
structure Fits (cfg : SnSliceConfig) (w : World) (p : Cut) (input : List UInt8) : Prop where
  nulFree : (0 : UInt8) ∉ input
  within : ∀ l c q, l ++ [c] <+: input → cutInput cfg.format p l = some q →
    q.tail.length < maxRecordBytes
  room : ∀ l q, l <+: input → cutInput cfg.format p l = some q → Room cfg w q

/-- A computation that fails with `MALFORMED_CSV` and says nothing else. -/
def FailsMalformed {β : Type} (r : Run) (x : Except Run β) : Prop :=
  ∃ details r', x = failWith "MALFORMED_CSV" details r' ∧ r'.world.stderr = r.world.stderr

section Fits
variable {cfg : SnSliceConfig} {w : World} {p q : Cut} {l m block slice : List UInt8} {r r' : Run}

theorem Fits.append (h : Fits cfg w p (l ++ m)) (hcut : cutInput cfg.format p l = some q) :
    Fits cfg w q m := by
  have hmore {k : List UInt8} {q' : Cut} (hk : cutInput cfg.format q k = some q') :
      cutInput cfg.format p (l ++ k) = some q' := by
    rw [cutInput_of_append hcut, hk]
  constructor
  · exact fun hmem => h.nulFree (List.mem_append_right l hmem)
  · intro k c q' hk hq'
    refine h.within (l ++ k) c q' ?_ (hmore hq')
    rw [List.append_assoc]
    exact (List.prefix_append_right_inj l).mpr hk
  · intro k q' hk hq'
    exact h.room (l ++ k) q' ((List.prefix_append_right_inj l).mpr hk) (hmore hq')

theorem Fits.left (h : Fits cfg w p (l ++ m)) : Fits cfg w p l := by
  constructor
  · exact fun hmem => h.nulFree (List.mem_append_left m hmem)
  · exact fun k c q' hk => h.within k c q' (hk.trans (List.prefix_append l m))
  · exact fun k q' hk => h.room k q' (hk.trans (List.prefix_append l m))

/-- A byte within the limit keeps all records within. -/
theorem Cut.Within.step {format : FormatType} {n : ℕ} {c : UInt8} (h : p.Within n)
    (hlt : p.tail.length < n) (hstep : p.step format c = some q) : q.Within n := by
  obtain ⟨s, boundary, -, rfl⟩ := Cut.step_eq_some hstep
  cases boundary with
  | false => exact ⟨h.1, by simpa using hlt⟩
  | true =>
    refine ⟨?_, by simp⟩
    intro x hx
    obtain hold | rfl := by simpa using hx
    · exact h.1 x hold
    · simpa using hlt

theorem Fits.within_cut (h : Fits cfg w p l) (hp : p.Within maxRecordBytes)
    (hcut : cutInput cfg.format p l = some q) : q.Within maxRecordBytes := by
  induction l generalizing p with
  | nil =>
    obtain rfl := Option.some.inj hcut
    exact hp
  | cons c l ih =>
    obtain ⟨p', hstep, hrest⟩ := cutInput_cons hcut
    have hlt : p.tail.length < maxRecordBytes := h.within [] c p ⟨l, rfl⟩ rfl
    have hone : cutInput cfg.format p [c] = some p' := by
      rw [cutInput, List.foldlM_cons, hstep]
      rfl
    have hfits : Fits cfg w p ([c] ++ l) := h
    exact ih (hfits.append hone) (hp.step hlt hstep) hrest

theorem FailsMalformed.after {β : Type} {x : Except Run β} (h : FailsMalformed r' x)
    (hsame : SameReport r r') : FailsMalformed r x := by
  obtain ⟨details, r'', hx, hstderr⟩ := h
  exact ⟨details, r'', hx, hstderr.trans hsame.stderr⟩

theorem FailsMalformed.bind {β γ : Type} {x : Except Run β} (h : FailsMalformed r x)
    (f : β → Except Run γ) : FailsMalformed r (x >>= f) := by
  obtain ⟨details, r', rfl, hstderr⟩ := h
  exact ⟨details, r', rfl, hstderr⟩

/-- The byte that the automaton does not take. -/
theorem acceptByte_malformed (h : Scanned cfg w p slice r) {c : UInt8} (hc : c ≠ 0)
    (hlen : p.tail.length < maxRecordBytes) (hstep : recordStep cfg.format p.state c = none) :
    FailsMalformed r (acceptByte cfg c r) := by
  unfold acceptByte
  simp only [hc, ↓reduceIte, h.recordBytes, Nat.not_lt.mpr (Nat.succ_le_of_lt hlen), h.csvState,
    hstep]
  exact ⟨_, _, rfl, abortCleanup_stderr _⟩

theorem scanBlock_malformed (h : Scanned cfg w p slice r) (hfits : Fits cfg w p block)
    (hcut : cutInput cfg.format p block = none) :
    FailsMalformed r (scanBlock cfg slice block r) := by
  induction block generalizing p slice r with
  | nil => contradiction
  | cons c rest ih =>
    have hc : c ≠ 0 := by
      rintro rfl
      exact hfits.nulFree List.mem_cons_self
    have hlen : p.tail.length < maxRecordBytes := hfits.within [] c p ⟨rest, rfl⟩ rfl
    unfold scanBlock
    cases hauto : recordStep cfg.format p.state c with
    | none => exact (acceptByte_malformed h hc hlen hauto).bind _
    | some next =>
      obtain ⟨s, boundary⟩ := next
      obtain ⟨r₁, haccept, hscanned₁⟩ := acceptByte_spec h hc hlen hauto
      have hsame₁ : SameReport r r₁ := by
        have hsilent := acceptByte_silent cfg c r
        rw [haccept] at hsilent
        exact hsilent
      rw [haccept, ok_bind]
      have hstep : p.step cfg.format c = some (if boundary then
          ⟨p.records ++ [p.tail ++ [c]], [], s⟩ else ⟨p.records, p.tail ++ [c], s⟩) := by
        rw [Cut.step, hauto]
        rfl
      have hone : cutInput cfg.format p [c] = some (if boundary then
          ⟨p.records ++ [p.tail ++ [c]], [], s⟩ else ⟨p.records, p.tail ++ [c], s⟩) := by
        rw [cutInput, List.foldlM_cons, hstep]
        rfl
      have hfits' : Fits cfg w p ([c] ++ rest) := hfits
      have hrest := hfits'.append hone
      rw [← List.singleton_append, cutInput_of_append hone] at hcut
      cases boundary with
      | false => exact (ih hscanned₁ hrest hcut).after hsame₁
      | true =>
        simp only [↓reduceIte] at hone hrest hcut ⊢
        have hneeded := (Cut.length_chunks_step hstep).1
        have hpath := hfits.room [c] _ ⟨rest, rfl⟩ hone
        obtain ⟨r₂, hend, hscanned₂⟩ := endRecord_spec hscanned₁ (by simp) (hpath _ hneeded)
        have hsame₂ := (endRecord_silent cfg (slice ++ [c]) r₁).of_ok hend
        rw [hend, ok_bind]
        exact (ih hscanned₂ hrest hcut).after (hsame₁.trans hsame₂)

/-- An end of input between quotes. -/
theorem finishInput_malformed (h : Scanned cfg w p [] r) (hcsv : cfg.format = .csv)
    (hquoted : p.state = .quoted) (htotal : r.st.totalInputBytes ≠ 0) :
    FailsMalformed r (finishInput cfg r) := by
  unfold finishInput
  rw [if_neg htotal, hcsv]
  simp only [h.csvState, hquoted, ↓reduceIte]
  exact ⟨_, _, rfl, abortCleanup_stderr _⟩

/-- What the automaton makes of an input: its last state, unless it stops. -/
theorem cutInput_state (p : Cut) (input : List UInt8) :
    (cutInput .csv p input).map Cut.state = csvRun p.state input := by
  induction input generalizing p with
  | nil => rfl
  | cons c rest ih =>
    rw [cutInput, List.foldlM_cons, csvRun_cons, Cut.step, recordStep]
    cases csvStep p.state c with
    | none => rfl
    | some next =>
      have hstate : (if next.2 then (⟨p.records ++ [p.tail ++ [c]], [], next.1⟩ : Cut)
          else ⟨p.records, p.tail ++ [c], next.1⟩).state = next.1 := by
        split <;> rfl
      have hrest := ih (if next.2 then ⟨p.records ++ [p.tail ++ [c]], [], next.1⟩
        else ⟨p.records, p.tail ++ [c], next.1⟩)
      rw [hstate] at hrest
      exact hrest

theorem readLoop_malformed {reads : List ReadResult} {input : List UInt8}
    (h : Scanned cfg w p [] r) (hcsv : cfg.format = .csv) (hreads : Delivers reads input)
    (hfits : Fits cfg w p input) (hp : p.Within maxRecordBytes)
    (htotal : p.state = .quoted → r.st.totalInputBytes ≠ 0)
    (hrejects : Rejects p.state input) : FailsMalformed r (readLoop cfg reads r) := by
  induction reads generalizing p r input with
  | nil =>
    obtain rfl := hreads.bytes
    have hquoted : p.state = .quoted := by
      rcases hrejects with hnone | hquoted
      · contradiction
      · exact Option.some.inj hquoted
    exact finishInput_malformed (h.readInput [] r.world.errno r.st.totalInputBytes) hcsv hquoted
      (htotal hquoted)
  | cons o reads ih =>
    have hrest : Delivers reads (reads.flatMap ReadResult.bytes) :=
      ⟨fun x hx => hreads.results x (List.mem_cons_of_mem _ hx), rfl⟩
    have hinput := hreads.bytes
    rw [List.flatMap_cons] at hinput
    subst hinput
    obtain rfl | ⟨block, rfl, hblock⟩ := hreads.results o List.mem_cons_self
    · unfold readLoop
      simp only [↓reduceIte]
      exact ih (h.readInput reads EINTR r.st.totalInputBytes) hrest hfits hp htotal hrejects
    · have hread :=
        h.readInput reads r.world.errno (r.st.totalInputBytes + block.val.length)
      unfold readLoop
      simp only [hblock, ↓reduceIte]
      cases hcut : cutInput cfg.format p block.val with
      | none => exact (scanBlock_malformed hread hfits.left hcut).bind _
      | some q =>
        obtain ⟨r', hscan, hscanned⟩ := scanBlock_spec hread hcut hfits.left.nulFree
          (hfits.left.within_cut hp hcut) (hfits.left.room _ q List.prefix_rfl hcut)
        have hsame := (scanBlock_silent cfg [] block.val _).of_ok hscan
        have hstate : csvRun p.state block.val = some q.state := by
          rw [hcsv] at hcut
          rw [← cutInput_state, hcut]
          rfl
        rw [Rejects, ReadResult.bytes, csvRun_append, hstate] at hrejects
        have hpos : 0 < block.val.length := List.length_pos_iff.mpr hblock
        have hloop := ih hscanned hrest (hfits.append hcut) (hfits.left.within_cut hp hcut)
          (fun _ => by rw [hsame.total]; dsimp only; omega) hrejects
        obtain ⟨details, r'', hfail, hstderr⟩ := hloop
        refine ⟨details, r'', ?_, hstderr.trans hsame.stderr⟩
        rw [← hfail]
        exact congrArg (· >>= readLoop cfg reads) hscan

end Fits

/-- The run exits with 2 after one diagnostic of this hazard. -/
def FailsWith (hazard : String) (cfg : SnSliceConfig) (inputFd : ℕ) (closeInputFd : Bool)
    (w : World) : Prop :=
  (sliceInput cfg inputFd closeInputFd w).1 = 2 ∧
    ∃ details, (sliceInput cfg inputFd closeInputFd w).2.stderr =
      (emitDiagnostic hazard details w).stderr

/-- A run in CSV mode on an input without NUL bytes and over-long records, handed over in any
blocks, while all calls on chunks succeed. -/
structure CsvRun (cfg : SnSliceConfig) (w : World) (input : List UInt8) : Prop where
  csv : cfg.format = .csv
  delivers : Delivers w.reads input
  healthy : w.Healthy
  fits : Fits cfg w .init input

section Runs
variable {cfg : SnSliceConfig} {w : World} {input : List UInt8}

theorem CsvRun.accepted (h : CsvRun cfg w input) (haccepts : ¬ Rejects .start input) :
    ∃ p, Accepted cfg.format input p ∧ Room cfg w p := by
  obtain ⟨hrun, hquoted⟩ := not_or.mp haccepts
  have hstate := cutInput_state .init input
  cases hcut : cutInput .csv .init input with
  | none =>
    rw [hcut] at hstate
    exact absurd hstate.symm hrun
  | some p =>
    rw [hcut] at hstate
    have hcut' : cutInput cfg.format .init input = some p := by rw [h.csv, hcut]
    have hwithin := h.fits.within_cut (by decide) hcut'
    have hterminated : p.Terminated cfg.format := by
      rw [h.csv]
      rintro hp
      rw [Option.map_some, hp] at hstate
      exact hquoted hstate.symm
    exact ⟨p, ⟨hcut', h.fits.nulFree, hwithin, hterminated⟩,
      h.fits.room input p List.prefix_rfl hcut'⟩

/-- The run fails with `MALFORMED_CSV` when the automaton rejects the input. -/
theorem failsWith_iff_rejects (h : CsvRun cfg w input) (inputFd : ℕ) (closeInputFd : Bool) :
    FailsWith "MALFORMED_CSV" cfg inputFd closeInputFd w ↔ Rejects .start input := by
  constructor
  · rintro ⟨hstatus, -⟩
    by_contra haccepts
    obtain ⟨p, haccepted, hroom⟩ := h.accepted haccepts
    have hzero := (sliceInput_greedy cfg w input p inputFd closeInputFd haccepted h.delivers
      h.healthy hroom).1
    rw [hzero] at hstatus
    contradiction
  · intro hrejects
    obtain ⟨details, r, hrun, hstderr⟩ :=
      readLoop_malformed (Scanned.init cfg w h.healthy inputFd closeInputFd) h.csv h.delivers
        h.fits (by decide) (by simp [Cut.init]) hrejects
    have hslice : streamSlice cfg ⟨.init inputFd closeInputFd, w⟩ =
        failWith "MALFORMED_CSV" details r := hrun
    unfold FailsWith sliceInput
    rw [hslice]
    refine ⟨rfl, details, ?_⟩
    have hdiagnostic : (emitDiagnostic "MALFORMED_CSV" details r.world).stderr =
        (emitDiagnostic "MALFORMED_CSV" details w).stderr := by
      rw [emitDiagnostic, emitDiagnostic, hstderr]
    rw [← hdiagnostic]
    simp only [failWith]
    split
    · exact World.close_stderr _ _
    · rfl

/-- `stream_slice` does not see carriage returns: the run fails with `MALFORMED_CSV` exactly
when the input is malformed once they are taken out, and so it does what the rule on fields
says exactly when that makes no difference. -/
theorem malformedCsv_iff (h : CsvRun cfg w input) (inputFd : ℕ) (closeInputFd : Bool) :
    (FailsWith "MALFORMED_CSV" cfg inputFd closeInputFd w ↔ Malformed (withoutCr input)) ∧
      ((FailsWith "MALFORMED_CSV" cfg inputFd closeInputFd w ↔ Malformed input) ↔
        (Malformed input ↔ Malformed (withoutCr input))) := by
  have hfails := (failsWith_iff_rejects h inputFd closeInputFd).trans (rejects_iff input)
  refine ⟨hfails, ?_⟩
  rw [hfails]
  exact iff_comm

end Runs

/-- A quote after a closing quote and a carriage return. -/
def reopened : List UInt8 := ascii "\"a\"\r\"b\"\n"

def reopenedConfig : SnSliceConfig := ⟨.csv, 0, 1, .lit ".", .lit "chunk_"⟩

/-- An empty directory, and the input in one block. -/
def reopenedWorld : World :=
  { files := fun _ => none
    reads := [.data ⟨reopened, by decide⟩]
    opens := []
    writes := []
    closes := []
    unlinks := []
    errno := 0
    strerror := fun _ => []
    targets := fun _ => none
    nextFd := 4
    events := []
    stderr := [] }

theorem reopened_csvRun : CsvRun reopenedConfig reopenedWorld reopened := by
  have hcuts : ∀ l ∈ reopened.inits, ∀ q ∈ cutInput .csv .init l,
      q.tail.length ≤ 8 ∧ (q.chunks reopenedConfig).length ≤ 1 := by decide
  have hinits {l : List UInt8} {q : Cut} (hl : l <+: reopened)
      (hq : cutInput .csv .init l = some q) :
      q.tail.length ≤ 8 ∧ (q.chunks reopenedConfig).length ≤ 1 :=
    hcuts l ((List.mem_inits l reopened).mpr hl) q hq
  have hreads : Delivers reopenedWorld.reads reopened := by
    refine ⟨?_, rfl⟩
    rw [reopenedWorld, List.forall_mem_singleton]
    exact .inr ⟨_, rfl, by decide⟩
  refine ⟨rfl, hreads, ?_, ?_⟩
  · constructor <;> simp [reopenedWorld]
  · refine ⟨by decide, fun l c q hl hq => ?_, fun l q hl hq => ?_⟩
    · have hle := (hinits ((List.prefix_append l [c]).trans hl) hq).1
      unfold maxRecordBytes
      omega
    · intro i hi
      have hle := (hinits hl hq).2
      obtain rfl : i = 0 := by omega
      exact ⟨by decide, rfl⟩

theorem malformedCsv_iff_reopened :
    (FailsWith "MALFORMED_CSV" reopenedConfig 3 true reopenedWorld ↔
        Malformed (withoutCr reopened)) ∧
      ((FailsWith "MALFORMED_CSV" reopenedConfig 3 true reopenedWorld ↔ Malformed reopened) ↔
        (Malformed reopened ↔ Malformed (withoutCr reopened))) :=
  malformedCsv_iff reopened_csvRun 3 true

/-- The input is malformed at its first closing quote, and accepted. -/
theorem malformedCsv_accepted : ¬ ∀ (cfg : SnSliceConfig) (w : World) (input : List UInt8)
    (inputFd : ℕ) (closeInputFd : Bool), CsvRun cfg w input →
      (FailsWith "MALFORMED_CSV" cfg inputFd closeInputFd w ↔ Malformed input) := by
  intro h
  have hmalformed : Malformed reopened := by
    have hcr : ¬ ∃ sep rest, IsSeparator sep ∧ ascii "\r\"b\"\n" = sep ++ rest := by
      rintro ⟨sep, rest, rfl | rfl | rfl, heq⟩
      · simp [ascii] at heq
      · simp [ascii] at heq
      · simp [ascii] at heq
    exact .followed [97] (by decide) hcr
  have hrejects := (failsWith_iff_rejects reopened_csvRun 3 true).mp
    ((h _ _ _ 3 true reopened_csvRun).mpr hmalformed)
  have hrun : csvRun .start reopened = some .start := by decide
  simp [Rejects, hrun] at hrejects

end Snslice
