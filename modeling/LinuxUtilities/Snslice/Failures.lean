import LinuxUtilities.Snslice.Partition

/-! What the chunk operations leave behind, whatever the calls they make answer. -/
namespace Snslice
open CString GreedyPartition

/-- Outcomes were taken from the front of a list, all of them good. -/
def Took {α : Type} (good : α → Prop) (before after : List α) : Prop :=
  ∃ taken, before = taken ++ after ∧ ∀ o ∈ taken, good o

section Took
variable {α : Type} {good : α → Prop} {l m n : List α}

theorem Took.refl : Took good l l := ⟨[], rfl, by simp⟩

theorem Took.cons {o : α} (ho : good o) (h : Took good l m) : Took good (o :: l) m := by
  obtain ⟨taken, rfl, htaken⟩ := h
  exact ⟨o :: taken, rfl, List.forall_mem_cons.mpr ⟨ho, htaken⟩⟩

theorem Took.trans (h : Took good l m) (h' : Took good m n) : Took good l n := by
  obtain ⟨first, rfl, hfirst⟩ := h
  obtain ⟨second, rfl, hsecond⟩ := h'
  refine ⟨first ++ second, by simp, ?_⟩
  intro o ho
  obtain ho | ho := List.mem_append.mp ho
  · exact hfirst o ho
  · exact hsecond o ho

/-- What holds of all outcomes holds of those still to come. -/
theorem Took.forall {P : α → Prop} (h : Took good l m) (hall : ∀ o ∈ l, P o) : ∀ o ∈ m, P o := by
  obtain ⟨taken, rfl, -⟩ := h
  exact fun o ho => hall o (List.mem_append_right _ ho)

theorem Took.tail {l : List (Option Errno)} (h : l.head?.join = none) :
    Took (· = none) l l.tail := by
  cases l with
  | nil => exact Took.refl
  | cons o l =>
    have ho : o = none := by simpa using h
    exact Took.refl.cons ho

end Took

/-- A `write` that was interrupted, or that wrote something. -/
def WriteResult.Good (o : WriteResult) : Prop := o = .failed EINTR ∨ ∃ n, 0 < n ∧ o = .wrote n

/-- None of the calls on chunks between two states of the system failed. -/
structure Smooth (before after : World) : Prop where
  opens : Took (· = none) before.opens after.opens
  writes : Took WriteResult.Good before.writes after.writes
  closes : Took (· = none) before.closes after.closes

theorem Smooth.refl (w : World) : Smooth w w := ⟨Took.refl, Took.refl, Took.refl⟩

/-- A system whose calls all succeed stays one. -/
theorem Smooth.healthy {before after : World} (h : Smooth before after) (hw : before.Healthy) :
    after.Healthy :=
  ⟨h.opens.forall hw.opens, h.writes.forall hw.writes, h.closes.forall hw.closes⟩

theorem writeLoop_ok {data : List UInt8} {writes : List WriteResult} {err : Errno}
    (h : (writeLoop data writes err).ok = true) :
    (writeLoop data writes err).bytes = data ∧
      Took WriteResult.Good writes (writeLoop data writes err).writes := by
  induction writes generalizing data err with
  | nil =>
    unfold writeLoop
    split
    next hnil => exact ⟨hnil.symm, Took.refl⟩
    next => exact ⟨rfl, Took.refl⟩
  | cons o writes ih =>
    unfold writeLoop at h ⊢
    split
    next hnil => exact ⟨hnil.symm, Took.refl⟩
    next hne =>
      simp only [hne, ↓reduceIte] at h
      cases o with
      | failed e =>
        by_cases he : e = EINTR
        · simp only [he, ↓reduceIte] at h ⊢
          obtain ⟨hbytes, htook⟩ := ih h
          exact ⟨hbytes, htook.cons (.inl rfl)⟩
        · simp [he] at h
      | wrote n =>
        by_cases hn : n = 0
        · simp [hn] at h
        · simp only [hn, ↓reduceIte] at h ⊢
          obtain ⟨hbytes, htook⟩ := ih h
          refine ⟨?_, htook.cons (.inr ⟨n, Nat.pos_of_ne_zero hn, rfl⟩)⟩
          rw [hbytes, List.take_append_drop]

/-- The chunk there was is removed, and nothing was under its path before. -/
theorem ChunkFiles.remove {cfg : SnSliceConfig} {before after : CStr → Option (List UInt8)}
    {contents : List (List UInt8)} {data : List UInt8}
    (h : ChunkFiles cfg before after (contents ++ [data]))
    (hfresh : before (chunkPath cfg (contents.length + 1)) = none) :
    ChunkFiles cfg before
      (Function.update after (chunkPath cfg (contents.length + 1)) none) contents := by
  constructor
  · intro i hi
    rw [Function.update_of_ne (chunkPath_ne (by omega)), h.held i (by simp; omega),
      List.getElem_append_left hi]
  · intro path hpath
    by_cases hlast : path = chunkPath cfg (contents.length + 1)
    · rw [hlast, Function.update_self, hfresh]
    · rw [Function.update_of_ne hlast]
      apply h.others
      intro i hi
      rw [List.length_append, List.length_singleton] at hi
      by_cases hi' : i = contents.length
      · exact hi' ▸ hlast
      · exact hpath i (by omega)

theorem chunkPath_ne_empty (cfg : SnSliceConfig) (i : ℕ) : chunkPath cfg i ≠ ∅ := by
  intro h
  have hlen := congrArg (fun s : CStr => s.bytes.length) h
  simp only [chunkPath, CStr.append_bytes, List.length_append, CStr.empty_bytes,
    List.length_nil] at hlen
  have hext : 0 < (extension cfg.format).bytes.length := by cases cfg.format <;> decide
  omega

/-- No chunk is open, and those that were closed are files. -/
structure Idle (cfg : SnSliceConfig) (w : World) (closed : List (List UInt8)) (r : Run) :
    Prop where
  smooth : Smooth w r.world
  unlinks : ∀ o ∈ r.world.unlinks, o = none
  files : ChunkFiles cfg w.files r.world.files closed
  created : ∀ i < closed.length, Creatable w (chunkPath cfg (i + 1))
  opened : r.world.nextFd = w.nextFd + closed.length
  index : r.st.chunkIndex = closed.length + 1
  bytes : r.st.chunkBytes = 0
  active : r.st.activeChunkFd = none

/-- A chunk is open, after those that were closed, and its file holds some bytes. -/
structure Begun (cfg : SnSliceConfig) (w : World) (closed : List (List UInt8))
    (written : List UInt8) (fd : ℕ) (r : Run) : Prop where
  unlinks : ∀ o ∈ r.world.unlinks, o = none
  files : ChunkFiles cfg w.files r.world.files (closed ++ [written])
  created : ∀ i < closed.length + 1, Creatable w (chunkPath cfg (i + 1))
  opened : r.world.nextFd = w.nextFd + closed.length + 1
  index : r.st.chunkIndex = closed.length + 1
  active : r.st.activeChunkFd = some fd
  path : r.st.activeChunkPath = chunkPath cfg (closed.length + 1)

/-- The open chunk holds its content, and no call has failed. -/
structure Active (cfg : SnSliceConfig) (w : World) (closed : List (List UInt8))
    (content : List UInt8) (fd : ℕ) (r : Run) : Prop
    extends Begun cfg w closed content fd r where
  smooth : Smooth w r.world
  bytes : r.st.chunkBytes = content.length
  target : r.world.targets fd = some (chunkPath cfg (closed.length + 1))

/-- The chunk with the content is open, unless there is none. -/
def Standing (cfg : SnSliceConfig) (w : World) (closed : List (List UInt8))
    (content : List UInt8) (r : Run) : Prop :=
  (content = [] ∧ Idle cfg w closed r) ∨ (content ≠ [] ∧ ∃ fd, Active cfg w closed content fd r)

/-- Two runs that differ in nothing the chunk operations look at. -/
structure SameChunk (r s : Run) : Prop where
  opens : s.world.opens = r.world.opens
  writes : s.world.writes = r.world.writes
  closes : s.world.closes = r.world.closes
  unlinks : s.world.unlinks = r.world.unlinks
  files : s.world.files = r.world.files
  targets : s.world.targets = r.world.targets
  nextFd : s.world.nextFd = r.world.nextFd
  index : s.st.chunkIndex = r.st.chunkIndex
  bytes : s.st.chunkBytes = r.st.chunkBytes
  active : s.st.activeChunkFd = r.st.activeChunkFd
  path : s.st.activeChunkPath = r.st.activeChunkPath

/-- The counters of the input, which the chunk operations leave alone. -/
structure SameInput (s t : SnSliceState) : Prop extends SameScan s t where
  total : t.totalInputBytes = s.totalInputBytes

theorem SameInput.trans {s t u : SnSliceState} (h : SameInput s t) (h' : SameInput t u) :
    SameInput s u :=
  ⟨h.toSameScan.trans h'.toSameScan, h'.total.trans h.total⟩

theorem Smooth.congr {w : World} {r s : Run} (h : Smooth w r.world) (hs : SameChunk r s) :
    Smooth w s.world := by
  constructor
  · exact hs.opens ▸ h.opens
  · exact hs.writes ▸ h.writes
  · exact hs.closes ▸ h.closes

theorem Standing.congr {cfg : SnSliceConfig} {w : World} {closed : List (List UInt8)}
    {content : List UInt8} {r s : Run} (h : Standing cfg w closed content r)
    (hs : SameChunk r s) : Standing cfg w closed content s := by
  obtain ⟨hnil, h⟩ | ⟨hne, fd, h⟩ := h
  · exact .inl ⟨hnil, h.smooth.congr hs, hs.unlinks ▸ h.unlinks, hs.files ▸ h.files, h.created,
      hs.nextFd.trans h.opened, hs.index.trans h.index, hs.bytes.trans h.bytes,
      hs.active.trans h.active⟩
  · exact .inr ⟨hne, fd, ⟨hs.unlinks ▸ h.unlinks, hs.files ▸ h.files, h.created,
      hs.nextFd.trans h.opened, hs.index.trans h.index, hs.active.trans h.active,
      hs.path.trans h.path⟩, h.smooth.congr hs, hs.bytes.trans h.bytes, hs.targets ▸ h.target⟩

/-- What a failure leaves: the closed chunks, by the count of the code, and nothing else; at
most one chunk more was created. A system whose calls all succeed only fails for the
`cause`. -/
structure Left (cfg : SnSliceConfig) (w : World) (closed : List (List UInt8)) (cause : Prop)
    (r : Run) : Prop where
  files : ChunkFiles cfg w.files r.world.files closed
  created : ∀ i < closed.length, Creatable w (chunkPath cfg (i + 1))
  opened : r.world.nextFd = w.nextFd + closed.length ∨
    r.world.nextFd = w.nextFd + closed.length + 1
  index : r.st.chunkIndex = closed.length + 1
  caused : w.Healthy → cause

section Left
variable {cfg : SnSliceConfig} {w : World} {closed : List (List UInt8)} {cause cause' : Prop}
  {r : Run}

theorem Left.imp (h : Left cfg w closed cause r) (hcause : cause → cause') :
    Left cfg w closed cause' r :=
  ⟨h.files, h.created, h.opened, h.index, fun hw => hcause (h.caused hw)⟩

/-- A diagnostic changes nothing of that. -/
theorem Left.diagnosed (h : Left cfg w closed cause r) (hazard : String) (details : List UInt8) :
    Left cfg w closed cause { r with world := emitDiagnostic hazard details r.world } :=
  ⟨h.files, h.created, h.opened, h.index, h.caused⟩

end Left

/-- How a computation ends, in success and in failure. -/
def Ends {β : Type} (good : β → Prop) (bad : Run → Prop) : Except Run β → Prop
  | .ok b => good b
  | .error r => bad r

theorem Ends.imp {β : Type} {good good' : β → Prop} {bad bad' : Run → Prop} {x : Except Run β}
    (hx : Ends good bad x) (hgood : ∀ b, good b → good' b) (hbad : ∀ r, bad r → bad' r) :
    Ends good' bad' x := by
  cases x with
  | ok b => exact hgood b hx
  | error r => exact hbad r hx

theorem Ends.bind {β γ : Type} {good : β → Prop} {good' : γ → Prop} {bad : Run → Prop}
    {x : Except Run β} {f : β → Except Run γ} (hx : Ends good bad x)
    (hf : ∀ b, good b → Ends good' bad (f b)) : Ends good' bad (x >>= f) := by
  cases x with
  | ok b => exact hf b hx
  | error r => exact hx

section Operations
variable {cfg : SnSliceConfig} {w : World} {closed : List (List UInt8)} {content data : List UInt8}
  {cause : Prop} {fd : ℕ} {r : Run}

theorem World.close_unlinks (fd : ℕ) (w : World) : (w.close fd).2.unlinks = w.unlinks := by
  unfold World.close
  split <;> rfl

theorem World.close_nextFd (fd : ℕ) (w : World) : (w.close fd).2.nextFd = w.nextFd := by
  unfold World.close
  split <;> rfl

theorem World.unlink_nextFd (path : CStr) (w : World) : (w.unlink path).nextFd = w.nextFd := by
  unfold World.unlink
  split <;> rfl

theorem World.unlink_files {path : CStr} {w : World} (h : ∀ o ∈ w.unlinks, o = none) :
    (w.unlink path).files = Function.update w.files path none := by
  unfold World.unlink
  rw [head?_join_eq_none h]

/-- Closing the input does not touch what is left of the chunks. -/
theorem Left.abortInput (h : Left cfg w closed cause r) :
    Left cfg w closed cause (abortInput r) := by
  unfold Snslice.abortInput
  split
  next fd hclose hfd =>
    refine ⟨?_, h.created, ?_, h.index, h.caused⟩
    · rw [World.close_files]
      exact h.files
    · rw [World.close_nextFd]
      exact h.opened
  next => exact h

theorem Idle.left (h : Idle cfg w closed r) (hcause : w.Healthy → cause) :
    Left cfg w closed cause (abortCleanup r) := by
  have hchunk : abortChunk r = r := by
    unfold abortChunk
    rw [h.active]
  rw [abortCleanup, hchunk]
  exact Left.abortInput ⟨h.files, h.created, .inl h.opened, h.index, hcause⟩

/-- Closing and removing the active chunk leaves the closed ones. -/
theorem Begun.removed (h : Begun cfg w closed content fd r) (hcause : w.Healthy → cause)
    {s : Run} (hindex : s.st.chunkIndex = r.st.chunkIndex)
    (hworld : s.world = (r.world.close fd).2.unlink r.st.activeChunkPath) :
    Left cfg w closed cause s := by
  have hunlinks : ∀ o ∈ (r.world.close fd).2.unlinks, o = none := by
    rw [World.close_unlinks]
    exact h.unlinks
  constructor
  · rw [hworld, World.unlink_files hunlinks, World.close_files, h.path]
    exact h.files.remove (h.created closed.length (by omega)).fresh
  · exact fun i hi => h.created i (by omega)
  · rw [hworld, World.unlink_nextFd, World.close_nextFd]
    exact .inr h.opened
  · rw [hindex, h.index]
  · exact hcause

/-- `abort_cleanup` removes the chunk that is open. -/
theorem Begun.left (h : Begun cfg w closed content fd r) (hcause : w.Healthy → cause) :
    Left cfg w closed cause (abortCleanup r) := by
  have hne : r.st.activeChunkPath ≠ ∅ := h.path ▸ chunkPath_ne_empty cfg _
  rw [abortCleanup]
  apply Left.abortInput
  unfold abortChunk
  rw [h.active]
  simp only [hne, ↓reduceIte]
  exact h.removed hcause rfl rfl

theorem Standing.left (h : Standing cfg w closed content r) (hcause : w.Healthy → cause) :
    Left cfg w closed cause (abortCleanup r) := by
  obtain ⟨-, h⟩ | ⟨-, fd, h⟩ := h
  · exact h.left hcause
  · exact h.left hcause

/-- `open_chunk` creates the next chunk, or leaves everything as it was. -/
theorem openChunk_ends (h : Idle cfg w closed r) :
    Ends
      (fun a => Active cfg w closed [] a.1 a.2 ∧ a.2.st.chunkRecords = r.st.chunkRecords ∧
        SameInput r.st a.2.st)
      (Left cfg w closed (¬ Creatable w (chunkPath cfg (closed.length + 1))))
      (openChunk cfg r) := by
  unfold openChunk
  simp only [h.index]
  by_cases hfits : pathMax ≤ (chunkPath cfg (closed.length + 1)).length
  · simp only [hfits, ↓reduceIte]
    exact ⟨h.files, h.created, .inl h.opened, rfl,
      fun _ hpath => absurd hpath.fits (by omega)⟩
  · simp only [hfits, ↓reduceIte]
    unfold World.openExcl
    cases hopen : r.world.opens.head?.join with
    | some err =>
      have hsick : ¬ w.Healthy := by
        intro hw
        rw [head?_join_eq_none (h.smooth.healthy hw).opens] at hopen
        contradiction
      simp only
      split <;> exact ⟨h.files, h.created, .inl h.opened, rfl, fun hw => absurd hw hsick⟩
    | none =>
      by_cases hthere : (r.world.files (chunkPath cfg (closed.length + 1))).isSome
      · have hblocked : ¬ Creatable w (chunkPath cfg (closed.length + 1)) := by
          intro hpath
          rw [h.files.next, hpath.fresh] at hthere
          contradiction
        simp only [hthere, ↓reduceIte]
        exact ⟨h.files, h.created, .inl h.opened, rfl, fun _ => hblocked⟩
      · have hfresh : w.files (chunkPath cfg (closed.length + 1)) = none := by
          rw [← h.files.next]
          simpa using hthere
        simp only [hthere, Bool.false_eq_true, ↓reduceIte]
        refine ⟨⟨⟨h.unlinks, h.files.push [], ?_, ?_, rfl, rfl, rfl⟩, ?_, h.bytes, by simp⟩, rfl,
          ⟨⟨rfl, rfl⟩, rfl⟩⟩
        · intro i hi
          by_cases hlast : i = closed.length
          · exact hlast ▸ ⟨Nat.not_le.mp hfits, hfresh⟩
          · exact h.created i (by omega)
        · rw [h.opened]
        · exact ⟨h.smooth.opens.trans (Took.tail hopen), h.smooth.writes, h.smooth.closes⟩

/-- The write half of `write_to_chunk` appends to the open chunk, or removes it. -/
theorem writeOpen_ends (h : Active cfg w closed content fd r) (hdata : data ≠ []) :
    Ends
      (fun r' => Standing cfg w closed (content ++ data) r' ∧
        r'.st.chunkRecords = r.st.chunkRecords ∧ SameInput r.st r'.st)
      (Left cfg w closed False) (writeOpen data fd r) := by
  unfold writeOpen World.writeAll
  simp only [h.target, h.files.last, Option.map_some]
  cases hok : (writeLoop data r.world.writes r.world.errno).ok with
  | true =>
    obtain ⟨hbytes, htook⟩ := writeLoop_ok hok
    have hfiles := h.files.replace (content ++ data)
    refine ⟨.inr ⟨by simp [hdata], fd, ⟨h.unlinks, ?_, h.created, h.opened, h.index,
      h.active, h.path⟩, ?_, ?_, h.target⟩, rfl, ⟨⟨rfl, rfl⟩, rfl⟩⟩
    · simpa only [hbytes] using hfiles
    · exact ⟨h.smooth.opens, h.smooth.writes.trans htook, h.smooth.closes⟩
    · simp [h.bytes]
  | false =>
    have hsick : ¬ w.Healthy := by
      intro hw
      have hok' := (writeLoop_spec data r.world.errno (h.smooth.healthy hw).writes).1
      rw [hok] at hok'
      contradiction
    -- whatever part of the data was written goes with the chunk
    have hbegun : Begun cfg w closed
        (content ++ (writeLoop data r.world.writes r.world.errno).bytes) fd
        ⟨r.st, (r.world.writeAll fd data).2⟩ := by
      refine ⟨h.unlinks, ?_, h.created, h.opened, h.index, h.active, h.path⟩
      simp only [World.writeAll, h.target, h.files.last, Option.map_some]
      exact h.files.replace _
    have hleft := hbegun.left hsick
    simp only [World.writeAll, h.target, h.files.last, Option.map_some] at hleft
    simp only
    split <;> exact hleft.diagnosed _ _

/-- `write_to_chunk` appends to the content of the open chunk; a system whose calls all
succeed only fails to create the next chunk. -/
theorem writeToChunk_ends (data : List UInt8) (h : Standing cfg w closed content r) :
    Ends
      (fun r' => Standing cfg w closed (content ++ data) r' ∧
        r'.st.chunkRecords = r.st.chunkRecords ∧ SameInput r.st r'.st)
      (Left cfg w closed
        (content ++ data ≠ [] ∧ ¬ Creatable w (chunkPath cfg (closed.length + 1))))
      (writeToChunk cfg data r) := by
  unfold writeToChunk
  by_cases hdata : data = []
  · simp only [hdata, ↓reduceIte, List.append_nil]
    exact ⟨h, rfl, ⟨⟨rfl, rfl⟩, rfl⟩⟩
  · simp only [hdata, ↓reduceIte]
    have hnever : ∀ r', Left cfg w closed False r' → Left cfg w closed
        (content ++ data ≠ [] ∧ ¬ Creatable w (chunkPath cfg (closed.length + 1))) r' :=
      fun r' hleft => hleft.imp False.elim
    obtain ⟨rfl, h⟩ | ⟨-, fd, h⟩ := h
    · simp only [h.active]
      apply Ends.bind ((openChunk_ends h).imp (fun _ => id) _)
      · rintro ⟨fd, r₁⟩ ⟨hactive, hrec, hsame⟩
        apply (writeOpen_ends hactive hdata).imp _ hnever
        intro r₂ ⟨hstanding, hrec', hsame'⟩
        exact ⟨hstanding, hrec'.trans hrec, hsame.trans hsame'⟩
      · intro r' hleft
        exact hleft.imp fun hnever => ⟨by simpa using hdata, hnever⟩
    · simp only [h.active]
      exact (writeOpen_ends h hdata).imp (fun _ => id) hnever

/-- `close_chunk` completes the open chunk, or removes it. -/
theorem closeChunk_ends (h : Standing cfg w closed content r) :
    Ends
      (fun r' => Idle cfg w (closed ++ if content = [] then [] else [content]) r' ∧
        (content ≠ [] → r'.st.chunkRecords = 0) ∧ SameInput r.st r'.st)
      (Left cfg w closed False) (closeChunk r) := by
  unfold closeChunk
  obtain ⟨rfl, h⟩ | ⟨hne, fd, h⟩ := h
  · simp only [h.active, ↓reduceIte, List.append_nil]
    exact ⟨h, fun hne => absurd rfl hne, ⟨⟨rfl, rfl⟩, rfl⟩⟩
  · simp only [h.active, hne, ↓reduceIte]
    cases hclose : r.world.closes.head?.join with
    | some err =>
      have hsick : ¬ w.Healthy := by
        intro hw
        rw [head?_join_eq_none (h.smooth.healthy hw).closes] at hclose
        contradiction
      have hleft : Left cfg w closed False
          ⟨{ r.st with activeChunkFd := none, activeChunkPath := ∅ },
            (r.world.close fd).2.unlink r.st.activeChunkPath⟩ := h.removed hsick rfl rfl
      unfold World.close at hleft ⊢
      simp only [hclose] at hleft ⊢
      exact hleft.diagnosed _ _
    | none =>
      unfold World.close
      simp only [hclose]
      refine ⟨?_, fun _ => rfl, ⟨⟨rfl, rfl⟩, rfl⟩⟩
      constructor
      · exact ⟨h.smooth.opens, h.smooth.writes, h.smooth.closes.trans (Took.tail hclose)⟩
      · exact h.unlinks
      · exact h.files
      · simpa using h.created
      · simpa [Nat.add_assoc] using h.opened
      · simp [h.index]
      · rfl
      · rfl

end Operations

end Snslice
