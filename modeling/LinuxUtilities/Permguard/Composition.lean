import LinuxUtilities.Permguard.Rows

/-! Runs of `permguard` compose: what is written for two lists of operands is what is written for
their concatenation, and the statuses meet in their maximum. -/
namespace Permguard
open CString

/-- Standard output takes all that is put on it. -/
def NeverFails (p : Proc) : Prop := ∀ a ∈ p.outs, a = true

/-- A process after a part of a run that wrote these texts. -/
structure Writes (p p' : Proc) (out err : List UInt8) : Prop where
  neverFails : NeverFails p'
  stdout : p'.stdout = p.stdout ++ out
  stderr : p'.stderr = p.stderr ++ err

/-- The hazard bits that are set in a mode, in taxonomy order. -/
def hazardsOf (mode : ℕ) : List Hazard := Hazard.all.filter fun h => mode &&& h.modeBit ≠ 0

/-- The rows of an operand: one for each hazard of a target that is no link. -/
def operandRows (lstat : CStr → Except Errno Stat) (path : CStr) : List Row :=
  match lstat path with
  | .error _ => []
  | .ok st => if st.symlink then [] else (hazardsOf st.mode).map (⟨·, path⟩)

/-- What goes to standard error for an operand. -/
def operandDiag (lstat : CStr → Except Errno Stat) (path : CStr) : List UInt8 :=
  match lstat path with
  | .error err => (emitLstatFailure path err ⟨[], [], []⟩).stderr
  | .ok st =>
    if st.symlink then (emitDiagReasonPath (ascii "SYMBOLIC_LINK") path ⟨[], [], []⟩).stderr else []

/-- Whether an operand is an operational error. -/
def operandFails (lstat : CStr → Except Errno Stat) (path : CStr) : Bool :=
  match lstat path with
  | .error _ => true
  | .ok st => st.symlink

/-- The status of a run, by its flags. -/
def statusOf (anyHazard operationalError : Bool) : ℕ :=
  if operationalError then 2 else if anyHazard then 1 else 0

namespace Writes
variable {p p' p'' : Proc} {out out' err err' : List UInt8}

theorem refl (h : NeverFails p) : Writes p p [] [] := ⟨h, by simp, by simp⟩

theorem trans (h : Writes p p' out err) (h' : Writes p' p'' out' err') :
    Writes p p'' (out ++ out') (err ++ err') :=
  ⟨h'.neverFails, by rw [h'.stdout, h.stdout, List.append_assoc],
    by rw [h'.stderr, h.stderr, List.append_assoc]⟩

end Writes

section Put
variable {p : Proc}

theorem fputs_writes (h : NeverFails p) (text : List UInt8) :
    ∃ p', fputs text p = .ok p' ∧ Writes p p' text [] := by
  have hhead : p.outs.headD true = true := by
    cases houts : p.outs with
    | nil => rfl
    | cons a outs => exact h a (houts ▸ List.mem_cons_self)
  rw [fputs, if_pos hhead]
  exact ⟨_, rfl, fun a ha => h a (List.mem_of_mem_tail ha), rfl, by simp⟩

theorem fputsAll_writes (h : NeverFails p) (pieces : List (List UInt8)) :
    ∃ p', fputsAll pieces p = .ok p' ∧ Writes p p' pieces.flatten [] := by
  induction pieces generalizing p with
  | nil => exact ⟨p, rfl, .refl h⟩
  | cons piece pieces ih =>
    obtain ⟨p₁, hput, hwrites⟩ := fputs_writes h piece
    obtain ⟨p', hrest, hwrites'⟩ := ih hwrites.neverFails
    refine ⟨p', ?_, hwrites.trans hwrites'⟩
    rw [fputsAll, List.foldlM_cons, hput]
    exact hrest

/-- A bit of the mask is a hazard bit of the mode. -/
theorem classifyMode_bit (mode : ℕ) (h : Hazard) :
    classifyMode mode &&& 1 <<< h.bit = 0 ↔ mode &&& h.modeBit = 0 := by
  unfold classifyMode Hazard.all
  simp only [List.foldl_cons, List.foldl_nil]
  by_cases hgroup : mode &&& Hazard.groupWritable.modeBit = 0 <;>
    by_cases hother : mode &&& Hazard.otherWritable.modeBit = 0 <;>
    by_cases huser : mode &&& Hazard.setUserId.modeBit = 0 <;>
    by_cases hid : mode &&& Hazard.setGroupId.modeBit = 0 <;>
    cases h <;> simp [hgroup, hother, huser, hid, Hazard.bit]

theorem classifyMode_eq_zero (mode : ℕ) : classifyMode mode = 0 ↔ hazardsOf mode = [] := by
  have hnone : hazardsOf mode = [] ↔ ∀ h : Hazard, mode &&& h.modeBit = 0 := by
    have hall : ∀ h : Hazard, h ∈ Hazard.all := by
      intro h
      cases h <;> decide
    simp [hazardsOf, List.filter_eq_nil_iff, hall]
  rw [hnone]
  constructor
  · intro hzero h
    rw [← classifyMode_bit, hzero, Nat.zero_and]
  · intro hbits
    simp [classifyMode, Hazard.all, hbits]

theorem emitFindingsForMask_writes (h : NeverFails p) (mode : ℕ) (path : CStr) :
    ∃ p', emitFindingsForMask (classifyMode mode) path p = .ok p' ∧
      Writes p p' (rowsText ((hazardsOf mode).map (⟨·, path⟩))) [] := by
  unfold emitFindingsForMask hazardsOf
  induction Hazard.all generalizing p with
  | nil => exact ⟨p, rfl, .refl h⟩
  | cons hazard hazards ih =>
    simp only [List.foldlM_cons, classifyMode_bit]
    by_cases hbit : mode &&& hazard.modeBit = 0
    · obtain ⟨p', hrest, hwrites⟩ := ih h
      rw [List.filter_cons_of_neg (by simpa using hbit), if_pos hbit]
      simp only [classifyMode_bit] at hrest
      exact ⟨p', hrest, hwrites⟩
    · obtain ⟨p₁, hrow, hwrites⟩ := fputsAll_writes h (findingPieces hazard path)
      obtain ⟨p', hrest, hwrites'⟩ := ih hwrites.neverFails
      rw [List.filter_cons_of_pos (by simpa using hbit), if_neg hbit, hrow]
      simp only [classifyMode_bit] at hrest
      exact ⟨p', hrest, hwrites.trans hwrites'⟩

theorem diag_writes (h : NeverFails p) (text : List UInt8) : Writes p (diag text p) [] text :=
  ⟨h, by simp [diag], rfl⟩

theorem emitDiagReasonPath_writes (h : NeverFails p) (reason : List UInt8) (path : CStr) :
    Writes p (emitDiagReasonPath reason path p) []
      (emitDiagReasonPath reason path ⟨[], [], []⟩).stderr := by
  simpa [emitDiagReasonPath, diag] using diag_writes h _

theorem emitLstatFailure_writes (h : NeverFails p) (path : CStr) (err : Errno) :
    Writes p (emitLstatFailure path err p) [] (emitLstatFailure path err ⟨[], [], []⟩).stderr := by
  unfold emitLstatFailure
  split
  · exact emitDiagReasonPath_writes h _ path
  split
  · exact emitDiagReasonPath_writes h _ path
  split
  · exact emitDiagReasonPath_writes h _ path
  · exact emitDiagReasonPath_writes h _ path

end Put

section Scan
variable {lstat : CStr → Except Errno Stat} {p : Proc}

/-- One operand after the other: its rows and its diagnostic, and the flags that it sets. -/
theorem scanLoop_writes (h : NeverFails p) (paths : List CStr) (anyHazard operationalError : Bool) :
    ∃ p', scanLoop lstat paths anyHazard operationalError p =
        .ok (anyHazard || paths.any (operandRows lstat · ≠ []),
          operationalError || paths.any (operandFails lstat), p') ∧
      Writes p p' (rowsText (paths.flatMap (operandRows lstat)))
        (paths.flatMap (operandDiag lstat)) := by
  induction paths generalizing p anyHazard operationalError with
  | nil => exact ⟨p, by simp [scanLoop], .refl h⟩
  | cons path paths ih =>
    have hrows : rowsText ((path :: paths).flatMap (operandRows lstat)) =
        rowsText (operandRows lstat path) ++ rowsText (paths.flatMap (operandRows lstat)) := by
      simp [rowsText]
    rw [hrows, List.flatMap_cons, List.any_cons, List.any_cons, scanLoop]
    cases hlstat : lstat path with
    | error err =>
      have hwrites := emitLstatFailure_writes h path err
      obtain ⟨p', hrest, hwrites'⟩ := ih hwrites.neverFails anyHazard true
      refine ⟨p', ?_, ?_⟩
      · simp [hrest, operandRows, operandFails, hlstat]
      · simpa [operandRows, operandDiag, hlstat, rowsText] using hwrites.trans hwrites'
    | ok st =>
      simp only
      by_cases hlink : st.symlink = true
      · have hwrites := emitDiagReasonPath_writes h (ascii "SYMBOLIC_LINK") path
        obtain ⟨p', hrest, hwrites'⟩ := ih hwrites.neverFails anyHazard true
        refine ⟨p', ?_, ?_⟩
        · simp [hlink, hrest, operandRows, operandFails, hlstat]
        · simpa [operandRows, operandDiag, hlstat, hlink, rowsText] using hwrites.trans hwrites'
      · by_cases hclean : classifyMode st.mode = 0
        · obtain ⟨p', hrest, hwrites⟩ := ih h anyHazard operationalError
          have hnone := (classifyMode_eq_zero st.mode).mp hclean
          refine ⟨p', ?_, ?_⟩
          · simp [hlink, hclean, hrest, operandRows, operandFails, hlstat, hnone]
          · simpa [operandRows, operandDiag, hlstat, hlink, hnone, rowsText] using hwrites
        · obtain ⟨p₁, hfindings, hwrites⟩ := emitFindingsForMask_writes h st.mode path
          obtain ⟨p', hrest, hwrites'⟩ := ih hwrites.neverFails true operationalError
          have hsome := mt (classifyMode_eq_zero st.mode).mpr hclean
          refine ⟨p', ?_, ?_⟩
          · simp [hlink, hclean, hfindings, hrest, operandRows, operandFails, hlstat, hsome]
          · simpa [operandRows, operandDiag, hlstat, hlink] using hwrites.trans hwrites'

/-- What a run writes, and its status. -/
theorem runScan_writes (h : NeverFails p) (paths : List CStr) :
    (runScan lstat paths p).1 =
        statusOf (paths.any (operandRows lstat · ≠ [])) (paths.any (operandFails lstat)) ∧
      Writes p (runScan lstat paths p).2 (rowsText (paths.flatMap (operandRows lstat)))
        (paths.flatMap (operandDiag lstat)) := by
  obtain ⟨p₁, hloop, hwrites⟩ := @scanLoop_writes lstat p h paths false false
  obtain ⟨p', hflush, hwrites'⟩ := fputs_writes hwrites.neverFails []
  simp only [runScan, hloop, completeStdout, hflush, Bool.false_or, statusOf, true_and]
  simpa using hwrites.trans hwrites'

end Scan

theorem statusOf_or (anyHazard anyHazard' operationalError operationalError' : Bool) :
    statusOf (anyHazard || anyHazard') (operationalError || operationalError') =
      max (statusOf anyHazard operationalError) (statusOf anyHazard' operationalError') := by
  cases anyHazard <;> cases anyHazard' <;> cases operationalError <;> cases operationalError' <;>
    decide

/-- Two runs and the run over all their operands: the texts follow each other on both streams,
every operand gives the rows of its hazards, and the status is the greater one. -/
theorem runScan_composes (lstat : CStr → Except Errno Stat) (xs ys : List CStr) {p q r : Proc}
    (hp : NeverFails p) (hq : NeverFails q) (hr : NeverFails r) :
    ∃ err err',
      Writes p (runScan lstat xs p).2 (rowsText (xs.flatMap (operandRows lstat))) err ∧
      Writes q (runScan lstat ys q).2 (rowsText (ys.flatMap (operandRows lstat))) err' ∧
      Writes r (runScan lstat (xs ++ ys) r).2 (rowsText (xs.flatMap (operandRows lstat)) ++
        rowsText (ys.flatMap (operandRows lstat))) (err ++ err') ∧
      (runScan lstat (xs ++ ys) r).1 = max (runScan lstat xs p).1 (runScan lstat ys q).1 := by
  obtain ⟨hstatus, hwrites⟩ := @runScan_writes lstat p hp xs
  obtain ⟨hstatus', hwrites'⟩ := @runScan_writes lstat q hq ys
  obtain ⟨hboth, hwritten⟩ := @runScan_writes lstat r hr (xs ++ ys)
  refine ⟨_, _, hwrites, hwrites', ?_, ?_⟩
  · simpa [rowsText] using hwritten
  · rw [hboth, hstatus, hstatus', List.any_append, List.any_append, statusOf_or]

/-- A file that others may write, and a path that is not there. -/
theorem runScan_composes_sample :
    let lstat : CStr → Except Errno Stat := fun path =>
      if path = .lit "a" then .ok ⟨false, 0o100646⟩ else .error ENOENT
    (runScan lstat ([.lit "a"] ++ [.lit "b"]) ⟨[], [], []⟩).1 =
        max (runScan lstat [.lit "a"] ⟨[], [], []⟩).1 (runScan lstat [.lit "b"] ⟨[], [], []⟩).1 ∧
      (runScan lstat [.lit "a"] ⟨[], [], []⟩).2.stdout = ascii "OTHER_WRITABLE\t\"a\"\n" := by
  intro lstat
  have hnever : NeverFails ⟨[], [], []⟩ := fun _ ha => absurd ha List.not_mem_nil
  obtain ⟨_, _, -, -, -, hstatus⟩ :=
    runScan_composes lstat [.lit "a"] [.lit "b"] hnever hnever hnever
  exact ⟨hstatus, by decide +kernel⟩

end Permguard
