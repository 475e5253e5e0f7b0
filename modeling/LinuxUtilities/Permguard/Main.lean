import LinuxUtilities.Foundation.Readers
import LinuxUtilities.Permguard.Composition

/-! `main`, and what can be read back off its standard output, whichever of its writes fail. -/
namespace Permguard
open CString PrefixCode EscapedText

section Main

def usageSynopsis : List UInt8 := ascii "usage: permguard [--] PATH...\n"

def helpText : List UInt8 := ascii <|
  "usage: permguard [--] PATH...\n" ++
  "Inspect explicitly supplied paths without following symbolic links.\n"

def versionText : List UInt8 := ascii "permguard 0.1.0\n"

/-- `emit_usage_diag`, and the status that follows it. -/
def usage (p : Proc) : ℕ × Proc := (2, diag (ascii "permguard: USAGE\n" ++ usageSynopsis) p)

/-- `emit_unknown_option`, and the status that follows it. -/
def unknownOption (option : CStr) (p : Proc) : ℕ × Proc :=
  (2, diag usageSynopsis (emitDiagReasonPath (ascii "UNKNOWN_OPTION") option p))

/-- `handle_help` and `handle_version`. -/
def handleText (text : List UInt8) (p : Proc) : ℕ × Proc :=
  match fputs text p with
  | .error p => emitStdoutWriteError p
  | .ok p => completeStdout 0 p

def looksLikeOption (arg : CStr) : Bool := arg.bytes.head? = some 45

/-- `run_operands`, on the arguments that are left. -/
def runOperands (lstat : CStr → Except Errno Stat) (args : List CStr) (endOfOptions : Bool)
    (p : Proc) : ℕ × Proc :=
  if args = [] then usage p
  else
    match if endOfOptions then none else args.find? looksLikeOption with
    | some option => unknownOption option p
    | none => runScan lstat args p

/-- `main`, on all its arguments. -/
def main (lstat : CStr → Except Errno Stat) (argv : List CStr) (p : Proc) : ℕ × Proc :=
  match argv with
  | [] => usage p
  | _ :: args =>
    if args.head? = some (.lit "--help") then
      if args.length = 1 then handleText helpText p else usage p
    else if args.head? = some (.lit "--version") then
      if args.length = 1 then handleText versionText p else usage p
    else if args.head? = some (.lit "--") then runOperands lstat args.tail true p
    else runOperands lstat args false p

/-- The operands of a command line: all that follows a first `--`, or arguments none of which
begins with a dash. -/
def operandsOf (argv : List CStr) : Option (List CStr) :=
  match argv.tail with
  | [] => none
  | arg :: args =>
    if arg = .lit "--" then if args = [] then none else some args
    else if (arg :: args).any looksLikeOption then none
    else some (arg :: args)

theorem main_operands {lstat : CStr → Except Errno Stat} {argv paths : List CStr}
    (h : operandsOf argv = some paths) (p : Proc) : main lstat argv p = runScan lstat paths p := by
  unfold operandsOf at h
  split at h
  · contradiction
  next arg args htail =>
    obtain ⟨name, rfl⟩ : ∃ name, argv = name :: arg :: args := by
      cases argv with
      | nil => simp at htail
      | cons name rest => exact ⟨name, by rw [← htail]; rfl⟩
    by_cases hdashes : arg = .lit "--"
    · subst hdashes
      rw [if_pos rfl, Option.ite_none_left_eq_some] at h
      obtain ⟨hne, hpaths⟩ := h
      obtain rfl := Option.some.inj hpaths
      have hhelp : CStr.lit "--" ≠ .lit "--help" := by decide
      have hversion : CStr.lit "--" ≠ .lit "--version" := by decide
      simp [main, runOperands, hhelp, hversion, hne]
    · rw [if_neg hdashes, Option.ite_none_left_eq_some] at h
      obtain ⟨hplain, hpaths⟩ := h
      obtain rfl := Option.some.inj hpaths
      have hfind : (arg :: args).find? looksLikeOption = none := by
        rw [List.find?_eq_none]
        intro x hx hoption
        exact hplain (List.any_eq_true.mpr ⟨x, hx, hoption⟩)
      have hnot : ∀ option : CStr, looksLikeOption option = true → arg ≠ option := by
        rintro option hoption rfl
        exact hplain (by simp [hoption])
      have hhelp := hnot (.lit "--help") (by decide)
      have hversion := hnot (.lit "--version") (by decide)
      simp [main, runOperands, hhelp, hversion, hdashes, hfind]

end Main

section Reading

def hazardTag (h : Hazard) : List UInt8 := ascii h.name ++ [9]

theorem hazardTag_prefixFree : PrefixFree hazardTag := by
  intro a b s t heq
  have htab : ∀ h : Hazard, (9 : UInt8) ∉ ascii h.name := by
    intro h
    cases h <;> decide +kernel
  simp only [hazardTag, List.append_assoc, List.singleton_append] at heq
  obtain ⟨hname, hrest⟩ := separated_inj (htab a) (htab b) heq
  exact ⟨Row.name_injective hname, hrest⟩

/-- A hazard and the bytes of its path, off the first line of an output. -/
def readRow : List UInt8 → Option ((Hazard × List UInt8) × List UInt8) :=
  pair (oneOf Hazard.all hazardTag) (readQuoted 10)

def readOutput (output : List UInt8) : List (Hazard × List UInt8) × List UInt8 :=
  decode readRow output

/-- What a row says. -/
def Row.content (r : Row) : Hazard × List UInt8 := (r.code, r.path.bytes)

theorem readRow_decodes : Decodes readRow fun r : Hazard × List UInt8 =>
    hazardTag r.1 ++ (quoted r.2 ++ [10]) := by
  have hall : ∀ h : Hazard, h ∈ Hazard.all := by
    intro h
    cases h <;> decide
  exact (Decodes.oneOf hazardTag_prefixFree hall).pair (readQuoted_decodes 10)

theorem readRow_extends : Extends readRow :=
  (Extends.oneOf hazardTag_prefixFree _).pair (readQuoted_extends 10)

theorem readRow_nil : readRow [] = none := by decide +kernel

theorem rowsText_spells (rows : List Row) :
    Spells readRow (rowsText rows) (rows.map Row.content) := by
  have hspells := readRow_decodes.spells (rows.map Row.content)
  have htext : (rows.map Row.content).flatMap (fun r => hazardTag r.1 ++ (quoted r.2 ++ [10])) =
      rowsText rows := by
    rw [rowsText, List.flatMap_map]
    congr 1
    funext r
    rw [Row.text_eq]
    simp [row, hazardTag, Row.keyword, Row.content]
  rwa [htext] at hspells

end Reading

section Puts

/-- All of a text was put on standard output, or a part of it and a call failed. -/
def Puts (p : Proc) (text : List UInt8) : Except Proc Proc → Prop
  | .ok p' => p'.stdout = p.stdout ++ text
  | .error p' => ∃ part, part <+: text ∧ p'.stdout = p.stdout ++ part

variable {p : Proc}

theorem fputs_puts (text : List UInt8) : Puts p text (fputs text p) := by
  unfold fputs
  split
  · rfl
  · exact ⟨[], List.nil_prefix, by simp⟩

theorem Puts.bind {s t : List UInt8} {r : Except Proc Proc} {f : Proc → Except Proc Proc}
    (h : Puts p s r) (hf : ∀ p', Puts p' t (f p')) : Puts p (s ++ t) (r >>= f) := by
  cases r with
  | error p' =>
    obtain ⟨part, hpart, hstdout⟩ := h
    exact ⟨part, hpart.trans (List.prefix_append s t), hstdout⟩
  | ok p' =>
    have hstdout : p'.stdout = p.stdout ++ s := h
    have hrest := hf p'
    show Puts p (s ++ t) (f p')
    cases hresult : f p' with
    | error p'' =>
      rw [hresult] at hrest
      obtain ⟨part, hpart, hstdout'⟩ := hrest
      exact ⟨s ++ part, (List.prefix_append_right_inj s).mpr hpart, by rw [hstdout', hstdout,
        List.append_assoc]⟩
    | ok p'' =>
      rw [hresult] at hrest
      have hstdout' : p''.stdout = p'.stdout ++ t := hrest
      show p''.stdout = p.stdout ++ (s ++ t)
      rw [hstdout', hstdout, List.append_assoc]

theorem foldlM_puts {α : Type} (f : Proc → α → Except Proc Proc) (text : α → List UInt8)
    (hf : ∀ p a, Puts p (text a) (f p a)) (l : List α) :
    Puts p (l.flatMap text) (l.foldlM f p) := by
  induction l generalizing p with
  | nil => exact (List.append_nil _).symm
  | cons a l ih =>
    rw [List.foldlM_cons, List.flatMap_cons]
    exact (hf p a).bind fun p' => ih

theorem fputsAll_puts (pieces : List (List UInt8)) (p : Proc) :
    Puts p pieces.flatten (fputsAll pieces p) := by
  have h := @foldlM_puts p _ (fun p piece => fputs piece p) id (fun p piece => fputs_puts piece)
    pieces
  rwa [List.flatMap_id] at h

theorem rowsText_hazards (mode : ℕ) (path : CStr) (hazards : List Hazard) :
    rowsText ((hazards.filter fun h => mode &&& h.modeBit ≠ 0).map (⟨·, path⟩)) =
      hazards.flatMap fun h =>
        if mode &&& h.modeBit = 0 then [] else (findingPieces h path).flatten := by
  induction hazards with
  | nil => rfl
  | cons hazard hazards ih =>
    rw [List.flatMap_cons, ← ih]
    by_cases hbit : mode &&& hazard.modeBit = 0
    · rw [List.filter_cons_of_neg (by simpa using hbit), if_pos hbit]
      rfl
    · rw [List.filter_cons_of_pos (by simpa using hbit), if_neg hbit]
      rfl

theorem emitFindingsForMask_puts (mode : ℕ) (path : CStr) :
    Puts p (rowsText ((hazardsOf mode).map (⟨·, path⟩)))
      (emitFindingsForMask (classifyMode mode) path p) := by
  rw [hazardsOf, rowsText_hazards]
  apply foldlM_puts
  intro p h
  simp only [classifyMode_bit]
  split
  · exact (List.append_nil _).symm
  · exact fputsAll_puts _ p

/-- What a loop over operands leaves: its flags and all of its text, or a part of it. -/
def Scans (p : Proc) (text : List UInt8) (anyHazard operationalError : Bool) :
    Except Proc (Bool × Bool × Proc) → Prop
  | .ok (hazard, operational, p') =>
    hazard = anyHazard ∧ operational = operationalError ∧ p'.stdout = p.stdout ++ text
  | .error p' => ∃ part, part <+: text ∧ p'.stdout = p.stdout ++ part

theorem Scans.after {q : Proc} {s t : List UInt8} {anyHazard operationalError : Bool}
    {r : Except Proc (Bool × Bool × Proc)} (hp : q.stdout = p.stdout ++ s)
    (h : Scans q t anyHazard operationalError r) :
    Scans p (s ++ t) anyHazard operationalError r := by
  cases r with
  | error p' =>
    obtain ⟨part, hpart, hstdout⟩ := h
    refine ⟨s ++ part, (List.prefix_append_right_inj s).mpr hpart, ?_⟩
    rw [hstdout, hp, List.append_assoc]
  | ok r =>
    obtain ⟨hhazard, hoperational, hstdout⟩ := h
    refine ⟨hhazard, hoperational, ?_⟩
    rw [hstdout, hp, List.append_assoc]

theorem emitLstatFailure_stdout (path : CStr) (err : Errno) (p : Proc) :
    (emitLstatFailure path err p).stdout = p.stdout := by
  unfold emitLstatFailure
  split_ifs <;> rfl

/-- Each operand puts its rows, in their order, and sets the flags it calls for. -/
theorem scanLoop_scans (lstat : CStr → Except Errno Stat) (paths : List CStr)
    (anyHazard operationalError : Bool) (p : Proc) :
    Scans p (rowsText (paths.flatMap (operandRows lstat)))
      (anyHazard || paths.any (operandRows lstat · ≠ []))
      (operationalError || paths.any (operandFails lstat))
      (scanLoop lstat paths anyHazard operationalError p) := by
  induction paths generalizing p anyHazard operationalError with
  | nil => exact ⟨by simp, by simp, (List.append_nil _).symm⟩
  | cons path paths ih =>
    have hrows : rowsText ((path :: paths).flatMap (operandRows lstat)) =
        rowsText (operandRows lstat path) ++ rowsText (paths.flatMap (operandRows lstat)) := by
      simp [rowsText]
    rw [hrows, List.any_cons, List.any_cons, scanLoop]
    cases hlstat : lstat path with
    | error err =>
      have hrest := ih anyHazard true (emitLstatFailure path err p)
      apply Scans.after (q := emitLstatFailure path err p)
      · rw [emitLstatFailure_stdout]
        simp [operandRows, hlstat, rowsText]
      · simpa [operandRows, operandFails, hlstat] using hrest
    | ok st =>
      by_cases hlink : st.symlink = true
      · have hrest := ih anyHazard true (emitDiagReasonPath (ascii "SYMBOLIC_LINK") path p)
        apply Scans.after (q := emitDiagReasonPath (ascii "SYMBOLIC_LINK") path p)
        · simp [emitDiagReasonPath, diag, operandRows, hlstat, hlink, rowsText]
        · simpa [operandRows, operandFails, hlstat, hlink] using hrest
      · by_cases hclean : classifyMode st.mode = 0
        · have hnone := (classifyMode_eq_zero st.mode).mp hclean
          have hrest := ih anyHazard operationalError p
          apply Scans.after (q := p)
          · simp [operandRows, hlstat, hlink, hnone, rowsText]
          · simpa [operandRows, operandFails, hlstat, hlink, hclean, hnone] using hrest
        · have hsome := mt (classifyMode_eq_zero st.mode).mpr hclean
          have hputs := @emitFindingsForMask_puts p st.mode path
          simp only [hlink, hclean, Bool.false_eq_true, ↓reduceIte]
          cases hemit : emitFindingsForMask (classifyMode st.mode) path p with
          | error p' =>
            rw [hemit] at hputs
            obtain ⟨part, hpart, hstdout⟩ := hputs
            refine ⟨part, hpart.trans ?_, hstdout⟩
            simp [operandRows, hlstat, hlink]
          | ok p' =>
            rw [hemit] at hputs
            have hstdout : p'.stdout = p.stdout ++ _ := hputs
            apply Scans.after (q := p')
            · simpa [operandRows, hlstat, hlink] using hstdout
            · simpa [operandRows, operandFails, hlstat, hlink, hsome] using
                ih true operationalError p'

end Puts

/-- What a scan puts: all of its rows, or a part of their text and status 2. -/
theorem runScan_puts (lstat : CStr → Except Errno Stat) (paths : List CStr) (p : Proc) :
    ∃ part, (runScan lstat paths p).2.stdout = p.stdout ++ part ∧
      part <+: rowsText (paths.flatMap (operandRows lstat)) ∧
      ((runScan lstat paths p).1 = 2 ∨
        (part = rowsText (paths.flatMap (operandRows lstat)) ∧
          (runScan lstat paths p).1 =
            statusOf (paths.any (operandRows lstat · ≠ [])) (paths.any (operandFails lstat)))) := by
  have hscans := scanLoop_scans lstat paths false false p
  unfold runScan
  cases hloop : scanLoop lstat paths false false p with
  | error p' =>
    rw [hloop] at hscans
    obtain ⟨part, hpart, hstdout⟩ := hscans
    exact ⟨part, hstdout, hpart, .inl rfl⟩
  | ok r =>
    obtain ⟨anyHazard, operationalError, p'⟩ := r
    rw [hloop] at hscans
    obtain ⟨hhazard, hoperational, hstdout⟩ := hscans
    rw [Bool.false_or] at hhazard hoperational
    refine ⟨_, ?_, List.prefix_rfl, ?_⟩
    · simp only [completeStdout]
      have hflush := @fputs_puts p' []
      cases hput : fputs [] p' with
      | error p'' =>
        rw [hput] at hflush
        obtain ⟨part, hpart, hsame⟩ := hflush
        obtain rfl := List.prefix_nil.mp hpart
        rw [List.append_nil] at hsame
        exact hsame.trans hstdout
      | ok p'' =>
        rw [hput] at hflush
        have hsame : p''.stdout = p'.stdout ++ [] := hflush
        rw [List.append_nil] at hsame
        exact hsame.trans hstdout
    · simp only [completeStdout]
      cases hput : fputs [] p' with
      | error p'' => exact .inl rfl
      | ok p'' =>
        simp only [true_and]
        rw [← hhazard, ← hoperational]
        exact .inr rfl

/-- No other text begins with a row. -/
theorem readOutput_other {text output : List UInt8}
    (htext : ∀ h, text.head? ≠ (hazardTag h).head?) (h : output <+: text) :
    readOutput output = ([], output) := by
  have hfind : Hazard.all.find? (fun h => hazardTag h <+: output) = none := by
    rw [List.find?_eq_none]
    intro hazard _ hstart
    obtain ⟨tail, rfl⟩ := (of_decide_eq_true hstart).trans h
    have hne : hazardTag hazard ≠ [] := by simp [hazardTag]
    obtain ⟨b, tag, htag⟩ := List.exists_cons_of_ne_nil hne
    exact htext hazard (by rw [htag]; rfl)
  have hnone : readRow output = none := by
    simp only [readRow, pair, oneOf, hfind, Option.map_none, Option.bind_none]
  unfold readOutput decode
  cases output with
  | nil => rfl
  | cons b output => simp [decodeFor, hnone]

theorem handleText_stdout (text : List UInt8) (outs : List Bool) :
    (handleText text ⟨outs, [], []⟩).2.stdout <+: text := by
  unfold handleText fputs
  split_ifs with hput
  · simp only [completeStdout, fputs]
    split_ifs <;> simp [emitStdoutWriteError, diag]
  · exact List.nil_prefix

/-- Without operands nothing is inspected, and at most a text of `main` itself is printed. -/
theorem main_inspects_nothing {argv : List CStr} (h : operandsOf argv = none)
    (lstat lstat' : CStr → Except Errno Stat) (outs : List Bool) :
    main lstat' argv ⟨outs, [], []⟩ = main lstat argv ⟨outs, [], []⟩ ∧
      ((main lstat argv ⟨outs, [], []⟩).2.stdout <+: helpText ∨
        (main lstat argv ⟨outs, [], []⟩).2.stdout <+: versionText) := by
  unfold operandsOf at h
  unfold main
  cases argv with
  | nil => exact ⟨rfl, .inl List.nil_prefix⟩
  | cons name args =>
    simp only
    split_ifs with hhelp hone hversion hone hdashes
    · exact ⟨rfl, .inl (handleText_stdout helpText outs)⟩
    · exact ⟨rfl, .inl List.nil_prefix⟩
    · exact ⟨rfl, .inr (handleText_stdout versionText outs)⟩
    · exact ⟨rfl, .inl List.nil_prefix⟩
    · obtain ⟨rest, rfl⟩ : ∃ rest, args = .lit "--" :: rest := by
        cases args with
        | nil => contradiction
        | cons arg rest => exact ⟨rest, by rw [Option.some.inj hdashes]⟩
      have hrest : rest = [] := by simpa using h
      subst hrest
      exact ⟨rfl, .inl List.nil_prefix⟩
    · cases args with
      | nil => exact ⟨rfl, .inl List.nil_prefix⟩
      | cons arg rest =>
        have hplain : arg ≠ .lit "--" := by simpa using hdashes
        have hany : (arg :: rest).any looksLikeOption = true := by
          simp only [List.tail_cons, if_neg hplain] at h
          split_ifs at h with hany
          exact hany
        obtain ⟨option, hoption⟩ := Option.isSome_iff_exists.mp
          ((List.find?_isSome).mpr (List.any_eq_true.mp hany))
        have hrun : ∀ l, runOperands l (arg :: rest) false ⟨outs, [], []⟩ =
            unknownOption option ⟨outs, [], []⟩ := by
          intro l
          simp only [runOperands, hoption, reduceCtorEq, Bool.false_eq_true, ↓reduceIte]
        rw [hrun, hrun]
        exact ⟨rfl, .inl List.nil_prefix⟩

theorem any_rows_iff (lstat : CStr → Except Errno Stat) (paths : List CStr) :
    paths.any (operandRows lstat · ≠ []) = true ↔
      (paths.flatMap (operandRows lstat)).map Row.content ≠ [] := by
  simp [List.map_eq_nil_iff, List.flatMap_eq_nil_iff]

/-- Whatever the command line, the modes and the writes that fail: what can be read back off
standard output are rows of the operands, in the order of the operands and of the taxonomy,
without one left out before another; on status 0 and 1 every operand was inspected and no link,
all of the rows are there and nothing else, and there are some exactly on status 1. A command
line without operands inspects nothing and reports nothing. -/
theorem main_reports (lstat : CStr → Except Errno Stat) (argv : List CStr) (outs : List Bool) :
    let run := main lstat argv ⟨outs, [], []⟩
    let read := readOutput run.2.stdout
    (∀ paths, operandsOf argv = some paths →
      let rows := (paths.flatMap (operandRows lstat)).map Row.content
      read.1 <+: rows ∧
        (run.1 ≤ 1 → read = (rows, []) ∧ (run.1 = 1 ↔ rows ≠ []) ∧
          ∀ path ∈ paths, ∃ st, lstat path = .ok st ∧ st.symlink = false) ∧
        ((∀ a ∈ outs, a = true) → read = (rows, []) ∧
          (run.1 = 2 ↔ ∃ path ∈ paths, operandFails lstat path = true))) ∧
      (operandsOf argv = none → read.1 = [] ∧
        ∀ lstat', main lstat' argv ⟨outs, [], []⟩ = run) := by
  intro run read
  constructor
  · intro paths hpaths rows
    obtain ⟨part, hstdout, hpart, hstatus⟩ := runScan_puts lstat paths ⟨outs, [], []⟩
    have hrun : run = runScan lstat paths ⟨outs, [], []⟩ := main_operands hpaths _
    rw [← hrun, List.nil_append] at hstdout
    rw [← hrun] at hstatus
    have hspells : Spells readRow (rowsText (paths.flatMap (operandRows lstat))) rows :=
      rowsText_spells _
    have hwhole : run.2.stdout = rowsText (paths.flatMap (operandRows lstat)) →
        read = (rows, []) := by
      intro hall
      have hread := hspells.decode readRow_nil readRow_nil
      rw [List.append_nil, ← hall] at hread
      exact hread
    refine ⟨?_, fun hle => ?_, fun houts => ?_⟩
    · rw [← hstdout] at hpart
      exact readRow_extends.decode_truncated readRow_nil hspells hpart
    · obtain htwo | ⟨hall, hstatus⟩ := hstatus
      · omega
      have hclean : ∀ path ∈ paths, operandFails lstat path = false := by
        intro path hpath
        by_contra hfails
        have hany : paths.any (operandFails lstat) = true :=
          List.any_eq_true.mpr ⟨path, hpath, by simpa using hfails⟩
        rw [hany, statusOf, if_pos rfl] at hstatus
        omega
      refine ⟨hwhole (hstdout.trans hall), ?_, fun path hpath => ?_⟩
      · have hany : paths.any (operandFails lstat) = false := by simpa using hclean
        have hrows := any_rows_iff lstat paths
        rw [hstatus, hany, statusOf, ← hrows]
        cases paths.any (operandRows lstat · ≠ []) <;> simp
      · have hfails := hclean path hpath
        unfold operandFails at hfails
        cases hlstat : lstat path with
        | error err => simp [hlstat] at hfails
        | ok st =>
          rw [hlstat] at hfails
          exact ⟨st, rfl, hfails⟩
    · have hnever : NeverFails ⟨outs, [], []⟩ := houts
      obtain ⟨hstatus', hwrites⟩ := @runScan_writes lstat _ hnever paths
      rw [← hrun] at hstatus' hwrites
      have hall := hwrites.stdout
      rw [List.nil_append] at hall
      refine ⟨hwhole hall, ?_⟩
      rw [hstatus', ← List.any_eq_true]
      cases paths.any (operandFails lstat) <;>
        cases paths.any (operandRows lstat · ≠ []) <;> simp [statusOf]
  · intro hnone
    refine ⟨?_, fun lstat' => (main_inspects_nothing hnone lstat lstat' outs).1⟩
    have hhelp : ∀ h, helpText.head? ≠ (hazardTag h).head? := by
      intro h
      cases h <;> decide +kernel
    have hversion : ∀ h, versionText.head? ≠ (hazardTag h).head? := by
      intro h
      cases h <;> decide +kernel
    obtain hbegins | hbegins := (main_inspects_nothing hnone lstat lstat outs).2
    · exact congrArg Prod.fst (readOutput_other hhelp hbegins)
    · exact congrArg Prod.fst (readOutput_other hversion hbegins)

/-- A file that others may write, and an operand that is not there, both after `--`. -/
theorem main_reports_sample :
    let lstat : CStr → Except Errno Stat := fun path =>
      if path = .lit "-a" then .ok ⟨false, 0o100646⟩ else .error ENOENT
    let run := main lstat [.lit "permguard", .lit "--", .lit "-a", .lit "--help"] ⟨[], [], []⟩
    readOutput run.2.stdout = ([(.otherWritable, ascii "-a")], []) ∧ run.1 = 2 := by
  intro lstat run
  obtain ⟨hoperands, -⟩ :=
    main_reports lstat [.lit "permguard", .lit "--", .lit "-a", .lit "--help"] []
  obtain ⟨-, -, hall⟩ := hoperands [.lit "-a", .lit "--help"] (by decide)
  obtain ⟨hread, hstatus⟩ := hall (by simp)
  refine ⟨hread.trans (by decide +kernel), hstatus.mpr ⟨.lit "--help", by simp, ?_⟩⟩
  decide

end Permguard
