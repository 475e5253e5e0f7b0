import LinuxUtilities.Foundation.Readers
import LinuxUtilities.Pathaudit.Hazards
import LinuxUtilities.Pathaudit.Rows

/-! What can be read back off the standard output of `main`, and what it says of the files,
whichever of its allocations and writes fail. -/
namespace Pathaudit
open CString PrefixCode EscapedText Attempt

section Reading

/-- The keyword of a row. -/
inductive Keyword where
  | hazard (code : HazardCode)
  | shadowed
  | found
  deriving DecidableEq

namespace Keyword

def all : List Keyword :=
  [.hazard .emptyRoot, .hazard .relativeRoot, .hazard .missingRoot, .hazard .nonDirectoryRoot,
    .hazard .groupWritable, .hazard .worldWritable, .hazard .unsafeOwner, .shadowed, .found]

def word : Keyword → List UInt8
  | hazard code => ascii code.name
  | shadowed => ascii "SHADOWED"
  | found => ascii "MATCH"

def tag (k : Keyword) : List UInt8 := k.word ++ [9]

theorem mem_all (k : Keyword) : k ∈ all := by
  cases k with
  | hazard code => cases code <;> decide
  | shadowed | found => decide

theorem tag_prefixFree : PrefixFree tag := by
  intro a b s t heq
  have hinjective : ∀ a ∈ all, ∀ b ∈ all, a.word = b.word → a = b := by decide +kernel
  have htab : ∀ k ∈ all, (9 : UInt8) ∉ k.word := by decide +kernel
  simp only [tag, List.append_assoc, List.singleton_append] at heq
  obtain ⟨hword, hrest⟩ := separated_inj (htab a (mem_all a)) (htab b (mem_all b)) heq
  exact ⟨hinjective a (mem_all a) b (mem_all b) hword, hrest⟩

end Keyword

def readText (stop : UInt8) : List UInt8 → Option (CStr × List UInt8) :=
  mapped CStr.ofBytes (readQuoted stop)

theorem readText_decodes (stop : UInt8) :
    Decodes (readText stop) fun text => quoted text.bytes ++ [stop] :=
  (readQuoted_decodes stop).mapped fun text => CStr.ext (CStr.ofBytes_bytes text.nulFree)

theorem readText_extends (stop : UInt8) : Extends (readText stop) :=
  (readQuoted_extends stop).mapped _

def Row.ofTexts (texts : CStr × CStr × CStr) : Row := .shadowed texts.1 texts.2.1 texts.2.2

/-- The rest of a row with a keyword. -/
def readBody : Keyword → List UInt8 → Option (Row × List UInt8)
  | .hazard code => mapped (Row.finding code) (readText 10)
  | .shadowed => mapped Row.ofTexts (pair (readText 9) (pair (readText 9) (readText 10)))
  | .found => mapped Row.found (readText 10)

/-- The row on the first line of an output. -/
def readRow : List UInt8 → Option (Row × List UInt8) :=
  bound (oneOf Keyword.all Keyword.tag) readBody

/-- The rows of an output, and what is left of it. -/
def readOutput (output : List UInt8) : List Row × List UInt8 := decode readRow output

def Row.tagOf : Row → Keyword
  | finding code _ => .hazard code
  | shadowed _ _ _ => .shadowed
  | found _ => .found

def Row.body : Row → List UInt8
  | finding _ root => quoted root.bytes ++ [10]
  | shadowed command winner shadow =>
    quoted command.bytes ++ [9] ++ (quoted winner.bytes ++ [9] ++ (quoted shadow.bytes ++ [10]))
  | found path => quoted path.bytes ++ [10]

theorem Row.text_eq_body (r : Row) : r.text = r.tagOf.tag ++ r.body := by
  rw [Row.text_eq]
  cases r <;> simp [row, Row.keyword, Row.first, Row.others, Row.tagOf, Row.body, Keyword.tag,
    Keyword.word]

theorem readBody_word (r : Row) : Word (readBody r.tagOf) r.body r := by
  intro rest
  cases r with
  | finding code root =>
    show mapped (Row.finding code) (readText 10) (quoted root.bytes ++ [10] ++ rest) = _
    rw [mapped, readText_decodes 10 root rest]
    rfl
  | shadowed command winner shadow =>
    have hpair := (readText_decodes 9).pair ((readText_decodes 9).pair (readText_decodes 10))
    have hread : pair (readText 9) (pair (readText 9) (readText 10))
        (Row.body (.shadowed command winner shadow) ++ rest) =
          some ((command, winner, shadow), rest) := hpair (command, winner, shadow) rest
    show mapped Row.ofTexts _ (Row.body (.shadowed command winner shadow) ++ rest) = _
    rw [mapped, hread]
    rfl
  | found path =>
    show mapped Row.found (readText 10) (quoted path.bytes ++ [10] ++ rest) = _
    rw [mapped, readText_decodes 10 path rest]
    rfl

theorem readRow_decodes : Decodes readRow Row.text := by
  have hbound := (Decodes.oneOf Keyword.tag_prefixFree Keyword.mem_all).bound readBody_word
  rw [funext Row.text_eq_body]
  exact hbound

theorem readRow_extends : Extends readRow := by
  apply (Extends.oneOf Keyword.tag_prefixFree Keyword.all).bound
  intro k
  cases k with
  | hazard code => exact (readText_extends 10).mapped _
  | shadowed =>
    have hpair := (readText_extends 9).pair ((readText_extends 9).pair (readText_extends 10))
    exact hpair.mapped Row.ofTexts
  | found => exact (readText_extends 10).mapped _

theorem readRow_nil : readRow [] = none := by decide +kernel

theorem rowsText_spells (rows : List Row) : Spells readRow (rowsText rows) rows :=
  readRow_decodes.spells rows

theorem readOutput_rows (rows : List Row) : readOutput (rowsText rows) = (rows, []) := by
  have hread := (rowsText_spells rows).decode readRow_nil readRow_nil
  rwa [List.append_nil] at hread

theorem readOutput_truncated {rows : List Row} {output : List UInt8}
    (h : output <+: rowsText rows) : (readOutput output).1 <+: rows :=
  readRow_extends.decode_truncated readRow_nil (rowsText_spells rows) h

end Reading

section Emission
variable {W : Type} {sys : Sys W}

def Finding.row (f : Finding) : Row := .finding f.code f.root

def ShadowRecord.row (r : ShadowRecord) : Row := .shadowed r.command r.winner r.shadow

theorem rowsText_append (rows rows' : List Row) :
    rowsText (rows ++ rows') = rowsText rows ++ rowsText rows' := List.flatMap_append

theorem rowsText_map {α : Type} (f : α → Row) (pieces : α → List (List UInt8))
    (h : ∀ a, (f a).text = (pieces a).flatten) (l : List α) :
    rowsText (l.map f) = (l.flatMap pieces).flatten := by
  induction l with
  | nil => rfl
  | cons a l ih =>
    rw [List.map_cons, List.flatMap_cons, List.flatten_append, ← ih, ← h a]
    rfl

/-- What a part that writes rows leaves: all of them and its status, or a part of them. -/
structure Writes (sys : Sys W) (p : Proc W) (rows : List Row) (status : ℕ) (r : Option ℕ × Proc W) :
    Prop where
  some_part : ∃ part, part <+: rowsText rows ∧ r.2.stdout = p.stdout ++ part
  all : ∀ s, r.1 = some s → r.2.stdout = p.stdout ++ rowsText rows ∧ s = status
  granted : sys.Granted → r.1 ≠ none

theorem putAll_part (pieces : List (List UInt8)) (p : Proc W) :
    ∃ part, part <+: pieces.flatten ∧ (putAll sys pieces p).2.stdout = p.stdout ++ part := by
  induction pieces generalizing p with
  | nil => exact ⟨[], List.nil_prefix, (List.append_nil _).symm⟩
  | cons piece pieces ih =>
    show ∃ part, part <+: (piece :: pieces).flatten ∧
      ((put sys piece >>= fun _ => putAll sys pieces) p).2.stdout = p.stdout ++ part
    rw [bind_apply]
    cases hput : put sys piece p with
    | mk r p₁ =>
      cases r with
      | none =>
        refine ⟨[], List.nil_prefix, ?_⟩
        have hnone : (put sys piece p).1 = none := by rw [hput]
        have hsame : p₁ = (put sys piece p).2 := by rw [hput]
        unfold put Attempt.require at hnone hsame
        by_cases hok : (sys.output p.world).1 = true
        · simp [hok] at hnone
        · simp [hsame, emitDiagReason, hok]
      | some u =>
        obtain ⟨hok, rfl⟩ := require_eq_some.mp hput
        obtain ⟨part, hpart, hstdout⟩ := ih _
        refine ⟨piece ++ part, ?_, ?_⟩
        · rw [List.flatten_cons]
          exact (List.prefix_append_right_inj piece).mpr hpart
        · rw [hstdout, if_pos hok, List.append_assoc]

theorem putAll_append (pieces pieces' : List (List UInt8)) :
    putAll sys (pieces ++ pieces') = putAll sys pieces >>= fun _ => putAll sys pieces' := by
  induction pieces with
  | nil => rfl
  | cons piece pieces ih =>
    show (put sys piece >>= fun _ => putAll sys (pieces ++ pieces')) =
      (put sys piece >>= fun _ => putAll sys pieces) >>= fun _ => putAll sys pieces'
    rw [ih, Attempt.bind_assoc]

theorem completeStdout_stdout (status : ℕ) (p : Proc W) :
    (completeStdout sys status p).2.stdout = p.stdout := by
  unfold completeStdout
  rw [bind_apply]
  unfold Attempt.require
  by_cases hflush : (sys.flush p.world).1 = true
  · rw [if_pos hflush]
    rfl
  · rw [if_neg hflush]
    rfl

theorem writes_putAll {pieces : List (List UInt8)} {rows : List Row}
    (hrows : rowsText rows = pieces.flatten) (status : ℕ) (p : Proc W) :
    Writes sys p rows status ((putAll sys pieces >>= fun _ => completeStdout sys status) p) := by
  constructor
  · obtain ⟨part, hpart, hstdout⟩ := @putAll_part W sys pieces p
    refine ⟨part, hrows ▸ hpart, ?_⟩
    rw [bind_apply]
    cases hput : putAll sys pieces p with
    | mk r p₁ =>
      rw [hput] at hstdout
      cases r with
      | none => exact hstdout
      | some u => exact (completeStdout_stdout status p₁).trans hstdout
  · intro s hs
    obtain ⟨u, p₁, hput, hflush⟩ := bind_eq_some.mp (Prod.ext hs rfl :
      (putAll sys pieces >>= fun _ => completeStdout sys status) p = (some s, _))
    obtain ⟨hstatus, hsame⟩ := completeStdout_some hflush
    exact ⟨by rw [hsame, putAll_some hput, hrows], hstatus⟩
  · intro hg hnone
    obtain ⟨p₁, hput⟩ := putAll_granted hg pieces p
    obtain ⟨p₂, hflush⟩ := completeStdout_granted hg status p₁
    rw [bind_apply, hput] at hnone
    simp [hflush] at hnone

theorem emitPathReport_writes (findings : List Finding) (shadows : List ShadowRecord)
    (p : Proc W) :
    Writes sys p (findings.map Finding.row ++ shadows.map ShadowRecord.row)
      (if findings = [] ∧ shadows = [] then 0 else 1) (emitPathReport sys findings shadows p) := by
  have hsplit : emitPathReport sys findings shadows =
      putAll sys (findings.flatMap findingPieces ++ shadows.flatMap shadowPieces) >>= fun _ =>
        completeStdout sys (if findings = [] ∧ shadows = [] then 0 else 1) := by
    rw [putAll_append, Attempt.bind_assoc]
    rfl
  rw [hsplit]
  apply writes_putAll
  rw [rowsText_append, rowsText_map Finding.row findingPieces fun _ => rfl,
    rowsText_map ShadowRecord.row shadowPieces fun _ => rfl, List.flatten_append]

theorem emitCommandQuery_writes (paths : List CStr) (findings : List Finding) (p : Proc W) :
    Writes sys p (paths.map Row.found ++ findings.map Finding.row)
      (if findings = [] then 0 else 1) (emitCommandQuery sys paths findings p) := by
  have hsplit : emitCommandQuery sys paths findings =
      putAll sys (paths.flatMap matchPieces ++ findings.flatMap findingPieces) >>= fun _ =>
        completeStdout sys (if findings = [] then 0 else 1) := by
    rw [putAll_append, Attempt.bind_assoc]
    rfl
  rw [hsplit]
  apply writes_putAll
  rw [rowsText_append, rowsText_map Finding.row findingPieces fun _ => rfl,
    rowsText_map Row.found matchPieces fun _ => rfl, List.flatten_append]

end Emission

section Reports
variable {W : Type} (sys : Sys W)

def Row.isHazard : Row → Bool
  | found _ => false
  | _ => true

def Row.match? : Row → Option CStr
  | found path => some path
  | _ => none

/-- Matches come first, then findings by their texts, then shadowed commands, no pair twice. -/
def Row.InOrder : Row → Row → Prop
  | found _, found _ | found _, finding _ _ | finding _ _, shadowed _ _ _ => True
  | finding _ root, finding _ root' => root ≤ root'
  | shadowed command _ shadow, shadowed command' _ shadow' =>
    command < command' ∨ command = command' ∧ shadow ≠ shadow'
  | _, _ => False

/-- The executables under some components, in PATH order. -/
def executableHits (roots : List Root) : List Hit :=
  (roots.flatMap (foundUnder sys)).map Found.hit

/-- What the rows of `--path` say. -/
structure PathRows (roots : List Root) (rows : List Row) : Prop where
  finding : ∀ code text, .finding code text ∈ rows ↔ PathHazard sys roots code text
  shadowed : ∀ command winner shadow, .shadowed command winner shadow ∈ rows ↔
    winnerOf (executableHits sys roots) command = some winner ∧ winner ≠ shadow ∧
      ∃ g ∈ executableHits sys roots, g.command = command ∧ g.path = shadow
  found : ∀ path, .found path ∉ rows

/-- What the rows of `--command` say. -/
structure CommandRows (command : CStr) (roots : List Root) (rows : List Row) : Prop where
  finding : ∀ code text, .finding code text ∈ rows ↔ CommandHazard sys command roots code text
  found : rows.filterMap Row.match? =
    roots.filterMap fun root => (commandMatch sys.fs root command).map CommandMatch.path
  shadowed : ∀ name winner shadow, .shadowed name winner shadow ∉ rows

instance (fs : FileSystem) (text : CStr) (code : HazardCode) :
    Decidable (OwnHazard fs text code) := by
  unfold OwnHazard
  infer_instance

/-- What the rows for explicit roots say. -/
structure RootRows (operands : List CStr) (rows : List Row) : Prop where
  finding : ∀ code text, rows.count (.finding code text) =
    if OwnHazard sys.fs text code then operands.count text else 0
  others : ∀ row ∈ rows, ∃ code text, row = .finding code text

/-- A part of the program that gives up before it writes, or writes rows as described. -/
def Reports (spec : List Row → Prop) (p : Proc W) (r : Option ℕ × Proc W) : Prop :=
  (r.1 = none ∧ r.2.stdout = p.stdout) ∨
    ∃ rows p', (spec rows ∧ rows.Pairwise Row.InOrder) ∧ p'.stdout = p.stdout ∧
      Writes sys p' rows (if rows.any Row.isHazard then 1 else 0) r

variable {sys} {spec : List Row → Prop}

theorem reports_bind {α : Type} {x : Run W α} {post : α → Prop} {f : α → Run W ℕ}
    (hx : Sound Proc.stdout x post) (hf : ∀ a p, post a → Reports sys spec p (f a p)) (p : Proc W) :
    Reports sys spec p ((x >>= f) p) := by
  obtain ⟨hstdout, hpost⟩ := hx p
  rw [bind_apply]
  cases hxp : x p with
  | mk r p₁ =>
    rw [hxp] at hstdout hpost
    cases r with
    | none => exact .inl ⟨rfl, hstdout⟩
    | some a =>
      obtain ⟨hnone, hsame⟩ | ⟨rows, p', hspec, hsame, hwrites⟩ := hf a p₁ (hpost a rfl)
      · exact .inl ⟨hnone, hsame.trans hstdout⟩
      · exact .inr ⟨rows, p', hspec, hsame.trans hstdout, hwrites⟩

theorem findings_inOrder (q : QSort compareFindings) (items : List Finding) :
    ((sortIfMany q items).map Finding.row).Pairwise Row.InOrder := by
  rw [List.pairwise_map]
  apply (sortIfMany_sorted q items).imp
  intro a b hle
  rcases compareFindings_nonpos.mp hle with hlt | ⟨heq, -⟩
  · exact le_of_lt hlt
  · exact le_of_eq heq

theorem shadows_inOrder (q : QSort compareShadows) (hits : List Hit) :
    ((sortIfMany q (collect shadowAfter hits)).map ShadowRecord.row).Pairwise Row.InOrder := by
  have hpairs := ((sortIfMany_perm q _).pairwise_iff fun {r s} hne heq =>
    hne ⟨heq.1.symm, heq.2.symm⟩).mpr (shadows_pairwise hits)
  rw [List.pairwise_map]
  apply ((sortIfMany_sorted q (collect shadowAfter hits)).and hpairs).imp
  rintro a b ⟨hle, hne⟩
  rcases compareShadows_nonpos.mp hle with hlt | ⟨heq, -⟩
  · exact .inl hlt
  · exact .inr ⟨heq, fun hshadow => hne ⟨heq, hshadow⟩⟩

theorem mem_findingRows {items : List Finding} {code : HazardCode} {text : CStr} :
    .finding code text ∈ items.map Finding.row ↔ Tells items code text := by
  rw [List.mem_map]
  constructor
  · rintro ⟨f, hf, heq⟩
    obtain ⟨rfl, rfl⟩ := Row.finding.inj heq
    exact ⟨f.index, hf⟩
  · rintro ⟨index, hmem⟩
    exact ⟨_, hmem, rfl⟩

theorem mem_shadowRows {hits : List Hit} {command winner shadow : CStr} :
    .shadowed command winner shadow ∈ (collect shadowAfter hits).map ShadowRecord.row ↔
      winnerOf hits command = some winner ∧ winner ≠ shadow ∧
        ∃ g ∈ hits, g.command = command ∧ g.path = shadow := by
  rw [List.mem_map]
  constructor
  · rintro ⟨r, hr, heq⟩
    obtain ⟨hcommand, hwinner, hshadow⟩ := Row.shadowed.inj heq
    obtain ⟨pre, hit, post, rfl, -, hw, hne, hrecord⟩ := mem_shadows.mp hr
    have hc : hit.command = command := by rw [← hcommand, hrecord]
    have hs : hit.path = shadow := by rw [← hshadow, hrecord]
    refine ⟨?_, ?_, hit, by simp, hc, hs⟩
    · rw [← hc, hw, hwinner]
    · rw [← hs, ← hwinner]
      exact hne
  · rintro ⟨hw, hne, g, hg, rfl, rfl⟩
    obtain ⟨r, hr, hcommand, hshadow, hwinner⟩ :=
      (shadow_recorded_iff hw hne).mpr ⟨g, hg, rfl, rfl⟩
    exact ⟨r, hr, by rw [ShadowRecord.row, hcommand, hshadow, hwinner]⟩

theorem runPathMode_reports (hreal : CanonicalPaths sys.fs) (h : Hashes)
    (qf : QSort compareFindings) (qs : QSort compareShadows) (pathEnv : CStr) (p : Proc W) :
    Reports sys (PathRows sys (components sys.fs pathEnv)) p
      (runPathMode sys h qf qs (some pathEnv) p) := by
  apply reports_bind (auditPath_tells sys hreal h pathEnv)
  rintro s p ⟨hfindings, hshadows⟩
  rw [hshadows]
  have hwrites := @emitPathReport_writes W sys (sortIfMany qf s.findings.items)
    (sortIfMany qs (collect shadowAfter (executableHits sys (components sys.fs pathEnv)))) p
  refine .inr ⟨(sortIfMany qf s.findings.items).map Finding.row ++ (sortIfMany qs (collect
    shadowAfter (executableHits sys (components sys.fs pathEnv)))).map ShadowRecord.row, p,
    ⟨⟨fun code text => ?_, fun command winner shadow => ?_, fun path => ?_⟩, ?_⟩, rfl, ?_⟩
  · have hother : .finding code text ∉ (sortIfMany qs (collect shadowAfter (executableHits sys
        (components sys.fs pathEnv)))).map ShadowRecord.row := by
      intro hmem
      obtain ⟨r, -, heq⟩ := List.mem_map.mp hmem
      exact Row.noConfusion heq
    rw [List.mem_append, or_iff_left hother, mem_findingRows,
      tells_perm (sortIfMany_perm qf _), hfindings]
  · have hother : .shadowed command winner shadow ∉
        (sortIfMany qf s.findings.items).map Finding.row := by
      intro hmem
      obtain ⟨f, -, heq⟩ := List.mem_map.mp hmem
      exact Row.noConfusion heq
    rw [List.mem_append, or_iff_right hother, ((sortIfMany_perm qs _).map _).mem_iff]
    exact mem_shadowRows
  · intro hmem
    rcases List.mem_append.mp hmem with hmem | hmem
    · obtain ⟨f, -, heq⟩ := List.mem_map.mp hmem
      exact Row.noConfusion heq
    · obtain ⟨r, -, heq⟩ := List.mem_map.mp hmem
      exact Row.noConfusion heq
  · rw [List.pairwise_append]
    refine ⟨findings_inOrder qf _, shadows_inOrder qs _, fun a ha b hb => ?_⟩
    obtain ⟨f, -, rfl⟩ := List.mem_map.mp ha
    obtain ⟨r, -, rfl⟩ := List.mem_map.mp hb
    trivial
  · have hstatus (findings : List Finding) (shadows : List ShadowRecord) :
        (if findings = [] ∧ shadows = [] then 0 else 1 : ℕ) =
          if (findings.map Finding.row ++ shadows.map ShadowRecord.row).any Row.isHazard then 1
            else 0 := by
      cases findings with
      | nil => cases shadows <;> simp [ShadowRecord.row, Row.isHazard]
      | cons f findings => simp [Finding.row, Row.isHazard]
    rw [← hstatus]
    exact hwrites

theorem match_findings (items : List Finding) :
    (items.map Finding.row).filterMap Row.match? = [] := by
  rw [List.filterMap_map, List.filterMap_eq_nil_iff]
  exact fun _ _ => rfl

theorem match_matches (paths : List CStr) : (paths.map Row.found).filterMap Row.match? = paths := by
  rw [List.filterMap_map]
  exact List.filterMap_some

theorem runCommandMode_reports (hreal : CanonicalPaths sys.fs) (qf : QSort compareFindings)
    (pathEnv : CStr) {command : CStr} (hname : commandNameIsValid command) (p : Proc W) :
    Reports sys (CommandRows sys command (components sys.fs pathEnv)) p
      (runCommandMode sys qf (some pathEnv) command p) := by
  have hslash : 47 ∉ command.bytes := by
    simp only [commandNameIsValid, Bool.and_eq_true, decide_eq_true_eq] at hname
    exact hname.2
  have hquery : Sound Proc.stdout (queryPath sys command (components sys.fs pathEnv)) fun s =>
      s.Told sys command (components sys.fs pathEnv) ∧ s.found.paths =
        (components sys.fs pathEnv).filterMap fun root =>
          (commandMatch sys.fs root command).map CommandMatch.path := by
    intro p
    obtain ⟨hstdout, htold⟩ := queryPath_told sys hreal hslash
      (fun root hroot => components_len sys.fs pathEnv root hroot) p
    refine ⟨hstdout, fun s hs => ⟨htold s hs, ?_⟩⟩
    rw [(queryPath_sound hslash (components sys.fs pathEnv) p).2 s hs, List.map_filterMap]
    congr 1
    funext root
    rw [foundCommand, Option.map_map]
    rfl
  unfold runCommandMode
  rw [hname, Bool.not_true, if_neg Bool.noConfusion]
  apply reports_bind (pathComponentsLoad_sound sys pathEnv)
  rintro _ p rfl
  apply reports_bind hquery
  rintro s p ⟨htold, hfound⟩
  have hwrites := @emitCommandQuery_writes W sys s.found.paths (sortIfMany qf s.findings.items) p
  refine .inr ⟨s.found.paths.map Row.found ++ (sortIfMany qf s.findings.items).map Finding.row, p,
    ⟨⟨fun code text => ?_, ?_, fun name winner shadow hmem => ?_⟩, ?_⟩, rfl, ?_⟩
  · have hother : .finding code text ∉ s.found.paths.map Row.found := by
      intro hmem
      obtain ⟨path, -, heq⟩ := List.mem_map.mp hmem
      exact Row.noConfusion heq
    rw [List.mem_append, or_iff_right hother, mem_findingRows,
      tells_perm (sortIfMany_perm qf _), htold.told]
  · rw [List.filterMap_append, match_matches, match_findings, List.append_nil, hfound]
  · rcases List.mem_append.mp hmem with hmem | hmem
    · obtain ⟨path, -, heq⟩ := List.mem_map.mp hmem
      exact Row.noConfusion heq
    · obtain ⟨f, -, heq⟩ := List.mem_map.mp hmem
      exact Row.noConfusion heq
  · rw [List.pairwise_append]
    refine ⟨?_, findings_inOrder qf _, fun a ha b hb => ?_⟩
    · rw [List.pairwise_map]
      exact List.pairwise_of_forall fun _ _ => trivial
    · obtain ⟨path, -, rfl⟩ := List.mem_map.mp ha
      obtain ⟨f, -, rfl⟩ := List.mem_map.mp hb
      trivial
  · have hstatus (paths : List CStr) (findings : List Finding) :
        (if findings = [] then 0 else 1 : ℕ) =
          if (paths.map Row.found ++ findings.map Finding.row).any Row.isHazard then 1 else 0 := by
      have hnone : (paths.map Row.found).any Row.isHazard = false := by simp [Row.isHazard]
      rw [List.any_append, hnone, Bool.false_or]
      cases findings <;> simp [Finding.row, Row.isHazard]
    rw [← hstatus]
    exact hwrites

/-- An operand has a row for each of its hazards, as often as it is given. -/
theorem count_rootRows (fs : FileSystem) (operands : List CStr) (code : HazardCode) (text : CStr) :
    (operands.flatMap fun t => ((rootHazards fs t).getD []).map fun c => Row.finding c t).count
        (.finding code text) =
      if OwnHazard fs text code then operands.count text else 0 := by
  have hone (t : CStr) : (((rootHazards fs t).getD []).map fun c => Row.finding c t).count
      (.finding code text) = if OwnHazard fs text code ∧ t = text then 1 else 0 := by
    by_cases ht : t = text
    · subst ht
      have hnodup : ((rootHazards fs t).getD []).Nodup := by
        cases hcodes : rootHazards fs t with
        | none => exact List.nodup_nil
        | some codes =>
          exact (rootHazards_sorted hcodes).imp fun hlt heq =>
            hlt.ne (congrArg HazardCode.rank heq)
      have hinj : Function.Injective fun c => Row.finding c t :=
        fun _ _ heq => (Row.finding.inj heq).1
      rw [List.count_map_of_injective _ _ hinj, hnodup.count]
      simp [OwnHazard]
    · rw [List.count_eq_zero.mpr, if_neg fun h => ht h.2]
      intro hmem
      obtain ⟨c, -, heq⟩ := List.mem_map.mp hmem
      exact ht (Row.finding.inj heq).2
  induction operands with
  | nil => simp
  | cons t operands ih =>
    rw [List.flatMap_cons, List.count_append, ih, hone, List.count_cons]
    by_cases hown : OwnHazard fs text code
    · by_cases ht : t = text <;> simp [hown, ht, Nat.add_comm]
    · simp [hown]

theorem runExplicitRoots_reports (qr : QSort compareRootsByBytesThenIndex)
    (qf : QSort compareFindings) (operands : List CStr) (p : Proc W) :
    Reports sys (RootRows sys operands) p (runExplicitRoots sys qr qf operands true p) := by
  unfold runExplicitRoots
  split_ifs with hnil hdash hcount
  · exact .inl ⟨rfl, rfl⟩
  · simp at hdash
  · exact .inl ⟨rfl, rfl⟩
  · apply reports_bind (alloc_meets sys sys.promiseNothing).sound
    intro _ p _
    have hroots := @explicitRoots_meets W False 0 0 operands (Nat.zero_le _)
    apply reports_bind hroots.sound
    rintro _ p ⟨-, rfl⟩
    have hlen : ∀ root ∈ qr.sort (numberedRoots 0 operands), root.len = root.text.length := by
      intro root hroot
      obtain ⟨i, hi, rfl⟩ := List.mem_mapIdx.mp (qr.mem_sort.mp hroot)
      rfl
    apply reports_bind (auditFold_meets sys.promiseNothing hlen).sound
    rintro b p ⟨-, hitems⟩
    have hwrites := @emitPathReport_writes W sys (sortIfMany qf b.items) [] p
    rw [emitPathReport_nil] at hwrites
    have hperm : ((sortIfMany qf b.items).map Finding.row).Perm
        (operands.flatMap fun t => ((rootHazards sys.fs t).getD []).map fun c =>
          Row.finding c t) := by
      apply ((sortIfMany_perm qf b.items).map Finding.row).trans
      rw [hitems]
      apply (((qr.perm (numberedRoots 0 operands)).flatMap_right _).map Finding.row).trans
      have htexts := numberedRoots_texts 0 operands
      have hrows (root : Root) : (rootFindings sys.fs root).map Finding.row =
          ((rootHazards sys.fs root.text).getD []).map fun c => Row.finding c root.text :=
        List.map_map
      rw [List.map_flatMap, funext hrows]
      nth_rewrite 2 [← htexts]
      rw [List.flatMap_map]
    refine .inr ⟨(sortIfMany qf b.items).map Finding.row, p, ⟨⟨fun code text => ?_, fun row hrow =>
      ?_⟩, findings_inOrder qf b.items⟩, rfl, ?_⟩
    · rw [hperm.count_eq, count_rootRows]
    · obtain ⟨f, -, rfl⟩ := List.mem_map.mp hrow
      exact ⟨f.code, f.root, rfl⟩
    · have hstatus (findings : List Finding) : (if findings = [] then 0 else 1 : ℕ) =
          if (findings.map Finding.row).any Row.isHazard then 1 else 0 := by
        cases findings <;> simp [Finding.row, Row.isHazard]
      rw [← hstatus]
      simpa using hwrites

end Reports

section Main
variable {W : Type} (sys : Sys W)

/-- What a command line asks for. -/
inductive Request where
  | path
  | command (name : CStr)
  | roots (operands : List CStr)
  deriving DecidableEq

/-- All that follows a first `--` are roots, and so are arguments none of which begins with a
dash; other command lines ask for nothing to be inspected. -/
def requestOf (argv : List CStr) : Option Request :=
  match argv.tail with
  | [] => none
  | arg :: rest =>
    if arg = .lit "--path" then if rest = [] then some .path else none
    else if arg = .lit "--command" then
      match rest with
      | [command] => if commandNameIsValid command then some (.command command) else none
      | _ => none
    else if arg = .lit "--" then if rest = [] then none else some (.roots rest)
    else if (arg :: rest).any fun text => text.bytes.head? = some 45 then none
    else some (.roots (arg :: rest))

/-- The rows that answer a request. -/
def Answers (pathEnv : Option CStr) : Request → List Row → Prop
  | .path, rows => ∃ path, pathEnv = some path ∧ PathRows sys (components sys.fs path) rows
  | .command name, rows =>
    ∃ path, pathEnv = some path ∧ CommandRows sys name (components sys.fs path) rows
  | .roots operands, rows => RootRows sys operands rows

variable {sys}

theorem Reports.imp {spec spec' : List Row → Prop} {p : Proc W} {r : Option ℕ × Proc W}
    (h : Reports sys spec p r) (himp : ∀ rows, spec rows → spec' rows) : Reports sys spec' p r :=
  Or.imp_right (fun ⟨rows, p', hspec, hrest⟩ => ⟨rows, p', hspec.imp_left (himp rows), hrest⟩) h

theorem signal_sound (sys : Sys W) :
    Sound Proc.stdout (Attempt.require
      (fun p => ((sys.signal p.world).1, { p with world := (sys.signal p.world).2 }))
      (emitDiagReason "SIGNAL_SETUP")) fun _ => True :=
  Sound.require (fun _ => rfl) fun _ => rfl

theorem runPathMode_answers (hreal : CanonicalPaths sys.fs) (h : Hashes)
    (qf : QSort compareFindings) (qs : QSort compareShadows) (pathEnv : Option CStr) (p : Proc W) :
    Reports sys (Answers sys pathEnv .path) p (runPathMode sys h qf qs pathEnv p) := by
  cases pathEnv with
  | none => exact .inl ⟨rfl, rfl⟩
  | some path =>
    exact (runPathMode_reports hreal h qf qs path p).imp fun rows hrows => ⟨path, rfl, hrows⟩

theorem runCommandMode_answers (hreal : CanonicalPaths sys.fs) (qf : QSort compareFindings)
    (pathEnv : Option CStr) {name : CStr} (hname : commandNameIsValid name) (p : Proc W) :
    Reports sys (Answers sys pathEnv (.command name)) p (runCommandMode sys qf pathEnv name p) := by
  cases pathEnv with
  | none =>
    unfold runCommandMode
    rw [hname, Bool.not_true, if_neg Bool.noConfusion]
    exact .inl ⟨rfl, rfl⟩
  | some path =>
    exact (runCommandMode_reports hreal qf path hname p).imp fun rows hrows => ⟨path, rfl, hrows⟩

theorem requestOf_dash {prog option : CStr} {rest : List CStr}
    (hdash : option.bytes.head? = some 45)
    (hother : option ∉ [CStr.lit "--path", .lit "--command", .lit "--"]) :
    requestOf (prog :: option :: rest) = none := by
  simp only [List.mem_cons, List.not_mem_nil, or_false, not_or] at hother
  obtain ⟨hpath, hcommand, hend⟩ := hother
  simp [requestOf, hpath, hcommand, hend, hdash]

/-- The mode that a request is for. -/
def runRequest (sys : Sys W) (h : Hashes) (qr : QSort compareRootsByBytesThenIndex)
    (qf : QSort compareFindings) (qs : QSort compareShadows) (pathEnv : Option CStr) :
    Request → Run W ℕ
  | .path => runPathMode sys h qf qs pathEnv
  | .command name => runCommandMode sys qf pathEnv name
  | .roots operands => runExplicitRoots sys qr qf operands true

theorem main_request (sys : Sys W) (h : Hashes) (qr : QSort compareRootsByBytesThenIndex)
    (qf : QSort compareFindings) (qs : QSort compareShadows) (pathEnv : Option CStr)
    {argv : List CStr} {request : Request} (hrequest : requestOf argv = some request) :
    main sys h qr qf qs pathEnv argv = Attempt.require
      (fun p => ((sys.signal p.world).1, { p with world := (sys.signal p.world).2 }))
      (emitDiagReason "SIGNAL_SETUP") >>= fun _ => runRequest sys h qr qf qs pathEnv request := by
  cases argv with
  | nil => contradiction
  | cons prog args =>
    cases args with
    | nil => contradiction
    | cons arg rest =>
      have hoption : ∀ option ∈ [CStr.lit "--help", .lit "--version"], arg ≠ option := by
        intro option hoption heq
        have hdash : ∀ option ∈ [CStr.lit "--help", .lit "--version"],
            option.bytes.head? = some 45 ∧
              option ∉ [CStr.lit "--path", .lit "--command", .lit "--"] := by decide
        obtain ⟨hstart, hother⟩ := hdash option hoption
        rw [heq, requestOf_dash hstart hother] at hrequest
        contradiction
      have hhelp := hoption (.lit "--help") (by simp)
      have hversion := hoption (.lit "--version") (by simp)
      simp only [requestOf, List.tail_cons] at hrequest
      simp only [main, if_neg hhelp, if_neg hversion]
      congr 1
      funext _
      split_ifs at hrequest with hpath hnil hcommand hend hnil hdash
      · obtain rfl := Option.some.inj hrequest
        rw [if_pos hpath, if_neg (not_not.mpr hnil)]
        rfl
      · rw [if_neg hpath, if_pos hcommand]
        split at hrequest
        next name =>
          split_ifs at hrequest with hname
          obtain rfl := Option.some.inj hrequest
          rfl
        next => simp at hrequest
      · obtain rfl := Option.some.inj hrequest
        rw [if_neg hpath, if_neg hcommand, if_pos hend]
        rfl
      · obtain rfl := Option.some.inj hrequest
        rw [if_neg hpath, if_neg hcommand, if_neg hend]
        simp only [Bool.not_eq_true] at hdash
        simp only [runRequest, runExplicitRoots, hdash, Bool.and_false, Bool.not_true]

theorem commandNameIsValid_of_request {argv : List CStr} {name : CStr}
    (hrequest : requestOf argv = some (.command name)) : commandNameIsValid name = true := by
  unfold requestOf at hrequest
  split at hrequest
  · simp at hrequest
  · split_ifs at hrequest with hpath hnil hcommand
    · simp at hrequest
    · split at hrequest
      · split_ifs at hrequest with hname
        obtain rfl := Request.command.inj (Option.some.inj hrequest)
        exact hname
      · simp at hrequest
    · simp at hrequest
    · simp at hrequest

theorem main_answers (hreal : CanonicalPaths sys.fs) (h : Hashes)
    (qr : QSort compareRootsByBytesThenIndex) (qf : QSort compareFindings)
    (qs : QSort compareShadows) (pathEnv : Option CStr) {argv : List CStr} {request : Request}
    (hrequest : requestOf argv = some request) (p : Proc W) :
    Reports sys (Answers sys pathEnv request) p (main sys h qr qf qs pathEnv argv p) := by
  rw [main_request sys h qr qf qs pathEnv hrequest]
  refine reports_bind (signal_sound sys) (fun _ p _ => ?_) p
  cases request with
  | path => exact runPathMode_answers hreal h qf qs pathEnv p
  | command name =>
    exact runCommandMode_answers hreal qf pathEnv (commandNameIsValid_of_request hrequest) p
  | roots operands => exact runExplicitRoots_reports qr qf operands p

/-- With its resources granted, a run over roots gives up on no others than these. -/
theorem main_roots_none_iff (hreal : CanonicalPaths sys.fs) (hg : sys.Granted) (h : Hashes)
    (qr : QSort compareRootsByBytesThenIndex) (qf : QSort compareFindings)
    (qs : QSort compareShadows) (pathEnv : Option CStr) {argv operands : List CStr}
    (hrequest : requestOf argv = some (.roots operands)) (p : Proc W) :
    (main sys h qr qf qs pathEnv argv p).1 = none ↔ OperandsFail sys.fs operands := by
  have hreports := main_answers hreal h qr qf qs pathEnv hrequest p
  rw [main_request sys h qr qf qs pathEnv hrequest] at hreports ⊢
  have hsignal : Attempt.require (fun p : Proc W => ((sys.signal p.world).1,
      { p with world := (sys.signal p.world).2 })) (emitDiagReason "SIGNAL_SETUP") p =
        (some (), { p with world := (sys.signal p.world).2 }) :=
    require_eq_some.mpr ⟨hg.signal p.world, rfl⟩
  rw [bind_apply, hsignal] at hreports ⊢
  obtain ⟨hfails, hholds⟩ := runExplicitRoots_outcome hg qr qf operands
    { p with world := (sys.signal p.world).2 }
  constructor
  · intro hnone
    by_contra hok
    have hstatus := congrArg Prod.fst (hholds hok)
    change exitStatus (runExplicitRoots sys qr qf operands true _).1 = _ at hstatus
    change (runExplicitRoots sys qr qf operands true _).1 = none at hnone
    rw [hnone, rootReport, reported] at hstatus
    dsimp only [exitStatus, Option.getD_none] at hstatus
    split_ifs at hstatus with hempty
    omega
  · intro hfail
    have hstatus := congrArg Prod.fst (hfails hfail)
    change exitStatus (runExplicitRoots sys qr qf operands true _).1 = 2 at hstatus
    obtain ⟨hnone, -⟩ | ⟨rows, p', -, -, hwrites⟩ := hreports
    · exact hnone
    · rw [Option.eq_none_iff_forall_ne_some]
      intro status hsome
      obtain ⟨-, hvalue⟩ := hwrites.all status hsome
      change (runExplicitRoots sys qr qf operands true _).1 = some status at hsome
      rw [hsome, exitStatus, Option.getD_some, hvalue] at hstatus
      split_ifs at hstatus with hany
      omega

theorem handleText_stdout (text : List UInt8) (p : Proc W) :
    (handleText sys text p).2.stdout = p.stdout ∨
      (handleText sys text p).2.stdout = p.stdout ++ text := by
  unfold handleText
  rw [bind_apply]
  unfold put Attempt.require
  by_cases hok : (sys.output p.world).1 = true
  · right
    simp [hok, completeStdout_stdout]
  · left
    simp [hok, emitDiagReason]

/-- Where nothing is asked for, at most a text of `main` itself is printed. -/
theorem main_silent (h : Hashes) (qr : QSort compareRootsByBytesThenIndex)
    (qf : QSort compareFindings) (qs : QSort compareShadows) (pathEnv : Option CStr)
    {argv : List CStr} (hrequest : requestOf argv = none) (w : W) :
    (main sys h qr qf qs pathEnv argv ⟨w, [], []⟩).2.stdout ∈ [[], helpText, versionText] := by
  have hbind (x : Run W Unit) (f : Unit → Run W ℕ) (hx : Sound Proc.stdout x fun _ => True)
      (hf : ∀ p : Proc W, p.stdout = [] → (f () p).2.stdout ∈ [[], helpText, versionText])
      (p : Proc W) (hp : p.stdout = []) :
      ((x >>= f) p).2.stdout ∈ [[], helpText, versionText] := by
    have hstdout := (hx p).1
    rw [bind_apply]
    cases hxp : x p with
    | mk r p₁ =>
      rw [hxp] at hstdout
      have hempty : p₁.stdout = [] := hstdout.trans hp
      cases r with
      | none => simp [hempty]
      | some u => exact hf p₁ hempty
  have htext (text : List UInt8) (htext : text ∈ [helpText, versionText]) (p : Proc W)
      (hp : p.stdout = []) : (handleText sys text p).2.stdout ∈ [[], helpText, versionText] := by
    rcases @handleText_stdout W sys text p with hsame | hsame
    · simp [hsame, hp]
    · rw [hsame, hp, List.nil_append]
      exact .tail _ htext
  have hnone (last : Proc W → Proc W) (hlast : ∀ p, (last p).stdout = p.stdout) (p : Proc W)
      (hp : p.stdout = []) :
      ((Attempt.fail last : Run W ℕ) p).2.stdout ∈ [[], helpText, versionText] := by
    show (last p).stdout ∈ _
    simp [hlast, hp]
  cases argv with
  | nil => exact hnone _ (fun _ => rfl) _ rfl
  | cons prog args =>
    refine hbind _ _ (signal_sound sys) (fun p hp => ?_) _ rfl
    cases args with
    | nil => exact hnone _ (fun _ => rfl) p hp
    | cons arg rest =>
      dsimp only
      simp only [requestOf, List.tail_cons] at hrequest
      split_ifs with hhelp hrest hversion hrest hpath hrest hcommand hend
      · exact hnone _ (fun _ => rfl) p hp
      · exact htext _ (by simp) p hp
      · exact hnone _ (fun _ => rfl) p hp
      · exact htext _ (by simp) p hp
      · exact hnone _ (fun _ => rfl) p hp
      · simp [hpath, not_not.mp hrest] at hrequest
      · rw [if_neg hpath, if_pos hcommand] at hrequest
        split
        next name =>
          have hinvalid : commandNameIsValid name = false := by simpa using hrequest
          unfold runCommandMode
          rw [hinvalid, Bool.not_false, if_pos rfl]
          exact hnone _ (fun _ => rfl) p hp
        next => exact hnone _ (fun _ => rfl) p hp
      · rw [if_neg hpath, if_neg hcommand, if_pos hend] at hrequest
        have hnil : rest = [] := by simpa using hrequest
        subst hnil
        exact hnone _ (fun _ => rfl) p hp
      · rw [if_neg hpath, if_neg hcommand, if_neg hend] at hrequest
        have hdash : (arg :: rest).any (fun text => text.bytes.head? = some 45) = true := by
          by_contra hno
          rw [if_neg hno] at hrequest
          contradiction
        unfold runExplicitRoots
        rw [if_neg (List.cons_ne_nil arg rest), hdash, Bool.not_false, Bool.and_self, if_pos rfl]
        exact hnone _ (fun _ => rfl) p hp

/-- Whatever the system and its failures, what can be read back off standard output are rows that
answer the request of the command line, in their order and without one left out before another.
Where there is a status, all of the rows are there and nothing else, and it is 1 exactly when one
of them is more than a match; a system that denies nothing ends in a status once the rows are
known, for roots unless one is beyond the limits or cannot be inspected. Before they are known
nothing is written, and where nothing is asked for no row can be read. -/
theorem main_tells (sys : Sys W) (hreal : CanonicalPaths sys.fs) (h : Hashes)
    (qr : QSort compareRootsByBytesThenIndex) (qf : QSort compareFindings)
    (qs : QSort compareShadows) (pathEnv : Option CStr) (argv : List CStr) (w : W) :
    let run := main sys h qr qf qs pathEnv argv ⟨w, [], []⟩
    let read := readOutput run.2.stdout
    (∀ request, requestOf argv = some request →
      (run.1 = none ∧ run.2.stdout = []) ∨
        ∃ rows, Answers sys pathEnv request rows ∧ rows.Pairwise Row.InOrder ∧ read.1 <+: rows ∧
          (sys.Granted → run.1 ≠ none) ∧
          ∀ status, run.1 = some status →
            read = (rows, []) ∧ status = if rows.any Row.isHazard then 1 else 0) ∧
      (∀ operands, requestOf argv = some (.roots operands) → sys.Granted →
        (run.1 = none ↔ OperandsFail sys.fs operands)) ∧
      (requestOf argv = none → read.1 = []) := by
  intro run read
  refine ⟨?_, ?_, ?_⟩
  · intro request hrequest
    obtain ⟨hnone, hempty⟩ | ⟨rows, p', ⟨hanswers, horder⟩, hsame, hwrites⟩ :=
      main_answers hreal h qr qf qs pathEnv hrequest ⟨w, [], []⟩
    · exact .inl ⟨hnone, hempty⟩
    · have hp' : p'.stdout = [] := hsame
      refine .inr ⟨rows, hanswers, horder, ?_, hwrites.granted, fun status hstatus => ?_⟩
      · obtain ⟨part, hpart, hstdout⟩ := hwrites.some_part
        rw [hp', List.nil_append] at hstdout
        rw [← hstdout] at hpart
        exact readOutput_truncated hpart
      · obtain ⟨hall, hvalue⟩ := hwrites.all status hstatus
        rw [hp', List.nil_append] at hall
        refine ⟨?_, hvalue⟩
        show readOutput run.2.stdout = _
        rw [hall, readOutput_rows]
  · intro operands hrequest hg
    exact main_roots_none_iff hreal hg h qr qf qs pathEnv hrequest _
  · intro hrequest
    have hsilent := @main_silent W sys h qr qf qs pathEnv argv hrequest w
    have hunread : ∀ text ∈ [[], helpText, versionText], (readOutput text).1 = [] := by
      decide +kernel
    exact hunread _ hsilent

/-- A directory of another user that holds an executable which its group may write. -/
theorem main_tells_shared :
    let run := main Shared.sys fnvHashes sortRoots sortFindings sortShadows (some Shared.pathEnv)
      [.lit "pathaudit", .lit "--path"] ⟨(), [], []⟩
    ∃ rows, readOutput run.2.stdout = (rows, []) ∧ run.1 = some 1 ∧
      .finding .unsafeOwner (.lit "/b") ∈ rows ∧ .finding .groupWritable (.lit "/b/t") ∈ rows := by
  intro run
  obtain ⟨status, p', hcompletes⟩ := Shared.completes
  have hrun : run = (some status, p') := hcompletes
  have hstatus : run.1 = some status := congrArg Prod.fst hrun
  obtain ⟨hrequest, -⟩ := main_tells Shared.sys Shared.canonicalPaths fnvHashes sortRoots
    sortFindings sortShadows (some Shared.pathEnv) [.lit "pathaudit", .lit "--path"] ()
  obtain ⟨hnone, -⟩ | ⟨rows, ⟨path, hpath, hrows⟩, -, -, -, hall⟩ := hrequest .path (by decide)
  · have hnot : run.1 = none := hnone
    rw [hstatus] at hnot
    contradiction
  · obtain rfl := Option.some.inj hpath
    obtain ⟨hread, hvalue⟩ := hall status hstatus
    have hcomponents : components Shared.sys.fs Shared.pathEnv = [⟨.lit "/b", 0, 2⟩] :=
      Shared.components_eq
    rw [hcomponents] at hrows
    have hdir : Shared.fs.stat (.lit "/b") = .ok ⟨.directory, 0o755, 7⟩ := by decide +kernel
    have howner : .finding .unsafeOwner (.lit "/b") ∈ rows := by
      rw [hrows.finding]
      refine .inr (.inl ⟨_, List.mem_singleton_self _, by decide, rfl, ?_, ⟨_, hdir, rfl⟩, ?_⟩)
      · exact ⟨_, hdir, by decide, by decide⟩
      · exact ⟨.lit "/b", by decide +kernel, .inl rfl⟩
    have hgroup : .finding .groupWritable (.lit "/b/t") ∈ rows := by
      rw [hrows.finding]
      refine .inr (.inr ⟨⟨.lit "t", 0, ⟨.lit "/b/t", 0o775, 0⟩⟩, by decide +kernel, rfl, ?_⟩)
      exact .inl ⟨by decide, rfl⟩
    have hany : rows.any Row.isHazard = true := List.any_eq_true.mpr ⟨_, howner, rfl⟩
    rw [hany, if_pos rfl] at hvalue
    exact ⟨rows, hread, hvalue ▸ hstatus, howner, hgroup⟩

end Main

end Pathaudit
