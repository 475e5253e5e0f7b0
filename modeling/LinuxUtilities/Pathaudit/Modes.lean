import LinuxUtilities.Foundation.QSort
import LinuxUtilities.Pathaudit.Findings

/-! The search for a command under a component, and the modes of `main`. -/
namespace Pathaudit
open CString

/-- `command_name_is_valid`. -/
def commandNameIsValid (name : CStr) : Bool := name ≠ ∅ && 47 ∉ name.bytes

/-- The path that `build_command_candidate` makes, unless it is too long. -/
def candidateOf (root : Root) (command : CStr) : Option CStr :=
  if root.len = 0 then if command.length > maxRootLength then none else some command
  else
    let slash := if root.text.bytes.getLast? ≠ some 47 then 1 else 0
    match (sizeAddOk root.len slash).bind (sizeAddOk · command.length) with
    | none => none
    | some total => if total > maxRootLength then none else some (childPath root.text command)

/-- What `try_command_match` finds: the realpath, and the mode and owner of the target. -/
structure CommandMatch where
  path : CStr
  mode : ℕ
  owner : ℕ
  deriving DecidableEq

/-- The bytes that `probe_exec_image` takes for an executable. -/
def isImageHeader (hdr : List UInt8) : Bool :=
  [35, 33] <+: hdr || [0x7f, 69, 76, 70] <+: hdr

section
variable (fs : FileSystem)

/-- `root_lookup_fails_with`. -/
def rootLookupFailsWith (root : Root) (err : Errno) : Bool :=
  if root.len = 0 then false
  else
    match fs.stat root.text with
    | .ok _ => false
    | .error rootErr => rootErr = err

/-- `probe_exec_image`. -/
def probeExecImage (path : CStr) : Except Errno Bool :=
  match fs.openRead path with
  | .error err => if err = EACCES then .ok true else .error err
  | .ok (.error err) => .error err
  | .ok (.ok hdr) => .ok (isImageHeader hdr)

end

section
variable {W : Type} (sys : Sys W)

/-- `symlink_is_self_basename`. -/
def symlinkIsSelfBasename (candidate command : CStr) : Run W Bool :=
  match sys.fs.lstat candidate with
  | .error _ => pure false
  | .ok st =>
    if st.kind ≠ .symlink then pure false
    else
      match sizeAddOk command.length 1 with
      | none => outOfMemory
      | some bufSize => do
        alloc sys
        match sys.fs.readlink candidate with
        | .error _ => pure false
        | .ok target =>
          let read := target.bytes.take bufSize
          if read.length ≠ command.length then pure false
          else pure (47 ∉ read && cmpUnsignedBytes (.ofBytes read) command = 0)

/-- The end of each failed lookup of a candidate: the component may own the failure, a
symlink loop that is no self-loop is no match, and all else is an inspection error. -/
def rejectCandidate (root : Root) (command candidate : CStr) (err : Errno) :
    Run W (Option CommandMatch) :=
  if rootLookupFailsWith sys.fs root err then pure none
  else if err = ELOOP then do
    if ← symlinkIsSelfBasename sys candidate command then inspectionError err candidate
    else pure none
  else inspectionError err candidate

/-- `try_command_match`. -/
def tryCommandMatch (root : Root) (command : CStr) : Run W (Option CommandMatch) :=
  match candidateOf root command with
  | none => pure none
  | some candidate => do
    alloc sys
    match sys.fs.stat candidate with
    | .error err =>
      if err = ENOENT ∨ err = ENOTDIR then pure none
      else rejectCandidate sys root command candidate err
    | .ok st =>
      if st.kind ≠ .regular ∨ ¬ sys.fs.access candidate then pure none
      else
        match probeExecImage sys.fs candidate with
        | .error err =>
          if err = ENOENT ∨ err = ENOTDIR then pure none
          else rejectCandidate sys root command candidate err
        | .ok false => pure none
        | .ok true => do
          alloc sys
          match sys.fs.realpath candidate with
          | .error err =>
            if err = ENOMEM then outOfMemory
            else if err = EACCES ∨ err = ELOOP then rejectCandidate sys root command candidate err
            else pure none
          | .ok resolved => do
            alloc sys
            pure (some ⟨resolved, st.mode, st.uid⟩)

/-- `append_executable_trust_findings`. -/
def appendExecutableTrustFindings (m : CommandMatch) (index : ℕ) (b : FindingBuffer) :
    Run W FindingBuffer := do
  let b ← appendWritability sys m.path index m.mode b
  appendWhen sys (!ownerUidIsTrusted sys m.owner) b m.path index .unsafeOwner

variable (h : Hashes)

/-- The allocations of one hit, each granted or not. -/
def drawHitAllocs (p : Proc W) : HitAllocs × Proc W :=
  let a := sys.malloc p.world
  let b := sys.malloc a.2
  let c := sys.malloc b.2
  let d := sys.malloc c.2
  (⟨a.1, b.1, ⟨c.1, d.1⟩⟩, { p with world := d.2 })

/-- `record_executable_hit` in the process. -/
def recordHit (hit : Hit) (t : Tables) : Run W Tables := fun p =>
  match recordExecutableHit h hit (drawHitAllocs sys p).1 t with
  | some (0, t) => (some t, (drawHitAllocs sys p).2)
  | some (_, _) => (none, emitDiagReason "OUT_OF_MEMORY" (drawHitAllocs sys p).2)
  | none => (none, (drawHitAllocs sys p).2)  -- not reached: the probes of the tables end

/-- What the scan of PATH carries: the tables and the findings. -/
structure Scan where
  tables : Tables
  findings : FindingBuffer

/-- The names that `scan_root_executables` passes over. -/
def skippedName (name : CStr) : Bool :=
  name = ∅ || name = .lit "." || name = .lit ".." || 47 ∈ name.bytes

/-- The body of the `readdir` loop. -/
def scanEntry (root : Root) (s : Scan) (name : CStr) : Run W Scan :=
  if skippedName name then pure s
  else do
    match ← tryCommandMatch sys root name with
    | none => pure s
    | some m =>
      let findings ← appendExecutableTrustFindings sys m root.index s.findings
      let tables ← recordHit sys h ⟨name, m.path, root.index⟩ s.tables
      pure ⟨tables, findings⟩

/-- The listing that `scan_root_executables` reads, of a directory that can be opened. -/
def listingOf (fs : FileSystem) (root : Root) : Option Listing :=
  if root.len = 0 then none
  else
    match fs.stat root.text with
    | .error _ => none
    | .ok st => if st.kind ≠ .directory then none else (fs.opendir root.text).toOption

/-- `scan_root_executables`. -/
def scanRootExecutables (s : Scan) (root : Root) : Run W Scan :=
  match listingOf sys.fs root with
  | none => pure s
  | some listing => do
    let s ← listing.names.foldlM (scanEntry sys h root) s
    match listing.error with
    | some err => inspectionError err root.text
    | none => pure s

/-- `compare_shadows`. -/
def compareShadows (a b : ShadowRecord) : ℤ :=
  if cmpUnsignedBytes a.command b.command ≠ 0 then cmpUnsignedBytes a.command b.command
  else compareSizes a.shadowIndex b.shadowIndex

/-- The row of one shadow record. -/
def shadowPieces (r : ShadowRecord) : List (List UInt8) :=
  [ascii "SHADOWED", [9]] ++ escapedQuoted r.command ++ [[9]] ++ escapedQuoted r.winner ++ [[9]] ++
    escapedQuoted r.shadow ++ [[10]]

/-- Sorting is skipped for fewer than two items. -/
def sortIfMany {α : Type} {cmp : α → α → ℤ} (q : QSort cmp) (l : List α) : List α :=
  if l.length > 1 then q.sort l else l

/-- The classification of all components in `run_path_mode`, in PATH order. -/
def classifyPath (pathEnv : Option CStr) : Run W (List Root × FindingBuffer) := do
  let roots ← pathComponentsLoad sys pathEnv
  let findings ← roots.foldlM (classifyRoot sys true) .empty
  pure (roots, findings)

/-- The scan of all components, in PATH order. -/
def scanPath (roots : List Root) (findings : FindingBuffer) : Run W Scan :=
  roots.foldlM (scanRootExecutables sys h) ⟨.empty, findings⟩

/-- `run_path_mode` up to its sorting. -/
def auditPath (pathEnv : Option CStr) : Run W Scan := do
  let classified ← classifyPath sys pathEnv
  scanPath sys h classified.1 classified.2

/-- The output of `run_path_mode`. -/
def emitPathReport (findings : List Finding) (shadows : List ShadowRecord) : Run W ℕ := do
  putAll sys (findings.flatMap findingPieces)
  putAll sys (shadows.flatMap shadowPieces)
  completeStdout sys (if findings = [] ∧ shadows = [] then 0 else 1)

/-- `run_path_mode`. -/
def runPathMode (qf : QSort compareFindings) (qs : QSort compareShadows)
    (pathEnv : Option CStr) : Run W ℕ := do
  let s ← auditPath sys h pathEnv
  emitPathReport sys (sortIfMany qf s.findings.items) (sortIfMany qs s.tables.shadows.items)

/-- `struct MatchBuffer`. -/
structure MatchBuffer where
  paths : List CStr
  cap : ℕ

def MatchBuffer.push (b : MatchBuffer) (path : CStr) : MatchBuffer :=
  ⟨b.paths ++ [path], if b.paths.length ≠ b.cap then b.cap else if b.cap = 0 then 8 else b.cap * 2⟩

/-- `matches_append`. -/
def matchesAppend (b : MatchBuffer) (path : CStr) : Run W MatchBuffer := do
  if b.paths.length = b.cap then alloc sys
  pure (b.push path)

/-- What the loop of `run_command_mode` carries. -/
structure Query where
  found : MatchBuffer
  findings : FindingBuffer
  seenMatch : Bool

/-- The body of the loop of `run_command_mode`. -/
def queryRoot (command : CStr) (s : Query) (root : Root) : Run W Query := do
  match ← tryCommandMatch sys root command with
  | none =>
    let findings ← classifyCommandComponent sys root (!s.seenMatch) s.findings
    pure { s with findings := findings }
  | some m =>
    let findings ← classifyCommandComponent sys root true s.findings
    let findings ← appendExecutableTrustFindings sys m root.index findings
    let found ← matchesAppend sys s.found m.path
    pure ⟨found, findings, true⟩

/-- The row of one match. -/
def matchPieces (path : CStr) : List (List UInt8) :=
  [ascii "MATCH", [9]] ++ escapedQuoted path ++ [[10]]

/-- `emit_command_query`. -/
def emitCommandQuery (paths : List CStr) (findings : List Finding) : Run W ℕ := do
  putAll sys (paths.flatMap matchPieces)
  putAll sys (findings.flatMap findingPieces)
  completeStdout sys (if findings = [] then 0 else 1)

/-- The loop of `run_command_mode`. -/
def queryPath (command : CStr) (roots : List Root) : Run W Query :=
  roots.foldlM (queryRoot sys command) ⟨⟨[], 0⟩, .empty, false⟩

/-- `run_command_mode`. -/
def runCommandMode (qf : QSort compareFindings) (pathEnv : Option CStr) (command : CStr) :
    Run W ℕ :=
  if !commandNameIsValid command then Attempt.fail (emitDiagReasonRoot "INVALID_COMMAND" command)
  else do
    let roots ← pathComponentsLoad sys pathEnv
    let s ← queryPath sys command roots
    emitCommandQuery sys s.found.paths (sortIfMany qf s.findings.items)

/-- `compare_roots_by_bytes_then_index`. -/
def compareRootsByBytesThenIndex (a b : Root) : ℤ :=
  if cmpUnsignedBytes a.text b.text ≠ 0 then cmpUnsignedBytes a.text b.text
  else compareSizes a.index b.index

/-- `run_audit`. -/
def runAudit (qr : QSort compareRootsByBytesThenIndex) (qf : QSort compareFindings)
    (roots : List Root) : Run W ℕ := do
  let findings ← (qr.sort roots).foldlM (classifyRoot sys false) .empty
  let items := sortIfMany qf findings.items
  putAll sys (items.flatMap findingPieces)
  completeStdout sys (if items = [] then 0 else 1)

/-- The loop of `run_explicit_roots` over the operands. -/
def explicitRoots : ℕ → ℕ → List CStr → Run W (List Root)
  | _, _, [] => pure []
  | index, totalBytes, text :: texts =>
    match checkRootLimits text.length totalBytes with
    | .error reason => Attempt.fail (emitDiagReason reason)
    | .ok total => do
      let roots ← explicitRoots (index + 1) total texts
      pure (⟨text, index, text.length⟩ :: roots)

/-- `run_explicit_roots`. -/
def runExplicitRoots (qr : QSort compareRootsByBytesThenIndex) (qf : QSort compareFindings)
    (operands : List CStr) (endOfOptions : Bool) : Run W ℕ :=
  if operands = [] then Attempt.fail (emitUsageDiag "USAGE")
  else if !endOfOptions && operands.any (fun text => text.bytes.head? = some 45) then
    Attempt.fail (emitUsageDiag "UNKNOWN_OPTION")
  else if operands.length > maxRootCount then Attempt.fail (emitDiagReason "ROOT_COUNT_LIMIT")
  else do
    alloc sys
    let roots ← explicitRoots 0 0 operands
    runAudit sys qr qf roots

def helpText : List UInt8 :=
  usageText ++ ascii "Scan PATH directory roots for hazards.\n"

def versionText : List UInt8 := ascii "pathaudit 0.1.0\n"

/-- `handle_help` and `handle_version`. -/
def handleText (text : List UInt8) : Run W ℕ := do
  put sys text
  completeStdout sys 0

/-- `main`. -/
def main (qr : QSort compareRootsByBytesThenIndex) (qf : QSort compareFindings)
    (qs : QSort compareShadows) (pathEnv : Option CStr) : List CStr → Run W ℕ
  | [] => Attempt.fail (emitUsageDiag "USAGE")
  | _ :: args => do
    Attempt.require
      (fun p => ((sys.signal p.world).1, { p with world := (sys.signal p.world).2 }))
      (emitDiagReason "SIGNAL_SETUP")
    match args with
    | [] => runExplicitRoots sys qr qf [] false
    | arg :: rest =>
      if arg = .lit "--help" then
        if rest ≠ [] then Attempt.fail (emitUsageDiag "USAGE") else handleText sys helpText
      else if arg = .lit "--version" then
        if rest ≠ [] then Attempt.fail (emitUsageDiag "USAGE") else handleText sys versionText
      else if arg = .lit "--path" then
        if rest ≠ [] then Attempt.fail (emitUsageDiag "USAGE")
        else runPathMode sys h qf qs pathEnv
      else if arg = .lit "--command" then
        match rest with
        | [command] => runCommandMode sys qf pathEnv command
        | _ => Attempt.fail (emitUsageDiag "USAGE")
      else if arg = .lit "--" then runExplicitRoots sys qr qf rest true
      else runExplicitRoots sys qr qf args false

/-- The exit status of a part of the program that ends the run. -/
def exitStatus (r : Option ℕ) : ℕ := r.getD 2

end

end Pathaudit
