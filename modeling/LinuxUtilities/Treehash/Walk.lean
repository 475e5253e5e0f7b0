import LinuxUtilities.Foundation.QSort
import LinuxUtilities.Treehash.Gitignore

/-! `walk_dir` and the part of `main` that prints the root and the manifest. -/
namespace Treehash
open CString

def pathMax : ℕ := 4096

/-- `TREEHASH_MAX_DEPTH`. -/
def maxDepth : ℕ := 256

/-- `child_disk`. -/
def childDisk (diskDir name : CStr) : CStr := diskDir ++ .lit "/" ++ name

/-- `child_rel`. -/
def childRel (relDir name : CStr) : CStr :=
  if relDir = ∅ then name else relDir ++ .lit "/" ++ name

variable {W : Type} (sys : Sys W) (S : StreamHash)

/-- `hash_file_sha256`. -/
def hashFileSha256 (path : CStr) (c : Context W) : Except Errno Hex × Context W :=
  match c.call (sys.openRead path) with
  | (.error err, c) => (.error err, c)
  | (.ok file, c) =>
    match file.readError, file.closeError with
    | some err, _ => (.error err, c)
    | none, some err => (.error err, c)
    | none, none => (.ok (hexOf (S.final (file.chunks.foldl S.update S.init))), c)

/-- What `walk_dir` does with a regular file. -/
def walkFile (childDiskPath childRelPath : CStr) (c : Context W) : ℤ × Context W :=
  match hashFileSha256 sys S childDiskPath c with
  | (.error err, c) => (2, c.fputs (printDiagErrno sys "treehash: cannot read '" childDiskPath err))
  | (.ok hex, c) =>
    match addFileEntry sys childRelPath hex c with
    | (false, c) => (2, c.fputs outOfMemory)
    | (true, c) => (0, c)

/-- What the `readdir` loop does with a child: directories that are not ignored are walked,
regular files that are not ignored are hashed, all else is passed over. -/
def walkChild (descend : CStr → CStr → Context W → ℤ × Context W)
    (childDiskPath childRelPath : CStr) (c : Context W) : ℤ × Context W :=
  match c.call (sys.lstat childDiskPath) with
  | (.error err, c) =>
    (2, c.fputs (printDiagErrno sys "treehash: cannot access '" childDiskPath err))
  | (.ok st, c) =>
    match st.kind with
    | .symlink => (0, c)
    | .directory =>
      if isPathIgnored sys.fnmatch c.rules.items childRelPath true then (0, c)
      else descend childDiskPath childRelPath c
    | .regular =>
      if isPathIgnored sys.fnmatch c.rules.items childRelPath false then (0, c)
      else walkFile sys S childDiskPath childRelPath c
    | .other => (0, c)

/-- The body of the `readdir` loop for one name, with `walk_dir` on a subdirectory given. -/
def walkEntry (descend : CStr → CStr → Context W → ℤ × Context W) (diskDir relDir name : CStr)
    (c : Context W) : ℤ × Context W :=
  if name = .lit "." ∨ name = .lit ".." then (0, c)
  else if name = .lit ".git" then (0, c)
  else if pathMax ≤ (childDisk diskDir name).length then
    (2, c.fputs (ascii "treehash: PATH_LENGTH_EXCEEDED\n"))
  else if pathMax ≤ (childRel relDir name).length then
    (2, c.fputs (ascii "treehash: PATH_LENGTH_EXCEEDED\n"))
  else walkChild sys S descend (childDisk diskDir name) (childRel relDir name) c

/-- The `readdir` loop; the first status that is not zero ends it. -/
def walkEntries (descend : CStr → CStr → Context W → ℤ × Context W) (diskDir relDir : CStr) :
    List CStr → Context W → ℤ × Context W
  | [], c => (0, c)
  | name :: names, c =>
    match walkEntry sys S descend diskDir relDir name c with
    | (0, c) => walkEntries descend diskDir relDir names c
    | (status, c) => (status, c)

def gitignoreName : CStr := .lit ".gitignore"

/-- The rules of a directory when its `.gitignore` is a regular file. -/
def loadDirRules (diskDir relDir : CStr) (depth : ℕ) (c : Context W) : ℤ × Context W :=
  match c.call (sys.lstat (childDisk diskDir gitignoreName)) with
  | (.error _, c) => (0, c)
  | (.ok st, c) =>
    if st.kind = .regular then
      loadGitignore sys (childDisk diskDir gitignoreName) relDir depth c
    else (0, c)

namespace Context

/-- Every way out of a directory gives up its place among the ancestors. -/
def leave (c : Context W) : Context W := { c with ancestors := c.ancestors.tail }

end Context

/-- What `walk_dir` does in an opened directory that is already among the ancestors. -/
def walkOpened (descend : CStr → CStr → Context W → ℤ × Context W) (diskDir relDir : CStr)
    (depth : ℕ) (listing : Listing) (c : Context W) : ℤ × Context W :=
  if pathMax ≤ (childDisk diskDir gitignoreName).length then
    (2, c.leave.fputs (ascii "treehash: PATH_LENGTH_EXCEEDED\n"))
  else
    match loadDirRules sys diskDir relDir depth c with
    | (0, c) =>
      match walkEntries sys S descend diskDir relDir listing.names c with
      | (0, c) =>
        match listing.error with
        | some err =>
          let text := printDiagErrno sys "treehash: cannot read directory '" diskDir err
          (2, (popRules depth (c.fputs text)).leave)
        | none => (0, (popRules depth c).leave)
      | (status, c) => (status, (popRules depth c).leave)
    | (status, c) => (status, c.leave)

/-- The body of `walk_dir` where levels are left, with `walk_dir` on a subdirectory given. -/
def walkBody (descend : CStr → CStr → Context W → ℤ × Context W) (levels : ℕ)
    (diskDir relDir : CStr) (c : Context W) : ℤ × Context W :=
  match c.call (sys.lstat diskDir) with
  | (.error err, c) =>
    (2, c.fputs (printDiagErrno sys "treehash: cannot access '" diskDir err))
  | (.ok st, c) =>
    if st.kind ≠ .directory then
      (2, c.fputs (printDiagPath "treehash: '" diskDir "': Not a directory\n"))
    else if (st.dev, st.ino) ∈ c.ancestors then
      (2, c.fputs (printDiagPath "treehash: CYCLE_DETECTED: \"" diskDir "\"\n"))
    else
      let c := { c with ancestors := (st.dev, st.ino) :: c.ancestors }
      match c.call (sys.opendir diskDir) with
      | (.error err, c) =>
        let text := printDiagErrno sys "treehash: cannot open directory '" diskDir err
        (2, (c.fputs text).leave)
      | (.ok listing, c) =>
        walkOpened sys S descend diskDir relDir (maxDepth - (levels + 1)) listing c

/-- `walk_dir`, by the levels that are left below `TREEHASH_MAX_DEPTH`. -/
def walkDir : ℕ → CStr → CStr → Context W → ℤ × Context W
  | 0, _, _, c => (2, c.fputs (ascii "treehash: RECURSION_DEPTH_EXCEEDED\n"))
  | levels + 1, diskDir, relDir, c => walkBody sys S (walkDir levels) levels diskDir relDir c

theorem walkDir_succ (levels : ℕ) :
    walkDir sys S (levels + 1) = walkBody sys S (walkDir sys S levels) levels := rfl

/-- `compare_file_entries`. -/
def compareFileEntries (a b : FileEntry) : ℤ := strcmp a.relPath.bytes b.relPath.bytes

/-- A checked `printf`. -/
def printStdout (text : List UInt8) (c : Context W) : Bool × Context W :=
  let m := c.call sys.printf
  if m.1 then (true, { m.2 with stdout := m.2.stdout ++ text }) else (false, m.2)

/-- The loop of `main` over the manifest lines. -/
def printEntries : List FileEntry → Context W → Bool × Context W
  | [], c => (true, c)
  | e :: entries, c =>
    match printStdout sys (leafRecord e) c with
    | (true, c) => printEntries entries c
    | (false, c) => (false, c)

/-- `main` after the walk: sort, reduce, print. -/
def printTree (q : QSort compareFileEntries) (c : Context W) : ℕ × Context W :=
  let items := if 0 < c.entries.items.length then q.sort c.entries.items else c.entries.items
  match computeMerkleRoot sys S items { c with entries.items := items } with
  | (none, c) => (2, c)
  | (some root, c) =>
    match printStdout sys (ascii "ROOT " ++ root ++ ascii "\n") c with
    | (false, c) => (2, c)
    | (true, c) =>
      match printEntries sys items c with
      | (false, c) => (2, c)
      | (true, c) =>
        let m := c.call sys.fflush
        (if m.1 then 0 else 2, m.2)

/-- `main` from the normalised operand on: the exit status, and the context after it. -/
def hashTree (q : QSort compareFileEntries) (rawOperand normDir : CStr) (w : W) : ℕ × Context W :=
  match (Context.init w).call (sys.lstat normDir) with
  | (.error err, c) =>
    (2, c.fputs (printDiagErrno sys "treehash: cannot access '" rawOperand err))
  | (.ok st, c) =>
    if st.kind ≠ .directory then
      (2, c.fputs (printDiagPath "treehash: '" rawOperand "': Not a directory\n"))
    else
      let m := c.call sys.malloc
      if m.1 then
        match walkDir sys S maxDepth normDir ∅ m.2 with
        | (0, c) => printTree sys S q c
        | (_, c) => (2, c)
      else (2, m.2.fputs outOfMemory)

end Treehash
