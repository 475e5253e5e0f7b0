import LinuxUtilities.Pathaudit.Components
import Mathlib.Data.List.DropRight

/-! Hazard findings: the buffer, the ownership walk, and the classification of a PATH
component in each of the three modes. -/
namespace Pathaudit
open CString

inductive HazardCode where
  | emptyRoot | relativeRoot | missingRoot | nonDirectoryRoot
  | groupWritable | worldWritable | unsafeOwner
  deriving DecidableEq, Repr

namespace HazardCode

/-- The value of the enumerator. -/
def rank : HazardCode → ℕ
  | emptyRoot => 0
  | relativeRoot => 1
  | missingRoot => 2
  | nonDirectoryRoot => 3
  | groupWritable => 4
  | worldWritable => 5
  | unsafeOwner => 6

/-- `HAZARD_NAMES`. -/
def name : HazardCode → String
  | emptyRoot => "EMPTY_ROOT"
  | relativeRoot => "RELATIVE_ROOT"
  | missingRoot => "MISSING_ROOT"
  | nonDirectoryRoot => "NON_DIRECTORY_ROOT"
  | groupWritable => "GROUP_WRITABLE"
  | worldWritable => "WORLD_WRITABLE"
  | unsafeOwner => "UNSAFE_OWNER"

theorem rank_injective : Function.Injective rank := by
  intro a b h
  cases a <;> cases b <;> first | rfl | contradiction

end HazardCode

@[ext] structure Finding where
  root : CStr
  index : ℕ
  code : HazardCode
  deriving DecidableEq

structure FindingBuffer where
  items : List Finding
  cap : ℕ

namespace FindingBuffer

def empty : FindingBuffer := ⟨[], 0⟩

/-- One more item, in a capacity that doubles when it is used up. -/
def push (b : FindingBuffer) (f : Finding) : FindingBuffer :=
  ⟨b.items ++ [f], if b.items.length ≠ b.cap then b.cap else if b.cap = 0 then 16 else b.cap * 2⟩

@[simp] theorem push_items (b : FindingBuffer) (f : Finding) :
    (b.push f).items = b.items ++ [f] := rfl

end FindingBuffer

/-- The comparison of two sizes in a comparator. -/
def compareSizes (a b : ℕ) : ℤ := if a < b then -1 else if a > b then 1 else 0

/-- `compare_findings`. -/
def compareFindings (a b : Finding) : ℤ :=
  if cmpUnsignedBytes a.root b.root ≠ 0 then cmpUnsignedBytes a.root b.root
  else if compareSizes a.index b.index ≠ 0 then compareSizes a.index b.index
  else compareSizes a.code.rank b.code.rank

section
variable {W : Type} (sys : Sys W)

/-- `findings_append`, with the report of its callers when it fails. -/
def findingsAppend (b : FindingBuffer) (root : CStr) (index : ℕ) (code : HazardCode) :
    Run W FindingBuffer := do
  alloc sys
  if b.items.length = b.cap then alloc sys
  pure (b.push ⟨root, index, code⟩)

/-- `owner_uid_is_trusted`. -/
def ownerUidIsTrusted (owner : ℕ) : Bool := owner = 0 || owner = sys.fs.getuid

/-- The lowest index goes to the finding about an owner that is already there. -/
def noteIndex (realpathText : CStr) (index : ℕ) : List Finding → Option (List Finding)
  | [] => none
  | f :: fs =>
    if f.code = .unsafeOwner ∧ cmpUnsignedBytes f.root realpathText = 0 then
      some ((if index < f.index then { f with index := index } else f) :: fs)
    else (noteIndex realpathText index fs).map (f :: ·)

/-- `findings_note_unsafe_owner`. -/
def findingsNoteUnsafeOwner (b : FindingBuffer) (realpathText : CStr) (index : ℕ) :
    Run W FindingBuffer :=
  match noteIndex realpathText index b.items with
  | some items => pure { b with items := items }
  | none => findingsAppend sys b realpathText index .unsafeOwner

/-- `path_truncate_to_parent`; `none` is its `false`. -/
def pathTruncateToParent (path : CStr) : Option CStr :=
  if path = .lit "/" then none
  else if 47 ∈ path.bytes then
    let parent := (path.bytes.rdropWhile (· ≠ 47)).dropLast
    some (if parent = [] then .lit "/" else .ofBytes parent)
  else none

/-- The path and its ancestors, as the loop of the ownership walk meets them. Each is
shorter than the one before. -/
def ancestorChain : ℕ → CStr → List CStr
  | 0, path => [path]
  | fuel + 1, path =>
    path :: match pathTruncateToParent path with
      | none => []
      | some parent => ancestorChain fuel parent

/-- The body of the loop of the ownership walk. -/
def auditAncestor (index : ℕ) (b : FindingBuffer) (dir : CStr) : Run W FindingBuffer :=
  match sys.fs.stat dir with
  | .ok st =>
    if ownerUidIsTrusted sys st.uid then pure b else findingsNoteUnsafeOwner sys b dir index
  | .error _ => pure b

/-- `append_directory_chain_ownership`. -/
def appendDirectoryChainOwnership (path : CStr) (index : ℕ) (b : FindingBuffer) :
    Run W FindingBuffer := do
  alloc sys
  match sys.fs.realpath path with
  | .error err => if err = ENOMEM then outOfMemory else pure b
  | .ok resolved =>
    match sys.fs.stat resolved with
    | .ok st =>
      if st.kind ≠ .directory then pure b
      else (ancestorChain resolved.length resolved).foldlM (auditAncestor sys index) b
    | .error _ => pure b

/-- `root_is_cwd_dependent`. -/
def rootIsCwdDependent (root : Root) : Bool := root.len = 0 || root.text.bytes.head? ≠ some 47

def groupWritable (mode : ℕ) : Bool := mode &&& 0o020 ≠ 0
def worldWritable (mode : ℕ) : Bool := mode &&& 0o002 ≠ 0

/-- An append that depends on a condition. -/
def appendWhen (cond : Bool) (b : FindingBuffer) (root : CStr) (index : ℕ) (code : HazardCode) :
    Run W FindingBuffer :=
  if cond then findingsAppend sys b root index code else pure b

/-- `append_executable_writability`, which is also how directories are checked. -/
def appendWritability (path : CStr) (index mode : ℕ) (b : FindingBuffer) : Run W FindingBuffer := do
  let b ← appendWhen sys (groupWritable mode) b path index .groupWritable
  appendWhen sys (worldWritable mode) b path index .worldWritable

/-- `classify_root`. -/
def classifyRoot (auditDirectoryOwnership : Bool) (b : FindingBuffer) (root : Root) :
    Run W FindingBuffer :=
  if root.len = 0 then findingsAppend sys b root.text root.index .emptyRoot
  else do
    let b ← appendWhen sys (rootIsCwdDependent root) b root.text root.index .relativeRoot
    match sys.fs.stat root.text with
    | .error err =>
      if err = ENOENT then findingsAppend sys b root.text root.index .missingRoot
      else if err = ENOTDIR then findingsAppend sys b root.text root.index .nonDirectoryRoot
      else inspectionError err root.text
    | .ok st =>
      if st.kind ≠ .directory then findingsAppend sys b root.text root.index .nonDirectoryRoot
      else do
        let b ← appendWritability sys root.text root.index st.mode b
        if auditDirectoryOwnership then appendDirectoryChainOwnership sys root.text root.index b
        else pure b

/-- `classify_command_component`. -/
def classifyCommandComponent (root : Root) (permissionApplicable : Bool) (b : FindingBuffer) :
    Run W FindingBuffer :=
  if root.len = 0 then do
    let b ← findingsAppend sys b root.text root.index .emptyRoot
    if permissionApplicable then appendDirectoryChainOwnership sys (.lit ".") root.index b
    else pure b
  else do
    let b ← appendWhen sys (rootIsCwdDependent root) b root.text root.index .relativeRoot
    match sys.fs.stat root.text with
    | .error err =>
      if err = ENOENT then
        appendWhen sys (rootIsCwdDependent root) b root.text root.index .missingRoot
      else if err = ENOTDIR then
        appendWhen sys (rootIsCwdDependent root) b root.text root.index .nonDirectoryRoot
      else inspectionError err root.text
    | .ok st =>
      if st.kind ≠ .directory then
        appendWhen sys (rootIsCwdDependent root) b root.text root.index .nonDirectoryRoot
      else if permissionApplicable then do
        let b ← appendWritability sys root.text root.index st.mode b
        appendDirectoryChainOwnership sys root.text root.index b
      else pure b

/-- The row of one finding. -/
def findingPieces (f : Finding) : List (List UInt8) :=
  [ascii f.code.name, [9]] ++ escapedQuoted f.root ++ [[10]]

end

end Pathaudit
