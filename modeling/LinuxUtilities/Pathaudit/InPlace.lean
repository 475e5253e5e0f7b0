import LinuxUtilities.Foundation.PackedStrings
import LinuxUtilities.Pathaudit.Components

/-! `path_components_load` as it works in its storage: PATH is split by writing NULs, and
colons are written back where fragments are joined. A root is an offset into the storage. -/
namespace Pathaudit
open CString

/-- `struct Root` with its text as an offset. -/
structure RootSpan where
  text : ℕ
  index : ℕ
  len : ℕ
  deriving DecidableEq, Inhabited

/-- The answers of `stat` so far, each with the path that was asked for. -/
abbrev Lookups := List (CStr × Except Errno Stat)

/-- A `stat` whose answers may change from call to call. -/
abbrev StatOracle := Lookups → CStr → Except Errno Stat

/-- The storage, the array of roots, and the lookups made. -/
structure PathStorage where
  storage : List UInt8
  roots : List RootSpan
  lookups : Lookups

namespace PathStorage

/-- `roots[i]`. -/
def root (s : PathStorage) (i : ℕ) : RootSpan := s.roots.getD i default

def setRoot (s : PathStorage) (i : ℕ) (root : RootSpan) : PathStorage :=
  { s with roots := s.roots.set i root }

def setByte (s : PathStorage) (offset : ℕ) (b : UInt8) : PathStorage :=
  { s with storage := s.storage.set offset b }

@[simp] theorem setRoot_lookups (s : PathStorage) (i : ℕ) (root : RootSpan) :
    (s.setRoot i root).lookups = s.lookups := rfl

@[simp] theorem setByte_lookups (s : PathStorage) (offset : ℕ) (b : UInt8) :
    (s.setByte offset b).lookups = s.lookups := rfl

/-- The C string a root points to. -/
def text (s : PathStorage) (root : RootSpan) : CStr := cstrAt s.storage root.text

end PathStorage

/-- The loop of `path_components_load` over the bytes from `p` on, with the start of the
field it is in and the roots so far. `none` is a run past the end of the storage. -/
def splitFields (rootCount : ℕ) : List UInt8 → ℕ → ℕ → ℕ → List UInt8 → List RootSpan →
    Option (Except String (List UInt8 × List RootSpan))
  | [], _, _, _, _, _ => none
  | b :: bytes, p, start, totalBytes, storage, roots =>
    if b ≠ 58 ∧ b ≠ 0 then splitFields rootCount bytes (p + 1) start totalBytes storage roots
    else
      let len := p - start
      let storage := storage.set p 0
      match checkRootLimits len totalBytes with
      | .error reason => some (.error reason)
      | .ok totalBytes =>
        if roots.length ≥ rootCount then some (.error "OUT_OF_MEMORY")
        else
          let roots := roots ++ [⟨start, roots.length, len⟩]
          if b = 0 then some (.ok (storage, roots))
          else splitFields rootCount bytes (p + 1) (p + 1) totalBytes storage roots

section Coalesce
variable (stat : StatOracle)

/-- A call of `stat`. -/
def PathStorage.lookup (s : PathStorage) (text : CStr) : Except Errno Stat × PathStorage :=
  (stat s.lookups text, { s with lookups := s.lookups ++ [(text, stat s.lookups text)] })

/-- The loop of `coalesce_inspection_path_fragments` that writes colons back, from
`j = lastRestored + 1` on: `accepted`, `last_restored` and the storage after it. -/
def restoreColons (i n : ℕ) : ℕ → ℕ → PathStorage → Bool × ℕ × PathStorage
  | 0, lastRestored, s => (false, lastRestored, s)
  | fuel + 1, lastRestored, s =>
    let j := lastRestored + 1
    if n ≤ j then (false, lastRestored, s)
    else if (s.root j).len = 0 then (false, lastRestored, s)
    else
      let sep := (s.root j).text - 1
      let mergedLen := (s.root j).text + (s.root j).len - (s.root i).text
      if mergedLen > maxRootLength then (false, lastRestored, s)
      else
        let restored := (s.setByte sep 58).setRoot i { s.root i with len := mergedLen }
        let (answer, s) := restored.lookup stat (restored.text (restored.root i))
        match answer with
        | .ok _ => (false, j, s)
        | .error err => if err ≠ ENOENT then (true, j, s) else restoreColons i n fuel j s

/-- The loop that takes the colons away again, for `j` up to `lastRestored`. -/
def removeColons (lastRestored : ℕ) : ℕ → ℕ → PathStorage → PathStorage
  | 0, _, s => s
  | fuel + 1, j, s =>
    if lastRestored < j then s
    else if (s.root j).len = 0 then s
    else removeColons lastRestored fuel (j + 1) (s.setByte ((s.root j).text - 1) 0)

/-- `roots[out] = roots[i]` under its new index. -/
def PathStorage.keepRoot (s : PathStorage) (i out : ℕ) : PathStorage :=
  s.setRoot out { s.root i with index := out }

/-- The outer loop of `coalesce_inspection_path_fragments` from `i` on: the final `out`. -/
def coalesceLoop (n : ℕ) : ℕ → ℕ → ℕ → PathStorage → ℕ × PathStorage
  | 0, _, out, s => (out, s)
  | fuel + 1, i, out, s =>
    if n ≤ i then (out, s)
    else if (s.root i).len = 0 then coalesceLoop n fuel (i + 1) (out + 1) (s.keepRoot i out)
    else
      let (answer, s) := s.lookup stat (s.text (s.root i))
      if answer ≠ .error ENOENT then
        coalesceLoop n fuel (i + 1) (out + 1) (s.keepRoot i out)
      else
        let origLen := (s.root i).len
        let (accepted, lastRestored, s) := restoreColons stat i n n i s
        if !accepted then
          let s := removeColons lastRestored n (i + 1) s
          let s := s.setRoot i { s.root i with len := origLen }
          coalesceLoop n fuel (i + 1) (out + 1) (s.keepRoot i out)
        else coalesceLoop n fuel (lastRestored + 1) (out + 1) (s.keepRoot i out)

/-- `struct PathComponents` after `coalesce_inspection_path_fragments`: what lies beyond
`count` in the array is no component. -/
def coalesceInPlace (storage : List UInt8) (roots : List RootSpan) : PathStorage :=
  let r := coalesceLoop stat roots.length roots.length 0 0 ⟨storage, roots, []⟩
  { r.2 with roots := r.2.roots.take r.1 }

/-- `path_components_load` on the value of PATH, with the outcomes of its two allocations. -/
def loadInPlace (storageOk rootsOk : Bool) (pathEnv : CStr) :
    Option (Except String PathStorage) :=
  let rootCount := 1 + pathEnv.bytes.count 58
  if rootCount > maxRootCount then some (.error "ROOT_COUNT_LIMIT")
  else if !storageOk then some (.error "OUT_OF_MEMORY")
  else if !rootsOk then some (.error "OUT_OF_MEMORY")
  else
    let pathStorage := pathEnv.bytes ++ [0]
    match splitFields rootCount pathStorage 0 0 0 pathStorage [] with
    | none => none
    | some (.error reason) => some (.error reason)
    | some (.ok (storage, roots)) =>
      if roots.length ≠ rootCount then some (.error "OUT_OF_MEMORY")
      else some (.ok (coalesceInPlace stat storage roots))

/-- The joins of a text with the fragments after it, until one is looked up otherwise than
in vain: the accepted join and how many fragments it took. -/
def rejoinTexts : CStr → List CStr → Lookups → Option (CStr × ℕ) × Lookups
  | _, [], lookups => (none, lookups)
  | text, next :: rest, lookups =>
    let merged := text ++ .lit ":" ++ next
    if next = ∅ ∨ merged.length > maxRootLength then (none, lookups)
    else
      let answer := stat lookups merged
      let lookups := lookups ++ [(merged, answer)]
      match answer with
      | .ok _ => (none, lookups)
      | .error err =>
        if err ≠ ENOENT then (some (merged, 1), lookups)
        else
          let r := rejoinTexts merged rest lookups
          (r.1.map fun join => (join.1, join.2 + 1), r.2)

/-- What the loops in the storage do to the texts, with the number of fragments that went
into the last join. -/
def coalesceTexts : ℕ → List CStr → Lookups → List CStr × Lookups
  | _, [], lookups => ([], lookups)
  | taken + 1, _ :: rest, lookups => coalesceTexts taken rest lookups
  | 0, text :: rest, lookups =>
    if text = ∅ then
      let r := coalesceTexts 0 rest lookups
      (text :: r.1, r.2)
    else
      let answer := stat lookups text
      let lookups := lookups ++ [(text, answer)]
      if answer ≠ .error ENOENT then
        let r := coalesceTexts 0 rest lookups
        (text :: r.1, r.2)
      else
        match rejoinTexts stat text rest lookups with
        | (none, lookups) =>
          let r := coalesceTexts 0 rest lookups
          (text :: r.1, r.2)
        | (some (merged, taken), lookups) =>
          let r := coalesceTexts taken rest lookups
          (merged :: r.1, r.2)

end Coalesce

/-- The roots of packed texts, from an offset and an index on. -/
def rootSpans : ℕ → ℕ → List CStr → List RootSpan
  | _, _, [] => []
  | offset, index, text :: texts =>
    ⟨offset, index, text.length⟩ :: rootSpans (offset + text.length + 1) (index + 1) texts

end Pathaudit
