import LinuxUtilities.Pathaudit.Tables
import LinuxUtilities.Pathaudit.System

/-! The components of PATH: splitting at colons, the input limits, and the fragments
that are joined again. -/
namespace Pathaudit
open CString

def maxRootCount : ℕ := 65536
def maxRootLength : ℕ := 65536
def maxRootBytes : ℕ := 1024 * 1024

structure Root where
  text : CStr
  index : ℕ
  len : ℕ
  deriving DecidableEq

/-- `size_add_ok`. -/
def sizeAddOk (a b : ℕ) : Option ℕ := if a > sizeMax - b then none else some (a + b)

/-- The limits on one operand: its length, and the bytes of all so far with their NULs.
The new total, or the reason of the failure. -/
def checkRootLimits (len totalBytes : ℕ) : Except String ℕ :=
  if len > maxRootLength then .error "ROOT_LENGTH_LIMIT"
  else
    match (sizeAddOk len 1).bind (sizeAddOk totalBytes) with
    | none => .error "ROOT_BYTES_LIMIT"
    | some total => if total > maxRootBytes then .error "ROOT_BYTES_LIMIT" else .ok total

/-- The fragments of PATH as C strings of their own. -/
def pathFragments (pathEnv : CStr) : List CStr := (pathEnv.bytes.splitOn 58).map .ofBytes

/-- The loop of `path_components_load` over the fragments. -/
def loadRoots {W : Type} (rootCount : ℕ) : ℕ → ℕ → List CStr → Run W (List Root)
  | index, _, [] => if index ≠ rootCount then outOfMemory else pure []
  | index, totalBytes, text :: texts =>
    match checkRootLimits text.length totalBytes with
    | .error reason => Attempt.fail (emitDiagReason reason)
    | .ok total =>
      if index ≥ rootCount then outOfMemory
      else do
        let roots ← loadRoots rootCount (index + 1) total texts
        pure (⟨text, index, text.length⟩ :: roots)

variable (stat : CStr → Except Errno Stat)

/-- The inner loop of `coalesce_inspection_path_fragments`: the join that fails other than
with `ENOENT`, and how many of the roots it took. -/
def rejoin : Root → List Root → Option (Root × ℕ)
  | _, [] => none
  | root, next :: rest =>
    if next.len = 0 then none
    else
      let mergedLen := root.len + 1 + next.len
      if mergedLen > maxRootLength then none
      else
        let merged : Root := ⟨root.text ++ .lit ":" ++ next.text, root.index, mergedLen⟩
        match stat merged.text with
        | .ok _ => none
        | .error err =>
          if err ≠ ENOENT then some (merged, 1)
          else (rejoin merged rest).map fun r => (r.1, r.2 + 1)

/-- The outer loop of `coalesce_inspection_path_fragments`, with the number of roots that
went into the last join. -/
def coalesceRoots : ℕ → List Root → List Root
  | _, [] => []
  | taken + 1, _ :: roots => coalesceRoots taken roots
  | 0, root :: roots =>
    if root.len = 0 then root :: coalesceRoots 0 roots
    else
      match stat root.text with
      | .ok _ => root :: coalesceRoots 0 roots
      | .error err =>
        if err ≠ ENOENT then root :: coalesceRoots 0 roots
        else
          match rejoin stat root roots with
          | none => root :: coalesceRoots 0 roots
          | some (merged, taken) => merged :: coalesceRoots taken roots

/-- `coalesce_inspection_path_fragments`: what is left is numbered anew. -/
def coalesceInspectionPathFragments (roots : List Root) : List Root :=
  (coalesceRoots stat 0 roots).mapIdx fun i root => { root with index := i }

/-- The texts as roots, numbered from `index`. -/
def numberedRoots (index : ℕ) (texts : List CStr) : List Root :=
  texts.mapIdx fun i text => ⟨text, index + i, text.length⟩

/-- The components of a PATH within the limits. -/
def components (fs : FileSystem) (pathEnv : CStr) : List Root :=
  coalesceInspectionPathFragments fs.stat (numberedRoots 0 (pathFragments pathEnv))

/-- `path_components_load` on the value of PATH. -/
def pathComponentsLoad {W : Type} (sys : Sys W) : Option CStr → Run W (List Root)
  | none => Attempt.fail (emitDiagReason "PATH_UNSET")
  | some pathEnv =>
    let rootCount := 1 + pathEnv.bytes.count 58
    if rootCount > maxRootCount then Attempt.fail (emitDiagReason "ROOT_COUNT_LIMIT")
    else do
      alloc sys
      alloc sys
      let roots ← loadRoots rootCount 0 0 (pathFragments pathEnv)
      pure (coalesceInspectionPathFragments sys.fs.stat roots)

theorem numberedRoots_cons (index : ℕ) (text : CStr) (texts : List CStr) :
    numberedRoots index (text :: texts) =
      ⟨text, index, text.length⟩ :: numberedRoots (index + 1) texts := by
  simp [numberedRoots, List.mapIdx_cons, Nat.add_assoc, Nat.add_comm 1]

/-- Only the total can be beyond the limits when the length is within. -/
theorem checkRootLimits_ok {len totalBytes : ℕ} (hlen : len ≤ maxRootLength)
    (htotal : totalBytes ≤ maxRootBytes) :
    checkRootLimits len totalBytes = if totalBytes + (len + 1) > maxRootBytes then
      .error "ROOT_BYTES_LIMIT" else .ok (totalBytes + (len + 1)) := by
  unfold maxRootLength maxRootBytes at *
  have hone : sizeAddOk len 1 = some (len + 1) := by
    rw [sizeAddOk, if_neg (by unfold sizeMax; omega)]
  have hsum : sizeAddOk totalBytes (len + 1) = some (totalBytes + (len + 1)) := by
    rw [sizeAddOk, if_neg (by unfold sizeMax; omega)]
  unfold checkRootLimits maxRootLength maxRootBytes
  rw [if_neg (by omega), hone, Option.bind_some, hsum]

section Load
open Attempt

theorem loadRoots_sound {W : Type} (rootCount index totalBytes : ℕ) (texts : List CStr) :
    Sound Proc.stdout (loadRoots rootCount index totalBytes texts : Run W (List Root))
      (· = numberedRoots index texts) := by
  induction texts generalizing index totalBytes with
  | nil =>
    unfold loadRoots
    split
    · exact Sound.fail fun _ => rfl
    · exact Sound.pure rfl
  | cons text texts ih =>
    unfold loadRoots
    split
    · exact Sound.fail fun _ => rfl
    · split
      · exact Sound.fail fun _ => rfl
      · apply (ih _ _).bind
        rintro _ rfl
        exact Sound.pure (numberedRoots_cons index text texts).symm

theorem pathComponentsLoad_sound {W : Type} (sys : Sys W) (pathEnv : CStr) :
    Sound Proc.stdout (pathComponentsLoad sys (some pathEnv))
      (· = components sys.fs pathEnv) := by
  have halloc := (alloc_meets sys sys.promiseNothing).sound
  unfold pathComponentsLoad
  dsimp only
  split
  · exact Sound.fail fun _ => rfl
  · apply halloc.bind
    intro _ _
    apply halloc.bind
    intro _ _
    apply (loadRoots_sound _ _ _ _).bind
    rintro _ rfl
    exact Sound.pure rfl

end Load

/-- A component that is not empty, with its own length. -/
structure Root.NonEmpty (root : Root) : Prop where
  len : root.len = root.text.length
  text : root.text ≠ ∅

theorem Root.NonEmpty.len_ne_zero {root : Root} (h : root.NonEmpty) : root.len ≠ 0 := by
  rw [h.len]
  intro hzero
  exact h.text (CStr.ext (List.length_eq_zero_iff.mp hzero))

variable {stat} {fs : FileSystem}

theorem rejoin_nonEmpty {root merged : Root} {roots : List Root} {taken : ℕ}
    (hroot : root.NonEmpty) (hroots : ∀ r ∈ roots, r.NonEmpty)
    (h : rejoin stat root roots = some (merged, taken)) : merged.NonEmpty := by
  induction roots generalizing root taken with
  | nil => contradiction
  | cons next roots ih =>
    rw [List.forall_mem_cons] at hroots
    unfold rejoin at h
    split at h
    · contradiction
    · extract_lets mergedLen merged' at h
      have hmerged : merged'.NonEmpty := by
        constructor
        · simp only [merged', mergedLen, hroot.len, hroots.1.len, CStr.length_append]
          rfl
        · intro hempty
          have hbytes := congrArg CStr.bytes hempty
          simp only [merged', CStr.append_bytes, CStr.empty_bytes, List.append_eq_nil_iff] at hbytes
          exact hroots.1.text (CStr.ext hbytes.2)
      split at h
      · contradiction
      · split at h
        · contradiction
        · split at h
          · obtain ⟨rfl, -⟩ := Prod.mk.inj (Option.some.inj h)
            exact hmerged
          · obtain ⟨r, hr, heq⟩ := Option.map_eq_some_iff.mp h
            obtain ⟨rfl, -⟩ := Prod.mk.inj heq
            exact ih hmerged hroots.2 hr

theorem coalesceRoots_nonEmpty {roots : List Root} {taken : ℕ} (hroots : ∀ r ∈ roots, r.NonEmpty) :
    ∀ r ∈ coalesceRoots stat taken roots, r.NonEmpty := by
  induction roots generalizing taken with
  | nil => simp [coalesceRoots]
  | cons root roots ih =>
    rw [List.forall_mem_cons] at hroots
    have hkeep : ∀ r ∈ root :: coalesceRoots stat 0 roots, r.NonEmpty :=
      List.forall_mem_cons.mpr ⟨hroots.1, ih hroots.2⟩
    cases taken with
    | succ taken => exact ih hroots.2
    | zero =>
      unfold coalesceRoots
      split
      · exact hkeep
      · split
        · exact hkeep
        · split
          · exact hkeep
          · split
            · exact hkeep
            next merged taken hrejoin =>
              rw [List.forall_mem_cons]
              exact ⟨rejoin_nonEmpty hroots.1 hroots.2 hrejoin, ih hroots.2⟩

/-- A PATH without empty fields has no empty components. -/
theorem components_nonEmpty {pathEnv : CStr} (h : ∅ ∉ pathFragments pathEnv) :
    ∀ r ∈ components fs pathEnv, r.NonEmpty := by
  have hroots : ∀ r ∈ numberedRoots 0 (pathFragments pathEnv), r.NonEmpty := by
    intro r hr
    obtain ⟨i, hi, rfl⟩ := List.mem_mapIdx.mp hr
    refine ⟨rfl, fun hempty => ?_⟩
    rw [← hempty] at h
    exact h (List.getElem_mem hi)
  intro r hr
  obtain ⟨i, hi, rfl⟩ := List.mem_mapIdx.mp hr
  have hok := coalesceRoots_nonEmpty hroots _ (List.getElem_mem hi)
  exact ⟨hok.len, hok.text⟩

/-- The components are numbered in their order. -/
theorem components_index_lt (pathEnv : CStr) :
    (components fs pathEnv).Pairwise fun r s => r.index < s.index := by
  rw [List.pairwise_iff_getElem]
  intro i j hi hj hij
  simpa [components, coalesceInspectionPathFragments] using hij

end Pathaudit
