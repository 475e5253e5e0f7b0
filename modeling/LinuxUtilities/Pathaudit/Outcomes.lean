import LinuxUtilities.Pathaudit.HitReference
import LinuxUtilities.Pathaudit.Modes

/-! What each part of `pathaudit` comes to on an unchanging file system: when it gives up
of itself, and its result otherwise. -/
namespace Pathaudit
open CString Attempt

section Match
variable (fs : FileSystem)

/-- The candidate is a symbolic link to the bare command name. -/
def isSelfLoop (candidate command : CStr) : Prop :=
  ∃ st, fs.lstat candidate = .ok st ∧ st.kind = .symlink ∧ fs.readlink candidate = .ok command

/-- A failed lookup is an inspection error of the candidate. -/
def rejects (root : Root) (command candidate : CStr) (err : Errno) : Prop :=
  ¬ rootLookupFailsWith fs root err ∧ (err = ELOOP → isSelfLoop fs candidate command)

/-- The searches for a command that end the run. -/
def matchFails (root : Root) (command : CStr) : Prop :=
  match candidateOf root command with
  | none => False
  | some candidate =>
    match fs.stat candidate with
    | .error err => ¬ (err = ENOENT ∨ err = ENOTDIR) ∧ rejects fs root command candidate err
    | .ok st =>
      ¬ (st.kind ≠ .regular ∨ ¬ fs.access candidate) ∧
        match probeExecImage fs candidate with
        | .error err => ¬ (err = ENOENT ∨ err = ENOTDIR) ∧ rejects fs root command candidate err
        | .ok false => False
        | .ok true =>
          match fs.realpath candidate with
          | .error err =>
            err = ENOMEM ∨ (err = EACCES ∨ err = ELOOP) ∧ rejects fs root command candidate err
          | .ok _ => False

/-- The executable that a component has for a command: a regular file with execute access
and the header of an image, under its realpath. -/
def commandMatch (root : Root) (command : CStr) : Option CommandMatch :=
  (candidateOf root command).bind fun candidate =>
    match fs.stat candidate, probeExecImage fs candidate, fs.realpath candidate with
    | .ok st, .ok true, .ok path =>
      if st.kind = .regular ∧ fs.access candidate then some ⟨path, st.mode, st.uid⟩ else none
    | _, _, _ => none

variable {fs}

theorem stat_of_commandMatch {root : Root} {command : CStr} {m : CommandMatch}
    (h : commandMatch fs root command = some m) :
    ∃ candidate st, candidateOf root command = some candidate ∧ fs.stat candidate = .ok st ∧
      st.kind = .regular := by
  obtain ⟨candidate, hcand, hm⟩ := Option.bind_eq_some_iff.mp h
  split at hm
  next st _ hst _ _ =>
    split at hm
    next hreg => exact ⟨candidate, st, hcand, hst, hreg.1⟩
    next => contradiction
  next => contradiction

theorem candidateOf_length {root : Root} {command candidate : CStr}
    (h : candidateOf root command = some candidate) : command.length ≤ maxRootLength := by
  unfold candidateOf at h
  split at h
  · split at h
    · contradiction
    · omega
  · extract_lets slash at h
    split at h
    · contradiction
    next total htotal =>
      split at h
      · contradiction
      · obtain ⟨a, ha, hb⟩ := Option.bind_eq_some_iff.mp htotal
        unfold sizeAddOk at hb
        split at hb
        · contradiction
        · have := Option.some.inj hb
          omega

end Match

section Search
variable {W : Type} {sys : Sys W} {granted : Prop} (hg : granted → sys.Granted)
include hg

theorem symlinkIsSelfBasename_meets {candidate command : CStr}
    (hlen : command.length ≤ maxRootLength) (hslash : 47 ∉ command.bytes) :
    Meets Proc.stdout granted (symlinkIsSelfBasename sys candidate command) False
      fun self => self = true ↔ isSelfLoop sys.fs candidate command := by
  unfold symlinkIsSelfBasename
  cases hl : sys.fs.lstat candidate with
  | error err => exact Meets.pure not_false (by simp [isSelfLoop, hl])
  | ok st =>
    by_cases hk : st.kind = .symlink
    · have hsize : sizeAddOk command.length 1 = some (command.length + 1) := by
        unfold sizeAddOk
        rw [if_neg (by unfold sizeMax maxRootLength at *; omega)]
      simp only [hk, ne_eq, not_true_eq_false, ↓reduceIte, hsize]
      apply (alloc_meets sys hg).andThen
      intro _ _
      cases hr : sys.fs.readlink candidate with
      | error err => exact Meets.pure not_false (by simp [isSelfLoop, hr])
      | ok target =>
        have hself : isSelfLoop sys.fs candidate command ↔ target = command := by
          simp [isSelfLoop, hl, hk, hr]
        dsimp only
        split
        next hne =>
          refine Meets.pure not_false ?_
          rw [hself]
          constructor
          · intro h
            contradiction
          · rintro rfl
            exact (hne (by simp [CStr.length])).elim
        next heq =>
          have htake : target.bytes.take (command.length + 1) = target.bytes := by
            rw [List.take_eq_self_iff]
            simp only [not_not, List.length_take] at heq
            omega
          refine Meets.pure not_false ?_
          rw [hself, htake]
          rw [CStr.ofBytes_self, Bool.and_eq_true, decide_eq_true_eq, decide_eq_true_eq, cmpUnsignedBytes_eq_zero]
          constructor
          · exact And.right
          · rintro rfl
            exact ⟨hslash, rfl⟩
    · simp only [hk, ne_eq, not_false_eq_true, ↓reduceIte]
      exact Meets.pure not_false (by simp [isSelfLoop, hl, hk])

theorem rejectCandidate_meets (root : Root) {command : CStr} (candidate : CStr) (err : Errno)
    (hlen : command.length ≤ maxRootLength) (hslash : 47 ∉ command.bytes) :
    Meets Proc.stdout granted (rejectCandidate sys root command candidate err)
      (rejects sys.fs root command candidate err) (· = none) := by
  unfold rejectCandidate
  by_cases hroot : rootLookupFailsWith sys.fs root err = true
  · rw [if_pos hroot]
    exact Meets.pure (fun hrej => hrej.1 hroot) rfl
  · rw [if_neg hroot]
    by_cases hloop : err = ELOOP
    · rw [if_pos hloop]
      have hfails : False ∨ isSelfLoop sys.fs candidate command ↔
          rejects sys.fs root command candidate err := by
        rw [false_or, rejects]
        exact ⟨fun hself => ⟨hroot, fun _ => hself⟩, fun hrej => hrej.2 hloop⟩
      apply ((symlinkIsSelfBasename_meets hg hlen hslash).bind fun self hself => ?_).of_iff hfails
      by_cases hs : self = true
      · rw [if_pos hs]
        exact Meets.fail (hself.mp hs) fun _ => rfl
      · rw [if_neg hs]
        exact Meets.pure (mt hself.mpr hs) rfl
    · rw [if_neg hloop]
      exact Meets.fail ⟨hroot, fun h => absurd h hloop⟩ fun _ => rfl

/-- The search for a command under a component. -/
theorem tryCommandMatch_meets (root : Root) {command : CStr} (hslash : 47 ∉ command.bytes) :
    Meets Proc.stdout granted (tryCommandMatch sys root command)
      (matchFails sys.fs root command) (· = commandMatch sys.fs root command) := by
  unfold tryCommandMatch matchFails commandMatch
  cases hcand : candidateOf root command with
  | none => exact Meets.pure not_false rfl
  | some candidate =>
    have hlen := candidateOf_length hcand
    have hreject := fun err =>
      rejectCandidate_meets hg root candidate err hlen hslash
    dsimp only [Option.bind_some]
    apply (alloc_meets sys hg).andThen
    intro _ _
    cases hst : sys.fs.stat candidate with
    | error err =>
      dsimp only
      split
      next hnone => exact Meets.pure (fun hf => hf.1 hnone) rfl
      next hnone => exact (hreject err).of_iff (by simp [hnone])
    | ok st =>
      dsimp only
      split
      next hdata =>
        refine Meets.pure (fun hf => hf.1 hdata) ?_
        split
        next st' path hst' _ _ =>
          obtain rfl := Except.ok.inj hst'
          rw [if_neg fun hreg => hdata.elim (absurd hreg.1) (absurd hreg.2)]
        next => rfl
      next hdata =>
        have hreg : st.kind = .regular ∧ sys.fs.access candidate = true := by
          simpa only [not_or, not_not, ne_eq] using hdata
        cases hprobe : probeExecImage sys.fs candidate with
        | error err =>
          dsimp only
          split
          next hnone => exact Meets.pure (fun hf => hf.2.1 hnone) rfl
          next hnone => exact (hreject err).of_iff (by simp [hreg, hnone])
        | ok image =>
          cases image with
          | false => exact Meets.pure And.right rfl
          | true =>
            dsimp only
            apply (alloc_meets sys hg).andThen
            intro _ _
            cases hreal : sys.fs.realpath candidate with
            | error err =>
              dsimp only
              split
              next hmem => exact Meets.fail ⟨hdata, .inl hmem⟩ fun _ => rfl
              next hmem =>
                split
                next hres => exact (hreject err).of_iff (by simp [hreg, hmem, hres])
                next hres => exact Meets.pure (by simp [hmem, hres]) rfl
            | ok path =>
              dsimp only
              rw [if_pos hreg]
              apply (alloc_meets sys hg).andThen
              intro _ _
              exact Meets.pure And.right rfl

theorem findingsAppend_meets (b : FindingBuffer) (root : CStr) (index : ℕ) (code : HazardCode) :
    Meets Proc.stdout granted (findingsAppend sys b root index code) False
      (· = b.push ⟨root, index, code⟩) := by
  unfold findingsAppend
  apply (alloc_meets sys hg).andThen
  intro _ _
  split
  · exact (alloc_meets sys hg).andThen fun _ _ => Meets.pure not_false rfl
  · exact Meets.pure not_false rfl

/-- The findings that a condition adds. -/
def findingsWhen (cond : Bool) (root : CStr) (index : ℕ) (code : HazardCode) : List Finding :=
  if cond then [⟨root, index, code⟩] else []

theorem appendWhen_meets (cond : Bool) (b : FindingBuffer) (root : CStr) (index : ℕ)
    (code : HazardCode) :
    Meets Proc.stdout granted (appendWhen sys cond b root index code) False
      fun b' => b'.items = b.items ++ findingsWhen cond root index code := by
  unfold appendWhen findingsWhen
  split
  · apply (findingsAppend_meets hg b root index code).congr Iff.rfl
    rintro - _ rfl
    rfl
  · exact Meets.pure not_false (List.append_nil _).symm

/-- The permission findings of a path. -/
def writabilityFindings (path : CStr) (index mode : ℕ) : List Finding :=
  findingsWhen (groupWritable mode) path index .groupWritable ++
    findingsWhen (worldWritable mode) path index .worldWritable

theorem appendWritability_meets (path : CStr) (index mode : ℕ) (b : FindingBuffer) :
    Meets Proc.stdout granted (appendWritability sys path index mode b) False
      fun b' => b'.items = b.items ++ writabilityFindings path index mode := by
  unfold appendWritability writabilityFindings
  apply (appendWhen_meets hg _ b path index _).andThen
  intro b₁ hb₁
  apply (appendWhen_meets hg _ b₁ path index _).congr Iff.rfl
  intro _ b' hb'
  rw [hb', hb₁, List.append_assoc]

/-- The findings about an executable. -/
def trustFindings (sys : Sys W) (index : ℕ) (m : CommandMatch) : List Finding :=
  writabilityFindings m.path index m.mode ++
    findingsWhen (!ownerUidIsTrusted sys m.owner) m.path index .unsafeOwner

theorem appendExecutableTrustFindings_meets (m : CommandMatch) (index : ℕ) (b : FindingBuffer) :
    Meets Proc.stdout granted (appendExecutableTrustFindings sys m index b) False
      fun b' => b'.items = b.items ++ trustFindings sys index m := by
  unfold appendExecutableTrustFindings trustFindings
  apply (appendWritability_meets hg m.path index m.mode b).andThen
  intro b₁ hb₁
  apply (appendWhen_meets hg _ b₁ m.path index _).congr Iff.rfl
  intro _ b' hb'
  rw [hb', hb₁, List.append_assoc]

variable {h : Hashes}

/-- The tables after some hits, of an ordinary size when nothing was denied. -/
structure Tables.Accounts (h : Hashes) (granted : Prop) (hits : List Hit) (t : Tables) : Prop where
  holds : t.Holds h hits
  sized : granted → t.Sized

theorem recordHit_meets {hits : List Hit} {t : Tables} (ht : t.Accounts h granted hits) (hit : Hit)
    (hlen : granted → hits.length < 2 ^ 57) :
    Meets Proc.stdout granted (recordHit sys h hit t) False
      (Tables.Accounts h granted (hits ++ [hit])) := by
  have hdraw : granted → ∀ p : Proc W, (drawHitAllocs sys p).1 = .granted := by
    intro hgr p
    simp [drawHitAllocs, HitAllocs.granted, (hg hgr).malloc]
  constructor
  · intro p
    obtain ⟨status, t', hrec, hholds, hdone⟩ :=
      recordExecutableHit_holds ht.holds hit (drawHitAllocs sys p).1
    unfold recordHit
    rw [hrec]
    cases status with
    | zero =>
      refine ⟨rfl, fun t'' ht'' => ⟨not_false, ?_⟩⟩
      obtain rfl := Option.some.inj ht''
      exact ⟨hholds rfl, fun hgr => (hdone (hdraw hgr p) (ht.sized hgr) (hlen hgr)).2⟩
    | succ status => exact ⟨rfl, fun t'' ht'' => by contradiction⟩
  · intro hgr _ p
    obtain ⟨status, t', hrec, -, hdone⟩ :=
      recordExecutableHit_holds ht.holds hit (drawHitAllocs sys p).1
    obtain ⟨rfl, -⟩ := hdone (hdraw hgr p) (ht.sized hgr) (hlen hgr)
    unfold recordHit
    rw [hrec]
    rfl

end Search

/-- An executable that the scan finds: its name, the index of its component, and its match. -/
structure Found where
  name : CStr
  index : ℕ
  target : CommandMatch
  deriving DecidableEq

def Found.hit (f : Found) : Hit := ⟨f.name, f.target.path, f.index⟩

theorem filterMap_concat_toList {α β : Type} (f : α → Option β) (l : List α) (a : α) :
    (l ++ [a]).filterMap f = l.filterMap f ++ (f a).toList := by
  rw [List.filterMap_append]
  cases ha : f a <;> simp [ha]

section Scan
variable {W : Type} (sys : Sys W) (root : Root)

/-- The executable of one name. -/
def foundName (name : CStr) : Option Found :=
  if skippedName name then none
  else (commandMatch sys.fs root name).map fun m => ⟨name, root.index, m⟩

/-- The executables under a component. -/
def foundUnder : List Found :=
  match listingOf sys.fs root with
  | none => []
  | some listing => listing.names.filterMap (foundName sys root)

/-- The components whose scan ends the run. -/
def scanFails : Prop :=
  ∃ listing, listingOf sys.fs root = some listing ∧
    ((∃ name ∈ listing.names, ¬ skippedName name ∧ matchFails sys.fs root name) ∨
      listing.error ≠ none)

/-- What the scan has after some executables. -/
structure Scan.Accounts (h : Hashes) (granted : Prop) (before : List Finding)
    (found : List Found) (s : Scan) : Prop where
  tables : s.tables.Accounts h granted (found.map Found.hit)
  findings : s.findings.items = before ++ found.flatMap fun f => trustFindings sys f.index f.target

variable {sys root} {granted : Prop} {h : Hashes} {before : List Finding}
variable (hg : granted → sys.Granted)
include hg

theorem scanEntry_meets {found : List Found} {s : Scan} (hs : s.Accounts sys h granted before found)
    (hlen : granted → found.length < 2 ^ 57) (name : CStr) :
    Meets Proc.stdout granted (scanEntry sys h root s name)
      (¬ skippedName name ∧ matchFails sys.fs root name)
      (Scan.Accounts sys h granted before (found ++ (foundName sys root name).toList)) := by
  unfold scanEntry foundName
  by_cases hskip : skippedName name = true
  · rw [if_pos hskip, if_pos hskip, Option.toList_none, List.append_nil]
    exact Meets.pure (fun hf => hf.1 hskip) hs
  · have hslash : 47 ∉ name.bytes := by
      intro hmem
      exact hskip (by simp [skippedName, hmem])
    rw [if_neg hskip, if_neg hskip]
    refine (tryCommandMatch_meets hg root hslash).bind_iff False ?_ (by simp [hskip])
    intro m hm
    rw [← hm]
    cases m with
    | none =>
      rw [Option.map_none, Option.toList_none, List.append_nil]
      exact Meets.pure not_false hs
    | some m =>
      apply (appendExecutableTrustFindings_meets hg m root.index s.findings).andThen
      intro findings hfindings
      apply (recordHit_meets hg hs.tables ⟨name, m.path, root.index⟩ (by simpa using hlen)).andThen
      intro tables htables
      refine Meets.pure not_false ⟨?_, ?_⟩
      · simpa [Found.hit] using htables
      · rw [hfindings, hs.findings, List.flatMap_append]
        simp

theorem scanRootExecutables_meets {found : List Found} {s : Scan}
    (hs : s.Accounts sys h granted before found)
    (hlen : granted → (found ++ foundUnder sys root).length < 2 ^ 57) :
    Meets Proc.stdout granted (scanRootExecutables sys h s root) (scanFails sys root)
      (Scan.Accounts sys h granted before (found ++ foundUnder sys root)) := by
  unfold scanRootExecutables scanFails
  unfold foundUnder at hlen ⊢
  cases hlist : listingOf sys.fs root with
  | none =>
    dsimp only
    rw [List.append_nil]
    exact Meets.pure (by simp) hs
  | some listing =>
    dsimp only
    rw [hlist] at hlen
    dsimp only at hlen
    have hloop : Meets Proc.stdout granted (listing.names.foldlM (scanEntry sys h root) s)
        (∃ name ∈ listing.names, ¬ skippedName name ∧ matchFails sys.fs root name)
        (Scan.Accounts sys h granted before
          (found ++ listing.names.filterMap (foundName sys root))) := by
      apply Meets.foldlM fun done s => Scan.Accounts sys h granted before
        (found ++ done.filterMap (foundName sys root)) s
      · intro pre name post s hnames hs
        rw [filterMap_concat_toList, ← List.append_assoc]
        apply scanEntry_meets hg hs
        intro hgr
        have htotal := hlen hgr
        rw [hnames, List.length_append, List.filterMap_append, List.length_append] at htotal
        rw [List.length_append]
        omega
      · simpa using hs
    refine hloop.bind_iff (listing.error ≠ none) ?_ (by simp)
    · intro s hs
      cases herr : listing.error with
      | none => exact Meets.pure (by simp) hs
      | some err => exact Meets.fail (by simp) fun _ => rfl

/-- The scan of PATH finds the executables of its components, in PATH order. -/
theorem scanPath_meets (roots : List Root) {findings : FindingBuffer}
    (hlen : granted → (roots.flatMap (foundUnder sys)).length < 2 ^ 57) :
    Meets Proc.stdout granted (scanPath sys h roots findings) (∃ root ∈ roots, scanFails sys root)
      (Scan.Accounts sys h granted findings.items (roots.flatMap (foundUnder sys))) := by
  apply Meets.foldlM fun done s => Scan.Accounts sys h granted findings.items
    (done.flatMap (foundUnder sys)) s
  · intro pre root post s hroots hs
    rw [List.flatMap_append, List.flatMap_singleton]
    apply scanRootExecutables_meets hg hs
    intro hgr
    have htotal := hlen hgr
    rw [hroots, List.flatMap_append, List.flatMap_cons, List.length_append,
      List.length_append] at htotal
    rw [List.length_append]
    omega
  · refine ⟨⟨Tables.empty_holds h, fun _ => ?_⟩, by simp⟩
    exact ⟨Buffer.empty_sized, Buffer.empty_sized⟩

end Scan

section Classify
variable {W : Type} (sys : Sys W)

theorem findingsAppend_sound (b : FindingBuffer) (root : CStr) (index : ℕ) (code : HazardCode) :
    Sound Proc.stdout (findingsAppend sys b root index code) fun _ => True :=
  (findingsAppend_meets sys.promiseNothing b root index code).sound.imp
    fun _ _ => trivial

theorem appendWhen_sound (cond : Bool) (b : FindingBuffer) (root : CStr) (index : ℕ)
    (code : HazardCode) :
    Sound Proc.stdout (appendWhen sys cond b root index code) fun _ => True :=
  (appendWhen_meets sys.promiseNothing cond b root index code).sound.imp
    fun _ _ => trivial

theorem auditAncestor_sound (index : ℕ) (b : FindingBuffer) (dir : CStr) :
    Sound Proc.stdout (auditAncestor sys index b dir) fun _ => True := by
  unfold auditAncestor findingsNoteUnsafeOwner
  split
  · split
    · exact Sound.pure trivial
    · split
      · exact Sound.pure trivial
      · exact findingsAppend_sound sys b dir index _
  · exact Sound.pure trivial

theorem appendDirectoryChainOwnership_sound (path : CStr) (index : ℕ) (b : FindingBuffer) :
    Sound Proc.stdout (appendDirectoryChainOwnership sys path index b) fun _ => True := by
  unfold appendDirectoryChainOwnership
  apply (alloc_meets sys sys.promiseNothing).sound.bind
  intro _ _
  split
  · split
    · exact Sound.fail fun _ => rfl
    · exact Sound.pure trivial
  · split
    · split
      · exact Sound.pure trivial
      · exact Sound.foldlM (fun _ _ => True)
          (fun _ dir _ b _ _ => auditAncestor_sound sys index b dir) trivial
    · exact Sound.pure trivial

theorem appendWritability_sound (path : CStr) (index mode : ℕ) (b : FindingBuffer) :
    Sound Proc.stdout (appendWritability sys path index mode b) fun _ => True :=
  (appendWritability_meets sys.promiseNothing path index mode b).sound.imp
    fun _ _ => trivial

/-- Classification writes nothing to stdout. -/
theorem classifyRoot_sound (audit : Bool) (b : FindingBuffer) (root : Root) :
    Sound Proc.stdout (classifyRoot sys audit b root) fun _ => True := by
  unfold classifyRoot
  split
  · exact findingsAppend_sound sys _ _ _ _
  · apply (appendWhen_sound sys _ _ _ _ _).bind
    intro b _
    split
    · split
      · exact findingsAppend_sound sys _ _ _ _
      · split
        · exact findingsAppend_sound sys _ _ _ _
        · exact Sound.fail fun _ => rfl
    · split
      · exact findingsAppend_sound sys _ _ _ _
      · apply (appendWritability_sound sys _ _ _ _).bind
        intro b _
        split
        · exact appendDirectoryChainOwnership_sound sys _ _ _
        · exact Sound.pure trivial

theorem classifyCommandComponent_sound (root : Root) (permissionApplicable : Bool)
    (b : FindingBuffer) :
    Sound Proc.stdout (classifyCommandComponent sys root permissionApplicable b)
      fun _ => True := by
  unfold classifyCommandComponent
  split
  · apply (findingsAppend_sound sys _ _ _ _).bind
    intro b _
    split
    · exact appendDirectoryChainOwnership_sound sys _ _ _
    · exact Sound.pure trivial
  · apply (appendWhen_sound sys _ _ _ _ _).bind
    intro b _
    split
    · split
      · exact appendWhen_sound sys _ _ _ _ _
      · split
        · exact appendWhen_sound sys _ _ _ _ _
        · exact Sound.fail fun _ => rfl
    · split
      · exact appendWhen_sound sys _ _ _ _ _
      · split
        · apply (appendWritability_sound sys _ _ _ _).bind
          intro b _
          exact appendDirectoryChainOwnership_sound sys _ _ _
        · exact Sound.pure trivial

end Classify

end Pathaudit

