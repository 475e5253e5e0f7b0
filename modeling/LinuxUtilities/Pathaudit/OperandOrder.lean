import LinuxUtilities.Pathaudit.Coalescing
import LinuxUtilities.Pathaudit.ListingOrder

/-! The output for explicit roots does not depend on the order of the operands. -/
namespace Pathaudit
open CString Attempt

theorem compareRoots_nonpos {a b : Root} :
    compareRootsByBytesThenIndex a b ≤ 0 ↔
      a.text < b.text ∨ a.text = b.text ∧ a.index ≤ b.index := by
  rw [compareRootsByBytesThenIndex, ite_compare_nonpos, cmpUnsignedBytes_eq_zero,
    compareSizes_nonpos]
  exact or_congr_left strcmp_neg

section Limits

/-- The limits that do not depend on the order of the operands. -/
def BeyondLimits (totalBytes : ℕ) (texts : List CStr) : Prop :=
  (∃ text ∈ texts, text.length > maxRootLength) ∨
    totalBytes + (texts.map fun text => text.length + 1).sum > maxRootBytes

theorem explicitRoots_meets {W : Type} {granted : Prop} (index totalBytes : ℕ) (texts : List CStr)
    (htotal : totalBytes ≤ maxRootBytes) :
    Meets Proc.stdout granted (explicitRoots index totalBytes texts : Run W (List Root))
      (BeyondLimits totalBytes texts) (· = numberedRoots index texts) := by
  induction texts generalizing index totalBytes with
  | nil => exact Meets.pure (by simp [BeyondLimits, htotal]) rfl
  | cons text texts ih =>
    unfold explicitRoots
    by_cases hlen : text.length > maxRootLength
    · rw [checkRootLimits, if_pos hlen]
      exact Meets.fail (.inl ⟨text, List.mem_cons_self, hlen⟩) fun _ => rfl
    · rw [checkRootLimits_ok (by omega) htotal]
      by_cases hbytes : totalBytes + (text.length + 1) > maxRootBytes
      · rw [if_pos hbytes]
        refine Meets.fail (.inr ?_) fun _ => rfl
        rw [List.map_cons, List.sum_cons]
        omega
      · rw [if_neg hbytes]
        refine (ih (index + 1) _ (by omega)).bind_iff False ?_ ?_
        · rintro _ rfl
          exact Meets.pure not_false (numberedRoots_cons index text texts).symm
        · rw [or_false, BeyondLimits, BeyondLimits, List.map_cons, List.sum_cons, Nat.add_assoc]
          simp [hlen]

theorem beyondLimits_perm {totalBytes : ℕ} {texts texts' : List CStr} (hp : texts.Perm texts') :
    BeyondLimits totalBytes texts ↔ BeyondLimits totalBytes texts' := by
  rw [BeyondLimits, BeyondLimits, (hp.map _).sum_eq]
  simp only [hp.mem_iff]

end Limits

section Audit
variable {W : Type} {sys : Sys W} {granted : Prop}

/-- The codes that a condition adds. -/
def codesWhen (cond : Bool) (code : HazardCode) : List HazardCode := if cond then [code] else []

theorem codesWhen_findings (cond : Bool) (code : HazardCode) (text : CStr) (index : ℕ) :
    (codesWhen cond code).map (fun code => (⟨text, index, code⟩ : Finding)) =
      findingsWhen cond text index code := by
  cases cond <;> rfl

/-- The hazards that the lookup of a root shows; `none` is an inspection error. -/
def lookupHazards : Except Errno Stat → Option (List HazardCode)
  | .error err =>
    if err = ENOENT then some [.missingRoot]
    else if err = ENOTDIR then some [.nonDirectoryRoot]
    else none
  | .ok st =>
    if st.kind ≠ .directory then some [.nonDirectoryRoot]
    else some (codesWhen (groupWritable st.mode) .groupWritable ++
      codesWhen (worldWritable st.mode) .worldWritable)

/-- The hazards of an explicit root, in the order of their ranks. -/
def rootHazards (fs : FileSystem) (text : CStr) : Option (List HazardCode) :=
  if text = ∅ then some [.emptyRoot]
  else (lookupHazards (fs.stat text)).map
    (codesWhen (text.bytes.head? ≠ some 47) .relativeRoot ++ ·)

theorem lookupHazards_sorted {r : Except Errno Stat} {codes : List HazardCode}
    (h : lookupHazards r = some codes) :
    codes.Pairwise (fun a b => a.rank < b.rank) ∧ ∀ code ∈ codes, 1 < code.rank := by
  have hone : ∀ code : HazardCode, 1 < code.rank → some [code] = some codes →
      codes.Pairwise (fun a b => a.rank < b.rank) ∧ ∀ code ∈ codes, 1 < code.rank := by
    rintro code hrank heq
    obtain rfl := Option.some.inj heq
    simpa using hrank
  cases r with
  | error err =>
    simp only [lookupHazards] at h
    split at h
    · exact hone _ (by decide) h
    · split at h
      · exact hone _ (by decide) h
      · contradiction
  | ok st =>
    simp only [lookupHazards] at h
    split at h
    · exact hone _ (by decide) h
    · obtain rfl := Option.some.inj h
      cases groupWritable st.mode <;> cases worldWritable st.mode <;> decide

theorem rootHazards_sorted {fs : FileSystem} {text : CStr} {codes : List HazardCode}
    (h : rootHazards fs text = some codes) : codes.Pairwise fun a b => a.rank < b.rank := by
  unfold rootHazards at h
  split at h
  · obtain rfl := Option.some.inj h
    exact List.pairwise_singleton _ _
  · obtain ⟨codes', hlookup, rfl⟩ := Option.map_eq_some_iff.mp h
    obtain ⟨hsorted, hrank⟩ := lookupHazards_sorted hlookup
    cases decide (text.bytes.head? ≠ some 47) with
    | false => exact hsorted
    | true => exact List.pairwise_cons.mpr ⟨hrank, hsorted⟩

/-- The findings of an explicit root. -/
def rootFindings (fs : FileSystem) (root : Root) : List Finding :=
  ((rootHazards fs root.text).getD []).map fun code => ⟨root.text, root.index, code⟩

theorem classifyRoot_meets (hg : granted → sys.Granted) {root : Root}
    (hlen : root.len = root.text.length) (b : FindingBuffer) :
    Meets Proc.stdout granted (classifyRoot sys false b root)
      (rootHazards sys.fs root.text = none)
      fun b' => b'.items = b.items ++ rootFindings sys.fs root := by
  have hone : ∀ (b : FindingBuffer) (code : HazardCode),
      Meets Proc.stdout granted (findingsAppend sys b root.text root.index code) False
        fun b' => b'.items = b.items ++ [⟨root.text, root.index, code⟩] := by
    intro b code
    apply (findingsAppend_meets hg b root.text root.index code).congr Iff.rfl
    rintro - _ rfl
    rfl
  unfold classifyRoot rootFindings rootHazards
  by_cases hempty : root.text = ∅
  · have hzero : root.len = 0 := by rw [hlen, hempty]; rfl
    rw [if_pos hzero, if_pos hempty]
    exact (hone b .emptyRoot).of_iff (by simp)
  · have hne : root.len ≠ 0 := Root.NonEmpty.len_ne_zero ⟨hlen, hempty⟩
    have hcwd : rootIsCwdDependent root = decide (root.text.bytes.head? ≠ some 47) := by
      simp [rootIsCwdDependent, hne]
    rw [if_neg hne, if_neg hempty, hcwd]
    refine (appendWhen_meets hg _ b root.text root.index .relativeRoot).andThen fun b₁ hb₁ => ?_
    have hthen : ∀ (code : HazardCode), lookupHazards (sys.fs.stat root.text) = some [code] →
        Meets Proc.stdout granted (findingsAppend sys b₁ root.text root.index code)
          ((lookupHazards (sys.fs.stat root.text)).map
            (codesWhen (root.text.bytes.head? ≠ some 47) .relativeRoot ++ ·) = none)
          fun b' => b'.items = b.items ++ (((lookupHazards (sys.fs.stat root.text)).map
            (codesWhen (root.text.bytes.head? ≠ some 47) .relativeRoot ++ ·)).getD []).map
              fun code => ⟨root.text, root.index, code⟩ := by
      intro code hlookup
      apply (hone b₁ code).congr (by simp [hlookup])
      intro _ b' hb'
      rw [hb', hb₁, hlookup, Option.map_some, Option.getD_some, List.map_append,
        codesWhen_findings, List.append_assoc]
      rfl
    cases hst : sys.fs.stat root.text with
    | error err =>
      rw [hst] at hthen
      dsimp only
      split
      next hnoent => exact hthen .missingRoot (by rw [lookupHazards, if_pos hnoent])
      next hnoent =>
        split
        next hnotdir =>
          exact hthen .nonDirectoryRoot (by rw [lookupHazards, if_neg hnoent, if_pos hnotdir])
        next hnotdir =>
          exact Meets.fail (by rw [lookupHazards, if_neg hnoent, if_neg hnotdir]; rfl) fun _ => rfl
    | ok st =>
      rw [hst] at hthen
      dsimp only
      split
      next hdir => exact hthen .nonDirectoryRoot (by rw [lookupHazards, if_pos hdir])
      next hdir =>
        refine (appendWritability_meets hg root.text root.index st.mode b₁).andThen fun b₂ hb₂ => ?_
        refine Meets.pure (by simp [lookupHazards, hdir]) ?_
        rw [hb₂, hb₁, lookupHazards, if_neg hdir, Option.map_some, Option.getD_some,
          List.map_append, List.map_append, codesWhen_findings, codesWhen_findings,
          codesWhen_findings, List.append_assoc]
        rfl

/-- The findings of roots with different indexes, taken in their order, are in order. -/
theorem rootFindings_sorted (fs : FileSystem) {roots : List Root}
    (hsorted : roots.Pairwise fun a b => compareRootsByBytesThenIndex a b ≤ 0)
    (hnodup : (roots.map Root.index).Nodup) :
    (roots.flatMap (rootFindings fs)).Pairwise fun a b => compareFindings a b ≤ 0 := by
  rw [List.pairwise_flatMap]
  constructor
  · intro root _
    unfold rootFindings
    rw [List.pairwise_map]
    cases hcodes : rootHazards fs root.text with
    | none => exact List.Pairwise.nil
    | some codes =>
      apply (rootHazards_sorted hcodes).imp
      intro c c' hrank
      exact compareFindings_nonpos.mpr (.inr ⟨rfl, .inr ⟨rfl, hrank.le⟩⟩)
  · rw [List.Nodup, List.pairwise_map] at hnodup
    apply (hsorted.and hnodup).imp
    rintro root root' ⟨hle, hindex⟩ f hf f' hf'
    obtain ⟨code, -, rfl⟩ := List.mem_map.mp hf
    obtain ⟨code', -, rfl⟩ := List.mem_map.mp hf'
    rw [compareFindings_nonpos]
    rcases compareRoots_nonpos.mp hle with hlt | ⟨htext, hindex'⟩
    · exact .inl hlt
    · exact .inr ⟨htext, .inl (lt_of_le_of_ne hindex' hindex)⟩

theorem auditFold_meets (hg : granted → sys.Granted) {roots : List Root}
    (hlen : ∀ root ∈ roots, root.len = root.text.length) :
    Meets Proc.stdout granted (roots.foldlM (classifyRoot sys false) .empty)
      (∃ root ∈ roots, rootHazards sys.fs root.text = none)
      fun b => b.items = roots.flatMap (rootFindings sys.fs) := by
  apply Meets.foldlM fun done (b : FindingBuffer) =>
    b.items = done.flatMap (rootFindings sys.fs)
  · intro pre root post b hroots hb
    apply (classifyRoot_meets hg (hlen root (by simp [hroots])) b).congr Iff.rfl
    intro _ b' hb'
    rw [hb', hb, List.flatMap_append, List.flatMap_singleton]
  · rfl

/-- The report on the texts of the roots, in order. -/
def rootReport (fs : FileSystem) (out : List UInt8) (texts : List CStr) : ℕ × List UInt8 :=
  reported out
    (texts.flatMap fun text => ((rootHazards fs text).getD []).map (⟨text, 0, ·⟩)) []

/-- The indexes of the findings are not printed. -/
theorem reported_rootFindings (fs : FileSystem) (out : List UInt8) (roots : List Root) :
    reported out (roots.flatMap (rootFindings fs)) [] =
      rootReport fs out (roots.map Root.text) := by
  have hpieces : (roots.flatMap (rootFindings fs)).flatMap findingPieces =
      ((roots.map Root.text).flatMap fun text =>
        ((rootHazards fs text).getD []).map (⟨text, 0, ·⟩ : HazardCode → Finding)).flatMap
          findingPieces := by
    rw [List.flatMap_map, List.flatMap_assoc, List.flatMap_assoc]
    congr 1
    funext root
    rw [rootFindings, List.flatMap_map, List.flatMap_map]
    rfl
  have hempty : roots.flatMap (rootFindings fs) = [] ↔
      ((roots.map Root.text).flatMap fun text =>
        ((rootHazards fs text).getD []).map (⟨text, 0, ·⟩ : HazardCode → Finding)) = [] := by
    simp only [List.flatMap_eq_nil_iff, List.forall_mem_map, rootFindings, List.map_eq_nil_iff]
  unfold rootReport reported
  rw [hpieces]
  simp only [hempty]

theorem emitPathReport_nil (findings : List Finding) :
    emitPathReport sys findings [] = (putAll sys (findings.flatMap findingPieces) >>= fun _ =>
      completeStdout sys (if findings = [] then 0 else 1)) := by
  simp only [emitPathReport, List.flatMap_nil, and_true]
  rfl

/-- The run over the sorted roots. -/
theorem runAudit_outcome (hg : sys.Granted) (qr : QSort compareRootsByBytesThenIndex)
    (qf : QSort compareFindings) {roots : List Root}
    (hlen : ∀ root ∈ roots, root.len = root.text.length) (hnodup : (roots.map Root.index).Nodup)
    (p : Proc W) :
    outcome (runAudit sys qr qf roots p) =
      if ∃ root ∈ roots, rootHazards sys.fs root.text = none then (2, p.stdout)
      else rootReport sys.fs p.stdout ((qr.sort roots).map Root.text) := by
  have hmeets : Meets Proc.stdout True ((qr.sort roots).foldlM (classifyRoot sys false) .empty)
      _ _ := auditFold_meets (fun _ => hg) fun root hroot => hlen root (qr.mem_sort.mp hroot)
  have hfails : (∃ root ∈ qr.sort roots, rootHazards sys.fs root.text = none) ↔
      ∃ root ∈ roots, rootHazards sys.fs root.text = none := by
    simp only [qr.mem_sort]
  have hsound := hmeets.sound p
  have htotal := fun hok => hmeets.total trivial hok p
  rw [hfails] at hsound htotal
  cases hfold : (qr.sort roots).foldlM (classifyRoot sys false) .empty p with
  | mk r p₁ =>
    rw [hfold] at hsound htotal
    have hkept : p₁.stdout = p.stdout := hsound.1
    cases r with
    | none =>
      rw [if_pos (by_contra fun hok => absurd (htotal hok) (by simp)), runAudit,
        outcome_bind_none hfold, hkept]
    | some b =>
      obtain ⟨hok, hitems⟩ := hsound.2 b rfl
      have hsorted := rootFindings_sorted sys.fs (qr.sorted roots)
        (((qr.perm roots).map Root.index).nodup_iff.mpr hnodup)
      have hsame : sortIfMany qf b.items = (qr.sort roots).flatMap (rootFindings sys.fs) := by
        rw [hitems]
        apply (sortIfMany_perm qf _).eq_of_pairwise _ (sortIfMany_sorted qf _) hsorted
        exact fun _ _ _ _ => compareFindings_antisymm
      rw [if_neg hok, runAudit, outcome_bind_some hfold, hsame, ← reported_rootFindings, ← hkept,
        ← emitPathReport_granted hg, emitPathReport_nil]

/-- The texts of the sorted roots do not depend on the order of the operands. -/
theorem sort_texts_of_perm (qr qr' : QSort compareRootsByBytesThenIndex) {roots roots' : List Root}
    (hp : (roots.map Root.text).Perm (roots'.map Root.text)) :
    (qr.sort roots).map Root.text = (qr'.sort roots').map Root.text := by
  have hsorted : ∀ (q : QSort compareRootsByBytesThenIndex) (l : List Root),
      ((q.sort l).map Root.text).Pairwise (· ≤ ·) := by
    intro q l
    rw [List.pairwise_map]
    apply (q.sorted l).imp
    intro a b hle
    rcases compareRoots_nonpos.mp hle with hlt | ⟨heq, -⟩
    · exact hlt.le
    · exact heq.le
  have hperm := ((qr.perm roots).map Root.text).trans
    (hp.trans ((qr'.perm roots').map Root.text).symm)
  apply hperm.eq_of_pairwise _ (hsorted qr roots) (hsorted qr' roots')
  exact fun _ _ _ _ => le_antisymm

/-- Why a run over explicit roots ends without a report. -/
def OperandsFail (fs : FileSystem) (operands : List CStr) : Prop :=
  operands = [] ∨ operands.length > maxRootCount ∨ BeyondLimits 0 operands ∨
    ∃ text ∈ operands, rootHazards fs text = none

theorem operandsFail_perm {fs : FileSystem} {operands operands' : List CStr}
    (hp : operands.Perm operands') : OperandsFail fs operands ↔ OperandsFail fs operands' := by
  have hnil : operands = [] ↔ operands' = [] := by
    rw [← List.length_eq_zero_iff, ← List.length_eq_zero_iff, hp.length_eq]
  simp only [OperandsFail, hnil, hp.length_eq, beyondLimits_perm hp, hp.mem_iff]

theorem numberedRoots_indexes (index : ℕ) (texts : List CStr) :
    ((numberedRoots index texts).map Root.index).Nodup := by
  rw [List.Nodup, List.pairwise_iff_getElem]
  intro i j hi hj hij
  simp only [numberedRoots, List.getElem_map, List.getElem_mapIdx]
  omega

/-- What a run over explicit roots comes to. -/
theorem runExplicitRoots_outcome (hg : sys.Granted) (qr : QSort compareRootsByBytesThenIndex)
    (qf : QSort compareFindings) (operands : List CStr) (p : Proc W) :
    (OperandsFail sys.fs operands →
      outcome (runExplicitRoots sys qr qf operands true p) = (2, p.stdout)) ∧
    (¬ OperandsFail sys.fs operands →
      outcome (runExplicitRoots sys qr qf operands true p) = rootReport sys.fs p.stdout
        ((qr.sort (numberedRoots 0 operands)).map Root.text)) := by
  unfold runExplicitRoots OperandsFail
  by_cases hnil : operands = []
  · rw [if_pos hnil]
    exact ⟨fun _ => rfl, fun h => absurd (.inl hnil) h⟩
  rw [if_neg hnil, if_neg (by simp)]
  by_cases hcount : operands.length > maxRootCount
  · rw [if_pos hcount]
    exact ⟨fun _ => rfl, fun h => absurd (.inr (.inl hcount)) h⟩
  rw [if_neg hcount]
  have hload : Meets Proc.stdout True
      (alloc sys >>= fun _ => (explicitRoots 0 0 operands : Run W (List Root)))
      (BeyondLimits 0 operands) (· = numberedRoots 0 operands) :=
    (alloc_meets sys fun _ => hg).andThen fun _ _ => explicitRoots_meets 0 0 operands (by decide)
  have hassoc : ∀ k : List Root → Run W ℕ,
      (alloc sys >>= fun _ => explicitRoots 0 0 operands >>= k) p =
        ((alloc sys >>= fun _ => explicitRoots 0 0 operands) >>= k) p := by
    intro k
    simp only [bind_apply]
    split <;> rfl
  rw [hassoc]
  have hsound := hload.sound p
  have htotal := fun hok => hload.total trivial hok p
  cases hrun : (alloc sys >>= fun _ => explicitRoots 0 0 operands) p with
  | mk r p₁ =>
    rw [hrun] at hsound htotal
    have hkept : p₁.stdout = p.stdout := hsound.1
    cases r with
    | none =>
      have hbeyond : BeyondLimits 0 operands := by_contra fun hok => absurd (htotal hok) (by simp)
      rw [outcome_bind_none hrun, hkept]
      exact ⟨fun _ => rfl, fun h => absurd (.inr (.inr (.inl hbeyond))) h⟩
    | some roots =>
      obtain ⟨hok, rfl⟩ := hsound.2 roots rfl
      have hbad : (∃ root ∈ numberedRoots 0 operands, rootHazards sys.fs root.text = none) ↔
          ∃ text ∈ operands, rootHazards sys.fs text = none := by
        conv_rhs => rw [← numberedRoots_texts 0 operands]
        simp only [List.mem_map, exists_exists_and_eq_and]
      rw [outcome_bind_some hrun, runAudit_outcome hg qr qf numberedRoots_len
        (numberedRoots_indexes 0 operands), hkept]
      simp only [hnil, hcount, hok, false_or, hbad]
      exact ⟨fun hf => if_pos hf, fun hf => if_neg hf⟩

/-- The order of the operands cannot be seen in the outcome. -/
theorem runExplicitRoots_perm (hg : sys.Granted) {operands operands' : List CStr}
    (hp : operands.Perm operands') (qr qr' : QSort compareRootsByBytesThenIndex)
    (qf qf' : QSort compareFindings) (p : Proc W) :
    outcome (runExplicitRoots sys qr' qf' operands' true p) =
      outcome (runExplicitRoots sys qr qf operands true p) := by
  obtain ⟨hbad, hgood⟩ := runExplicitRoots_outcome hg qr qf operands p
  obtain ⟨hbad', hgood'⟩ := runExplicitRoots_outcome hg qr' qf' operands' p
  by_cases hf : OperandsFail sys.fs operands
  · rw [hbad hf, hbad' ((operandsFail_perm hp).mp hf)]
  · rw [hgood hf, hgood' (mt (operandsFail_perm hp).mpr hf), sort_texts_of_perm qr' qr]
    rw [numberedRoots_texts, numberedRoots_texts]
    exact hp.symm

/-- With the signal action set up, `main` goes on to its mode. -/
theorem main_outcome_congr {sys' : Sys W} (hg : sys.Granted) (hsignal : sys'.signal = sys.signal)
    {mode mode' : Run W ℕ} (hmode : ∀ p, outcome (mode' p) = outcome (mode p)) (p : Proc W) :
    outcome ((Attempt.require (fun p => ((sys'.signal p.world).1,
        { p with world := (sys'.signal p.world).2 })) (emitDiagReason "SIGNAL_SETUP") >>=
          fun _ => mode') p) =
      outcome ((Attempt.require (fun p => ((sys.signal p.world).1,
        { p with world := (sys.signal p.world).2 })) (emitDiagReason "SIGNAL_SETUP") >>=
          fun _ => mode) p) := by
  have hready : ∀ p : Proc W, Attempt.require (fun p => ((sys.signal p.world).1,
      { p with world := (sys.signal p.world).2 })) (emitDiagReason "SIGNAL_SETUP") p =
        (some (), { p with world := (sys.signal p.world).2 }) :=
    fun p => require_eq_some.mpr ⟨hg.signal p.world, rfl⟩
  rw [hsignal, outcome_bind_some (hready p), outcome_bind_some (hready p), hmode]

/-- Neither the order in which the directories list their names nor the order of the
operands can be seen in the outcome of a run, whatever the sorts do with ties. -/
theorem main_order_independent (hg : sys.Granted) (h : Hashes) (pathEnv : Option CStr)
    (hlen : ∀ path ∈ pathEnv, ((components sys.fs path).flatMap (foundUnder sys)).length < 2 ^ 57)
    (qr qr' : QSort compareRootsByBytesThenIndex) (qf qf' : QSort compareFindings)
    (qs qs' : QSort compareShadows) (prog : CStr) (p : Proc W) :
    (∀ opendir, (∀ path, SameListing (sys.fs.opendir path) (opendir path)) →
      outcome (main (sys.withOpendir opendir) h qr' qf' qs' pathEnv [prog, .lit "--path"] p) =
        outcome (main sys h qr qf qs pathEnv [prog, .lit "--path"] p)) ∧
    ∀ operands operands' : List CStr, operands.Perm operands' →
      outcome (main sys h qr' qf' qs' pathEnv (prog :: .lit "--" :: operands') p) =
        outcome (main sys h qr qf qs pathEnv (prog :: .lit "--" :: operands) p) := by
  constructor
  · intro opendir hsame
    cases pathEnv with
    | none => exact main_outcome_congr hg rfl (fun p => rfl) p
    | some path =>
      exact main_outcome_congr hg rfl
        (runPathMode_withOpendir hg h (hlen path rfl) hsame qf qf' qs qs') p
  · intro operands operands' hp
    exact main_outcome_congr hg rfl (runExplicitRoots_perm hg hp qr qr' qf qf') p

/-- A sort for the comparator of roots, by its key. -/
def sortRoots : QSort compareRootsByBytesThenIndex :=
  .byKey (fun r => toLex (r.text, r.index)) fun _ _ => by
    rw [compareRoots_nonpos, Prod.Lex.toLex_le_toLex]

/-- Listings in two orders, and an operand given twice. -/
theorem main_order_independent_sample :
    outcome (main (Sample.sys.withOpendir fun _ => .ok ⟨[Sample.tool, .lit "..", .lit "."], none⟩)
        fnvHashes sortRoots sortFindings sortShadows (some Sample.pathEnv)
        [∅, .lit "--path"] Sample.start) =
      outcome (main Sample.sys fnvHashes sortRoots sortFindings sortShadows (some Sample.pathEnv)
        [∅, .lit "--path"] Sample.start) ∧
    outcome (main Sample.sys fnvHashes sortRoots sortFindings sortShadows (some Sample.pathEnv)
        [∅, .lit "--", .lit "/c", .lit "/a", .lit "/c"] Sample.start) =
      outcome (main Sample.sys fnvHashes sortRoots sortFindings sortShadows (some Sample.pathEnv)
        [∅, .lit "--", .lit "/a", .lit "/c", .lit "/c"] Sample.start) := by
  have hg : Sample.sys.Granted := ⟨fun _ => rfl, fun _ => rfl, fun _ => rfl, fun _ => rfl⟩
  have hlen : ∀ path ∈ some Sample.pathEnv,
      ((components Sample.sys.fs path).flatMap (foundUnder Sample.sys)).length < 2 ^ 57 := by
    rintro path hpath
    obtain rfl := Option.some.inj hpath
    decide +kernel
  have horder := main_order_independent hg fnvHashes (some Sample.pathEnv) hlen sortRoots
    sortRoots sortFindings sortFindings sortShadows sortShadows ∅ Sample.start
  exact ⟨horder.1 _ fun _ => ⟨by decide, rfl⟩, horder.2 _ _ (by decide)⟩

end Audit

end Pathaudit
