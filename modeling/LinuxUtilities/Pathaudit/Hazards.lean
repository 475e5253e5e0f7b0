import LinuxUtilities.Pathaudit.Duplicates

/-! Which hazards are among the findings of each mode, wherever they stand and whatever their
indexes. -/
namespace Pathaudit
open CString Attempt

/-- There is a finding with this code about this text. -/
def Tells (items : List Finding) (code : HazardCode) (text : CStr) : Prop :=
  ∃ index, (⟨text, index, code⟩ : Finding) ∈ items

/-- What is said afterwards is what was said before and what satisfies `P`. -/
def Adds (P : HazardCode → CStr → Prop) (b b' : FindingBuffer) : Prop :=
  ∀ code text, Tells b'.items code text ↔ Tells b.items code text ∨ P code text

theorem tells_nil (code : HazardCode) (text : CStr) : ¬ Tells [] code text :=
  fun ⟨_, hmem⟩ => List.not_mem_nil hmem

theorem tells_cons {f : Finding} {items : List Finding} {code : HazardCode} {text : CStr} :
    Tells (f :: items) code text ↔ (code = f.code ∧ text = f.root) ∨ Tells items code text := by
  constructor
  · rintro ⟨index, hmem⟩
    rcases List.mem_cons.mp hmem with rfl | hmem
    · exact .inl ⟨rfl, rfl⟩
    · exact .inr ⟨index, hmem⟩
  · rintro (⟨rfl, rfl⟩ | ⟨index, hmem⟩)
    · exact ⟨f.index, List.mem_cons_self⟩
    · exact ⟨index, .tail _ hmem⟩

theorem tells_append {items items' : List Finding} {code : HazardCode} {text : CStr} :
    Tells (items ++ items') code text ↔ Tells items code text ∨ Tells items' code text := by
  simp only [Tells, List.mem_append, exists_or]

theorem tells_perm {items items' : List Finding} (h : items.Perm items') {code : HazardCode}
    {text : CStr} : Tells items code text ↔ Tells items' code text := by
  simp only [Tells, h.mem_iff]

namespace Adds
variable {P Q : HazardCode → CStr → Prop} {b b' b'' : FindingBuffer}

theorem congr (h : Adds P b b') (hiff : ∀ code text, P code text ↔ Q code text) : Adds Q b b' :=
  fun code text => (h code text).trans (or_congr_right (hiff code text))

theorem same (hnone : ∀ code text, ¬ P code text) : Adds P b b :=
  fun code text => (or_iff_left (hnone code text)).symm

theorem trans (h : Adds P b b') (h' : Adds Q b' b'') :
    Adds (fun code text => P code text ∨ Q code text) b b'' := by
  intro code text
  rw [h' code text, h code text, or_assoc]

theorem of_append {items : List Finding} (h : b'.items = b.items ++ items)
    (hiff : ∀ code text, Tells items code text ↔ P code text) : Adds P b b' := by
  intro code text
  rw [h, tells_append, hiff]

end Adds

section Steps
variable {W : Type} (sys : Sys W)

/-- A loop adds what its passes add. -/
theorem foldlM_adds {α : Type} {step : FindingBuffer → α → Run W FindingBuffer}
    {P : α → HazardCode → CStr → Prop} {l : List α}
    (hstep : ∀ a ∈ l, ∀ b, Sound Proc.stdout (step b a) (Adds (P a) b)) (b : FindingBuffer) :
    Sound Proc.stdout (l.foldlM step b) (Adds (fun code text => ∃ a ∈ l, P a code text) b) := by
  apply Sound.foldlM fun done b' => Adds (fun code text => ∃ a ∈ done, P a code text) b b'
  · intro pre a post b' hl hb'
    apply (hstep a (by rw [hl]; simp) b').imp
    intro b'' hb''
    apply (hb'.trans hb'').congr
    intro code text
    simp only [List.mem_append, List.mem_singleton, or_and_right, exists_or, exists_eq_left]
  · exact Adds.same fun _ _ ⟨_, hmem, _⟩ => List.not_mem_nil hmem

theorem findingsAppend_adds (b : FindingBuffer) (root : CStr) (index : ℕ) (code : HazardCode) :
    Sound Proc.stdout (findingsAppend sys b root index code)
      (Adds (fun c t => c = code ∧ t = root) b) := by
  apply (findingsAppend_meets sys.promiseNothing b root index code).sound.imp
  rintro _ ⟨-, rfl⟩
  apply Adds.of_append (FindingBuffer.push_items b _)
  intro c t
  rw [tells_cons]
  exact or_iff_left (tells_nil c t)

theorem appendWhen_adds (cond : Bool) (b : FindingBuffer) (root : CStr) (index : ℕ)
    (code : HazardCode) :
    Sound Proc.stdout (appendWhen sys cond b root index code)
      (Adds (fun c t => cond = true ∧ c = code ∧ t = root) b) := by
  unfold appendWhen
  cases cond with
  | true =>
    apply (findingsAppend_adds sys b root index code).imp
    intro b' hb'
    exact hb'.congr fun c t => by simp
  | false => exact Sound.pure (Adds.same fun _ _ h => by simp at h)

/-- Noting an owner changes at most an index. -/
theorem tells_noteIndex (dir : CStr) (index : ℕ) (items : List Finding) (code : HazardCode)
    (text : CStr) :
    Tells ((noteIndex dir index items).getD (items ++ [⟨dir, index, .unsafeOwner⟩])) code text ↔
      Tells items code text ∨ code = .unsafeOwner ∧ text = dir := by
  induction items with
  | nil =>
    show Tells [⟨dir, index, .unsafeOwner⟩] code text ↔ _
    rw [tells_cons, or_comm]
  | cons f fs ih =>
    unfold noteIndex
    split
    next hsame =>
      obtain ⟨hcode, hroot⟩ := hsame
      have hroot := cmpUnsignedBytes_eq_zero.mp hroot
      have hkept : ∀ g : Finding, g.code = f.code → g.root = f.root →
          (Tells (g :: fs) code text ↔
            Tells (f :: fs) code text ∨ code = .unsafeOwner ∧ text = dir) := by
        intro g hgcode hgroot
        rw [tells_cons, tells_cons, hgcode, hgroot, hcode, hroot]
        tauto
      rw [Option.getD_some]
      split
      · exact hkept _ rfl rfl
      · exact hkept f rfl rfl
    next =>
      cases hnote : noteIndex dir index fs with
      | some items' =>
        rw [hnote, Option.getD_some] at ih
        rw [Option.map_some, Option.getD_some, tells_cons, tells_cons, ih, or_assoc]
      | none =>
        rw [hnote, Option.getD_none] at ih
        rw [Option.map_none, Option.getD_none, List.cons_append, tells_cons, tells_cons, ih,
          or_assoc]

theorem auditAncestor_adds (index : ℕ) (b : FindingBuffer) (dir : CStr) :
    Sound Proc.stdout (auditAncestor sys index b dir)
      (Adds (fun c t => (c = .unsafeOwner ∧ t = dir) ∧ FaultyOwner sys.fs dir) b) := by
  unfold auditAncestor
  cases hst : sys.fs.stat dir with
  | error err =>
    refine Sound.pure (Adds.same fun c t hfaulty => ?_)
    obtain ⟨-, st, hst', -⟩ := hfaulty
    rw [hst] at hst'
    contradiction
  | ok st =>
    dsimp only
    split_ifs with htrusted
    · refine Sound.pure (Adds.same fun c t hfaulty => ?_)
      obtain ⟨-, st', hst', hzero, huser⟩ := hfaulty
      obtain rfl := Except.ok.inj (hst.symm.trans hst')
      simp [ownerUidIsTrusted, hzero, huser] at htrusted
    · have hfaulty : FaultyOwner sys.fs dir :=
        ⟨st, hst, by simpa [ownerUidIsTrusted] using htrusted⟩
      have hnoted := tells_noteIndex dir index b.items
      unfold findingsNoteUnsafeOwner
      cases hnote : noteIndex dir index b.items with
      | some items =>
        refine Sound.pure fun c t => ?_
        rw [hnote, Option.getD_some] at hnoted
        simp only [hnoted c t, hfaulty, and_true]
      | none =>
        apply (findingsAppend_adds sys b dir index .unsafeOwner).imp
        intro b' hb'
        exact hb'.congr fun c t => by simp only [hfaulty, and_true]

/-- A directory on the way to the real directory of a path, or that directory. -/
def OnWay (fs : FileSystem) (path dir : CStr) : Prop :=
  isDirectory fs path ∧ ∃ resolved, fs.realpath path = .ok resolved ∧ Above dir resolved

theorem appendDirectoryChainOwnership_adds (hreal : CanonicalPaths sys.fs) (path : CStr)
    (index : ℕ) (b : FindingBuffer) :
    Sound Proc.stdout (appendDirectoryChainOwnership sys path index b)
      (Adds (fun c t => c = .unsafeOwner ∧ FaultyOwner sys.fs t ∧ OnWay sys.fs path t) b) := by
  unfold appendDirectoryChainOwnership
  apply (alloc_meets sys sys.promiseNothing).sound.bind
  intro _ _
  cases hpath : sys.fs.realpath path with
  | error err =>
    dsimp only
    split_ifs with hmem
    · exact Sound.fail fun _ => rfl
    · refine Sound.pure (Adds.same fun c t hway => ?_)
      obtain ⟨-, -, -, resolved, hresolved, -⟩ := hway
      rw [hpath] at hresolved
      contradiction
  | ok resolved =>
    have hsame := hreal.same _ _ hpath
    have hnone : ¬ isDirectory sys.fs path → ∀ c t, ¬ (c = HazardCode.unsafeOwner ∧
        FaultyOwner sys.fs t ∧ OnWay sys.fs path t) :=
      fun hdir _ _ hway => hdir hway.2.2.1
    dsimp only
    cases hst : sys.fs.stat resolved with
    | error err =>
      refine Sound.pure (Adds.same (hnone ?_))
      rintro ⟨st, hst', -⟩
      rw [← hsame, hst] at hst'
      contradiction
    | ok st =>
      dsimp only
      split_ifs with hkind
      · refine Sound.pure (Adds.same (hnone ?_))
        rintro ⟨st', hst', hkind'⟩
        rw [← hsame, hst] at hst'
        obtain rfl := Except.ok.inj hst'
        exact hkind hkind'
      · have hdir : isDirectory sys.fs path := ⟨st, hsame ▸ hst, not_not.mp hkind⟩
        have habove : ∀ t, t ∈ ancestorChain resolved.length resolved ↔ Above t resolved :=
          (ancestorChain_walksUp (hreal.absolute _ _ hpath) le_rfl).mem
        apply (foldlM_adds (fun dir _ b => auditAncestor_adds sys index b dir) b).imp
        intro b' hb'
        apply hb'.congr
        intro c t
        constructor
        · rintro ⟨dir, hmem, ⟨rfl, rfl⟩, hfaulty⟩
          exact ⟨rfl, hfaulty, hdir, resolved, hpath, (habove t).mp hmem⟩
        · rintro ⟨rfl, hfaulty, -, resolved', hresolved, hon⟩
          obtain rfl := Except.ok.inj (hpath.symm.trans hresolved)
          exact ⟨t, (habove t).mpr hon, ⟨rfl, rfl⟩, hfaulty⟩

/-- The hazards of a match itself. -/
def TrustHazard (m : CommandMatch) (code : HazardCode) (text : CStr) : Prop :=
  text = m.path ∧ (groupWritable m.mode ∧ code = .groupWritable ∨
    worldWritable m.mode ∧ code = .worldWritable ∨
      ¬ ownerUidIsTrusted sys m.owner ∧ code = .unsafeOwner)

theorem tells_trustFindings (index : ℕ) (m : CommandMatch) (code : HazardCode) (text : CStr) :
    Tells (trustFindings sys index m) code text ↔ TrustHazard sys m code text := by
  constructor
  · rintro ⟨i, hmem⟩
    obtain ⟨hroot, -, hcode⟩ := mem_trustFindings.mp hmem
    exact ⟨hroot, hcode⟩
  · rintro ⟨hroot, hcode⟩
    exact ⟨index, mem_trustFindings.mpr ⟨hroot, rfl, hcode⟩⟩

/-- The hazards of a component itself. -/
def OwnHazard (fs : FileSystem) (text : CStr) (code : HazardCode) : Prop :=
  code ∈ (rootHazards fs text).getD []

theorem tells_rootFindings (fs : FileSystem) (root : Root) (code : HazardCode) (text : CStr) :
    Tells (rootFindings fs root) code text ↔ text = root.text ∧ OwnHazard fs root.text code := by
  constructor
  · rintro ⟨index, hmem⟩
    obtain ⟨code', hcode', heq⟩ := List.mem_map.mp hmem
    obtain ⟨rfl, -, rfl⟩ := Finding.mk.inj heq
    exact ⟨rfl, hcode'⟩
  · rintro ⟨rfl, hcode⟩
    exact ⟨root.index, List.mem_map.mpr ⟨code, hcode, rfl⟩⟩

/-- The hazards of a searched directory by the owners on the way to it. -/
def OwnerHazard (fs : FileSystem) (path : CStr) (code : HazardCode) (text : CStr) : Prop :=
  code = .unsafeOwner ∧ FaultyOwner fs text ∧ OnWay fs path text

theorem classifyRoot_adds (hreal : CanonicalPaths sys.fs) {root : Root}
    (hlen : root.len = root.text.length) (b : FindingBuffer) :
    Sound Proc.stdout (classifyRoot sys true b root)
      (Adds (fun c t => (t = root.text ∧ OwnHazard sys.fs root.text c) ∨
        root.text ≠ ∅ ∧ OwnerHazard sys.fs root.text c t) b) := by
  have hblind : Sound Proc.stdout (classifyRoot sys false b root)
      (Adds (fun c t => t = root.text ∧ OwnHazard sys.fs root.text c) b) := by
    apply (classifyRoot_meets sys.promiseNothing hlen b).sound.imp
    rintro b' ⟨-, hitems⟩
    exact Adds.of_append hitems (tells_rootFindings sys.fs root)
  by_cases h : Usable sys.fs root
  · rw [classifyRoot_usable sys b hlen h]
    apply hblind.bind
    intro b₁ hb₁
    apply (appendDirectoryChainOwnership_adds sys hreal root.text root.index b₁).imp
    intro b' hb'
    apply (hb₁.trans hb').congr
    intro c t
    exact or_congr_right (iff_and_self.mpr fun _ => h.named)
  · rw [classifyRoot_unusable sys b hlen h]
    apply hblind.imp
    intro b' hb'
    apply hb'.congr
    intro c t
    exact (or_iff_left fun hway => h ⟨hway.1, hway.2.2.2.1⟩).symm

/-- The hazards that `--path` reports of some components. -/
def PathHazard (roots : List Root) (code : HazardCode) (text : CStr) : Prop :=
  (∃ root ∈ roots, text = root.text ∧ OwnHazard sys.fs root.text code) ∨
    (∃ root ∈ roots, root.text ≠ ∅ ∧ OwnerHazard sys.fs root.text code text) ∨
      ∃ f ∈ roots.flatMap (foundUnder sys), TrustHazard sys f.target code text

theorem auditPath_tells (hreal : CanonicalPaths sys.fs) (h : Hashes) (pathEnv : CStr) :
    Sound Proc.stdout (auditPath sys h (some pathEnv)) fun s =>
      (∀ code text, Tells s.findings.items code text ↔
        PathHazard sys (components sys.fs pathEnv) code text) ∧
      s.tables.shadows.items = collect shadowAfter
        (((components sys.fs pathEnv).flatMap (foundUnder sys)).map Found.hit) := by
  have hclassify : Sound Proc.stdout (classifyPath sys (some pathEnv)) fun classified =>
      classified.1 = components sys.fs pathEnv ∧
        Adds (fun c t => ∃ root ∈ components sys.fs pathEnv,
          (t = root.text ∧ OwnHazard sys.fs root.text c) ∨
            root.text ≠ ∅ ∧ OwnerHazard sys.fs root.text c t) .empty classified.2 := by
    unfold classifyPath
    apply (pathComponentsLoad_sound sys pathEnv).bind
    rintro _ rfl
    apply (foldlM_adds (fun root hroot b => classifyRoot_adds sys hreal
      (components_len sys.fs pathEnv root hroot) b) .empty).bind
    intro b hb
    exact Sound.pure ⟨rfl, hb⟩
  unfold auditPath
  apply hclassify.bind
  rintro classified ⟨hroots, hadds⟩
  rw [hroots]
  have hscan := @scanPath_meets W sys False h sys.promiseNothing (components sys.fs pathEnv)
    classified.2 False.elim
  apply hscan.sound.imp
  rintro s ⟨-, hs⟩
  refine ⟨fun code text => ?_, hs.tables.holds.shadows⟩
  have hfound : Tells (((components sys.fs pathEnv).flatMap (foundUnder sys)).flatMap fun f =>
      trustFindings sys f.index f.target) code text ↔
        ∃ f ∈ (components sys.fs pathEnv).flatMap (foundUnder sys),
          TrustHazard sys f.target code text := by
    constructor
    · rintro ⟨index, hmem⟩
      obtain ⟨f, hf, hmem⟩ := List.mem_flatMap.mp hmem
      exact ⟨f, hf, (tells_trustFindings sys f.index f.target code text).mp ⟨index, hmem⟩⟩
    · rintro ⟨f, hf, htrust⟩
      obtain ⟨index, hmem⟩ := (tells_trustFindings sys f.index f.target code text).mpr htrust
      exact ⟨index, List.mem_flatMap.mpr ⟨f, hf, hmem⟩⟩
  rw [hs.findings, tells_append, hfound, hadds code text,
    or_iff_right (show ¬ Tells FindingBuffer.empty.items code text from tells_nil code text)]
  simp only [PathHazard, and_or_left, exists_or, or_assoc]

/-- Of the hazards of a component itself, those that `--command` reports. -/
def TellsCommand (permissionApplicable : Bool) (text : CStr) : HazardCode → Prop
  | .missingRoot | .nonDirectoryRoot => text.bytes.head? ≠ some 47
  | .groupWritable | .worldWritable => permissionApplicable = true
  | _ => True

/-- The directory that is searched for a component. -/
def searched (text : CStr) : CStr := if text = ∅ then .lit "." else text

/-- The hazards that `--command` reports of a component. -/
def ComponentHazard (fs : FileSystem) (permissionApplicable : Bool) (root : CStr)
    (code : HazardCode) (text : CStr) : Prop :=
  (text = root ∧ OwnHazard fs root code ∧ TellsCommand permissionApplicable root code) ∨
    permissionApplicable = true ∧ OwnerHazard fs (searched root) code text

theorem mem_codesWhen {cond : Bool} {code c : HazardCode} :
    c ∈ codesWhen cond code ↔ cond = true ∧ c = code := by
  cases cond <;> simp [codesWhen]

theorem ownHazard_iff {fs : FileSystem} {root : Root} (hne : root.len ≠ 0) (hempty : root.text ≠ ∅)
    {codes : List HazardCode} (hcodes : lookupHazards (fs.stat root.text) = some codes)
    (code : HazardCode) : OwnHazard fs root.text code ↔
      (rootIsCwdDependent root = true ∧ code = .relativeRoot) ∨ code ∈ codes := by
  have hrelative : rootIsCwdDependent root = decide (root.text.bytes.head? ≠ some 47) := by
    simp [rootIsCwdDependent, hne]
  rw [OwnHazard, rootHazards, if_neg hempty, hcodes, Option.map_some, Option.getD_some,
    List.mem_append, ← hrelative, mem_codesWhen]

variable (hreal : CanonicalPaths sys.fs)

include hreal in
theorem searchedWalk_adds (permissionApplicable : Bool) (root : CStr) (index : ℕ)
    (b : FindingBuffer) :
    Sound Proc.stdout
      (if permissionApplicable then appendDirectoryChainOwnership sys (searched root) index b
        else pure b)
      (Adds (fun c t =>
        permissionApplicable = true ∧ OwnerHazard sys.fs (searched root) c t) b) := by
  cases permissionApplicable with
  | true =>
    apply (appendDirectoryChainOwnership_adds sys hreal _ index b).imp
    intro b' hb'
    exact hb'.congr fun c t => by simp [OwnerHazard]
  | false => exact Sound.pure (Adds.same fun _ _ h => Bool.noConfusion h.1)

/-- A component that is no directory. -/
theorem blindComponent_adds {root : Root} (hne : root.len ≠ 0) (hempty : root.text ≠ ∅)
    {code : HazardCode} (hcode : code = .missingRoot ∨ code = .nonDirectoryRoot)
    (hlookup : lookupHazards (sys.fs.stat root.text) = some [code])
    (hdir : ¬ isDirectory sys.fs root.text) (permissionApplicable : Bool) (b : FindingBuffer) :
    Sound Proc.stdout (do
        let b ← appendWhen sys (rootIsCwdDependent root) b root.text root.index .relativeRoot
        appendWhen sys (rootIsCwdDependent root) b root.text root.index code)
      (Adds (ComponentHazard sys.fs permissionApplicable root.text) b) := by
  apply (appendWhen_adds sys _ b root.text root.index .relativeRoot).bind
  intro b₁ hb₁
  apply (appendWhen_adds sys _ b₁ root.text root.index code).imp
  intro b' hb'
  apply (hb₁.trans hb').congr
  intro c t
  have hnot : ¬ OwnerHazard sys.fs (searched root.text) c t := by
    rw [searched, if_neg hempty]
    exact fun hway => hdir hway.2.2.1
  have htells : TellsCommand permissionApplicable root.text code ↔
      rootIsCwdDependent root = true := by
    have hrelative : rootIsCwdDependent root = true ↔ root.text.bytes.head? ≠ some 47 := by
      simp [rootIsCwdDependent, hne]
    rw [hrelative]
    rcases hcode with rfl | rfl <;> rfl
  rw [ComponentHazard, ownHazard_iff hne hempty hlookup c, List.mem_singleton]
  constructor
  · rintro (⟨hrel, rfl, rfl⟩ | ⟨hrel, rfl, rfl⟩)
    · exact .inl ⟨rfl, .inl ⟨hrel, rfl⟩, trivial⟩
    · exact .inl ⟨rfl, .inr rfl, htells.mpr hrel⟩
  · rintro (⟨rfl, ⟨hrel, rfl⟩ | rfl, htell⟩ | ⟨-, hway⟩)
    · exact .inl ⟨hrel, rfl, rfl⟩
    · exact .inr ⟨htells.mp htell, rfl, rfl⟩
    · exact absurd hway hnot

theorem appendWritability_adds (path : CStr) (index mode : ℕ) (b : FindingBuffer) :
    Sound Proc.stdout (appendWritability sys path index mode b)
      (Adds (fun c t => t = path ∧ c ∈ codesWhen (groupWritable mode) .groupWritable ++
        codesWhen (worldWritable mode) .worldWritable) b) := by
  apply (appendWhen_adds sys _ b path index .groupWritable).bind
  intro b₁ hb₁
  apply (appendWhen_adds sys _ b₁ path index .worldWritable).imp
  intro b' hb'
  apply (hb₁.trans hb').congr
  intro c t
  rw [List.mem_append, mem_codesWhen, mem_codesWhen]
  tauto

include hreal in
/-- A component that is a directory. -/
theorem directoryComponent_adds {root : Root} (hne : root.len ≠ 0) (hempty : root.text ≠ ∅)
    {st : Stat} (hst : sys.fs.stat root.text = .ok st) (hkind : st.kind = .directory)
    (permissionApplicable : Bool) (b : FindingBuffer) :
    Sound Proc.stdout (do
        let b ← appendWhen sys (rootIsCwdDependent root) b root.text root.index .relativeRoot
        if permissionApplicable then do
          let b ← appendWritability sys root.text root.index st.mode b
          appendDirectoryChainOwnership sys root.text root.index b
        else pure b)
      (Adds (ComponentHazard sys.fs permissionApplicable root.text) b) := by
  have hlookup : lookupHazards (sys.fs.stat root.text) = some (codesWhen (groupWritable st.mode)
      .groupWritable ++ codesWhen (worldWritable st.mode) .worldWritable) := by
    simp [hst, lookupHazards, hkind]
  have hown := ownHazard_iff hne hempty hlookup
  have htells (c : HazardCode) : c ∈ codesWhen (groupWritable st.mode) .groupWritable ++
      codesWhen (worldWritable st.mode) .worldWritable →
        (TellsCommand permissionApplicable root.text c ↔ permissionApplicable = true) := by
    rw [List.mem_append, mem_codesWhen, mem_codesWhen]
    rintro (⟨-, rfl⟩ | ⟨-, rfl⟩) <;> rfl
  apply (appendWhen_adds sys _ b root.text root.index .relativeRoot).bind
  intro b₁ hb₁
  cases permissionApplicable with
  | false =>
    refine Sound.pure (hb₁.congr fun c t => ?_)
    rw [ComponentHazard, hown c]
    constructor
    · rintro ⟨hrel, rfl, rfl⟩
      exact .inl ⟨rfl, .inl ⟨hrel, rfl⟩, trivial⟩
    · rintro (⟨rfl, ⟨hrel, rfl⟩ | hmem, htell⟩ | ⟨happlicable, -⟩)
      · exact ⟨hrel, rfl, rfl⟩
      · exact absurd ((htells c hmem).mp htell) Bool.noConfusion
      · exact absurd happlicable Bool.noConfusion
  | true =>
    have hwalk := searchedWalk_adds sys hreal true root.text root.index
    rw [searched, if_neg hempty] at hwalk
    apply (appendWritability_adds sys root.text root.index st.mode b₁).bind
    intro b₂ hb₂
    apply (hwalk b₂).imp
    intro b' hb'
    apply ((hb₁.trans hb₂).trans hb').congr
    intro c t
    rw [ComponentHazard, hown c, searched, if_neg hempty]
    refine or_congr_left ?_
    constructor
    · rintro (⟨hrel, rfl, rfl⟩ | ⟨rfl, hmem⟩)
      · exact ⟨rfl, .inl ⟨hrel, rfl⟩, trivial⟩
      · exact ⟨rfl, .inr hmem, (htells c hmem).mpr rfl⟩
    · rintro ⟨rfl, ⟨hrel, rfl⟩ | hmem, -⟩
      · exact .inl ⟨hrel, rfl, rfl⟩
      · exact .inr ⟨rfl, hmem⟩

include hreal in
theorem classifyCommandComponent_adds {root : Root} (hlen : root.len = root.text.length)
    (permissionApplicable : Bool) (b : FindingBuffer) :
    Sound Proc.stdout (classifyCommandComponent sys root permissionApplicable b)
      (Adds (ComponentHazard sys.fs permissionApplicable root.text) b) := by
  unfold classifyCommandComponent
  by_cases hempty : root.text = ∅
  · have hzero : root.len = 0 := by
      rw [hlen, hempty]
      rfl
    have hdot : searched root.text = .lit "." := by rw [searched, if_pos hempty]
    rw [if_pos hzero, ← hdot]
    apply (findingsAppend_adds sys b root.text root.index .emptyRoot).bind
    intro b₁ hb₁
    apply (searchedWalk_adds sys hreal permissionApplicable root.text root.index b₁).imp
    intro b' hb'
    apply (hb₁.trans hb').congr
    intro c t
    have hown : OwnHazard sys.fs root.text c ↔ c = .emptyRoot := by
      simp [OwnHazard, rootHazards, hempty]
    rw [ComponentHazard, hown]
    refine or_congr_left ?_
    constructor
    · rintro ⟨rfl, rfl⟩
      exact ⟨rfl, rfl, trivial⟩
    · rintro ⟨rfl, rfl, -⟩
      exact ⟨rfl, rfl⟩
  · have hne : root.len ≠ 0 := Root.NonEmpty.len_ne_zero ⟨hlen, hempty⟩
    rw [if_neg hne]
    cases hst : sys.fs.stat root.text with
    | error err =>
      have hdir : ¬ isDirectory sys.fs root.text := by simp [isDirectory, hst]
      dsimp only
      split_ifs with hnone hnot
      · have hlookup : lookupHazards (.error err) = some [.missingRoot] := if_pos hnone
        exact blindComponent_adds sys hne hempty (.inl rfl) (hst ▸ hlookup) hdir _ b
      · have hlookup : lookupHazards (.error err) = some [.nonDirectoryRoot] :=
          (if_neg hnone).trans (if_pos hnot)
        exact blindComponent_adds sys hne hempty (.inr rfl) (hst ▸ hlookup) hdir _ b
      · apply (appendWhen_adds sys _ b root.text root.index .relativeRoot).bind
        intro _ _
        exact Sound.fail fun _ => rfl
    | ok st =>
      dsimp only
      by_cases hkind : st.kind = .directory
      · simp only [hkind, ne_eq, not_true_eq_false, if_false]
        exact directoryComponent_adds sys hreal hne hempty hst hkind permissionApplicable b
      · simp only [hkind, ne_eq, not_false_eq_true, if_true]
        exact blindComponent_adds sys hne hempty (.inr rfl) (by simp [hst, lookupHazards, hkind])
          (by simp [isDirectory, hst, hkind]) permissionApplicable b

/-- The component of `root`, behind the components `pre`, reports a hazard. -/
def QueryHazard (command : CStr) (pre : List Root) (root : Root) (code : HazardCode)
    (text : CStr) : Prop :=
  ComponentHazard sys.fs
      (!(pre.any fun r => (commandMatch sys.fs r command).isSome) ||
        (commandMatch sys.fs root command).isSome) root.text code text ∨
    ∃ m, commandMatch sys.fs root command = some m ∧ TrustHazard sys m code text

/-- The hazards that `--command` reports: permissions are looked at up to the first component
with a match, and of the components with further matches. -/
def CommandHazard (command : CStr) (roots : List Root) (code : HazardCode) (text : CStr) : Prop :=
  ∃ pre root post, roots = pre ++ root :: post ∧ QueryHazard sys command pre root code text

theorem exists_split_concat {α : Type} {l : List α} {e : α} {Q : List α → α → Prop} :
    (∃ pre a post, l ++ [e] = pre ++ a :: post ∧ Q pre a) ↔
      (∃ pre a post, l = pre ++ a :: post ∧ Q pre a) ∨ Q l e := by
  constructor
  · rintro ⟨pre, a, post, heq, hq⟩
    cases post using List.reverseRecOn with
    | nil =>
      obtain ⟨rfl, hae⟩ := List.append_inj' heq rfl
      obtain rfl := List.singleton_inj.mp hae
      exact .inr hq
    | append_singleton post b =>
      rw [← List.cons_append, ← List.append_assoc] at heq
      obtain ⟨rfl, -⟩ := List.append_inj' heq rfl
      exact .inl ⟨pre, a, post, rfl, hq⟩
  · rintro (⟨pre, a, post, rfl, hq⟩ | hq)
    · exact ⟨pre, a, post ++ [e], by simp, hq⟩
    · exact ⟨l, e, [], rfl, hq⟩

/-- What the loop of `--command` has after some components. -/
structure Query.Told (command : CStr) (done : List Root) (s : Query) : Prop where
  seen : s.seenMatch = done.any fun r => (commandMatch sys.fs r command).isSome
  told : ∀ code text, Tells s.findings.items code text ↔ CommandHazard sys command done code text

include hreal in
theorem queryRoot_told {command : CStr} (hslash : 47 ∉ command.bytes) {done : List Root}
    {root : Root} (hlen : root.len = root.text.length) {s : Query} (hs : s.Told sys command done) :
    Sound Proc.stdout (queryRoot sys command s root) (Query.Told sys command (done ++ [root])) := by
  have hsplit (b : FindingBuffer) (P : HazardCode → CStr → Prop) (hadds : Adds P s.findings b)
      (hiff : ∀ c t, P c t ↔ QueryHazard sys command done root c t) (code : HazardCode)
      (text : CStr) :
      Tells b.items code text ↔ CommandHazard sys command (done ++ [root]) code text := by
    rw [CommandHazard, exists_split_concat, hadds code text, hs.told, hiff]
    rfl
  unfold queryRoot
  apply (tryCommandMatch_meets sys.promiseNothing root hslash).sound.bind
  rintro found ⟨-, hfound⟩
  cases found with
  | none =>
    apply (classifyCommandComponent_adds sys hreal hlen _ s.findings).bind
    intro b hb
    refine Sound.pure ⟨?_, hsplit b _ hb fun c t => ?_⟩
    · simp [hs.seen, ← hfound]
    · simp [QueryHazard, ← hfound, hs.seen]
  | some m =>
    apply (classifyCommandComponent_adds sys hreal hlen true s.findings).bind
    intro b hb
    apply (appendExecutableTrustFindings_meets sys.promiseNothing m root.index b).sound.bind
    rintro b' ⟨-, hb'⟩
    have htrust := hb.trans (Adds.of_append hb' (tells_trustFindings sys root.index m))
    apply (matchesAppend_sound s.found m.path).bind
    intro paths _
    refine Sound.pure ⟨?_, hsplit b' _ htrust fun c t => ?_⟩
    · simp [← hfound]
    · simp [QueryHazard, ← hfound]

include hreal in
theorem queryPath_told {command : CStr} (hslash : 47 ∉ command.bytes) {roots : List Root}
    (hlen : ∀ root ∈ roots, root.len = root.text.length) :
    Sound Proc.stdout (queryPath sys command roots) (Query.Told sys command roots) := by
  apply Sound.foldlM fun done s => Query.Told sys command done s
  · intro pre root post s hroots hs
    exact queryRoot_told sys hreal hslash (hlen root (by rw [hroots]; simp)) hs
  · refine ⟨rfl, fun code text => ?_⟩
    rw [CommandHazard]
    simp [Tells, FindingBuffer.empty]

end Steps

end Pathaudit
