import LinuxUtilities.Pathaudit.Ownership

/-! When `--path` has the same finding twice. -/
namespace Pathaudit
open CString Attempt LeastIndex

/-- What the scan has for one entry of a component. -/
def entryMatch (fs : FileSystem) (root : Root) (name : CStr) : Option CommandMatch :=
  if skippedName name then none else commandMatch fs root name

/-- A match with a finding. -/
def Hazardous {W : Type} (sys : Sys W) (m : CommandMatch) : Prop :=
  groupWritable m.mode ∨ worldWritable m.mode ∨ ¬ ownerUidIsTrusted sys m.owner

/-- No two entries of the component are one executable with a finding. -/
def HazardsOnce {W : Type} (sys : Sys W) (root : Root) : Prop :=
  ∀ listing, listingOf sys.fs root = some listing → listing.names.Pairwise fun a b =>
    ∀ m m', entryMatch sys.fs root a = some m → entryMatch sys.fs root b = some m' →
      m.path = m'.path → ¬ Hazardous sys m

section Directories
variable {fs : FileSystem}

/-- The root directory, or a path without an empty name in it. -/
def noExtraSlashes (path : CStr) : Prop :=
  path ≠ .lit "/" → ¬ [47, 47] <:+: path.bytes ∧ path.bytes.getLast? ≠ some 47

/-- The parent of a directory is one. -/
theorem isDirectory_parent {path parent : CStr} (habs : isAbsolute path)
    (hslashes : noExtraSlashes path) (hdir : isDirectory fs path)
    (h : pathTruncateToParent path = some parent) :
    noExtraSlashes parent ∧ isDirectory fs parent := by
  have hroot : path ≠ .lit "/" := by
    rintro rfl
    contradiction
  obtain ⟨hdouble, hend⟩ := hslashes hroot
  obtain ⟨init, name, hbytes, hname, htrunc⟩ := pathTruncateToParent_absolute habs hroot
  obtain rfl := Option.some.inj (h.symm.trans htrunc)
  obtain ⟨st, hst, -⟩ := hdir
  have hname0 : (0 : UInt8) ∉ name := by
    intro hmem
    exact path.nulFree (by rw [hbytes]; simp [hmem])
  have hne : (⟨name, hname0⟩ : CStr) ≠ ∅ := by
    intro hempty
    obtain rfl : name = [] := congrArg CStr.bytes hempty
    exact hend (by rw [hbytes]; simp)
  by_cases hinit : init = []
  · rw [if_pos hinit]
    subst hinit
    refine ⟨fun hnot => absurd rfl hnot, ?_⟩
    have hchild : childPath (.lit "/") ⟨name, hname0⟩ = path := by
      apply CStr.ext
      rw [childPath, if_neg (by decide), hbytes]
      rfl
    rw [← hchild] at hst
    exact fs.stat_child (.lit "/") ⟨name, hname0⟩ st (by decide) hne hname hst
  · rw [if_neg hinit]
    have hinit0 : (0 : UInt8) ∉ init := by
      intro hmem
      exact path.nulFree (by rw [hbytes]; exact List.mem_append_left _ hmem)
    have hparent : (CStr.ofBytes init).bytes = init := CStr.ofBytes_bytes hinit0
    have hlast : init.getLast? ≠ some 47 := by
      intro hlast
      obtain ⟨front, rfl⟩ := List.getLast?_eq_some_iff.mp hlast
      exact hdouble ⟨front, name, by rw [hbytes]; simp⟩
    constructor
    · intro _
      rw [hparent]
      refine ⟨fun hinfix => hdouble ?_, hlast⟩
      rw [hbytes]
      exact hinfix.trans (List.prefix_append _ _).isInfix
    · have hchild : childPath (.ofBytes init) ⟨name, hname0⟩ = path := by
        apply CStr.ext
        rw [childPath, if_pos (by rwa [hparent]), hbytes]
        simp only [CStr.append_bytes, hparent, List.append_assoc]
        rfl
      rw [← hchild] at hst
      refine fs.stat_child (.ofBytes init) ⟨name, hname0⟩ st (fun hempty => hinit ?_) hne hname hst
      rw [← hparent, hempty]
      rfl

/-- What is above a real directory is a directory. -/
theorem isDirectory_above (hreal : CanonicalPaths fs) {root : Root} {dir : CStr}
    (h : Reaches fs root dir) : isDirectory fs dir := by
  obtain ⟨⟨-, st, hst, hkind⟩, resolved, hresolved, habove⟩ := h
  have habs := hreal.absolute _ _ hresolved
  rw [← (ancestorChain_walksUp habs le_rfl).mem] at habove
  have hgood : ∀ dir ∈ ancestorChain resolved.length resolved,
      isAbsolute dir ∧ noExtraSlashes dir ∧ isDirectory fs dir := by
    apply ancestorChain_forall
    · rintro path parent ⟨habs, hslashes, hdir⟩ htrunc
      exact ⟨(parent_spec habs htrunc).1, isDirectory_parent habs hslashes hdir htrunc⟩
    · exact ⟨habs, hreal.slashes _ _ hresolved, st, (hreal.same _ _ hresolved).trans hst, hkind⟩
  exact (hgood dir habove).2.2

end Directories

theorem findingsWhen_nodup (cond : Bool) (root : CStr) (index : ℕ) (code : HazardCode) :
    (findingsWhen cond root index code).Nodup := by
  cases cond <;> simp [findingsWhen]

theorem mem_findingsWhen {cond : Bool} {root : CStr} {index : ℕ} {code : HazardCode}
    {f : Finding} :
    f ∈ findingsWhen cond root index code ↔ cond = true ∧ f = ⟨root, index, code⟩ := by
  cases cond <;> simp [findingsWhen]

section Executables
variable {W : Type} {sys : Sys W}

theorem mem_trustFindings {index : ℕ} {m : CommandMatch} {f : Finding} :
    f ∈ trustFindings sys index m ↔ f.root = m.path ∧ f.index = index ∧
      (groupWritable m.mode ∧ f.code = .groupWritable ∨
        worldWritable m.mode ∧ f.code = .worldWritable ∨
        ¬ ownerUidIsTrusted sys m.owner ∧ f.code = .unsafeOwner) := by
  simp only [trustFindings, writabilityFindings, List.mem_append, mem_findingsWhen,
    Finding.ext_iff, Bool.not_eq_true', Bool.not_eq_true]
  tauto

theorem trustFindings_nodup (sys : Sys W) (index : ℕ) (m : CommandMatch) :
    (trustFindings sys index m).Nodup := by
  have hdisjoint : ∀ (cond cond' : Bool) {code code' : HazardCode}, code ≠ code' →
      (findingsWhen cond m.path index code).Disjoint (findingsWhen cond' m.path index code') := by
    intro cond cond' code code' hne f hf hf'
    obtain ⟨-, rfl⟩ := mem_findingsWhen.mp hf
    obtain ⟨-, heq⟩ := mem_findingsWhen.mp hf'
    exact hne (congrArg Finding.code heq)
  unfold trustFindings writabilityFindings
  refine List.nodup_append'.mpr ⟨List.nodup_append'.mpr ⟨findingsWhen_nodup _ _ _ _,
    findingsWhen_nodup _ _ _ _, hdisjoint _ _ (by decide)⟩, findingsWhen_nodup _ _ _ _, ?_⟩
  exact List.disjoint_append_left.mpr ⟨hdisjoint _ _ (by decide), hdisjoint _ _ (by decide)⟩

/-- Two matches share a finding just when they are one executable with one. -/
theorem trustFindings_disjoint_iff (hreal : CanonicalPaths sys.fs) {root : Root} {a b : CStr}
    {m m' : CommandMatch} (hm : commandMatch sys.fs root a = some m)
    (hm' : commandMatch sys.fs root b = some m') (index : ℕ) :
    (trustFindings sys index m).Disjoint (trustFindings sys index m') ↔
      (m.path = m'.path → ¬ Hazardous sys m) := by
  constructor
  · rintro hdisjoint hpath (hgroup | hworld | howner)
    all_goals
      obtain ⟨st, hst, -, hmode, huid⟩ := stat_path_of_commandMatch hreal hm
      obtain ⟨st', hst', -, hmode', huid'⟩ := stat_path_of_commandMatch hreal hm'
      rw [← hpath, hst] at hst'
      obtain rfl := Except.ok.inj hst'
    · exact @hdisjoint ⟨m.path, index, .groupWritable⟩
        (mem_trustFindings.mpr ⟨rfl, rfl, .inl ⟨hgroup, rfl⟩⟩)
        (mem_trustFindings.mpr ⟨hpath, rfl, .inl ⟨by rwa [← hmode', hmode], rfl⟩⟩)
    · exact @hdisjoint ⟨m.path, index, .worldWritable⟩
        (mem_trustFindings.mpr ⟨rfl, rfl, .inr (.inl ⟨hworld, rfl⟩)⟩)
        (mem_trustFindings.mpr ⟨hpath, rfl, .inr (.inl ⟨by rwa [← hmode', hmode], rfl⟩)⟩)
    · exact @hdisjoint ⟨m.path, index, .unsafeOwner⟩
        (mem_trustFindings.mpr ⟨rfl, rfl, .inr (.inr ⟨howner, rfl⟩)⟩)
        (mem_trustFindings.mpr ⟨hpath, rfl, .inr (.inr ⟨by rwa [← huid', huid], rfl⟩)⟩)
  · intro honce f hf hf'
    obtain ⟨hroot, -, hcode⟩ := mem_trustFindings.mp hf
    obtain ⟨hroot', -, -⟩ := mem_trustFindings.mp hf'
    exact honce (hroot.symm.trans hroot') (hcode.imp And.left (Or.imp And.left And.left))

/-- The findings about the executables of a component. -/
def executableFindings (sys : Sys W) (root : Root) : List Finding :=
  (foundUnder sys root).flatMap fun f => trustFindings sys f.index f.target

theorem mem_foundName {root : Root} {name : CStr} {f : Found} :
    foundName sys root name = some f ↔
      ∃ m, entryMatch sys.fs root name = some m ∧ f = ⟨name, root.index, m⟩ := by
  unfold foundName entryMatch
  split
  · simp
  · simp [eq_comm]

theorem commandMatch_of_entryMatch {root : Root} {name : CStr} {m : CommandMatch}
    (h : entryMatch sys.fs root name = some m) : commandMatch sys.fs root name = some m := by
  unfold entryMatch at h
  split at h
  · contradiction
  · exact h

theorem executableFindings_nodup_iff (hreal : CanonicalPaths sys.fs) (root : Root) :
    (executableFindings sys root).Nodup ↔ HazardsOnce sys root := by
  unfold executableFindings HazardsOnce foundUnder
  rw [List.nodup_flatMap]
  cases hlisting : listingOf sys.fs root with
  | none => simp
  | some listing =>
    dsimp only
    rw [List.pairwise_filterMap]
    have hentries : ∀ a b, (∀ f, foundName sys root a = some f → ∀ g,
        foundName sys root b = some g → (Function.onFun List.Disjoint
          fun f : Found => trustFindings sys f.index f.target) f g) ↔
        ∀ m m', entryMatch sys.fs root a = some m → entryMatch sys.fs root b = some m' →
          m.path = m'.path → ¬ Hazardous sys m := by
      intro a b
      simp only [mem_foundName]
      constructor
      · intro h m m' hm hm'
        exact (trustFindings_disjoint_iff hreal (commandMatch_of_entryMatch hm)
          (commandMatch_of_entryMatch hm') root.index).mp (h _ ⟨m, hm, rfl⟩ _ ⟨m', hm', rfl⟩)
      · rintro h _ ⟨m, hm, rfl⟩ _ ⟨m', hm', rfl⟩
        exact (trustFindings_disjoint_iff hreal (commandMatch_of_entryMatch hm)
          (commandMatch_of_entryMatch hm') root.index).mpr (h m m' hm hm')
    constructor
    · rintro ⟨-, hpairs⟩ listing' hlisting'
      obtain rfl := Option.some.inj hlisting'
      exact hpairs.imp fun h => (hentries _ _).mp h
    · intro honce
      refine ⟨fun f _ => trustFindings_nodup sys _ _, ?_⟩
      exact (honce listing rfl).imp fun h => (hentries _ _).mpr h

theorem mem_executableFindings {root : Root} {f : Finding}
    (h : f ∈ executableFindings sys root) : f.index = root.index ∧
      (f.code = .groupWritable ∨ f.code = .worldWritable ∨ f.code = .unsafeOwner) ∧
      (CanonicalPaths sys.fs → ∃ st, sys.fs.stat f.root = .ok st ∧ st.kind = .regular) := by
  obtain ⟨found, hfound, hf⟩ := List.mem_flatMap.mp h
  obtain ⟨hindex, hcommand⟩ := mem_foundUnder hfound
  obtain ⟨m, hm, heq⟩ := Option.map_eq_some_iff.mp hcommand
  obtain ⟨hroot, hindex', hcode⟩ := mem_trustFindings.mp hf
  refine ⟨hindex'.trans hindex, hcode.imp And.right (Or.imp And.right And.right), fun hreal => ?_⟩
  obtain ⟨st, hst, hregular, -⟩ := stat_path_of_commandMatch hreal hm
  rw [hroot, ← congrArg Found.target heq]
  exact ⟨st, hst, hregular⟩

/-- The components differ in their indexes, and so do their findings. -/
theorem flatMap_nodup_of_index {roots : List Root} {findings : Root → List Finding}
    (hroots : roots.Pairwise fun r s => r.index < s.index)
    (hindex : ∀ root, ∀ f ∈ findings root, f.index = root.index) :
    (roots.flatMap findings).Nodup ↔ ∀ root ∈ roots, (findings root).Nodup := by
  rw [List.nodup_flatMap, and_iff_left]
  apply hroots.imp
  intro r s hlt f hf hf'
  exact hlt.ne ((hindex r f hf).symm.trans (hindex s f hf'))

end Executables

section Classification
variable {W : Type} {sys : Sys W}

theorem rootFindings_nodup (fs : FileSystem) (root : Root) : (rootFindings fs root).Nodup := by
  unfold rootFindings
  cases hcodes : rootHazards fs root.text with
  | none => exact List.nodup_nil
  | some codes =>
    have hnodup : codes.Nodup := (rootHazards_sorted hcodes).imp
      fun hlt heq => hlt.ne (congrArg HazardCode.rank heq)
    exact hnodup.map fun a b heq => congrArg Finding.code heq

theorem lookupHazards_writable {r : Except Errno Stat} {codes : List HazardCode}
    (h : lookupHazards r = some codes) {code : HazardCode} (hmem : code ∈ codes)
    (hcode : code = .groupWritable ∨ code = .worldWritable) :
    ∃ st, r = .ok st ∧ st.kind = .directory := by
  have hone : ∀ code', some [code'] = some codes → code' = .groupWritable ∨
      code' = .worldWritable := by
    intro code' heq
    obtain rfl := Option.some.inj heq
    rwa [List.mem_singleton.mp hmem] at hcode
  unfold lookupHazards at h
  split at h
  next err =>
    split at h
    · simpa using hone _ h
    · split at h
      · simpa using hone _ h
      · contradiction
  next st =>
    split at h
    · simpa using hone _ h
    next hkind => exact ⟨st, rfl, not_not.mp hkind⟩

/-- Only directories have findings about their permissions. -/
theorem isDirectory_of_writable {fs : FileSystem} {root : Root} {f : Finding}
    (h : f ∈ rootFindings fs root) (hcode : f.code = .groupWritable ∨ f.code = .worldWritable) :
    isDirectory fs f.root := by
  obtain ⟨code, hmem, rfl⟩ := List.mem_map.mp h
  cases hcodes : rootHazards fs root.text with
  | none => simp [hcodes] at hmem
  | some codes =>
    rw [hcodes, Option.getD_some] at hmem
    unfold rootHazards at hcodes
    split at hcodes
    · obtain rfl := Option.some.inj hcodes
      rw [List.mem_singleton.mp hmem] at hcode
      simp at hcode
    · obtain ⟨codes', hlookup, rfl⟩ := Option.map_eq_some_iff.mp hcodes
      rcases List.mem_append.mp hmem with hrelative | hmem'
      · unfold codesWhen at hrelative
        split at hrelative
        · rw [List.mem_singleton.mp hrelative] at hcode
          simp at hcode
        · exact absurd hrelative List.not_mem_nil
      · exact lookupHazards_writable hlookup hmem' hcode

theorem classified_nodup {roots : List Root} (hroots : roots.Pairwise fun r s => r.index < s.index)
    {items : List Finding} (h : Classified sys roots items) : items.Nodup := by
  rw [List.nodup_iff_count_le_one]
  intro f
  by_cases hcode : f.code = .unsafeOwner
  · have hcount : items.count f = (ownerFindings f.root items).count f := by
      rw [ownerFindings, List.count_filter]
      simp [hcode]
    rw [hcount]
    by_cases hnote : ∃ index, (f.root, index) ∈ ownerNotes items
    · obtain ⟨index, hmem⟩ := hnote
      rw [ownerFindings_eq_singleton h.owners.nodup hmem]
      exact List.nodup_iff_count_le_one.mp (List.nodup_singleton _) f
    · rw [ownerFindings_eq_nil.mpr (not_exists.mp hnote)]
      exact Nat.zero_le _
  · have hcount : items.count f = (otherFindings items).count f := by
      rw [otherFindings, List.count_filter]
      simpa using hcode
    rw [hcount, h.others]
    apply List.nodup_iff_count_le_one.mp
    rw [flatMap_nodup_of_index hroots fun root f hf => (code_of_mem_rootFindings hf).2.1]
    exact fun root _ => rootFindings_nodup sys.fs root

/-- An executable is no directory, and has no finding of the classification. -/
theorem classified_disjoint (hreal : CanonicalPaths sys.fs) {roots : List Root}
    {items : List Finding} (h : Classified sys roots items) :
    items.Disjoint (roots.flatMap (executableFindings sys)) := by
  intro f hf hf'
  obtain ⟨root, -, hf'⟩ := List.mem_flatMap.mp hf'
  obtain ⟨-, hcode, hregular⟩ := mem_executableFindings hf'
  obtain ⟨st, hst, hregular⟩ := hregular hreal
  have hdir : isDirectory sys.fs f.root := by
    by_cases howner : f.code = .unsafeOwner
    · have hmem : (f.root, f.index) ∈ ownerNotes items := by
        rw [mem_ownerNotes, ← howner]
        exact hf
      obtain ⟨root', -, ⟨hreaches, -⟩, -⟩ := h.owners.sound _ _ hmem
      exact isDirectory_above hreal hreaches
    · have hmem : f ∈ otherFindings items := List.mem_filter.mpr ⟨hf, by simpa using howner⟩
      rw [h.others] at hmem
      obtain ⟨root', -, hmem⟩ := List.mem_flatMap.mp hmem
      exact isDirectory_of_writable hmem (hcode.imp_right fun hw => hw.resolve_right howner)
  obtain ⟨st', hst', hkind⟩ := hdir
  obtain rfl := Except.ok.inj (hst.symm.trans hst')
  rw [hregular] at hkind
  contradiction

end Classification

/-- In a completed run, no two findings have the same code, root and index if and only if
no component lists two names of one executable that has a finding. -/
theorem runPathMode_nodup_iff {W : Type} (sys : Sys W) (h : Hashes) (qf : QSort compareFindings)
    (qs : QSort compareShadows) (pathEnv : CStr) (hreal : CanonicalPaths sys.fs) {status : ℕ}
    {p p' : Proc W} (hrun : runPathMode sys h qf qs (some pathEnv) p = (some status, p')) :
    ∃ s q, auditPath sys h (some pathEnv) p = (some s, q) ∧
      let findings := sortIfMany qf s.findings.items
      p'.stdout = p.stdout ++ (findings.flatMap findingPieces).flatten ++
        ((sortIfMany qs s.tables.shadows.items).flatMap shadowPieces).flatten ∧
      (findings.Nodup ↔ ∀ root ∈ components sys.fs pathEnv, HazardsOnce sys root) := by
  obtain ⟨s, q, haudit, hemit⟩ := bind_eq_some.mp hrun
  obtain ⟨hkept, classified, hclassified, hitems⟩ :=
    (auditPath_findings hreal h pathEnv).result haudit
  have hindexes := @components_index_lt sys.fs pathEnv
  refine ⟨s, q, haudit, by rw [emitPathReport_some hemit, hkept], ?_⟩
  have hexecutables : s.findings.items =
      classified ++ (components sys.fs pathEnv).flatMap (executableFindings sys) := by
    rw [hitems, List.flatMap_assoc]
    rfl
  rw [(sortIfMany_perm qf _).nodup_iff, hexecutables, List.nodup_append',
    and_iff_right (classified_nodup hindexes hclassified),
    and_iff_left (classified_disjoint hreal hclassified),
    flatMap_nodup_of_index hindexes fun root f hf => (mem_executableFindings hf).1]
  simp only [executableFindings_nodup_iff hreal]

/-- Two names of one executable that its group may write to: it is found twice. -/
theorem runPathMode_duplicates :
    ∃ s q status p', auditPath Shared.sys fnvHashes (some Shared.pathEnv) Sample.start =
        (some s, q) ∧
      runPathMode Shared.sys fnvHashes sortFindings sortShadows (some Shared.pathEnv)
        Sample.start = (some status, p') ∧
      (sortIfMany sortFindings s.findings.items).count ⟨.lit "/b/t", 0, .groupWritable⟩ = 2 := by
  obtain ⟨status, p', hrun⟩ := Shared.completes
  obtain ⟨s, q, haudit, -⟩ := bind_eq_some.mp hrun
  refine ⟨s, q, status, p', haudit, hrun, ?_⟩
  have hitems : (auditPath Shared.sys fnvHashes (some Shared.pathEnv) Sample.start).1.map
      (fun s => s.findings.items) = some [⟨.lit "/b", 0, .unsafeOwner⟩,
        ⟨.lit "/b/t", 0, .groupWritable⟩, ⟨.lit "/b/t", 0, .groupWritable⟩] := by
    decide +kernel
  rw [haudit] at hitems
  have hlist := Option.some.inj hitems
  dsimp only at hlist
  rw [(sortIfMany_perm sortFindings _).count_eq, hlist]
  decide +kernel

theorem runPathMode_nodup_iff_shared :
    ∃ s q, auditPath Shared.sys fnvHashes (some Shared.pathEnv) Sample.start = (some s, q) ∧
      ((sortIfMany sortFindings s.findings.items).Nodup ↔
        HazardsOnce Shared.sys ⟨.lit "/b", 0, 2⟩) := by
  obtain ⟨status, p', hrun⟩ := Shared.completes
  obtain ⟨s, q, haudit, -, hiff⟩ := runPathMode_nodup_iff Shared.sys fnvHashes sortFindings
    sortShadows Shared.pathEnv Shared.canonicalPaths hrun
  refine ⟨s, q, haudit, hiff.trans ?_⟩
  rw [Shared.sys, Shared.components_eq, List.forall_mem_singleton]

end Pathaudit
