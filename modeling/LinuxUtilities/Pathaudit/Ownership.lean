import LinuxUtilities.Foundation.LeastIndex
import LinuxUtilities.Pathaudit.Ancestors
import LinuxUtilities.Pathaudit.Lossless
import LinuxUtilities.Pathaudit.OperandOrder

/-! The findings of `--path` about the owners of directories: which directories have one,
and with which index. -/
namespace Pathaudit
open CString Attempt LeastIndex

/-- The owners that were found fault with, by the path and the index of the finding. -/
def ownerNotes (items : List Finding) : List (CStr × ℕ) :=
  items.filterMap fun f => if f.code = .unsafeOwner then some (f.root, f.index) else none

/-- The findings about all else. -/
def otherFindings (items : List Finding) : List Finding :=
  items.filter fun f => f.code ≠ .unsafeOwner

theorem ownerNotes_append (items items' : List Finding) :
    ownerNotes (items ++ items') = ownerNotes items ++ ownerNotes items' :=
  List.filterMap_append

theorem otherFindings_append (items items' : List Finding) :
    otherFindings (items ++ items') = otherFindings items ++ otherFindings items' :=
  List.filter_append _ _

theorem mem_ownerNotes {items : List Finding} {dir : CStr} {index : ℕ} :
    (dir, index) ∈ ownerNotes items ↔ (⟨dir, index, .unsafeOwner⟩ : Finding) ∈ items := by
  rw [ownerNotes, List.mem_filterMap]
  constructor
  · rintro ⟨⟨root, i, code⟩, hmem, heq⟩
    split at heq
    next hcode =>
      obtain ⟨rfl, rfl⟩ := Prod.mk.inj (Option.some.inj heq)
      obtain rfl : code = .unsafeOwner := hcode
      exact hmem
    next => contradiction
  · intro hmem
    exact ⟨_, hmem, by simp⟩

/-- What `findings_note_unsafe_owner` does to its buffer. -/
structure Noted (dir : CStr) (index : ℕ) (items items' : List Finding) : Prop where
  owners : ownerNotes items' = note dir index (ownerNotes items)
  others : otherFindings items' = otherFindings items

theorem noteIndex_noted (dir : CStr) (index : ℕ) (items : List Finding) :
    Noted dir index items
      ((noteIndex dir index items).getD (items ++ [⟨dir, index, .unsafeOwner⟩])) := by
  induction items with
  | nil => exact ⟨rfl, rfl⟩
  | cons f fs ih =>
    unfold noteIndex
    simp only [cmpUnsignedBytes_eq_zero]
    by_cases hcode : f.code = .unsafeOwner
    · by_cases hroot : f.root = dir
      · rw [if_pos ⟨hcode, hroot⟩, Option.getD_some]
        have hmin : (if index < f.index then { f with index := index } else f) =
            (⟨f.root, min f.index index, f.code⟩ : Finding) := by
          split
          next hlt => rw [min_eq_right hlt.le]
          next hlt => rw [min_eq_left (not_lt.mp hlt)]
        rw [hmin]
        constructor
        · simp [ownerNotes, hcode, hroot, note]
        · simp [otherFindings, hcode]
      · rw [if_neg fun h => hroot h.2]
        constructor
        · have howners : ownerNotes (f :: fs) = (f.root, f.index) :: ownerNotes fs := by
            simp [ownerNotes, hcode]
          rw [howners, note, if_neg hroot, ← ih.owners]
          cases noteIndex dir index fs <;> simp [ownerNotes, hcode]
        · have hothers : otherFindings (f :: fs) = otherFindings fs := by
            simp [otherFindings, hcode]
          rw [hothers, ← ih.others]
          cases noteIndex dir index fs <;> simp [otherFindings, hcode]
    · rw [if_neg fun h => hcode h.1]
      constructor
      · have howners : ownerNotes (f :: fs) = ownerNotes fs := by simp [ownerNotes, hcode]
        rw [howners, ← ih.owners]
        cases noteIndex dir index fs <;> simp [ownerNotes, hcode]
      · have hothers : otherFindings (f :: fs) = f :: otherFindings fs := by
          simp [otherFindings, hcode]
        rw [hothers, ← ih.others]
        cases noteIndex dir index fs <;> simp [otherFindings, hcode]

section Walk
variable {W : Type} (sys : Sys W)

theorem findingsNoteUnsafeOwner_noted (b : FindingBuffer) (dir : CStr) (index : ℕ) :
    Sound Proc.stdout (findingsNoteUnsafeOwner sys b dir index) fun b' =>
      Noted dir index b.items b'.items := by
  have hnoted := noteIndex_noted dir index b.items
  unfold findingsNoteUnsafeOwner
  cases hnote : noteIndex dir index b.items with
  | some items =>
    rw [hnote] at hnoted
    exact Sound.pure hnoted
  | none =>
    rw [hnote] at hnoted
    apply (findingsAppend_meets sys.promiseNothing b dir index .unsafeOwner).sound.imp
    rintro _ ⟨-, rfl⟩
    exact hnoted

/-- The owner of what is at a path can be told, and is neither root nor the user. -/
def FaultyOwner (fs : FileSystem) (dir : CStr) : Prop :=
  ∃ st, fs.stat dir = .ok st ∧ st.uid ≠ 0 ∧ st.uid ≠ fs.getuid

theorem auditAncestor_noted {seen : CStr → ℕ → Prop} {b : FindingBuffer}
    (hb : Notes seen (ownerNotes b.items)) (index : ℕ) (dir : CStr) :
    Sound Proc.stdout (auditAncestor sys index b dir) fun b' =>
      Notes (fun d i => seen d i ∨ (d = dir ∧ FaultyOwner sys.fs dir) ∧ i = index)
          (ownerNotes b'.items) ∧
        otherFindings b'.items = otherFindings b.items := by
  have hkeep (hno : ¬ FaultyOwner sys.fs dir) :
      Sound Proc.stdout (pure b : Run W FindingBuffer) fun b' =>
        Notes (fun d i => seen d i ∨ (d = dir ∧ FaultyOwner sys.fs dir) ∧ i = index)
            (ownerNotes b'.items) ∧
          otherFindings b'.items = otherFindings b.items :=
    Sound.pure ⟨hb.congr fun d i => by simp [hno], rfl⟩
  unfold auditAncestor
  cases hst : sys.fs.stat dir with
  | error err => exact hkeep (by simp [FaultyOwner, hst])
  | ok st =>
    dsimp only
    split
    next htrusted =>
      apply hkeep
      rintro ⟨st', hst', hzero, huser⟩
      obtain rfl := Except.ok.inj (hst.symm.trans hst')
      simp [ownerUidIsTrusted, hzero, huser] at htrusted
    next htrusted =>
      have hfaulty : FaultyOwner sys.fs dir := by
        refine ⟨st, hst, ?_⟩
        simpa [ownerUidIsTrusted] using htrusted
      apply (findingsNoteUnsafeOwner_noted sys b dir index).imp
      intro b' hb'
      refine ⟨?_, hb'.others⟩
      rw [hb'.owners]
      exact (hb.note dir index).congr fun d i => by simp [hfaulty]

/-- A walk over some directories notes those whose owner is at fault. -/
theorem auditChain_noted {seen : CStr → ℕ → Prop} {b : FindingBuffer}
    (hb : Notes seen (ownerNotes b.items)) (index : ℕ) (dirs : List CStr) :
    Sound Proc.stdout (dirs.foldlM (auditAncestor sys index) b) fun b' =>
      Notes (fun d i => seen d i ∨ (d ∈ dirs ∧ FaultyOwner sys.fs d) ∧ i = index)
          (ownerNotes b'.items) ∧
        otherFindings b'.items = otherFindings b.items := by
  apply Sound.foldlM fun done (b' : FindingBuffer) =>
    Notes (fun d i => seen d i ∨ (d ∈ done ∧ FaultyOwner sys.fs d) ∧ i = index)
        (ownerNotes b'.items) ∧
      otherFindings b'.items = otherFindings b.items
  · rintro pre dir post b' - ⟨hnotes, hothers⟩
    apply (auditAncestor_noted sys hnotes index dir).imp
    rintro b'' ⟨hnotes', hothers'⟩
    refine ⟨hnotes'.congr fun d i => ?_, hothers'.trans hothers⟩
    rw [List.mem_append, List.mem_singleton, or_assoc]
    refine or_congr_right ?_
    constructor
    · rintro (⟨⟨hd, hfaulty⟩, hi⟩ | ⟨⟨rfl, hfaulty⟩, hi⟩)
      · exact ⟨⟨.inl hd, hfaulty⟩, hi⟩
      · exact ⟨⟨.inr rfl, hfaulty⟩, hi⟩
    · rintro ⟨⟨hd | rfl, hfaulty⟩, hi⟩
      · exact .inl ⟨⟨hd, hfaulty⟩, hi⟩
      · exact .inr ⟨⟨rfl, hfaulty⟩, hi⟩
  · exact ⟨hb.congr fun d i => by simp, rfl⟩

end Walk

/-- A component that can be searched: a directory under a name that is not empty. -/
structure Usable (fs : FileSystem) (root : Root) : Prop where
  named : root.text ≠ ∅
  directory : ∃ st, fs.stat root.text = .ok st ∧ st.kind = .directory

/-- A usable component reaches its real directory and what is above that. -/
structure Reaches (fs : FileSystem) (root : Root) (dir : CStr) : Prop where
  usable : Usable fs root
  above : ∃ resolved, fs.realpath root.text = .ok resolved ∧ Above dir resolved

/-- What `realpath` promises: an absolute name of the same file, without extra slashes. -/
structure CanonicalPaths (fs : FileSystem) : Prop where
  same : ∀ path resolved, fs.realpath path = .ok resolved → fs.stat resolved = fs.stat path
  absolute : ∀ path resolved, fs.realpath path = .ok resolved → isAbsolute resolved
  slashes : ∀ path resolved, fs.realpath path = .ok resolved → resolved ≠ .lit "/" →
    ¬ [47, 47] <:+: resolved.bytes ∧ resolved.bytes.getLast? ≠ some 47

section Classify
variable {W : Type} (sys : Sys W)

theorem rootHazards_owner {fs : FileSystem} {text : CStr} {codes : List HazardCode}
    (h : rootHazards fs text = some codes) : .unsafeOwner ∉ codes := by
  have hwhen : ∀ (cond : Bool) (code : HazardCode), code ≠ .unsafeOwner →
      .unsafeOwner ∉ codesWhen cond code := by
    intro cond code hcode
    cases cond <;> simp [codesWhen, hcode.symm]
  unfold rootHazards at h
  split at h
  · obtain rfl := Option.some.inj h
    simp
  · obtain ⟨codes', hlookup, rfl⟩ := Option.map_eq_some_iff.mp h
    rw [List.mem_append, not_or]
    refine ⟨hwhen _ _ (by simp), ?_⟩
    unfold lookupHazards at hlookup
    split at hlookup
    · split at hlookup
      · obtain rfl := Option.some.inj hlookup
        simp
      · split at hlookup
        · obtain rfl := Option.some.inj hlookup
          simp
        · contradiction
    · split at hlookup
      · obtain rfl := Option.some.inj hlookup
        simp
      · obtain rfl := Option.some.inj hlookup
        rw [List.mem_append, not_or]
        exact ⟨hwhen _ _ (by simp), hwhen _ _ (by simp)⟩

theorem code_of_mem_rootFindings {fs : FileSystem} {root : Root} {f : Finding}
    (h : f ∈ rootFindings fs root) :
    f.root = root.text ∧ f.index = root.index ∧ f.code ≠ .unsafeOwner := by
  obtain ⟨code, hcode, rfl⟩ := List.mem_map.mp h
  refine ⟨rfl, rfl, ?_⟩
  rintro rfl
  cases hcodes : rootHazards fs root.text with
  | none => simp [hcodes] at hcode
  | some codes =>
    rw [hcodes] at hcode
    exact rootHazards_owner hcodes hcode

theorem ownerNotes_rootFindings (fs : FileSystem) (root : Root) :
    ownerNotes (rootFindings fs root) = [] := by
  apply List.filterMap_eq_nil_iff.mpr
  intro f hf
  rw [if_neg (code_of_mem_rootFindings hf).2.2]

theorem otherFindings_rootFindings (fs : FileSystem) (root : Root) :
    otherFindings (rootFindings fs root) = rootFindings fs root := by
  apply List.filter_eq_self.mpr
  intro f hf
  exact decide_eq_true (code_of_mem_rootFindings hf).2.2

/-- With the ownership audit, the walk comes after the rest of the classification. -/
theorem classifyRoot_usable (b : FindingBuffer) {root : Root} (hlen : root.len = root.text.length)
    (h : Usable sys.fs root) : classifyRoot sys true b root =
      classifyRoot sys false b root >>=
        appendDirectoryChainOwnership sys root.text root.index := by
  obtain ⟨st, hst, hkind⟩ := h.directory
  have hne : root.len ≠ 0 := Root.NonEmpty.len_ne_zero ⟨hlen, h.named⟩
  simp only [classifyRoot, if_neg hne, hst, hkind, ne_eq, not_true_eq_false, if_false, if_true,
    Attempt.bind_assoc, Attempt.pure_bind, Bool.false_eq_true]

theorem classifyRoot_unusable (b : FindingBuffer) {root : Root}
    (hlen : root.len = root.text.length) (h : ¬ Usable sys.fs root) :
    classifyRoot sys true b root = classifyRoot sys false b root := by
  unfold classifyRoot
  by_cases hzero : root.len = 0
  · rw [if_pos hzero, if_pos hzero]
  · rw [if_neg hzero, if_neg hzero]
    cases hst : sys.fs.stat root.text with
    | error err => rfl
    | ok st =>
      dsimp only
      have hkind : st.kind ≠ .directory := by
        intro hkind
        refine h ⟨fun hempty => hzero ?_, st, hst, hkind⟩
        rw [hlen, hempty]
        rfl
      simp only [if_pos hkind]

variable (hreal : CanonicalPaths sys.fs)
include hreal

theorem appendDirectoryChainOwnership_noted {seen : CStr → ℕ → Prop} {b : FindingBuffer}
    (hb : Notes seen (ownerNotes b.items)) {root : Root} (h : Usable sys.fs root) :
    Sound Proc.stdout (appendDirectoryChainOwnership sys root.text root.index b) fun b' =>
      Notes (fun d i => seen d i ∨ (Reaches sys.fs root d ∧ FaultyOwner sys.fs d) ∧
          i = root.index) (ownerNotes b'.items) ∧
        otherFindings b'.items = otherFindings b.items := by
  unfold appendDirectoryChainOwnership
  apply (alloc_meets sys sys.promiseNothing).sound.bind
  intro _ _
  cases hpath : sys.fs.realpath root.text with
  | error err =>
    dsimp only
    split
    · exact Sound.fail fun _ => rfl
    · refine Sound.pure ⟨hb.congr fun d i => ?_, rfl⟩
      refine (or_iff_left ?_).symm
      rintro ⟨⟨⟨-, resolved, hresolved, -⟩, -⟩, -⟩
      rw [hpath] at hresolved
      contradiction
  | ok resolved =>
    obtain ⟨st, hst, hkind⟩ := h.directory
    have hreaches : ∀ d, Reaches sys.fs root d ↔
        d ∈ ancestorChain resolved.length resolved := by
      intro d
      rw [(ancestorChain_walksUp (hreal.absolute _ _ hpath) le_rfl).mem]
      constructor
      · rintro ⟨-, resolved', hresolved, habove⟩
        obtain rfl := Except.ok.inj (hpath.symm.trans hresolved)
        exact habove
      · exact fun habove => ⟨h, resolved, hpath, habove⟩
    dsimp only
    rw [hreal.same _ _ hpath, hst]
    dsimp only
    rw [if_neg (not_not.mpr hkind)]
    simp only [hreaches]
    exact auditChain_noted sys hb root.index _

/-- What classification has found in some components. -/
structure Classified (roots : List Root) (items : List Finding) : Prop where
  owners : Notes (fun d i => ∃ root ∈ roots, (Reaches sys.fs root d ∧ FaultyOwner sys.fs d) ∧
    i = root.index) (ownerNotes items)
  others : otherFindings items = roots.flatMap (rootFindings sys.fs)

theorem classifyRoot_classified {roots : List Root} {root : Root}
    (hlen : root.len = root.text.length) {b : FindingBuffer}
    (hb : Classified sys roots b.items) :
    Sound Proc.stdout (classifyRoot sys true b root) fun b' =>
      Classified sys (roots ++ [root]) b'.items := by
  have hsplit : ∀ P : Root → Prop, (∃ r ∈ roots ++ [root], P r) ↔
      (∃ r ∈ roots, P r) ∨ P root := by
    intro P
    simp only [List.mem_append, List.mem_singleton, or_and_right, exists_or, exists_eq_left]
  have hblind : Sound Proc.stdout (classifyRoot sys false b root) fun b' =>
      ownerNotes b'.items = ownerNotes b.items ∧
        otherFindings b'.items = (roots ++ [root]).flatMap (rootFindings sys.fs) := by
    apply (classifyRoot_meets sys.promiseNothing hlen b).sound.imp
    rintro b' ⟨-, hitems⟩
    rw [hitems, ownerNotes_append, otherFindings_append, ownerNotes_rootFindings,
      otherFindings_rootFindings, hb.others, List.append_nil, List.flatMap_append,
      List.flatMap_singleton]
    exact ⟨rfl, rfl⟩
  by_cases h : Usable sys.fs root
  · rw [classifyRoot_usable sys b hlen h]
    apply hblind.bind
    rintro b₁ ⟨howners, hothers⟩
    apply (appendDirectoryChainOwnership_noted sys hreal (howners ▸ hb.owners) h).imp
    rintro b' ⟨howners', hothers'⟩
    exact ⟨howners'.congr fun d i => (hsplit _).symm, hothers'.trans hothers⟩
  · rw [classifyRoot_unusable sys b hlen h]
    apply hblind.imp
    rintro b' ⟨howners, hothers⟩
    refine ⟨?_, hothers⟩
    rw [howners]
    exact hb.owners.congr fun d i => by simp [show ¬ Reaches sys.fs root d from
      fun hr => h hr.usable]

/-- The classification of all components. -/
theorem classifyPath_classified (pathEnv : CStr) :
    Sound Proc.stdout (classifyPath sys (some pathEnv)) fun classified =>
      classified.1 = components sys.fs pathEnv ∧
        Classified sys (components sys.fs pathEnv) classified.2.items := by
  unfold classifyPath
  apply (pathComponentsLoad_sound sys pathEnv).bind
  rintro _ rfl
  have hloop : Sound Proc.stdout
      ((components sys.fs pathEnv).foldlM (classifyRoot sys true) .empty) fun b =>
        Classified sys (components sys.fs pathEnv) b.items := by
    apply Sound.foldlM fun done (b : FindingBuffer) => Classified sys done b.items
    · intro pre root post b hroots hb
      apply classifyRoot_classified sys hreal _ hb
      exact components_len sys.fs pathEnv root (by rw [hroots]; simp)
    · exact ⟨Notes.nil.congr fun d i => by simp, rfl⟩
  apply hloop.bind
  intro findings hfindings
  exact Sound.pure ⟨rfl, hfindings⟩

end Classify

def isDirectory (fs : FileSystem) (dir : CStr) : Prop :=
  ∃ st, fs.stat dir = .ok st ∧ st.kind = .directory

/-- The findings about the owner of one directory. -/
def ownerFindings (dir : CStr) (items : List Finding) : List Finding :=
  items.filter fun f => f.code = .unsafeOwner ∧ f.root = dir

/-- The indexes of the components that reach a directory. -/
def reachingIndexes (fs : FileSystem) (roots : List Root) (dir : CStr) : Set ℕ :=
  {i | ∃ root ∈ roots, root.index = i ∧ Reaches fs root dir}

theorem ownerFindings_eq_nil {dir : CStr} {items : List Finding} :
    ownerFindings dir items = [] ↔ ∀ index, (dir, index) ∉ ownerNotes items := by
  rw [ownerFindings, List.filter_eq_nil_iff]
  constructor
  · intro h index hmem
    exact h _ (mem_ownerNotes.mp hmem) (by simp)
  · rintro h ⟨root, index, code⟩ hmem hf
    obtain ⟨rfl, rfl⟩ : code = .unsafeOwner ∧ root = dir := by simpa using hf
    exact h index (mem_ownerNotes.mpr hmem)

/-- A directory that is noted once has one finding. -/
theorem ownerFindings_eq_singleton {dir : CStr} {index : ℕ} {items : List Finding}
    (hnodup : ((ownerNotes items).map Prod.fst).Nodup) (hmem : (dir, index) ∈ ownerNotes items) :
    ownerFindings dir items = [⟨dir, index, .unsafeOwner⟩] := by
  induction items with
  | nil => exact absurd hmem List.not_mem_nil
  | cons f fs ih =>
    obtain ⟨root, i, code⟩ := f
    by_cases hcode : code = .unsafeOwner
    · subst hcode
      have hcons : ownerNotes (⟨root, i, .unsafeOwner⟩ :: fs) = (root, i) :: ownerNotes fs := by
        simp [ownerNotes]
      rw [hcons] at hnodup hmem
      obtain ⟨hhead, htail⟩ := List.nodup_cons.mp hnodup
      rcases List.mem_cons.mp hmem with heq | hmem
      · obtain ⟨rfl, rfl⟩ := Prod.mk.inj heq
        rw [ownerFindings, List.filter_cons_of_pos (by simp)]
        congr 1
        apply ownerFindings_eq_nil.mpr
        exact fun j hj => hhead (List.mem_map.mpr ⟨_, hj, rfl⟩)
      · rw [ownerFindings, List.filter_cons_of_neg]
        · exact ih htail hmem
        · rintro heq
          obtain rfl : root = dir := by simpa using heq
          exact hhead (List.mem_map.mpr ⟨_, hmem, rfl⟩)
    · have hskip : ownerNotes (⟨root, i, code⟩ :: fs) = ownerNotes fs := by
        simp [ownerNotes, hcode]
      rw [hskip] at hnodup hmem
      rw [ownerFindings, List.filter_cons_of_neg (by simp [hcode])]
      exact ih hnodup hmem

section Run
variable {W : Type} {sys : Sys W}

/-- What a match names is the regular file that was matched. -/
theorem stat_path_of_commandMatch {fs : FileSystem} (hreal : CanonicalPaths fs) {root : Root}
    {command : CStr} {m : CommandMatch} (h : commandMatch fs root command = some m) :
    ∃ st, fs.stat m.path = .ok st ∧ st.kind = .regular ∧ st.mode = m.mode ∧
      st.uid = m.owner := by
  obtain ⟨candidate, hcand, hm⟩ := Option.bind_eq_some_iff.mp h
  split at hm
  next st path hst _ hpath =>
    split at hm
    next hreg =>
      obtain rfl := Option.some.inj hm
      exact ⟨st, (hreal.same _ _ hpath).trans hst, hreg.1, rfl, rfl⟩
    next => contradiction
  next => contradiction

theorem root_of_mem_trustFindings {index : ℕ} {m : CommandMatch} {f : Finding}
    (h : f ∈ trustFindings sys index m) : f.root = m.path ∧ f.index = index := by
  have hwhen : ∀ (cond : Bool) (code : HazardCode),
      f ∈ findingsWhen cond m.path index code → f.root = m.path ∧ f.index = index := by
    intro cond code hf
    cases cond with
    | false => simp [findingsWhen] at hf
    | true =>
      obtain rfl : f = ⟨m.path, index, code⟩ := by simpa [findingsWhen] using hf
      exact ⟨rfl, rfl⟩
  simp only [trustFindings, writabilityFindings, List.mem_append] at h
  rcases h with (h | h) | h
  · exact hwhen _ _ h
  · exact hwhen _ _ h
  · exact hwhen _ _ h

/-- What a completed run has found: the classification, then the executables. -/
theorem auditPath_findings (hreal : CanonicalPaths sys.fs) (h : Hashes) (pathEnv : CStr) :
    Sound Proc.stdout (auditPath sys h (some pathEnv)) fun s =>
      ∃ classified, Classified sys (components sys.fs pathEnv) classified ∧
        s.findings.items = classified ++
          ((components sys.fs pathEnv).flatMap (foundUnder sys)).flatMap
            fun f => trustFindings sys f.index f.target := by
  unfold auditPath
  apply (classifyPath_classified sys hreal pathEnv).bind
  rintro classified ⟨hroots, hclassified⟩
  apply (scanPath_meets sys.promiseNothing classified.1 False.elim).sound.imp
  rintro s ⟨-, hs⟩
  rw [hroots] at hs
  exact ⟨_, hclassified, hs.findings⟩

/-- With its resources granted, a run completes when its audit does. -/
theorem runPathMode_completes (hg : sys.Granted) {h : Hashes} (qf : QSort compareFindings)
    (qs : QSort compareShadows) {pathEnv : Option CStr} {s : Scan} {p q : Proc W}
    (haudit : auditPath sys h pathEnv p = (some s, q)) :
    ∃ status p', runPathMode sys h qf qs pathEnv p = (some status, p') := by
  have hstatus : exitStatus (runPathMode sys h qf qs pathEnv p).1 ≠ 2 := by
    intro htwo
    have hreport := emitPathReport_granted hg (sortIfMany qf s.findings.items)
      (sortIfMany qs s.tables.shadows.items) q
    rw [runPathMode, bind_apply, haudit] at htwo
    have hle := htwo.symm.trans (congrArg Prod.fst hreport)
    rw [reported] at hle
    dsimp only at hle
    split at hle <;> contradiction
  obtain ⟨status, hrun⟩ := status_of_exitStatus hstatus
  exact ⟨status, _, hrun⟩

/-- The findings about executables do not name directories. -/
theorem ownerFindings_executables (hreal : CanonicalPaths sys.fs) (roots : List Root) {dir : CStr}
    (hdir : isDirectory sys.fs dir) :
    ownerFindings dir ((roots.flatMap (foundUnder sys)).flatMap
      fun f => trustFindings sys f.index f.target) = [] := by
  rw [ownerFindings, List.filter_eq_nil_iff]
  intro f hf hname
  obtain ⟨-, rfl⟩ : f.code = .unsafeOwner ∧ f.root = dir := by simpa using hname
  obtain ⟨found, hfound, hf⟩ := List.mem_flatMap.mp hf
  obtain ⟨root, -, hfound⟩ := List.mem_flatMap.mp hfound
  obtain ⟨m, hm, heq⟩ := Option.map_eq_some_iff.mp (mem_foundUnder hfound).2
  obtain ⟨st, hst, hregular, -⟩ := stat_path_of_commandMatch hreal hm
  obtain ⟨st', hst', hkind⟩ := hdir
  rw [(root_of_mem_trustFindings hf).1, ← congrArg Found.target heq, hst] at hst'
  obtain rfl := Except.ok.inj hst'
  rw [hregular] at hkind
  contradiction

/-- In a completed run, the findings about the owner of a directory are one when a usable
component reaches it and its owner is neither root nor the user, with the least index of
such a component, and none otherwise. The walk up from an absolute path, however many
rounds it may have, goes from parent to parent until the root and meets what is above the
path once. -/
theorem runPathMode_owners (sys : Sys W) (h : Hashes) (qf : QSort compareFindings)
    (qs : QSort compareShadows) (pathEnv : CStr) (hreal : CanonicalPaths sys.fs) {status : ℕ}
    {p p' : Proc W} (hrun : runPathMode sys h qf qs (some pathEnv) p = (some status, p')) :
    (∃ s q, auditPath sys h (some pathEnv) p = (some s, q) ∧
      let findings := sortIfMany qf s.findings.items
      p'.stdout = p.stdout ++ (findings.flatMap findingPieces).flatten ++
        ((sortIfMany qs s.tables.shadows.items).flatMap shadowPieces).flatten ∧
      ∀ dir, isDirectory sys.fs dir →
        (∀ index, FaultyOwner sys.fs dir →
          IsLeast (reachingIndexes sys.fs (components sys.fs pathEnv) dir) index →
            ownerFindings dir findings = [⟨dir, index, .unsafeOwner⟩]) ∧
        (¬ FaultyOwner sys.fs dir ∨
          reachingIndexes sys.fs (components sys.fs pathEnv) dir = ∅ →
            ownerFindings dir findings = [])) ∧
    ∀ path fuel, isAbsolute path → path.length ≤ fuel →
      WalksUp path (ancestorChain fuel path) ∧ (ancestorChain fuel path).Nodup := by
  refine ⟨?_, fun path fuel habs hfuel => ?_⟩
  · obtain ⟨s, q, haudit, hemit⟩ := bind_eq_some.mp hrun
    obtain ⟨hkept, classified, hclassified, hitems⟩ :=
      (auditPath_findings hreal h pathEnv).result haudit
    refine ⟨s, q, haudit, by rw [emitPathReport_some hemit, hkept], fun dir hdir => ?_⟩
    have hperm : (ownerFindings dir (sortIfMany qf s.findings.items)).Perm
        (ownerFindings dir classified) := by
      have hfilter := (sortIfMany_perm qf s.findings.items).filter
        fun f => f.code = .unsafeOwner ∧ f.root = dir
      rw [hitems, List.filter_append] at hfilter
      have hnone := ownerFindings_executables hreal (components sys.fs pathEnv) hdir
      rw [ownerFindings] at hnone
      rw [hnone, List.append_nil, ← hitems] at hfilter
      exact hfilter
    constructor
    · intro index hfaulty hleast
      have hmem : (dir, index) ∈ ownerNotes classified := by
        have hindexes : {i | ∃ root ∈ components sys.fs pathEnv,
            (Reaches sys.fs root dir ∧ FaultyOwner sys.fs dir) ∧ i = root.index} =
              reachingIndexes sys.fs (components sys.fs pathEnv) dir := by
          apply Set.ext
          intro i
          simp [reachingIndexes, hfaulty, eq_comm, and_comm]
        rw [hclassified.owners.mem_iff, hindexes]
        exact hleast
      rw [ownerFindings_eq_singleton hclassified.owners.nodup hmem] at hperm
      exact List.perm_singleton.mp hperm
    · intro hnone
      have hnil : ownerFindings dir classified = [] := by
        apply ownerFindings_eq_nil.mpr
        intro index hmem
        obtain ⟨root, hroot, ⟨hreaches, hfaulty⟩, hindex⟩ :=
          hclassified.owners.sound dir index hmem
        rcases hnone with hnot | hempty
        · exact hnot hfaulty
        · exact hempty.subset ⟨root, hroot, hindex.symm, hreaches⟩
      rw [hnil] at hperm
      exact hperm.eq_nil
  · have hwalk := ancestorChain_walksUp habs hfuel
    exact ⟨hwalk, hwalk.nodup⟩

end Run

namespace Shared

/-- A directory in which two names are one executable. -/
def directories : List CStr := [.lit "/", .lit "/b", .lit "/b/"]

def executables : List CStr := [.lit "/b/t", .lit "/b/u"]

/-- Another user owns `/b`, and the group may write to the executable. -/
def stat (path : CStr) : Except Errno Stat :=
  if path ∈ directories then .ok ⟨.directory, 0o755, if path = .lit "/" then 0 else 7⟩
  else if path ∈ executables then .ok ⟨.regular, 0o775, 0⟩
  else .error ENOENT

/-- `/b/u` is a link to `/b/t`. -/
def links : List (CStr × CStr) :=
  [(.lit "/", .lit "/"), (.lit "/b", .lit "/b"), (.lit "/b/", .lit "/b"),
    (.lit "/b/t", .lit "/b/t"), (.lit "/b/u", .lit "/b/t")]

def realpath (path : CStr) : Except Errno CStr :=
  match links.lookup path with
  | some resolved => .ok resolved
  | none => .error ENOENT

theorem mem_of_stat {path : CStr} {st : Stat} (h : stat path = .ok st) :
    path ∈ directories ++ executables := by
  rw [List.mem_append]
  by_contra hnot
  rw [not_or] at hnot
  rw [stat, if_neg hnot.1, if_neg hnot.2] at h
  contradiction

theorem stat_child (dir name : CStr) (st : Stat) (hdir : dir ≠ ∅) (hname : name ≠ ∅)
    (hslash : 47 ∉ name.bytes) (h : stat (childPath dir name) = .ok st) :
    ∃ dst, stat dir = .ok dst ∧ dst.kind = .directory := by
  have hmem : dir ∈ directories :=
    Sample.mem_of_childPath (by decide) hdir hname hslash (mem_of_stat h)
  exact ⟨_, by rw [stat, if_pos hmem], rfl⟩

theorem stat_dots (dir name : CStr) (st : Stat) (_ : dir ≠ ∅)
    (hname : name = .lit "." ∨ name = .lit "..") (h : stat (childPath dir name) = .ok st) :
    st.kind = .directory :=
  absurd (mem_of_stat h) (Sample.notMem_of_dots (by decide) hname)

def fs : FileSystem where
  stat := stat
  lstat := stat
  readlink := fun _ => .error 22
  access := fun _ => true
  openRead := fun _ => .ok (.ok [0x7f, 69, 76, 70])
  realpath := realpath
  opendir := fun _ => .ok ⟨[.lit ".", .lit "t", .lit "u", .lit ".."], none⟩
  getuid := 1000
  stat_child := stat_child
  stat_dots := stat_dots

def sys : Sys Unit := { Sample.sys with fs := fs }

def pathEnv : CStr := .lit "/b"

theorem mem_links {path resolved : CStr} (h : realpath path = .ok resolved) :
    (path, resolved) ∈ links := by
  unfold realpath at h
  split at h
  next r hr =>
    obtain rfl := Except.ok.inj h
    obtain ⟨before, after, hsplit, -⟩ := List.lookup_eq_some_iff.mp hr
    rw [hsplit]
    simp
  next => contradiction

theorem canonicalPaths : CanonicalPaths fs := by
  have hall : ∀ link ∈ links, stat link.2 = stat link.1 ∧ link.2.bytes.head? = some 47 ∧
      (link.2 ≠ .lit "/" → ¬ [47, 47] <:+: link.2.bytes ∧ link.2.bytes.getLast? ≠ some 47) := by
    decide
  constructor
  · exact fun path resolved h => (hall _ (mem_links h)).1
  · exact fun path resolved h => (hall _ (mem_links h)).2.1
  · exact fun path resolved h => (hall _ (mem_links h)).2.2

theorem components_eq : components fs pathEnv = [⟨.lit "/b", 0, 2⟩] := by decide +kernel

theorem completes : ∃ status p', runPathMode sys fnvHashes sortFindings sortShadows
    (some pathEnv) Sample.start = (some status, p') := by
  have hsome : (auditPath sys fnvHashes (some pathEnv) Sample.start).1.isSome := by decide +kernel
  obtain ⟨s, hs⟩ := Option.isSome_iff_exists.mp hsome
  have hg : sys.Granted := ⟨fun _ => rfl, fun _ => rfl, fun _ => rfl, fun _ => rfl⟩
  exact runPathMode_completes hg sortFindings sortShadows (Prod.ext hs rfl)

end Shared

theorem runPathMode_owners_shared :
    ∃ s q, auditPath Shared.sys fnvHashes (some Shared.pathEnv) Sample.start = (some s, q) ∧
      ownerFindings (.lit "/b") (sortIfMany sortFindings s.findings.items) =
        [⟨.lit "/b", 0, .unsafeOwner⟩] := by
  obtain ⟨status, p', hrun⟩ := Shared.completes
  obtain ⟨⟨s, q, haudit, -, howners⟩, -⟩ := runPathMode_owners Shared.sys fnvHashes sortFindings
    sortShadows Shared.pathEnv Shared.canonicalPaths hrun
  have hdir : Shared.fs.stat (.lit "/b") = .ok ⟨.directory, 0o755, 7⟩ := by decide +kernel
  have hreaches : Reaches Shared.fs ⟨.lit "/b", 0, 2⟩ (.lit "/b") :=
    ⟨⟨by decide, _, hdir, rfl⟩, .lit "/b", by decide +kernel, .inl rfl⟩
  refine ⟨s, q, haudit, (howners (.lit "/b") ⟨_, hdir, rfl⟩).1 0 ⟨_, hdir, ?_, ?_⟩ ⟨?_, ?_⟩⟩
  · decide
  · decide
  · exact ⟨_, by rw [Shared.sys, Shared.components_eq]; simp, rfl, hreaches⟩
  · exact fun i _ => Nat.zero_le i

end Pathaudit
