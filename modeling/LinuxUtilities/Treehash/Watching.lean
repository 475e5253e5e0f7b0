import LinuxUtilities.Treehash.Manifest

/-! Runs of a system that only writes down what another one answers. -/
namespace Treehash
open CString

/-- `fine` answers as `sys` does at the state that `view` shows of it. -/
structure Refines {V W : Type} (view : V → W) (fine : Sys V) (sys : Sys W) : Prop where
  lstat : ∀ p v, sys.lstat p (view v) = ((fine.lstat p v).1, view (fine.lstat p v).2)
  opendir : ∀ p v, sys.opendir p (view v) = ((fine.opendir p v).1, view (fine.opendir p v).2)
  fopen : ∀ p v, sys.fopen p (view v) = ((fine.fopen p v).1, view (fine.fopen p v).2)
  openRead : ∀ p v, sys.openRead p (view v) = ((fine.openRead p v).1, view (fine.openRead p v).2)
  malloc : ∀ v, sys.malloc (view v) = ((fine.malloc v).1, view (fine.malloc v).2)
  printf : ∀ v, sys.printf (view v) = ((fine.printf v).1, view (fine.printf v).2)
  fflush : ∀ v, sys.fflush (view v) = ((fine.fflush v).1, view (fine.fflush v).2)
  fnmatch : fine.fnmatch = sys.fnmatch
  strerror : fine.strerror = sys.strerror

section Runs
variable {V W : Type} (view : V → W)

/-- A context with the state of its system seen through `view`. -/
def Context.seen (c : Context V) : Context W :=
  ⟨c.entries, c.rules, c.ancestors, view c.world, c.stdout, c.stderr⟩

@[simp] theorem Context.seen_entries (c : Context V) : (c.seen view).entries = c.entries := rfl

@[simp] theorem Context.seen_rules (c : Context V) : (c.seen view).rules = c.rules := rfl

@[simp] theorem Context.seen_ancestors (c : Context V) :
    (c.seen view).ancestors = c.ancestors := rfl

/-- A result with its context seen through `view`. -/
def seen {α : Type} (r : α × Context V) : α × Context W := (r.1, r.2.seen view)

variable {view} {fine : Sys V} {sys : Sys W} {S : StreamHash}

theorem Context.call_seen {α : Type} {f : V → α × V} {g : W → α × W}
    (h : ∀ v, g (view v) = ((f v).1, view (f v).2)) (c : Context V) :
    (c.seen view).call g = Treehash.seen view (c.call f) := by
  simp only [Context.call, Context.seen, Treehash.seen, h]

section Steps
variable (h : Refines view fine sys)
include h

theorem reserve_seen {α : Type} (first : ℕ) (arr : GrowArray α) (c : Context V) :
    reserve sys first arr (c.seen view) = seen view (reserve fine first arr c) := by
  simp only [reserve, Context.call_seen h.malloc]
  split <;> rfl

theorem addFileEntry_seen (path : CStr) (hex : Hex) (c : Context V) :
    addFileEntry sys path hex (c.seen view) = seen view (addFileEntry fine path hex c) := by
  unfold addFileEntry
  rw [Context.seen_entries, reserve_seen h]
  rcases reserve fine 64 c.entries c with ⟨_ | arr, c₁⟩
  · rfl
  · have hm := Context.call_seen h.malloc ({ c₁ with entries := arr } : Context V)
    simp only [Context.seen, seen] at hm ⊢
    simp only [hm]
    split <;> rfl

theorem addIgnoreRule_seen (rule : IgnoreRule) (c : Context V) :
    addIgnoreRule sys rule (c.seen view) = seen view (addIgnoreRule fine rule c) := by
  unfold addIgnoreRule
  rw [Context.seen_rules, reserve_seen h]
  rcases reserve fine 32 c.rules c with ⟨_ | arr, c₁⟩
  · rfl
  · have hm := Context.call_seen h.malloc ({ c₁ with rules := arr } : Context V)
    simp only [Context.seen, seen] at hm ⊢
    simp only [hm]
    split
    · have hm' := Context.call_seen h.malloc
        (({ c₁ with rules := arr } : Context V).call fine.malloc).2
      simp only [Context.seen, seen] at hm'
      simp only [hm']
      split <;> rfl
    · rfl

theorem loadLines_seen (dirRel : CStr) (depth : ℕ) (lines : List (List UInt8)) (c : Context V) :
    loadLines sys dirRel depth lines (c.seen view) =
      seen view (loadLines fine dirRel depth lines c) := by
  induction lines generalizing c with
  | nil => rfl
  | cons line lines ih =>
    unfold loadLines
    split
    · exact ih c
    · simp only [Context.call_seen h.malloc, seen]
      split
      · split
        · exact ih _
        · rw [addIgnoreRule_seen h]
          rcases addIgnoreRule fine _ (c.call fine.malloc).2 with ⟨_ | _, c₁⟩
          · rfl
          · exact ih c₁
      · rfl

theorem loadGitignore_seen (path relDir : CStr) (depth : ℕ) (c : Context V) :
    loadGitignore sys path relDir depth (c.seen view) =
      seen view (loadGitignore fine path relDir depth c) := by
  unfold loadGitignore
  rw [Context.call_seen (h.fopen path)]
  rcases c.call (fine.fopen path) with ⟨err | stream, c₁⟩
  · simp only [seen, h.strerror, printDiagErrno]
    split <;> rfl
  · simp only [seen, loadLines_seen h]
    rcases loadLines fine relDir depth (getlines stream.bytes) c₁ with ⟨_ | _, c₂⟩ <;> rfl

theorem loadDirRules_seen (diskDir relDir : CStr) (depth : ℕ) (c : Context V) :
    loadDirRules sys diskDir relDir depth (c.seen view) =
      seen view (loadDirRules fine diskDir relDir depth c) := by
  unfold loadDirRules
  rw [Context.call_seen (h.lstat _)]
  rcases c.call (fine.lstat (childDisk diskDir gitignoreName)) with ⟨err | st, c₁⟩
  · rfl
  · simp only [seen]
    split
    · exact loadGitignore_seen h _ _ _ _
    · rfl

theorem hashFileSha256_seen (path : CStr) (c : Context V) :
    hashFileSha256 sys S path (c.seen view) = seen view (hashFileSha256 fine S path c) := by
  unfold hashFileSha256
  rw [Context.call_seen (h.openRead _)]
  rcases c.call (fine.openRead path) with ⟨err | file, c₁⟩
  · rfl
  · simp only [seen]
    split <;> rfl

theorem walkFile_seen (disk rel : CStr) (c : Context V) :
    walkFile sys S disk rel (c.seen view) = seen view (walkFile fine S disk rel c) := by
  unfold walkFile
  rw [hashFileSha256_seen h]
  rcases hashFileSha256 fine S disk c with ⟨err | hex, c₁⟩
  · simp only [seen, printDiagErrno, h.strerror]
    rfl
  · simp only [seen, addFileEntry_seen h]
    rcases addFileEntry fine rel hex c₁ with ⟨_ | _, c₂⟩ <;> rfl

section Entries
variable {descend : CStr → CStr → Context W → ℤ × Context W}
  {descendFine : CStr → CStr → Context V → ℤ × Context V}
  (hd : ∀ disk rel c, descend disk rel (c.seen view) = seen view (descendFine disk rel c))
include hd

theorem walkChild_seen (disk rel : CStr) (c : Context V) :
    walkChild sys S descend disk rel (c.seen view) =
      seen view (walkChild fine S descendFine disk rel c) := by
  unfold walkChild
  rw [Context.call_seen (h.lstat _)]
  rcases c.call (fine.lstat disk) with ⟨err | st, c₁⟩
  · simp only [seen, printDiagErrno, h.strerror]
    rfl
  · simp only [seen, h.fnmatch, Context.seen_rules]
    cases st.kind with
    | symlink => rfl
    | directory =>
      by_cases hi : isPathIgnored sys.fnmatch c₁.rules.items rel true = true
      · simp only [hi, ↓reduceIte]
      · simp only [hi, ↓reduceIte, Bool.false_eq_true]
        exact hd _ _ _
    | regular =>
      by_cases hi : isPathIgnored sys.fnmatch c₁.rules.items rel false = true
      · simp only [hi, ↓reduceIte]
      · simp only [hi, ↓reduceIte, Bool.false_eq_true]
        exact walkFile_seen h _ _ _
    | other => rfl

theorem walkEntry_seen (diskDir relDir name : CStr) (c : Context V) :
    walkEntry sys S descend diskDir relDir name (c.seen view) =
      seen view (walkEntry fine S descendFine diskDir relDir name c) := by
  unfold walkEntry
  split
  · rfl
  · split
    · rfl
    · split
      · rfl
      · split
        · rfl
        · exact walkChild_seen h hd _ _ _

theorem walkEntries_seen (diskDir relDir : CStr) (names : List CStr) (c : Context V) :
    walkEntries sys S descend diskDir relDir names (c.seen view) =
      seen view (walkEntries fine S descendFine diskDir relDir names c) := by
  induction names generalizing c with
  | nil => rfl
  | cons name names ih =>
    unfold walkEntries
    rw [walkEntry_seen h hd]
    rcases walkEntry fine S descendFine diskDir relDir name c with ⟨status, c₁⟩
    simp only [seen]
    split
    next heq =>
      obtain ⟨rfl, rfl⟩ := Prod.mk.inj heq
      exact ih c₁
    next status' c₂ hne heq =>
      obtain ⟨rfl, rfl⟩ := Prod.mk.inj heq
      split
      next heq' => exact (hne (Prod.mk.inj heq').1).elim
      next heq' =>
        obtain ⟨rfl, rfl⟩ := Prod.mk.inj heq'
        rfl

theorem walkOpened_seen (diskDir relDir : CStr) (depth : ℕ) (listing : Listing) (c : Context V) :
    walkOpened sys S descend diskDir relDir depth listing (c.seen view) =
      seen view (walkOpened fine S descendFine diskDir relDir depth listing c) := by
  unfold walkOpened
  rw [loadDirRules_seen h]
  split
  · rfl
  · rcases loadDirRules fine diskDir relDir depth c with ⟨loaded, c₁⟩
    by_cases hload : loaded = 0
    · subst loaded
      simp only [seen]
      rw [walkEntries_seen h hd]
      rcases walkEntries fine S descendFine diskDir relDir listing.names c₁ with ⟨status, c₂⟩
      by_cases hstatus : status = 0
      · subst status
        simp only [seen, printDiagErrno, h.strerror]
        split <;> rfl
      · simp only [seen]
        rfl
    · simp only [seen]
      rfl

theorem walkBody_seen (levels : ℕ) (disk rel : CStr) (c : Context V) :
    walkBody sys S descend levels disk rel (c.seen view) =
      seen view (walkBody fine S descendFine levels disk rel c) := by
  unfold walkBody
  rw [Context.call_seen (h.lstat _)]
  rcases c.call (fine.lstat disk) with ⟨err | st, c₁⟩
  · simp only [seen, printDiagErrno, h.strerror]
    rfl
  · simp only [seen, Context.seen_ancestors]
    split
    · rfl
    · by_cases hcycle : (st.dev, st.ino) ∈ c₁.ancestors
      · simp only [hcycle, ↓reduceIte]
        rfl
      · simp only [hcycle, ↓reduceIte]
        have hopen := Context.call_seen (h.opendir disk)
          ({ c₁ with ancestors := (st.dev, st.ino) :: c₁.ancestors } : Context V)
        simp only [Context.seen, seen] at hopen ⊢
        simp only [hopen]
        rcases ({ c₁ with ancestors := (st.dev, st.ino) :: c₁.ancestors } : Context V).call
          (fine.opendir disk) with ⟨err | listing, c₂⟩
        · simp only [printDiagErrno, h.strerror]
          rfl
        · exact walkOpened_seen h hd _ _ _ _ _

end Entries

theorem walkDir_seen (levels : ℕ) (disk rel : CStr) (c : Context V) :
    walkDir sys S levels disk rel (c.seen view) = seen view (walkDir fine S levels disk rel c) := by
  induction levels generalizing disk rel c with
  | zero => rfl
  | succ levels ih => exact walkBody_seen h ih levels disk rel c

theorem merkleLoop_seen (current : List Digest) (c : Context V) :
    merkleLoop sys S current (c.seen view) = seen view (merkleLoop fine S current c) := by
  fun_induction merkleLoop fine S current c with
  | case1 current c hlt hbig =>
    rw [merkleLoop, if_pos hlt, if_pos hbig]
    rfl
  | case2 current c hlt hbig m hm ih =>
    have hok : (c.call fine.malloc).1 = true := hm
    rw [merkleLoop, if_pos hlt, if_neg hbig]
    simp only [Context.call_seen h.malloc, seen, hok, ↓reduceIte]
    exact ih
  | case3 current c hlt hbig m hm =>
    have hfail : (c.call fine.malloc).1 = false :=
      Bool.eq_false_of_not_eq_true hm
    rw [merkleLoop, if_pos hlt, if_neg hbig]
    simp only [Context.call_seen h.malloc, seen, hfail, Bool.false_eq_true, ↓reduceIte]
    rfl
  | case4 current c hle =>
    rw [merkleLoop, if_neg hle]
    rfl

theorem computeMerkleRoot_seen (entries : List FileEntry) (c : Context V) :
    computeMerkleRoot sys S entries (c.seen view) =
      seen view (computeMerkleRoot fine S entries c) := by
  unfold computeMerkleRoot
  split
  · rfl
  · split
    · rfl
    · simp only [Context.call_seen h.malloc, seen]
      by_cases hok : (c.call fine.malloc).1 = true
      · simp only [hok, ↓reduceIte, merkleLoop_seen h]
        rcases merkleLoop fine S (entries.map (computeLeafDigest S)) (c.call fine.malloc).2
          with ⟨_ | _ | _, c₁⟩ <;> rfl
      · simp only [hok, Bool.false_eq_true, ↓reduceIte]
        rfl

theorem printStdout_seen (text : List UInt8) (c : Context V) :
    printStdout sys text (c.seen view) = seen view (printStdout fine text c) := by
  unfold printStdout
  simp only [Context.call_seen h.printf, seen]
  split <;> rfl

theorem printEntries_seen (entries : List FileEntry) (c : Context V) :
    printEntries sys entries (c.seen view) = seen view (printEntries fine entries c) := by
  induction entries generalizing c with
  | nil => rfl
  | cons e entries ih =>
    unfold printEntries
    rw [printStdout_seen h]
    rcases printStdout fine (leafRecord e) c with ⟨_ | _, c₁⟩
    · rfl
    · exact ih c₁

theorem printTree_seen (q : QSort compareFileEntries) (c : Context V) :
    printTree sys S q (c.seen view) =
      ((printTree fine S q c).1, (printTree fine S q c).2.seen view) := by
  unfold printTree
  extract_lets items old items' old'
  have hitems : items = items' := rfl
  have hold : old = old' := rfl
  clear_value items old items' old'
  subst hitems hold
  have hroot := computeMerkleRoot_seen (S := S) h items
    ({ c with entries := ⟨items, old.capacity⟩ } : Context V)
  simp only [Context.seen, seen] at hroot ⊢
  simp only [hroot]
  rcases computeMerkleRoot fine S items { c with entries := ⟨items, old.capacity⟩ } with
    ⟨_ | root, c₁⟩
  · rfl
  · have hhead := printStdout_seen h (ascii "ROOT " ++ root ++ ascii "\n") c₁
    simp only [Context.seen, seen] at hhead ⊢
    simp only [hhead]
    rcases printStdout fine (ascii "ROOT " ++ root ++ ascii "\n") c₁ with ⟨_ | _, c₂⟩
    · rfl
    · have hlines := printEntries_seen h items c₂
      simp only [Context.seen, seen] at hlines ⊢
      simp only [hlines]
      rcases printEntries fine items c₂ with ⟨_ | _, c₃⟩
      · rfl
      · have hflush := Context.call_seen h.fflush c₃
        simp only [Context.seen, seen] at hflush ⊢
        simp only [hflush]

/-- Both systems make the same run. -/
theorem hashTree_seen (q : QSort compareFileEntries) (rawOperand normDir : CStr) (v : V) :
    hashTree sys S q rawOperand normDir (view v) =
      ((hashTree fine S q rawOperand normDir v).1,
        (hashTree fine S q rawOperand normDir v).2.seen view) := by
  have hinit : (Context.init (view v) : Context W) = (Context.init v).seen view := rfl
  unfold hashTree
  rw [hinit, Context.call_seen (h.lstat normDir)]
  rcases (Context.init v).call (fine.lstat normDir) with ⟨err | st, c₁⟩
  · simp only [seen, printDiagErrno, h.strerror]
    rfl
  · simp only [seen, Context.call_seen h.malloc]
    by_cases hkind : st.kind = .directory
    · simp only [hkind, ne_eq, not_true_eq_false, ↓reduceIte]
      by_cases hok : (c₁.call fine.malloc).1 = true
      · simp only [hok, ↓reduceIte]
        rw [walkDir_seen h]
        rcases walkDir fine S maxDepth normDir ∅ (c₁.call fine.malloc).2 with ⟨status, c₂⟩
        by_cases hstatus : status = 0
        · subst status
          simp only [seen]
          exact printTree_seen h q c₂
        · simp only [seen]
      · simp only [hok, Bool.false_eq_true, ↓reduceIte]
        rfl
    · simp only [hkind, ne_eq, not_false_eq_true, ↓reduceIte]
      rfl

end Steps

end Runs

end Treehash
