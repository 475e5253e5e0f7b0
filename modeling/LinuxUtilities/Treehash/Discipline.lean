import LinuxUtilities.Treehash.Sha256
import LinuxUtilities.Treehash.Visits

/-! The stacks of a walk: every call of `walk_dir` finds the ancestors as many as its depth and
leaves them as they were, and leaves the rules as they were unless memory runs out in the middle of
a `.gitignore`. -/
namespace Treehash
open CString

variable {W : Type} {sys : Sys W} {S : StreamHash}

section Loads

/-- The rules of some lines of a `.gitignore`. -/
def rulesOfLines (dirRel : CStr) (depth : ℕ) (lines : List (List UInt8)) : List IgnoreRule :=
  lines.filterMap fun line => (parsePattern line).bind fun p => ruleOfPattern dirRel depth p.1 p.2

variable {dirRel : CStr} {depth : ℕ} {lines read rest : List (List UInt8)} {line : List UInt8}
  {c : Context W}

/-- The context after calls that can only give memory. -/
theorem reserve_context {α : Type} (first : ℕ) (arr : GrowArray α) (c : Context W) :
    (∃ w, (reserve sys first arr c).2 = { c with world := w }) ∧
      ∀ arr' ∈ (reserve sys first arr c).1, arr'.items = arr.items := by
  unfold reserve
  split
  · refine ⟨⟨_, rfl⟩, ?_⟩
    intro arr' h
    simp only [Option.mem_def, Option.ite_none_right_eq_some] at h
    rw [← Option.some.inj h.2]
  · refine ⟨⟨c.world, rfl⟩, ?_⟩
    rintro arr' ⟨⟩
    rfl

/-- A rule is pushed, or the stack stays as it was. -/
theorem addIgnoreRule_stacks (rule : IgnoreRule) (c : Context W) :
    (addIgnoreRule sys rule c).2.ancestors = c.ancestors ∧
      (addIgnoreRule sys rule c).2.rules.items =
        c.rules.items ++ if (addIgnoreRule sys rule c).1 = true then [rule] else [] := by
  obtain ⟨⟨w, hworld⟩, hitems⟩ := @reserve_context W sys IgnoreRule 32 c.rules c
  unfold addIgnoreRule
  rcases hreserve : reserve sys 32 c.rules c with ⟨_ | arr, c₁⟩
  · rw [hreserve] at hworld
    obtain rfl : c₁ = _ := hworld
    simp
  · rw [hreserve] at hworld hitems
    obtain rfl : c₁ = _ := hworld
    have harr := hitems arr rfl
    by_cases hpattern : (sys.malloc w).1 = true
    · by_cases hdir : (sys.malloc (sys.malloc w).2).1 = true
      · simp [hpattern, hdir, harr]
      · simp [hpattern, hdir, harr]
    · simp [hpattern, harr]

/-- One line after the other. -/
theorem loadLines_append (read rest : List (List UInt8)) (c : Context W) :
    loadLines sys dirRel depth (read ++ rest) c =
      if (loadLines sys dirRel depth read c).1 = true then
        loadLines sys dirRel depth rest (loadLines sys dirRel depth read c).2
      else loadLines sys dirRel depth read c := by
  induction read generalizing c with
  | nil => rfl
  | cons line read ih =>
    rw [List.cons_append, loadLines, loadLines]
    split
    · exact ih c
    · simp only
      split
      · split
        · exact ih _
        · split
          · exact ih _
          · rfl
      · rfl

/-- A line pushes its rule, or fails and pushes nothing. -/
theorem loadLine_stacks (line : List UInt8) (c : Context W) :
    (loadLines sys dirRel depth [line] c).2.ancestors = c.ancestors ∧
      (loadLines sys dirRel depth [line] c).2.rules.items = c.rules.items ++
        if (loadLines sys dirRel depth [line] c).1 = true then rulesOfLines dirRel depth [line]
        else [] := by
  generalize hrun : loadLines sys dirRel depth [line] c = r
  rw [loadLines] at hrun
  split at hrun
  next hp =>
    subst hrun
    simp [loadLines, rulesOfLines, hp]
  next negated pat hp =>
    simp only at hrun
    split at hrun
    · split at hrun
      next hr =>
        subst hrun
        simp [loadLines, rulesOfLines, hp, hr]
      next rule hr =>
        have hstacks := @addIgnoreRule_stacks W sys rule (c.call sys.malloc).2
        split at hrun
        next hadd =>
          subst hrun
          rw [hadd] at hstacks
          simpa [loadLines, rulesOfLines, hp, hr] using hstacks
        next hadd =>
          subst hrun
          rw [hadd] at hstacks
          simpa [Context.fputs] using hstacks
    · subst hrun
      simp [Context.fputs]

theorem rulesOfLines_append (read rest : List (List UInt8)) :
    rulesOfLines dirRel depth (read ++ rest) =
      rulesOfLines dirRel depth read ++ rulesOfLines dirRel depth rest :=
  List.filterMap_append

theorem depth_of_mem_rulesOfLines {r : IgnoreRule} (h : r ∈ rulesOfLines dirRel depth lines) :
    r.depth = depth := by
  obtain ⟨line, -, hline⟩ := List.mem_filterMap.mp h
  obtain ⟨p, -, hrule⟩ := Option.bind_eq_some_iff.mp hline
  exact ruleOfPattern_depth hrule

/-- Lines push their rules, up to the one that fails. -/
theorem loadLines_stacks (lines : List (List UInt8)) (c : Context W) :
    (loadLines sys dirRel depth lines c).2.ancestors = c.ancestors ∧
      ∃ read, (loadLines sys dirRel depth lines c).2.rules.items =
          c.rules.items ++ rulesOfLines dirRel depth read ∧
        if (loadLines sys dirRel depth lines c).1 = true then read = lines
        else ∃ line rest, lines = read ++ line :: rest ∧
          (loadLines sys dirRel depth read c).1 = true ∧
          (loadLines sys dirRel depth [line] (loadLines sys dirRel depth read c).2).1 = false := by
  induction lines using List.reverseRecOn with
  | nil => exact ⟨rfl, [], by simp [rulesOfLines, loadLines], by simp [loadLines]⟩
  | append_singleton lines line ih =>
    obtain ⟨hancestors, read, hrules, hread⟩ := ih
    rw [loadLines_append]
    by_cases hok : (loadLines sys dirRel depth lines c).1 = true
    · obtain ⟨hancestors', hrules'⟩ :=
        @loadLine_stacks W sys dirRel depth line (loadLines sys dirRel depth lines c).2
      rw [if_pos hok] at hread ⊢
      subst hread
      refine ⟨hancestors'.trans hancestors, ?_⟩
      by_cases hline : (loadLines sys dirRel depth [line]
          (loadLines sys dirRel depth read c).2).1 = true
      · refine ⟨read ++ [line], ?_, by rw [if_pos hline]⟩
        rw [hrules', if_pos hline, hrules, rulesOfLines_append, List.append_assoc]
      · refine ⟨read, ?_, ?_⟩
        · rw [hrules', if_neg hline, hrules, List.append_nil]
        · rw [if_neg hline]
          exact ⟨line, [], rfl, hok, Bool.eq_false_of_not_eq_true hline⟩
    · rw [if_neg hok] at hread ⊢
      obtain ⟨last, rest, rfl, hbefore, hfails⟩ := hread
      refine ⟨hancestors, read, hrules, ?_⟩
      rw [if_neg hok]
      exact ⟨last, rest ++ [line], by simp, hbefore, hfails⟩

/-- Memory runs out for a line, when a line before it has given a rule. -/
def RunsOut (sys : Sys W) (dirRel : CStr) (depth : ℕ) (lines : List (List UInt8))
    (c : Context W) : Prop :=
  ∃ read line rest, lines = read ++ line :: rest ∧ rulesOfLines dirRel depth read ≠ [] ∧
    (loadLines sys dirRel depth read c).1 = true ∧
      (loadLines sys dirRel depth [line] (loadLines sys dirRel depth read c).2).1 = false

/-- Lines that fail leave rules behind if memory runs out in the middle of them. -/
theorem runsOut_iff (lines : List (List UInt8)) (c : Context W) :
    RunsOut sys dirRel depth lines c ↔ (loadLines sys dirRel depth lines c).1 = false ∧
      (loadLines sys dirRel depth lines c).2.rules.items ≠ c.rules.items := by
  constructor
  · rintro ⟨read, line, rest, rfl, hne, hbefore, hfails⟩
    obtain ⟨-, read', hrules, hread⟩ := @loadLines_stacks W sys dirRel depth read c
    rw [if_pos hbefore] at hread
    subst hread
    have hline := (@loadLine_stacks W sys dirRel depth line
      (loadLines sys dirRel depth read' c).2).2
    have hrun : loadLines sys dirRel depth (read' ++ line :: rest) c =
        loadLines sys dirRel depth [line] (loadLines sys dirRel depth read' c).2 := by
      rw [loadLines_append, if_pos hbefore, ← List.singleton_append, loadLines_append,
        if_neg (by simp [hfails])]
    rw [hrun, hline, hfails, hrules]
    simpa using hne
  · rintro ⟨hfalse, hne⟩
    obtain ⟨-, read, hrules, hread⟩ := @loadLines_stacks W sys dirRel depth lines c
    have hfailed : ¬ (loadLines sys dirRel depth lines c).1 = true := by simp [hfalse]
    rw [if_neg hfailed] at hread
    obtain ⟨line, rest, hlines, hbefore, hfails⟩ := hread
    refine ⟨read, line, rest, hlines, ?_, hbefore, hfails⟩
    intro hnil
    rw [hrules, hnil, List.append_nil] at hne
    exact hne rfl

end Loads

section Files
variable {c : Context W}

theorem hashFileSha256_stacks (path : CStr) (c : Context W) :
    (hashFileSha256 sys S path c).2.ancestors = c.ancestors ∧
      (hashFileSha256 sys S path c).2.rules = c.rules := by
  unfold hashFileSha256
  split
  next heq =>
    obtain ⟨-, rfl⟩ := Prod.mk.inj heq
    exact ⟨rfl, rfl⟩
  next heq =>
    obtain ⟨-, rfl⟩ := Prod.mk.inj heq
    split <;> exact ⟨rfl, rfl⟩

theorem addFileEntry_stacks (path : CStr) (hex : Hex) (c : Context W) :
    (addFileEntry sys path hex c).2.ancestors = c.ancestors ∧
      (addFileEntry sys path hex c).2.rules = c.rules := by
  obtain ⟨⟨w, hworld⟩, -⟩ := @reserve_context W sys FileEntry 64 c.entries c
  unfold addFileEntry
  rcases hreserve : reserve sys 64 c.entries c with ⟨_ | arr, c₁⟩
  · rw [hreserve] at hworld
    obtain rfl : c₁ = _ := hworld
    exact ⟨rfl, rfl⟩
  · rw [hreserve] at hworld
    obtain rfl : c₁ = _ := hworld
    simp only
    split <;> exact ⟨rfl, rfl⟩

theorem walkFile_stacks (disk rel : CStr) (c : Context W) :
    (walkFile sys S disk rel c).2.ancestors = c.ancestors ∧
      (walkFile sys S disk rel c).2.rules = c.rules := by
  have hhash := @hashFileSha256_stacks W sys S disk c
  unfold walkFile
  rcases hfile : hashFileSha256 sys S disk c with ⟨err | hex, c₁⟩
  · rw [hfile] at hhash
    exact hhash
  · rw [hfile] at hhash
    have hadd := @addFileEntry_stacks W sys rel hex c₁
    rcases hentry : addFileEntry sys rel hex c₁ with ⟨_ | _, c₂⟩
    · rw [hentry] at hadd
      simp only [hentry]
      exact ⟨hadd.1.trans hhash.1, hadd.2.trans hhash.2⟩
    · rw [hentry] at hadd
      simp only [hentry]
      exact ⟨hadd.1.trans hhash.1, hadd.2.trans hhash.2⟩

end Files

/-- The lines of the `.gitignore` of an opened directory, and the context in which they are
read. -/
def readingIn (sys : Sys W) (diskDir : CStr) (c : Context W) :
    Option (List (List UInt8) × Context W) :=
  if pathMax ≤ (childDisk diskDir gitignoreName).length then none
  else
    match c.call (sys.lstat (childDisk diskDir gitignoreName)) with
    | (.error _, _) => none
    | (.ok st, c) =>
      if st.kind = .regular then
        match c.call (sys.fopen (childDisk diskDir gitignoreName)) with
        | (.error _, _) => none
        | (.ok stream, c) => some (getlines stream.bytes, c)
      else none

/-- What is read in a call of `walk_dir` that begins in a context. -/
def readingFrom (sys : Sys W) (diskDir : CStr) (c : Context W) :
    Option (List (List UInt8) × Context W) :=
  match c.call (sys.lstat diskDir) with
  | (.error _, _) => none
  | (.ok st, c) =>
    if st.kind ≠ .directory then none
    else if c.ancestors.contains (st.dev, st.ino) then none
    else
      let c := { c with ancestors := (st.dev, st.ino) :: c.ancestors }
      match c.call (sys.opendir diskDir) with
      | (.error _, _) => none
      | (.ok _, c) => readingIn sys diskDir c

/-- Memory runs out while a `.gitignore` is read that has given a rule. -/
def Spoiled (sys : Sys W) (relDir : CStr) (depth : ℕ)
    (reading : Option (List (List UInt8) × Context W)) : Prop :=
  ∃ lines c, reading = some (lines, c) ∧ RunsOut sys relDir depth lines c

namespace Visit

/-- Memory runs out in the middle of the `.gitignore` of the directory. -/
def RunsOut (sys : Sys W) (v : Visit W) : Prop :=
  v.levels ≠ 0 ∧ Spoiled sys v.relDir v.depth (readingFrom sys v.diskDir v.entry)

/-- The ancestors are as many as the depth, and are left as they were. -/
def Balanced (v : Visit W) : Prop :=
  v.entry.ancestors.length = v.depth ∧ v.exit.ancestors = v.entry.ancestors

/-- The stack of rules is left as it was. -/
def Restored (v : Visit W) : Prop := v.exit.rules.items = v.entry.rules.items

end Visit

/-- What reading the rules of a directory does to the stacks. -/
theorem loadDirRules_stacks (diskDir relDir : CStr) (depth : ℕ) (c : Context W)
    (hpath : ¬ pathMax ≤ (childDisk diskDir gitignoreName).length) :
    (loadDirRules sys diskDir relDir depth c).2.ancestors = c.ancestors ∧
      (∃ added, (loadDirRules sys diskDir relDir depth c).2.rules.items = c.rules.items ++ added ∧
        ∀ r ∈ added, r.depth = depth) ∧
      (Spoiled sys relDir depth (readingIn sys diskDir c) ↔
        (loadDirRules sys diskDir relDir depth c).1 ≠ 0 ∧
          (loadDirRules sys diskDir relDir depth c).2.rules.items ≠ c.rules.items) := by
  have hunread : ∀ r : ℤ × Context W, r.2.ancestors = c.ancestors → r.2.rules = c.rules →
      r.2.ancestors = c.ancestors ∧
        (∃ added, r.2.rules.items = c.rules.items ++ added ∧ ∀ r ∈ added, r.depth = depth) ∧
        (Spoiled sys relDir depth none ↔ r.1 ≠ 0 ∧ r.2.rules.items ≠ c.rules.items) := by
    intro r hancestors hrules
    refine ⟨hancestors, ⟨[], by simp [hrules], by simp⟩, ?_⟩
    simp [Spoiled, hrules]
  unfold loadDirRules readingIn loadGitignore
  rw [if_neg hpath]
  rcases hstat : c.call (sys.lstat (childDisk diskDir gitignoreName)) with ⟨err | st, c₁⟩
  · obtain ⟨-, rfl⟩ := Prod.mk.inj hstat
    exact hunread _ rfl rfl
  obtain ⟨-, rfl⟩ := Prod.mk.inj hstat
  simp only
  split
  · rcases hopen : Context.call _ (sys.fopen (childDisk diskDir gitignoreName)) with
      ⟨err | stream, c₂⟩
    · obtain ⟨-, rfl⟩ := Prod.mk.inj hopen
      simp only
      split
      · exact hunread _ rfl rfl
      · exact hunread _ rfl rfl
    · have hsame : c₂.ancestors = c.ancestors ∧ c₂.rules = c.rules := by
        obtain ⟨-, rfl⟩ := Prod.mk.inj hopen
        exact ⟨rfl, rfl⟩
      have hrunsOut := @runsOut_iff W sys relDir depth (getlines stream.bytes) c₂
      obtain ⟨hancestors, read, hrules, -⟩ :=
        @loadLines_stacks W sys relDir depth (getlines stream.bytes) c₂
      rw [hsame.1] at hancestors
      rw [hsame.2] at hrules hrunsOut
      simp only
      rcases hlines : loadLines sys relDir depth (getlines stream.bytes) c₂ with ⟨_ | _, c₃⟩
      · rw [hlines] at hancestors hrules hrunsOut
        refine ⟨hancestors, ⟨_, hrules, fun _ => depth_of_mem_rulesOfLines⟩, ?_⟩
        simpa [Spoiled] using hrunsOut
      · rw [hlines] at hancestors hrules hrunsOut
        refine ⟨hancestors, ⟨_, hrules, fun _ => depth_of_mem_rulesOfLines⟩, ?_⟩
        simpa [Spoiled] using hrunsOut
  · exact hunread _ rfl rfl

/-- What a part of a walk does in a directory whose rules have less than this depth. -/
structure Disciplined (sys : Sys W) (depth : ℕ) (c c' : Context (Traced W)) : Prop where
  ancestors : c'.ancestors = c.ancestors
  visits : ∃ added, c'.world.2 = c.world.2 ++ added ∧
    (∀ v ∈ added, v.Balanced ∧ (v.RunsOut sys → ¬ v.Restored)) ∧
    ((∀ r ∈ c.rules.items, r.depth < depth) → (∀ v ∈ added, ¬ v.RunsOut sys) →
      c'.rules.items = c.rules.items ∧ ∀ v ∈ added, v.Restored)

namespace Disciplined
variable {depth : ℕ} {c c' c'' : Context (Traced W)}

/-- Nothing is pushed, popped or walked. -/
theorem still (hancestors : c'.ancestors = c.ancestors) (hrules : c'.rules = c.rules)
    (hvisits : c'.world.2 = c.world.2) : Disciplined sys depth c c' where
  ancestors := hancestors
  visits := ⟨[], by simp [hvisits], by simp, fun _ _ => ⟨by rw [hrules], by simp⟩⟩

theorem trans (h : Disciplined sys depth c c') (h' : Disciplined sys depth c' c'') :
    Disciplined sys depth c c'' where
  ancestors := h'.ancestors.trans h.ancestors
  visits := by
    obtain ⟨added, htrace, hadded, hclean⟩ := h.visits
    obtain ⟨added', htrace', hadded', hclean'⟩ := h'.visits
    refine ⟨added ++ added', by rw [htrace', htrace, List.append_assoc], ?_, ?_⟩
    · intro v hv
      exact (List.mem_append.mp hv).elim (hadded v) (hadded' v)
    · intro hdepth hruns
      obtain ⟨hrules, hrestored⟩ :=
        hclean hdepth fun v hv => hruns v (List.mem_append_left _ hv)
      obtain ⟨hrules', hrestored'⟩ :=
        hclean' (hrules ▸ hdepth) fun v hv => hruns v (List.mem_append_right _ hv)
      refine ⟨hrules'.trans hrules, fun v hv => ?_⟩
      exact (List.mem_append.mp hv).elim (hrestored v) (hrestored' v)

end Disciplined

/-- What `walk_dir` does in the directories of a depth. -/
def DescendDisciplined (sys : Sys W) (depth : ℕ)
    (descend : CStr → CStr → Context (Traced W) → ℤ × Context (Traced W)) : Prop :=
  ∀ disk rel c, c.ancestors.length = depth → Disciplined sys depth c (descend disk rel c).2

section Walk
variable {depth : ℕ} {descend : CStr → CStr → Context (Traced W) → ℤ × Context (Traced W)}
  {c : Context (Traced W)}

theorem walkFile_disciplined (disk rel : CStr) (c : Context (Traced W)) :
    Disciplined sys depth c (walkFile (tracing sys) S disk rel c).2 := by
  have hseen := walkFile_seen (S := S) (refines_tracing sys c.world.2) disk rel (c.seen Prod.fst)
  obtain ⟨hancestors, hrules⟩ := @walkFile_stacks W sys S disk rel (c.seen Prod.fst)
  have hrun : walkFile (tracing sys) S disk rel c = _ := hseen
  rw [hrun]
  exact .still hancestors hrules rfl

theorem walkChild_disciplined (hd : DescendDisciplined sys depth descend)
    (hdepth : c.ancestors.length = depth) (disk rel : CStr) :
    Disciplined sys depth c (walkChild (tracing sys) S descend disk rel c).2 := by
  unfold walkChild
  rcases hstat : c.call ((tracing sys).lstat disk) with ⟨err | st, c₁⟩
  · obtain ⟨-, rfl⟩ := Prod.mk.inj hstat
    exact .still rfl rfl rfl
  have hcall : Disciplined sys depth c c₁ := by
    obtain ⟨-, rfl⟩ := Prod.mk.inj hstat
    exact .still rfl rfl rfl
  cases hkind : st.kind with
  | symlink | other => simpa [hkind] using hcall
  | directory =>
    simp only [hkind]
    split
    · exact hcall
    · exact hcall.trans (hd disk rel c₁ (by rw [hcall.ancestors]; exact hdepth))
  | regular =>
    simp only [hkind]
    split
    · exact hcall
    · exact hcall.trans (walkFile_disciplined disk rel c₁)

theorem walkEntry_disciplined (hd : DescendDisciplined sys depth descend)
    (hdepth : c.ancestors.length = depth) (diskDir relDir name : CStr) :
    Disciplined sys depth c (walkEntry (tracing sys) S descend diskDir relDir name c).2 := by
  unfold walkEntry
  split
  · exact .still rfl rfl rfl
  split
  · exact .still rfl rfl rfl
  split
  · exact .still rfl rfl rfl
  split
  · exact .still rfl rfl rfl
  · exact walkChild_disciplined hd hdepth _ _

theorem walkEntries_disciplined (hd : DescendDisciplined sys depth descend)
    (hdepth : c.ancestors.length = depth) (diskDir relDir : CStr) (names : List CStr) :
    Disciplined sys depth c (walkEntries (tracing sys) S descend diskDir relDir names c).2 := by
  induction names generalizing c with
  | nil => exact .still rfl rfl rfl
  | cons name names ih =>
    have hentry := @walkEntry_disciplined W sys S depth descend c hd hdepth diskDir relDir name
    unfold walkEntries
    split
    next heq =>
      rw [heq] at hentry
      exact hentry.trans (ih (by rw [hentry.ancestors]; exact hdepth))
    next heq =>
      rw [heq] at hentry
      exact hentry

/-- What `walk_dir` does in a directory, with the ancestors that it leaves. -/
structure Returned (sys : Sys W) (relDir : CStr) (depth : ℕ)
    (reading : Option (List (List UInt8) × Context W)) (left : List (ℕ × ℕ))
    (c c' : Context (Traced W)) : Prop where
  ancestors : c'.ancestors = left
  visits : ∃ added, c'.world.2 = c.world.2 ++ added ∧
    (∀ v ∈ added, v.Balanced ∧ (v.RunsOut sys → ¬ v.Restored)) ∧
    ((∀ r ∈ c.rules.items, r.depth < depth) → ¬ Spoiled sys relDir depth reading →
      (∀ v ∈ added, ¬ v.RunsOut sys) → c'.rules.items = c.rules.items ∧ ∀ v ∈ added, v.Restored)
  spoiled : Spoiled sys relDir depth reading → c'.rules.items ≠ c.rules.items

/-- A directory from which nothing is read. -/
theorem Returned.unread {relDir : CStr} {left : List (ℕ × ℕ)} {c' : Context (Traced W)}
    (hancestors : c'.ancestors = left) (hrules : c'.rules = c.rules)
    (hvisits : c'.world.2 = c.world.2) : Returned sys relDir depth none left c c' where
  ancestors := hancestors
  visits := ⟨[], by simp [hvisits], by simp, fun _ _ _ => ⟨by rw [hrules], by simp⟩⟩
  spoiled := by
    rintro ⟨lines, c₁, hnone, -⟩
    contradiction

theorem walkOpened_returned (hd : DescendDisciplined sys (depth + 1) descend)
    (hdepth : c.ancestors.length = depth + 1) (diskDir relDir : CStr) (listing : Listing) :
    Returned sys relDir depth (readingIn sys diskDir (c.seen Prod.fst)) c.ancestors.tail c
      (walkOpened (tracing sys) S descend diskDir relDir depth listing c).2 := by
  unfold walkOpened
  by_cases hpath : pathMax ≤ (childDisk diskDir gitignoreName).length
  · rw [if_pos hpath, readingIn, if_pos hpath]
    exact .unread rfl rfl rfl
  rw [if_neg hpath]
  have hload : loadDirRules (tracing sys) diskDir relDir depth c = _ :=
    loadDirRules_seen (refines_tracing sys c.world.2) diskDir relDir depth (c.seen Prod.fst)
  obtain ⟨hancestors, ⟨pushed, hrules, hpushed⟩, hspoiled⟩ :=
    @loadDirRules_stacks W sys diskDir relDir depth (c.seen Prod.fst) hpath
  rw [hload]
  generalize loadDirRules sys diskDir relDir depth (c.seen Prod.fst) = loaded at *
  obtain ⟨status, c₁⟩ := loaded
  simp only [seen, Context.seen_rules, Context.seen_ancestors] at hancestors hrules hspoiled ⊢
  by_cases hstatus : status = 0
  · -- the rules of the directory are on the stack, and its entries are walked
    subst hstatus
    have hunspoiled : ¬ Spoiled sys relDir depth (readingIn sys diskDir (c.seen Prod.fst)) :=
      fun h => (hspoiled.mp h).1 rfl
    have hbegin : (c₁.seen fun w => (w, c.world.2)).ancestors.length = depth + 1 := by
      rw [Context.seen_ancestors, hancestors, hdepth]
    have hleave : ∀ c₃ c₄ : Context (Traced W),
        Disciplined sys (depth + 1) (c₁.seen fun w => (w, c.world.2)) c₃ →
        c₄.ancestors = c₃.ancestors → c₄.rules = c₃.rules → c₄.world.2 = c₃.world.2 →
        Returned sys relDir depth (readingIn sys diskDir (c.seen Prod.fst)) c.ancestors.tail c
          (popRules depth c₄).leave := by
      intro c₃ c₄ hwalk hancestors' hrules' hvisits'
      obtain ⟨added, htrace, hadded, hclean⟩ := hwalk.visits
      refine ⟨?_, ⟨added, hvisits'.trans htrace, hadded, ?_⟩, fun h => absurd h hunspoiled⟩
      · simp only [Context.leave, popRules, hancestors', hwalk.ancestors, Context.seen_ancestors,
          hancestors]
      · intro hbelow _ hruns
        have hwithin : ∀ r ∈ c₁.rules.items, r.depth < depth + 1 := by
          intro r hr
          rw [hrules, List.mem_append] at hr
          rcases hr with hr | hr
          · exact Nat.lt_succ_of_lt (hbelow r hr)
          · exact (hpushed r hr).le.trans_lt (Nat.lt_succ_self depth)
        obtain ⟨hkept, hrestored⟩ := hclean hwithin hruns
        refine ⟨?_, hrestored⟩
        exact popRules_append (by rw [hrules', hkept, Context.seen_rules, hrules])
          (fun r hr => (hbelow r hr).ne) hpushed
    have hentries := @walkEntries_disciplined W sys S (depth + 1) descend _ hd hbegin diskDir
      relDir listing.names
    simp only
    split
    next heq =>
      rw [heq] at hentries
      split
      · exact hleave _ _ hentries rfl rfl rfl
      · exact hleave _ _ hentries rfl rfl rfl
    next heq =>
      rw [heq] at hentries
      exact hleave _ _ hentries rfl rfl rfl
  · -- reading has failed, and nothing is popped
    have hfailed : Returned sys relDir depth (readingIn sys diskDir (c.seen Prod.fst))
        c.ancestors.tail c (c₁.seen fun w => (w, c.world.2)).leave := by
      refine ⟨?_, ⟨[], by simp [Context.leave, Context.seen], by simp, ?_⟩, ?_⟩
      · simp only [Context.leave, Context.seen_ancestors, hancestors]
      · intro _ hunspoiled _
        refine ⟨?_, by simp⟩
        by_contra hne
        exact hunspoiled (hspoiled.mpr ⟨hstatus, hne⟩)
      · intro h
        exact (hspoiled.mp h).2
    split
    next heq => exact absurd (Prod.mk.inj heq).1 hstatus
    next heq =>
      obtain ⟨-, rfl⟩ := Prod.mk.inj heq
      exact hfailed

/-- The body of `walk_dir`, in a directory at its depth. -/
theorem walkBody_returned {levels : ℕ} (hd : DescendDisciplined sys (depth + 1) descend)
    (hlevels : maxDepth - (levels + 1) = depth) (hdepth : c.ancestors.length = depth)
    (diskDir relDir : CStr) :
    Returned sys relDir depth (readingFrom sys diskDir (c.seen Prod.fst)) c.ancestors c
      (walkBody (tracing sys) S descend levels diskDir relDir c).2 := by
  unfold walkBody readingFrom
  rcases hstat : sys.lstat diskDir c.world.1 with ⟨err | st, w⟩
  · simp only [Context.call, tracing, beside, Context.seen, hstat]
    exact .unread rfl rfl rfl
  simp only [Context.call, tracing, beside, Context.seen, hstat, List.contains_iff_mem]
  split
  · exact .unread rfl rfl rfl
  split
  · exact .unread rfl rfl rfl
  rcases hopen : sys.opendir diskDir w with ⟨err | listing, w'⟩
  · simp only
    exact .unread rfl rfl rfl
  · simp only [hlevels]
    have hopened := @walkOpened_returned W sys S depth descend
      { c with ancestors := (st.dev, st.ino) :: c.ancestors, world := (w', c.world.2) } hd
      (by rw [List.length_cons, hdepth]) diskDir relDir listing
    exact ⟨hopened.ancestors, hopened.visits, hopened.spoiled⟩

end Walk

/-- A call that is written down when it returns. -/
theorem noteVisit_disciplined {levels : ℕ} {diskDir relDir : CStr} {c : Context (Traced W)}
    {r : ℤ × Context (Traced W)} {reading : Option (List (List UInt8) × Context W)}
    (hdepth : c.ancestors.length = maxDepth - levels)
    (hreading : Spoiled sys relDir (maxDepth - levels) reading ↔
      levels ≠ 0 ∧
        Spoiled sys relDir (maxDepth - levels) (readingFrom sys diskDir (c.seen Prod.fst)))
    (h : Returned sys relDir (maxDepth - levels) reading c.ancestors c r.2) :
    Disciplined sys (maxDepth - levels) c (noteVisit levels diskDir relDir c r).2 where
  ancestors := h.ancestors
  visits := by
    obtain ⟨added, htrace, hadded, hclean⟩ := h.visits
    let visit : Visit W :=
      ⟨levels, diskDir, relDir, c.seen Prod.fst, r.1, r.2.seen Prod.fst⟩
    have hruns : visit.RunsOut sys ↔ Spoiled sys relDir (maxDepth - levels) reading :=
      hreading.symm
    refine ⟨added ++ [visit], ?_, ?_, ?_⟩
    · simp only [noteVisit, htrace, List.append_assoc]
      rfl
    · intro v hv
      rcases List.mem_append.mp hv with hv | hv
      · exact hadded v hv
      · obtain rfl := List.mem_singleton.mp hv
        exact ⟨⟨hdepth, h.ancestors⟩, fun hspoiled => h.spoiled (hruns.mp hspoiled)⟩
    · intro hbelow hnone
      have hlast := hnone visit (by simp)
      obtain ⟨hrules, hrestored⟩ := hclean hbelow (mt hruns.mpr hlast)
        fun v hv => hnone v (List.mem_append_left _ hv)
      refine ⟨hrules, fun v hv => ?_⟩
      rcases List.mem_append.mp hv with hv | hv
      · exact hrestored v hv
      · obtain rfl := List.mem_singleton.mp hv
        exact hrules

/-- `walk_dir` at any depth, with all the calls in it. -/
theorem walkDirTraced_disciplined (sys : Sys W) (S : StreamHash) {levels : ℕ}
    (hlevels : levels ≤ maxDepth) :
    DescendDisciplined sys (maxDepth - levels) (walkDirTraced sys S levels) := by
  induction levels with
  | zero =>
    intro disk rel c hdepth
    rw [walkDirTraced]
    refine noteVisit_disciplined hdepth ?_ (.unread rfl rfl rfl)
    simp [Spoiled]
  | succ levels ih =>
    intro disk rel c hdepth
    have hbelow := ih (Nat.le_of_succ_le hlevels)
    rw [walkDirTraced]
    have hnext : maxDepth - levels = maxDepth - (levels + 1) + 1 := by omega
    rw [hnext] at hbelow
    exact noteVisit_disciplined hdepth (by simp) (walkBody_returned hbelow rfl hdepth disk rel)

/-- In every walk, every call of `walk_dir` finds as many ancestors as its depth, which is at most
that of the array, and leaves them as they were. Every call leaves the rules as they were exactly
if in no call memory runs out for a line of a `.gitignore` that has already given a rule. -/
theorem visits_disciplined_iff (sys : Sys W) (S : StreamHash) (normDir : CStr) (w : W) :
    (∀ v ∈ visits sys S normDir w,
        v.entry.ancestors.length = v.depth ∧ v.depth ≤ maxDepth ∧
          v.exit.ancestors = v.entry.ancestors ∧ v.exit.rules.items = v.entry.rules.items) ↔
      ∀ v ∈ visits sys S normDir w, ¬ v.RunsOut sys := by
  obtain ⟨added, htrace, hadded, hclean⟩ :=
    (walkDirTraced_disciplined sys S le_rfl normDir ∅ (.init (w, [])) rfl).visits
  have hvisits : visits sys S normDir w = added := htrace
  rw [hvisits]
  constructor
  · intro h v hv hruns
    exact (hadded v hv).2 hruns (h v hv).2.2.2
  · intro h v hv
    have hbelow : ∀ r ∈ (Context.init (w, ([] : List (Visit W)))).rules.items,
        r.depth < maxDepth - maxDepth := fun _ hr => absurd hr List.not_mem_nil
    have hbalanced := (hadded v hv).1
    exact ⟨hbalanced.1, Nat.sub_le _ _, hbalanced.2, (hclean hbelow h).2 v hv⟩

/-- A directory with a `.gitignore` of two lines, and memory for the first one. -/
def shortSys : Sys ℕ where
  lstat path n := (.ok (if path = .lit "d" then ⟨.directory, 1, 1⟩ else ⟨.regular, 1, 2⟩), n)
  opendir _ n := (.ok ⟨[], none⟩, n)
  fopen _ n := (.ok ⟨ascii "a\nb\n", false⟩, n)
  openRead _ n := (.ok ⟨[], none, none⟩, n)
  malloc n := (n < 4, n + 1)
  fnmatch _ _ _ := false
  printf n := (true, n)
  fflush n := (true, n)
  strerror _ := []

/-- The rule of the first line stays on the stack. -/
theorem visits_keep_rule :
    ¬ ∀ (W : Type) (sys : Sys W) (S : StreamHash) (normDir : CStr) (w : W),
      ∀ v ∈ visits sys S normDir w,
        v.entry.ancestors.length = v.depth ∧ v.depth ≤ maxDepth ∧
          v.exit.ancestors = v.entry.ancestors ∧ v.exit.rules.items = v.entry.rules.items := by
  intro h
  have hrun : (visits shortSys sha256Stream (.lit "d") 0).map
      (fun v => (v.entry.rules.items.length, v.exit.rules.items.length)) = [(0, 1)] := by
    rfl
  obtain ⟨v, hv, hlengths⟩ := List.mem_map.mp (hrun ▸ List.mem_singleton.mpr rfl)
  have hrestored := congrArg List.length (h ℕ shortSys sha256Stream (.lit "d") 0 v hv).2.2.2
  rw [(Prod.mk.inj hlengths).1, (Prod.mk.inj hlengths).2] at hrestored
  contradiction

end Treehash
