import LinuxUtilities.Treehash.Manifest

/-! What the calls of a run do to its outcome: none of the walk writes to standard
output, and a failure that the code looks at ends the run. -/
namespace Treehash
open CString

/-- A mark on the state of the system that only a failing call can set. Right after a
directory is opened its `.gitignore` is looked up, and a failure of that sets nothing. -/
structure Alarm {W : Type} (sys : Sys W) (opened bad : W → Prop) : Prop where
  lstat : ∀ p w, bad (sys.lstat p w).2 → bad w ∨ ∃ err, (sys.lstat p w).1 = .error err
  probe : ∀ p w, opened w → bad (sys.lstat p w).2 → bad w
  opendir : ∀ p w, bad (sys.opendir p w).2 → bad w ∨
    (∃ err, (sys.opendir p w).1 = .error err) ∨
      ∃ listing, (sys.opendir p w).1 = .ok listing ∧ listing.error ≠ none
  opened : ∀ p w listing, (sys.opendir p w).1 = .ok listing → opened (sys.opendir p w).2
  fopen : ∀ p w, bad (sys.fopen p w).2 → bad w ∨
    ∃ err, (sys.fopen p w).1 = .error err ∧ err ≠ ENOENT
  openRead : ∀ p w, bad (sys.openRead p w).2 → bad w ∨
    (∃ err, (sys.openRead p w).1 = .error err) ∨
      ∃ file, (sys.openRead p w).1 = .ok file ∧ (file.readError ≠ none ∨ file.closeError ≠ none)
  malloc : ∀ w, bad (sys.malloc w).2 → bad w ∨ (sys.malloc w).1 = false
  printf : ∀ w, bad (sys.printf w).2 → bad w
  fflush : ∀ w, bad (sys.fflush w).2 → bad w

/-- No mark at all is an alarm of every system. -/
theorem Alarm.never {W : Type} (sys : Sys W) : Alarm sys (fun _ => True) (fun _ => False) where
  lstat _ _ h := h.elim
  probe _ _ _ h := h
  opendir _ _ h := h.elim
  opened _ _ _ _ := trivial
  fopen _ _ h := h.elim
  openRead _ _ h := h.elim
  malloc _ h := h.elim
  printf _ h := h
  fflush _ h := h

/-- What a part of the run keeps: standard output, and when it succeeds the alarm. -/
structure Keeps {W : Type} (bad : W → Prop) (ok : Prop) (c c' : Context W) : Prop where
  stdout : c'.stdout = c.stdout
  quiet : ok → bad c'.world → bad c.world

section Walk
variable {W : Type} {sys : Sys W} {S : StreamHash} {opened bad : W → Prop} {c c' c₁ : Context W}

namespace Keeps
variable {ok ok₁ : Prop}

theorem refl (c : Context W) : Keeps bad ok c c := ⟨rfl, fun _ h => h⟩

theorem trans (h : Keeps bad ok₁ c c₁) (hok : ok → ok₁) (h' : Keeps bad ok c₁ c') :
    Keeps bad ok c c' :=
  ⟨h'.stdout.trans h.stdout, fun hq hb => h.quiet (hok hq) (h'.quiet hq hb)⟩

theorem imp (h : Keeps bad ok₁ c c') (hok : ok → ok₁) : Keeps bad ok c c' :=
  ⟨h.stdout, fun hq => h.quiet (hok hq)⟩

/-- What fails need not keep the alarm. -/
theorem failed (hok : ¬ ok) (h : c'.stdout = c.stdout) : Keeps bad ok c c' :=
  ⟨h, fun hq => (hok hq).elim⟩

end Keeps

theorem reserve_keeps (h : Alarm sys opened bad) {α : Type} {first : ℕ} {arr : GrowArray α}
    {r : Option (GrowArray α)} (heq : reserve sys first arr c = (r, c')) :
    Keeps bad (r.isSome = true) c c' := by
  unfold reserve at heq
  split at heq
  · simp only [Context.call_fst, Context.call_snd, Prod.mk.injEq] at heq
    obtain ⟨rfl, rfl⟩ := heq
    refine ⟨rfl, fun hok hbad => ?_⟩
    rcases h.malloc _ hbad with hb | hfail
    · exact hb
    · simp [hfail] at hok
  · obtain ⟨-, rfl⟩ := Prod.mk.inj heq
    exact .refl c

/-- An allocation that is checked. -/
theorem malloc_keeps (h : Alarm sys opened bad) (c : Context W) :
    Keeps bad ((c.call sys.malloc).1 = true) c (c.call sys.malloc).2 := by
  refine ⟨rfl, fun hok hbad => ?_⟩
  rcases h.malloc _ hbad with hb | hfail
  · exact hb
  · rw [Context.call_fst, hfail] at hok
    contradiction

theorem addFileEntry_keeps (h : Alarm sys opened bad) {path : CStr} {hex : Hex} {r : Bool}
    (heq : addFileEntry sys path hex c = (r, c')) : Keeps bad (r = true) c c' := by
  unfold addFileEntry at heq
  cases hr : reserve sys 64 c.entries c with
  | mk room c₁ =>
    have hroom := reserve_keeps h hr
    rw [hr] at heq
    cases room with
    | none =>
      obtain ⟨rfl, rfl⟩ := Prod.mk.inj heq
      exact .failed (by decide) hroom.stdout
    | some arr =>
      have hm := malloc_keeps h { c₁ with entries := arr }
      simp only at heq
      split at heq
      next hok =>
        obtain ⟨rfl, rfl⟩ := Prod.mk.inj heq
        exact ⟨hroom.stdout, fun _ hbad => hroom.quiet rfl (hm.quiet hok hbad)⟩
      · obtain ⟨rfl, rfl⟩ := Prod.mk.inj heq
        exact .failed (by decide) hroom.stdout

theorem addIgnoreRule_keeps (h : Alarm sys opened bad) {rule : IgnoreRule} {r : Bool}
    (heq : addIgnoreRule sys rule c = (r, c')) : Keeps bad (r = true) c c' := by
  unfold addIgnoreRule at heq
  cases hr : reserve sys 32 c.rules c with
  | mk room c₁ =>
    have hroom := reserve_keeps h hr
    rw [hr] at heq
    cases room with
    | none =>
      obtain ⟨rfl, rfl⟩ := Prod.mk.inj heq
      exact .failed (by decide) hroom.stdout
    | some arr =>
      have hm := malloc_keeps h { c₁ with rules := arr }
      have hm' := malloc_keeps h (({ c₁ with rules := arr } : Context W).call sys.malloc).2
      simp only at heq
      split at heq
      next hok =>
        split at heq
        next hok' =>
          obtain ⟨rfl, rfl⟩ := Prod.mk.inj heq
          exact ⟨hroom.stdout, fun _ hbad =>
            hroom.quiet rfl (hm.quiet hok (hm'.quiet hok' hbad))⟩
        · obtain ⟨rfl, rfl⟩ := Prod.mk.inj heq
          exact .failed (by decide) hroom.stdout
      · obtain ⟨rfl, rfl⟩ := Prod.mk.inj heq
        exact .failed (by decide) hroom.stdout

theorem loadLines_keeps (h : Alarm sys opened bad) {dirRel : CStr} {depth : ℕ}
    {lines : List (List UInt8)} {r : Bool}
    (heq : loadLines sys dirRel depth lines c = (r, c')) : Keeps bad (r = true) c c' := by
  induction lines generalizing c with
  | nil =>
    obtain ⟨rfl, rfl⟩ := Prod.mk.inj heq
    exact .refl c
  | cons line lines ih =>
    unfold loadLines at heq
    split at heq
    · exact ih heq
    · have hm := malloc_keeps h c
      simp only at heq
      split at heq
      next hok =>
        split at heq
        · exact hm.trans (fun _ => hok) (ih heq)
        · split at heq
          next hadd =>
            have hrule := addIgnoreRule_keeps h hadd
            exact (hm.trans (fun _ => hok) hrule).trans (fun _ => rfl) (ih heq)
          next hadd =>
            have hrule := addIgnoreRule_keeps h hadd
            obtain ⟨rfl, rfl⟩ := Prod.mk.inj heq
            exact .failed (by decide) (hrule.stdout.trans hm.stdout)
      · obtain ⟨rfl, rfl⟩ := Prod.mk.inj heq
        exact .failed (by decide) hm.stdout

theorem loadGitignore_keeps (h : Alarm sys opened bad) {path relDir : CStr} {depth : ℕ} {r : ℤ}
    (heq : loadGitignore sys path relDir depth c = (r, c')) : Keeps bad (r = 0) c c' := by
  unfold loadGitignore at heq
  split at heq
  next err c₁ hcall =>
    obtain ⟨herr, rfl⟩ := Prod.mk.inj hcall
    split at heq
    next hmissing =>
      obtain ⟨rfl, rfl⟩ := Prod.mk.inj heq
      refine ⟨rfl, fun _ hbad => ?_⟩
      rcases h.fopen _ _ hbad with hb | ⟨err', herr', hne⟩
      · exact hb
      · obtain rfl := Except.error.inj (herr.symm.trans herr')
        exact (hne hmissing).elim
    · obtain ⟨rfl, rfl⟩ := Prod.mk.inj heq
      exact .failed (by decide) rfl
  next stream c₁ hcall =>
    obtain ⟨hstream, rfl⟩ := Prod.mk.inj hcall
    have hopen : Keeps bad True c { c with world := (sys.fopen path c.world).2 } := by
      refine ⟨rfl, fun _ hbad => ?_⟩
      rcases h.fopen _ _ hbad with hb | ⟨err, herr, -⟩
      · exact hb
      · exact absurd (hstream.symm.trans herr) (by simp)
    split at heq
    next hload =>
      obtain ⟨rfl, rfl⟩ := Prod.mk.inj heq
      exact hopen.trans (fun _ => trivial) ((loadLines_keeps h hload).imp fun _ => rfl)
    next hload =>
      obtain ⟨rfl, rfl⟩ := Prod.mk.inj heq
      exact .failed (by decide) ((loadLines_keeps h hload).stdout.trans hopen.stdout)

theorem loadDirRules_keeps (h : Alarm sys opened bad) {diskDir relDir : CStr} {depth : ℕ} {r : ℤ}
    (ho : opened c.world) (heq : loadDirRules sys diskDir relDir depth c = (r, c')) :
    Keeps bad (r = 0) c c' := by
  have hprobe : Keeps bad True c
      { c with world := (sys.lstat (childDisk diskDir gitignoreName) c.world).2 } :=
    ⟨rfl, fun _ => h.probe _ _ ho⟩
  unfold loadDirRules at heq
  split at heq
  next hcall =>
    obtain ⟨-, rfl⟩ := Prod.mk.inj hcall
    obtain ⟨rfl, rfl⟩ := Prod.mk.inj heq
    exact hprobe.trans (fun _ => trivial) (.refl _)
  next hcall =>
    obtain ⟨-, rfl⟩ := Prod.mk.inj hcall
    split at heq
    · exact hprobe.trans (fun _ => trivial) (loadGitignore_keeps h heq)
    · obtain ⟨rfl, rfl⟩ := Prod.mk.inj heq
      exact hprobe.trans (fun _ => trivial) (.refl _)

theorem hashFileSha256_keeps (h : Alarm sys opened bad) {path : CStr} {r : Except Errno Hex}
    (heq : hashFileSha256 sys S path c = (r, c')) : Keeps bad (∃ hex, r = .ok hex) c c' := by
  unfold hashFileSha256 at heq
  split at heq
  next hcall =>
    obtain ⟨-, rfl⟩ := Prod.mk.inj hcall
    obtain ⟨rfl, rfl⟩ := Prod.mk.inj heq
    exact .failed (by simp) rfl
  next file c₁ hcall =>
    obtain ⟨hfile, rfl⟩ := Prod.mk.inj hcall
    split at heq
    · obtain ⟨rfl, rfl⟩ := Prod.mk.inj heq
      exact .failed (by simp) rfl
    · obtain ⟨rfl, rfl⟩ := Prod.mk.inj heq
      exact .failed (by simp) rfl
    next hread hclose =>
      obtain ⟨rfl, rfl⟩ := Prod.mk.inj heq
      refine ⟨rfl, fun _ hbad => ?_⟩
      rcases h.openRead _ _ hbad with hb | ⟨err, herr⟩ | ⟨file', hfile', hbroken⟩
      · exact hb
      · exact absurd (hfile.symm.trans herr) (by simp)
      · obtain rfl := Except.ok.inj (hfile.symm.trans hfile')
        simp [hread, hclose] at hbroken

theorem walkFile_keeps (h : Alarm sys opened bad) {disk rel : CStr} {r : ℤ}
    (heq : walkFile sys S disk rel c = (r, c')) : Keeps bad (r = 0) c c' := by
  unfold walkFile at heq
  split at heq
  next hhash =>
    obtain ⟨rfl, rfl⟩ := Prod.mk.inj heq
    exact .failed (by decide) (hashFileSha256_keeps h hhash).stdout
  next hhash =>
    have hfile := hashFileSha256_keeps h hhash
    split at heq
    next hadd =>
      obtain ⟨rfl, rfl⟩ := Prod.mk.inj heq
      exact .failed (by decide) ((addFileEntry_keeps h hadd).stdout.trans hfile.stdout)
    next hadd =>
      obtain ⟨rfl, rfl⟩ := Prod.mk.inj heq
      exact hfile.trans (fun _ => ⟨_, rfl⟩) ((addFileEntry_keeps h hadd).imp fun _ => rfl)

/-- `walk_dir` on a subdirectory keeps the alarm. -/
def DescendKeeps (bad : W → Prop) (descend : CStr → CStr → Context W → ℤ × Context W) : Prop :=
  ∀ {disk rel : CStr} {r : ℤ} {c c' : Context W}, descend disk rel c = (r, c') →
    Keeps bad (r = 0) c c'

section Entries
variable {descend : CStr → CStr → Context W → ℤ × Context W}

theorem walkChild_keeps (h : Alarm sys opened bad) (hd : DescendKeeps bad descend)
    {disk rel : CStr} {r : ℤ} (heq : walkChild sys S descend disk rel c = (r, c')) :
    Keeps bad (r = 0) c c' := by
  unfold walkChild at heq
  split at heq
  next hcall =>
    obtain ⟨-, rfl⟩ := Prod.mk.inj hcall
    obtain ⟨rfl, rfl⟩ := Prod.mk.inj heq
    exact .failed (by decide) rfl
  next st c₁ hcall =>
    obtain ⟨hst, rfl⟩ := Prod.mk.inj hcall
    have hstat : Keeps bad True c { c with world := (sys.lstat disk c.world).2 } := by
      refine ⟨rfl, fun _ hbad => ?_⟩
      rcases h.lstat _ _ hbad with hb | ⟨err, herr⟩
      · exact hb
      · exact absurd (hst.symm.trans herr) (by simp)
    have hskip {r : ℤ} (heq : ((0 : ℤ), ({ c with world := (sys.lstat disk c.world).2 } :
        Context W)) = (r, c')) : Keeps bad (r = 0) c c' := by
      obtain ⟨rfl, rfl⟩ := Prod.mk.inj heq
      exact hstat.trans (fun _ => trivial) (.refl _)
    split at heq
    · exact hskip heq
    · split at heq
      · exact hskip heq
      · exact hstat.trans (fun _ => trivial) (hd heq)
    · split at heq
      · exact hskip heq
      · exact hstat.trans (fun _ => trivial) (walkFile_keeps h heq)
    · exact hskip heq

theorem walkEntry_keeps (h : Alarm sys opened bad) (hd : DescendKeeps bad descend)
    {diskDir relDir name : CStr} {r : ℤ}
    (heq : walkEntry sys S descend diskDir relDir name c = (r, c')) :
    Keeps bad (r = 0) c c' := by
  have hskip (heq : ((0 : ℤ), c) = (r, c')) : Keeps bad (r = 0) c c' := by
    obtain ⟨rfl, rfl⟩ := Prod.mk.inj heq
    exact .refl c
  have hstop {text : List UInt8} (heq : ((2 : ℤ), c.fputs text) = (r, c')) :
      Keeps bad (r = 0) c c' := by
    obtain ⟨rfl, rfl⟩ := Prod.mk.inj heq
    exact .failed (by decide) rfl
  unfold walkEntry at heq
  split at heq
  · exact hskip heq
  · split at heq
    · exact hskip heq
    · split at heq
      · exact hstop heq
      · split at heq
        · exact hstop heq
        · exact walkChild_keeps h hd heq

theorem walkEntries_keeps (h : Alarm sys opened bad) (hd : DescendKeeps bad descend)
    {diskDir relDir : CStr} {names : List CStr} {r : ℤ}
    (heq : walkEntries sys S descend diskDir relDir names c = (r, c')) :
    Keeps bad (r = 0) c c' := by
  induction names generalizing c with
  | nil =>
    obtain ⟨rfl, rfl⟩ := Prod.mk.inj heq
    exact .refl c
  | cons name names ih =>
    unfold walkEntries at heq
    split at heq
    next hentry =>
      exact (walkEntry_keeps h hd hentry).trans (fun _ => rfl) (ih heq)
    next status c₁ hne hentry =>
      obtain ⟨rfl, rfl⟩ := Prod.mk.inj heq
      exact walkEntry_keeps h hd hentry

theorem walkOpened_keeps (h : Alarm sys opened bad) (hd : DescendKeeps bad descend)
    {diskDir relDir : CStr} {depth : ℕ} {listing : Listing} {r : ℤ} (ho : opened c.world)
    (heq : walkOpened sys S descend diskDir relDir depth listing c = (r, c')) :
    Keeps bad (r = 0) c c' ∧ (r = 0 → listing.error = none) := by
  unfold walkOpened at heq
  split at heq
  · obtain ⟨rfl, rfl⟩ := Prod.mk.inj heq
    exact ⟨.failed (by decide) rfl, by simp⟩
  · split at heq
    next hrules =>
      have hload := loadDirRules_keeps h ho hrules
      split at heq
      next hentries =>
        have hwalk := hload.trans (fun _ => rfl) (walkEntries_keeps h hd hentries)
        split at heq
        · obtain ⟨rfl, rfl⟩ := Prod.mk.inj heq
          exact ⟨.failed (by decide) hwalk.stdout, by simp⟩
        next hend =>
          obtain ⟨rfl, rfl⟩ := Prod.mk.inj heq
          exact ⟨⟨hwalk.stdout, fun _ hbad => hwalk.quiet rfl hbad⟩, fun _ => hend⟩
      next status c₂ hne hentries =>
        have hwalk := hload.trans (fun _ => rfl) (walkEntries_keeps h hd hentries)
        obtain ⟨rfl, rfl⟩ := Prod.mk.inj heq
        exact ⟨.failed hne hwalk.stdout, fun h0 => (hne h0).elim⟩
    next status c₁ hne hrules =>
      have hload := loadDirRules_keeps h ho hrules
      obtain ⟨rfl, rfl⟩ := Prod.mk.inj heq
      exact ⟨.failed hne hload.stdout, fun h0 => (hne h0).elim⟩

end Entries

theorem walkDir_keeps (h : Alarm sys opened bad) (levels : ℕ) :
    DescendKeeps bad (walkDir sys S levels) := by
  induction levels with
  | zero =>
    intro disk rel r c c' heq
    obtain ⟨rfl, rfl⟩ := Prod.mk.inj heq
    exact .failed (by decide) rfl
  | succ levels ih =>
    intro disk rel r c₀ c' heq
    have hstop {c : Context W} {text : List UInt8} {r : ℤ}
        (heq : ((2 : ℤ), c.fputs text) = (r, c')) (hout : c.stdout = c₀.stdout) :
        Keeps bad (r = 0) c₀ c' := by
      obtain ⟨rfl, rfl⟩ := Prod.mk.inj heq
      exact .failed (by decide) hout
    unfold walkDir walkBody at heq
    split at heq
    next hcall =>
      obtain ⟨-, rfl⟩ := Prod.mk.inj hcall
      exact hstop heq rfl
    next st c₁ hcall =>
      obtain ⟨hst, rfl⟩ := Prod.mk.inj hcall
      split at heq
      · exact hstop heq rfl
      · split at heq
        · exact hstop heq rfl
        · simp only at heq
          split at heq
          next hcall =>
            obtain ⟨-, rfl⟩ := Prod.mk.inj hcall
            obtain ⟨rfl, rfl⟩ := Prod.mk.inj heq
            exact .failed (by decide) rfl
          next listing c₂ hcall =>
            obtain ⟨hlisting, rfl⟩ := Prod.mk.inj hcall
            obtain ⟨hkeeps, hend⟩ := walkOpened_keeps h ih (h.opened _ _ _ hlisting) heq
            refine ⟨hkeeps.stdout, fun hok hbad => ?_⟩
            -- neither opening nor reading the directory failed, and its status did not either
            rcases h.opendir _ _ (hkeeps.quiet hok hbad) with hb | ⟨err, herr⟩ | ⟨l, hl, herr⟩
            · rcases h.lstat _ _ hb with hb | ⟨err, herr⟩
              · exact hb
              · exact absurd (hst.symm.trans herr) (by simp)
            · exact absurd (hlisting.symm.trans herr) (by simp)
            · obtain rfl := Except.ok.inj (hlisting.symm.trans hl)
              exact (herr (hend hok)).elim

theorem merkleLoop_keeps (h : Alarm sys opened bad) {current : List Digest}
    {r : Option (List Digest)} (heq : merkleLoop sys S current c = (r, c')) :
    Keeps bad (r.isSome = true) c c' := by
  fun_induction merkleLoop sys S current c with
  | case1 current c hlt hbig =>
    obtain ⟨rfl, rfl⟩ := Prod.mk.inj heq
    exact .failed (by decide) rfl
  | case2 current c hlt hbig m hm ih =>
    exact (malloc_keeps h c).trans (fun _ => hm) (ih heq)
  | case3 current c hlt hbig m hm =>
    obtain ⟨rfl, rfl⟩ := Prod.mk.inj heq
    exact .failed (by decide) rfl
  | case4 current c hle =>
    obtain ⟨rfl, rfl⟩ := Prod.mk.inj heq
    exact .refl c

theorem computeMerkleRoot_keeps (h : Alarm sys opened bad) {entries : List FileEntry}
    {r : Option (List UInt8)} (heq : computeMerkleRoot sys S entries c = (r, c')) :
    Keeps bad (r.isSome = true) c c' := by
  have hm := malloc_keeps h c
  unfold computeMerkleRoot at heq
  split at heq
  · obtain ⟨rfl, rfl⟩ := Prod.mk.inj heq
    exact .refl c
  · split at heq
    · obtain ⟨rfl, rfl⟩ := Prod.mk.inj heq
      exact .failed (by decide) rfl
    · simp only at heq
      split at heq
      next hok =>
        split at heq
        next hloop =>
          obtain ⟨rfl, rfl⟩ := Prod.mk.inj heq
          exact hm.trans (fun _ => hok) ((merkleLoop_keeps h hloop).imp fun _ => rfl)
        next hloop =>
          obtain ⟨rfl, rfl⟩ := Prod.mk.inj heq
          exact .failed (by decide) ((merkleLoop_keeps h hloop).stdout.trans hm.stdout)
        next hloop =>
          obtain ⟨rfl, rfl⟩ := Prod.mk.inj heq
          exact .failed (by decide) ((merkleLoop_keeps h hloop).stdout.trans hm.stdout)
      · obtain ⟨rfl, rfl⟩ := Prod.mk.inj heq
        exact .failed (by decide) hm.stdout

/-- The reduction leaves the entries alone. -/
theorem merkleLoop_entries {current : List Digest} {r : Option (List Digest)}
    (heq : merkleLoop sys S current c = (r, c')) : c'.entries = c.entries := by
  fun_induction merkleLoop sys S current c with
  | case1 current c hlt hbig => rw [← (Prod.mk.inj heq).2, Context.fputs]
  | case2 current c hlt hbig m hm ih => exact ih heq
  | case3 current c hlt hbig m hm => rw [← (Prod.mk.inj heq).2]; rfl
  | case4 current c hle => rw [← (Prod.mk.inj heq).2]

theorem computeMerkleRoot_entries {entries : List FileEntry} {r : Option (List UInt8)}
    (heq : computeMerkleRoot sys S entries c = (r, c')) : c'.entries = c.entries := by
  unfold computeMerkleRoot at heq
  split at heq
  · rw [← (Prod.mk.inj heq).2]
  · split at heq
    · rw [← (Prod.mk.inj heq).2, Context.fputs]
    · simp only at heq
      split at heq
      · split at heq
        next hloop => rw [← (Prod.mk.inj heq).2, merkleLoop_entries hloop]; rfl
        next hloop => rw [← (Prod.mk.inj heq).2, merkleLoop_entries hloop]; rfl
        next hloop => rw [← (Prod.mk.inj heq).2, merkleLoop_entries hloop]; rfl
      · rw [← (Prod.mk.inj heq).2]
        rfl

/-- What a step of printing keeps: the entries, the alarm, and what was printed. -/
structure Prints (bad : W → Prop) (r : Bool) (text : List UInt8) (c c' : Context W) : Prop where
  stdout : r = true → c'.stdout = c.stdout ++ text
  entries : c'.entries = c.entries
  quiet : bad c'.world → bad c.world

theorem printStdout_keeps (h : Alarm sys opened bad) {text : List UInt8} {r : Bool}
    (heq : printStdout sys text c = (r, c')) : Prints bad r text c c' := by
  unfold printStdout at heq
  simp only at heq
  split at heq
  · obtain ⟨rfl, rfl⟩ := Prod.mk.inj heq
    exact ⟨fun _ => rfl, rfl, h.printf _⟩
  · obtain ⟨rfl, rfl⟩ := Prod.mk.inj heq
    exact ⟨by simp, rfl, h.printf _⟩

theorem printEntries_keeps (h : Alarm sys opened bad) {entries : List FileEntry} {r : Bool}
    (heq : printEntries sys entries c = (r, c')) :
    Prints bad r (entries.flatMap leafRecord) c c' := by
  induction entries generalizing c with
  | nil =>
    obtain ⟨rfl, rfl⟩ := Prod.mk.inj heq
    exact ⟨fun _ => by simp, rfl, id⟩
  | cons e entries ih =>
    unfold printEntries at heq
    split at heq
    next hprint =>
      have hfirst := printStdout_keeps h hprint
      have hrest := ih heq
      refine ⟨fun hr => ?_, hrest.entries.trans hfirst.entries, hfirst.quiet ∘ hrest.quiet⟩
      rw [hrest.stdout hr, hfirst.stdout rfl, List.flatMap_cons, List.append_assoc]
    next hprint =>
      have hfirst := printStdout_keeps h hprint
      obtain ⟨rfl, rfl⟩ := Prod.mk.inj heq
      exact ⟨by simp, hfirst.entries, hfirst.quiet⟩

/-- What `main` prints after the walk, and that no failure before it is printed over. -/
theorem printTree_keeps (h : Alarm sys opened bad) {q : QSort compareFileEntries} {status : ℕ}
    (heq : printTree sys S q c = (status, c')) :
    (status = 0 → c'.stdout = c.stdout ++ manifestText S c'.entries.items) ∧
      c'.entries.items = q.sort c.entries.items ∧
      (¬ bad c.world → bad c'.world → status = 2 ∧ c'.stdout = c.stdout) := by
  unfold printTree at heq
  extract_lets items at heq
  have hsort : items = q.sort c.entries.items := by
    simp only [items]
    split
    · rfl
    next hnil =>
      rw [List.length_eq_zero_iff.mp (Nat.eq_zero_of_not_pos hnil)]
      exact (List.perm_nil.mp (q.perm [])).symm
  rcases hroot : computeMerkleRoot sys S items { c with entries.items := items } with ⟨r, c₁⟩
  have hkeeps := computeMerkleRoot_keeps h hroot
  have hsame := computeMerkleRoot_entries hroot
  rw [hroot] at heq
  cases r with
  | none =>
    obtain ⟨rfl, rfl⟩ := Prod.mk.inj heq
    exact ⟨by simp, by rw [hsame, hsort], fun _ _ => ⟨rfl, hkeeps.stdout⟩⟩
  | some root =>
    have hmanifest : root = merkleRoot S items := by
      rcases computeMerkleRoot_some hroot with ⟨hnil, hr⟩ | ⟨-, d, hd, hr⟩
      · rw [hr, merkleRoot, hnil, List.map_nil, MerkleTree.reduce_of_le (by simp)]
      · rw [hr, merkleRoot, hd]
    have hno (hbad : bad c₁.world) : bad c.world := hkeeps.quiet rfl hbad
    simp only at heq
    split at heq
    next hprint =>
      have hhead := printStdout_keeps h hprint
      obtain ⟨rfl, rfl⟩ := Prod.mk.inj heq
      exact ⟨by simp, by rw [hhead.entries, hsame, hsort],
        fun hgood hbad => (hgood (hno (hhead.quiet hbad))).elim⟩
    next c₂ hprint =>
      have hhead := printStdout_keeps h hprint
      split at heq
      next hentries =>
        have hlines := printEntries_keeps h hentries
        obtain ⟨rfl, rfl⟩ := Prod.mk.inj heq
        exact ⟨by simp, by rw [hlines.entries, hhead.entries, hsame, hsort],
          fun hgood hbad => (hgood (hno (hhead.quiet (hlines.quiet hbad)))).elim⟩
      next c₃ hentries =>
        have hlines := printEntries_keeps h hentries
        obtain ⟨rfl, rfl⟩ := Prod.mk.inj heq
        have hitems : c₃.entries.items = items := by
          rw [hlines.entries, hhead.entries, hsame]
        refine ⟨fun _ => ?_, hitems.trans hsort, fun hgood hbad =>
          (hgood (hno (hhead.quiet (hlines.quiet (h.fflush _ hbad))))).elim⟩
        rw [Context.call_snd, hlines.stdout rfl, hhead.stdout rfl, hkeeps.stdout, hitems,
          manifestText, hmanifest]
        simp

/-- A run that ends well has printed a manifest; one that met a failure has printed
nothing. -/
theorem hashTree_keeps (h : Alarm sys opened bad) {q : QSort compareFileEntries}
    {rawOperand normDir : CStr} {w : W} {status : ℕ}
    (heq : hashTree sys S q rawOperand normDir w = (status, c')) :
    (status = 0 → c'.stdout = manifestText S c'.entries.items) ∧
      (¬ bad w → bad c'.world → status = 2 ∧ c'.stdout = []) := by
  have hstop {c : Context W} {text : List UInt8} (heq : (2, c.fputs text) = (status, c'))
      (hout : c.stdout = []) : (status = 0 → c'.stdout = manifestText S c'.entries.items) ∧
        (¬ bad w → bad c'.world → status = 2 ∧ c'.stdout = []) := by
    obtain ⟨rfl, rfl⟩ := Prod.mk.inj heq
    exact ⟨by simp, fun _ _ => ⟨rfl, hout⟩⟩
  unfold hashTree at heq
  split at heq
  next hcall =>
    obtain ⟨-, rfl⟩ := Prod.mk.inj hcall
    exact hstop heq rfl
  next st c₁ hcall =>
    obtain ⟨hst, rfl⟩ := Prod.mk.inj hcall
    have hstat (hbad : bad (sys.lstat normDir w).2) : bad w := by
      rcases h.lstat _ _ hbad with hb | ⟨err, herr⟩
      · exact hb
      · exact absurd (hst.symm.trans herr) (by simp)
    split at heq
    · exact hstop heq rfl
    · have hm := malloc_keeps h ((Context.init w).call (sys.lstat normDir)).2
      simp only at heq
      split at heq
      next hok =>
        split at heq
        next c₂ hwalk =>
          have hkeeps := hm.trans (fun _ => hok) (walkDir_keeps h _ hwalk)
          obtain ⟨hprinted, -, hfailed⟩ := printTree_keeps h heq
          rw [hkeeps.stdout] at hprinted hfailed
          exact ⟨hprinted, fun hgood => hfailed fun hbad => hgood (hstat (hkeeps.quiet rfl hbad))⟩
        next r c₂ hne hwalk =>
          have hkeeps := walkDir_keeps h _ hwalk
          obtain ⟨rfl, rfl⟩ := Prod.mk.inj heq
          exact ⟨by simp, fun _ _ => ⟨rfl, hkeeps.stdout⟩⟩
      · exact hstop heq rfl

/-- A run whose walk ends well goes on to print, and ends well when nothing is refused. -/
theorem hashTree_of_walk (q : QSort compareFileEntries) (rawOperand : CStr)
    (hm : ∀ w, (sys.malloc w).1 = true) (hp : ∀ w, (sys.printf w).1 = true)
    (hf : ∀ w, (sys.fflush w).1 = true) {normDir : CStr} {w : W} {st : Stat}
    (hstat : (sys.lstat normDir w).1 = .ok st) (hdir : st.kind = .directory)
    (hwalk : walkDir sys S maxDepth normDir ∅
      (((Context.init w).call (sys.lstat normDir)).2.call sys.malloc).2 = (0, c))
    (hlen : c.entries.items.length ≤ sizeMax / 32) :
    ∃ c', hashTree sys S q rawOperand normDir w = (0, c') ∧ printTree sys S q c = (0, c') := by
  obtain ⟨c', hprint, -⟩ := printTree_granted (S := S) hm hp hf q c hlen
  refine ⟨c', ?_, hprint⟩
  have hstat' : (sys.lstat normDir (Context.init w).world).1 = .ok st := hstat
  unfold Context.call at hwalk
  unfold hashTree Context.call
  simp only [hstat', hdir, hm, ne_eq, not_true_eq_false, ↓reduceIte, hwalk, hprint]

end Walk

end Treehash
