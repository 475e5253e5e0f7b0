import LinuxUtilities.Pathaudit.Outcomes

/-! `--path` and `--command` report the same resolution of a command. -/
namespace Pathaudit
open CString Attempt

theorem winnerOf_filter (hits : List Hit) (c : CStr) :
    winnerOf hits c = (hits.filter fun g => g.command = c).head?.map Hit.path := by
  rw [winnerOf, List.head?_filter]

theorem winnerOf_filtered (hits : List Hit) (c : CStr) :
    winnerOf (hits.filter fun g => g.command = c) c = winnerOf hits c := by
  rw [winnerOf_filter, winnerOf_filter, List.filter_filter]
  simp

/-- What the hits of a command add does not depend on the other hits. -/
theorem shadowAfter_filter (hits : List Hit) (hit : Hit) :
    shadowAfter hits hit = shadowAfter (hits.filter fun g => g.command = hit.command) hit := by
  have hpair : (∀ g ∈ hits, ¬ samePair g hit) ↔
      ∀ g ∈ hits.filter fun g => g.command = hit.command, ¬ samePair g hit := by
    constructor
    · intro h g hg
      exact h g (List.mem_of_mem_filter hg)
    · intro h g hg hsame
      exact h g (List.mem_filter.mpr ⟨hg, by simpa using hsame.1⟩) hsame
  simp only [shadowAfter, winnerOf_filtered, hpair]

theorem collect_filter (hits : List Hit) (c : CStr) :
    (collect shadowAfter hits).filter (fun r => r.command = c) =
      collect shadowAfter (hits.filter fun g => g.command = c) := by
  induction hits using List.reverseRecOn with
  | nil => rfl
  | append_singleton hits hit ih =>
    rw [collect_concat, List.filter_append, List.filter_append, ih]
    by_cases hc : hit.command = c
    · rw [show [hit].filter (fun g => decide (g.command = c)) = [hit] by simp [hc], collect_concat,
        shadowAfter_filter hits hit, hc]
      congr 1
      apply List.filter_eq_self.mpr
      intro r hr
      obtain ⟨w, -, -, -, rfl⟩ := shadowAfter_eq_some.mp (Option.mem_toList.mp hr)
      simpa using hc
    · rw [show [hit].filter (fun g => decide (g.command = c)) = [] by simp [hc], List.append_nil]
      rw [List.append_right_eq_self]
      apply List.filter_eq_nil_iff.mpr
      intro r hr
      obtain ⟨w, -, -, -, rfl⟩ := shadowAfter_eq_some.mp (Option.mem_toList.mp hr)
      simpa using hc

theorem eraseDups_concat {α : Type} [DecidableEq α] (l : List α) (a : α) :
    (l ++ [a]).eraseDups = if a ∈ l then l.eraseDups else l.eraseDups ++ [a] := by
  rw [List.eraseDups_append]
  by_cases ha : a ∈ l <;> simp [List.removeAll, List.eraseDups_cons, ha]

/-- For one command, the shadows are the distinct paths other than the first. -/
theorem collect_shadows {hits : List Hit} {c : CStr} (h : ∀ g ∈ hits, g.command = c) :
    (collect shadowAfter hits).map ShadowRecord.shadow =
      (hits.map Hit.path).eraseDups.filter fun path => (hits.map Hit.path).head? ≠ some path := by
  induction hits using List.reverseRecOn with
  | nil => rfl
  | append_singleton hits hit ih =>
    have hhits : ∀ g ∈ hits, g.command = c := fun g hg => h g (List.mem_append_left _ hg)
    have hc : hit.command = c := h hit (by simp)
    have hfilter : hits.filter (fun g => g.command = c) = hits :=
      List.filter_eq_self.mpr (by simpa using hhits)
    rw [collect_concat, List.map_append, ih hhits, List.map_append, List.map_singleton,
      eraseDups_concat]
    cases hits with
    | nil => simp [shadowAfter, winnerOf]
    | cons first rest =>
      have hwin : winnerOf (first :: rest) hit.command = some first.path := by
        rw [winnerOf_filter, hc, hfilter]
        rfl
      have hpair : (∀ g ∈ first :: rest, ¬ samePair g hit) ↔
          hit.path ∉ (first :: rest).map Hit.path := by
        simp only [samePair, List.mem_map, not_exists, not_and]
        constructor
        · exact fun hne g hg => hne g hg ((hhits g hg).trans hc.symm)
        · exact fun hne g hg _ => hne g hg
      by_cases hmem : hit.path ∈ (first :: rest).map Hit.path
      · have hnone : shadowAfter (first :: rest) hit = none := by
          simp only [shadowAfter, hwin, Option.bind_some]
          rw [if_neg fun hnew => hpair.mp hnew.2 hmem]
        rw [if_pos hmem, hnone]
        simp
      · have hne : first.path ≠ hit.path := by
          rintro heq
          exact hmem (by simp [heq])
        have hsome : shadowAfter (first :: rest) hit =
            some ⟨hit.command, first.path, hit.path, hit.pathIndex⟩ := by
          simp only [shadowAfter, hwin, Option.bind_some]
          rw [if_pos ⟨hne, hpair.mpr hmem⟩]
        rw [if_neg hmem, hsome, List.filter_append]
        simp [hne]

/-- The records keep the order of their hits. -/
theorem collect_index_sublist (hits : List Hit) :
    ((collect shadowAfter hits).map ShadowRecord.shadowIndex).Sublist (hits.map Hit.pathIndex) := by
  induction hits using List.reverseRecOn with
  | nil => exact List.Sublist.refl _
  | append_singleton hits hit ih =>
    rw [collect_concat, List.map_append, List.map_append]
    apply ih.append
    cases hs : shadowAfter hits hit with
    | none => exact List.nil_sublist _
    | some r =>
      obtain ⟨w, -, -, -, rfl⟩ := shadowAfter_eq_some.mp hs
      exact List.Sublist.refl _

theorem compareSizes_nonpos {a b : ℕ} : compareSizes a b ≤ 0 ↔ a ≤ b := by
  unfold compareSizes
  split
  · omega
  · split <;> omega

theorem compareSizes_neg {a b : ℕ} : compareSizes a b < 0 ↔ a < b := by
  unfold compareSizes
  split
  · omega
  · split <;> omega

theorem compareSizes_eq_zero {a b : ℕ} : compareSizes a b = 0 ↔ a = b := by
  unfold compareSizes
  split
  · omega
  · split <;> omega

/-- A comparison by two keys, the second when the first ties. -/
theorem ite_compare_nonpos {c d : ℤ} : (if c ≠ 0 then c else d) ≤ 0 ↔ c < 0 ∨ c = 0 ∧ d ≤ 0 := by
  split <;> omega

theorem compareShadows_nonpos {a b : ShadowRecord} :
    compareShadows a b ≤ 0 ↔
      a.command < b.command ∨ a.command = b.command ∧ a.shadowIndex ≤ b.shadowIndex := by
  rw [compareShadows, ite_compare_nonpos, cmpUnsignedBytes_eq_zero, compareSizes_nonpos]
  exact or_congr_left strcmp_neg

theorem sortIfMany_perm {α : Type} {cmp : α → α → ℤ} (q : QSort cmp) (l : List α) :
    (sortIfMany q l).Perm l := by
  unfold sortIfMany
  split
  · exact q.perm l
  · exact List.Perm.refl l

theorem sortIfMany_sorted {α : Type} {cmp : α → α → ℤ} (q : QSort cmp) (l : List α) :
    (sortIfMany q l).Pairwise fun a b => cmp a b ≤ 0 := by
  unfold sortIfMany
  split
  · exact q.sorted l
  next hlen =>
    match l with
    | [] => exact List.Pairwise.nil
    | [a] => exact List.pairwise_singleton _ a
    | a :: b :: l => simp at hlen

/-- Sorting keeps the records of one command in the order of their indexes. -/
theorem filter_sortIfMany (q : QSort compareShadows) {l : List ShadowRecord} {c : CStr}
    (hl : (l.filter fun r => r.command = c).Pairwise fun r s => r.shadowIndex < s.shadowIndex) :
    (sortIfMany q l).filter (fun r => r.command = c) = l.filter fun r => r.command = c := by
  have hperm := (sortIfMany_perm q l).filter fun r => r.command = c
  have hcommand : ∀ {l' : List ShadowRecord} {r}, r ∈ l'.filter (fun r => r.command = c) →
      r.command = c := fun hr => by simpa using (List.mem_filter.mp hr).2
  have hsorted : (l.filter fun r => r.command = c).Pairwise fun r s => compareShadows r s ≤ 0 := by
    apply hl.imp_of_mem
    intro r s hr hs hlt
    exact compareShadows_nonpos.mpr (.inr ⟨(hcommand hr).trans (hcommand hs).symm, hlt.le⟩)
  apply hperm.eq_of_pairwise _ ((sortIfMany_sorted q l).filter _) hsorted
  intro r s hr hs hrs hsr
  have hrc := hcommand hr
  have hsc := hcommand hs
  rw [compareShadows_nonpos, hrc, hsc] at hrs hsr
  have hindex : r.shadowIndex = s.shadowIndex := by
    have hle := hrs.resolve_left (lt_irrefl c)
    have hge := hsr.resolve_left (lt_irrefl c)
    omega
  have hnodup : ((l.filter fun r => r.command = c).map ShadowRecord.shadowIndex).Nodup :=
    (List.pairwise_map.mpr hl).imp ne_of_lt
  exact List.inj_on_of_nodup_map hnodup (hperm.mem_iff.mp hr) hs hindex

/-- The directories of PATH can be opened, and list a command once when it can be looked up. -/
structure ListsCommand (fs : FileSystem) (roots : List Root) (command : CStr) : Prop where
  opens : ∀ root ∈ roots, ∀ st, fs.stat root.text = .ok st → st.kind = .directory →
    ∃ listing, fs.opendir root.text = .ok listing
  once : ∀ root ∈ roots, ∀ listing st, fs.opendir root.text = .ok listing →
    fs.stat (childPath root.text command) = .ok st → listing.names.count command = 1

theorem candidateOf_eq {root : Root} {command candidate : CStr} (hlen : root.len ≠ 0)
    (h : candidateOf root command = some candidate) : candidate = childPath root.text command := by
  unfold candidateOf at h
  rw [if_neg hlen] at h
  extract_lets slash at h
  split at h
  · contradiction
  · split at h
    · contradiction
    · exact (Option.some.inj h).symm

section Components
variable {W : Type} {sys : Sys W} {command : CStr}

/-- The executable of a command under a component, as the scan would find it. -/
def foundCommand (sys : Sys W) (command : CStr) (root : Root) : Option Found :=
  (commandMatch sys.fs root command).map fun m => ⟨command, root.index, m⟩

theorem name_of_foundName {root : Root} {name : CStr} {f : Found}
    (h : foundName sys root name = some f) :
    f.name = name ∧ foundCommand sys name root = some f := by
  unfold foundName at h
  split at h
  · contradiction
  · obtain ⟨m, hm, rfl⟩ := Option.map_eq_some_iff.mp h
    exact ⟨rfl, by rw [foundCommand, hm]; rfl⟩

/-- A directory in which the command is executable is scanned, and is found to list it. -/
theorem listingOf_of_commandMatch {roots : List Root} (hlists : ListsCommand sys.fs roots command)
    (hname : commandNameIsValid command) {root : Root} (hroot : root ∈ roots)
    (hne : root.NonEmpty) {m : CommandMatch} (hm : commandMatch sys.fs root command = some m) :
    skippedName command = false ∧ ∃ listing, listingOf sys.fs root = some listing ∧
      listing.names.count command = 1 := by
  obtain ⟨hempty, hslash⟩ : command ≠ ∅ ∧ 47 ∉ command.bytes := by
    simpa [commandNameIsValid] using hname
  obtain ⟨candidate, st, hcand, hst, hreg⟩ := stat_of_commandMatch hm
  rw [candidateOf_eq hne.len_ne_zero hcand] at hst
  obtain ⟨dst, hdst, hdir⟩ := sys.fs.stat_child _ _ _ hne.text hempty hslash hst
  obtain ⟨listing, hopen⟩ := hlists.opens root hroot dst hdst hdir
  constructor
  · have hdots : ¬ (command = .lit "." ∨ command = .lit "..") := by
      intro hdots
      have := sys.fs.stat_dots _ _ _ hne.text hdots hst
      rw [hreg] at this
      contradiction
    rw [not_or] at hdots
    simp [skippedName, hempty, hslash, hdots.1, hdots.2]
  · refine ⟨listing, ?_, hlists.once root hroot listing st hopen hst⟩
    unfold listingOf
    rw [if_neg hne.len_ne_zero, hdst]
    simp [hdir, hopen, Except.toOption]

/-- Under one component, the scan finds a command just when the query does. -/
theorem foundUnder_filter {roots : List Root} (hlists : ListsCommand sys.fs roots command)
    (hname : commandNameIsValid command) {root : Root} (hroot : root ∈ roots)
    (hne : root.NonEmpty) :
    (foundUnder sys root).filter (fun f => f.name = command) =
      (foundCommand sys command root).toList := by
  cases hm : commandMatch sys.fs root command with
  | none =>
    rw [foundCommand, hm, Option.map_none, Option.toList_none]
    apply List.filter_eq_nil_iff.mpr
    intro f hf
    rw [decide_eq_true_eq]
    rintro rfl
    unfold foundUnder at hf
    split at hf
    · contradiction
    · obtain ⟨name, -, hfound⟩ := List.mem_filterMap.mp hf
      obtain ⟨hn, hcommand⟩ := name_of_foundName hfound
      rw [← hn, foundCommand, hm] at hcommand
      contradiction
  | some m =>
    obtain ⟨hskip, listing, hlisting, hcount⟩ :=
      listingOf_of_commandMatch hlists hname hroot hne hm
    have hfound : foundName sys root command = foundCommand sys command root := by
      rw [foundName, hskip, foundCommand]
      rfl
    have hfilter : ∀ names : List CStr,
        (names.filterMap (foundName sys root)).filter (fun f => f.name = command) =
          (names.filter fun name => name = command).filterMap (foundName sys root) := by
      intro names
      induction names with
      | nil => rfl
      | cons name names ih =>
        by_cases hn : name = command
        · rw [List.filter_cons_of_pos (by simpa using hn), List.filterMap_cons,
            List.filterMap_cons]
          cases hf : foundName sys root name with
          | none => exact ih
          | some f =>
            dsimp only
            rw [List.filter_cons_of_pos (by simpa [(name_of_foundName hf).1] using hn), ih]
        · rw [List.filter_cons_of_neg (by simpa using hn), List.filterMap_cons]
          cases hf : foundName sys root name with
          | none => exact ih
          | some f =>
            dsimp only
            rw [List.filter_cons_of_neg (by simpa [(name_of_foundName hf).1] using hn), ih]
    unfold foundUnder
    rw [hlisting]
    dsimp only
    rw [hfilter, List.filter_eq, hcount, List.replicate_one, List.filterMap_cons, hfound]
    cases foundCommand sys command root <;> rfl

theorem matchesAppend_sound (b : MatchBuffer) (path : CStr) :
    Sound Proc.stdout (matchesAppend sys b path) fun b' => b'.paths = b.paths ++ [path] := by
  unfold matchesAppend
  split
  · apply (alloc_meets sys sys.promiseNothing).sound.bind
    intro _ _
    exact Sound.pure rfl
  · exact Sound.pure rfl

theorem queryRoot_sound (hslash : 47 ∉ command.bytes) (s : Query) (root : Root) :
    Sound Proc.stdout (queryRoot sys command s root) fun s' => s'.found.paths =
      s.found.paths ++ ((foundCommand sys command root).map fun f => f.target.path).toList := by
  unfold queryRoot foundCommand
  apply (tryCommandMatch_meets sys.promiseNothing root hslash).sound.bind
  rintro m ⟨-, rfl⟩
  cases commandMatch sys.fs root command with
  | none =>
    apply (classifyCommandComponent_sound sys root _ _).bind
    intro findings _
    exact Sound.pure (by simp)
  | some m =>
    apply (classifyCommandComponent_sound sys root _ _).bind
    intro findings _
    apply (appendExecutableTrustFindings_meets sys.promiseNothing m _ _).sound.bind
    intro findings _
    apply (matchesAppend_sound s.found m.path).bind
    intro found hfound
    exact Sound.pure (by simpa using hfound)

/-- The matches of a query are the executables of its components, in PATH order. -/
theorem queryPath_sound (hslash : 47 ∉ command.bytes) (roots : List Root) :
    Sound Proc.stdout (queryPath sys command roots) fun s => s.found.paths =
      (roots.filterMap (foundCommand sys command)).map fun f => f.target.path := by
  apply Sound.foldlM fun done (s : Query) => s.found.paths =
    (done.filterMap (foundCommand sys command)).map fun f => f.target.path
  · intro pre root post s _ hs
    apply (queryRoot_sound hslash s root).imp
    intro s' hs'
    rw [hs', hs, filterMap_concat_toList, List.map_append]
    cases foundCommand sys command root <;> rfl
  · rfl

theorem classifyPath_sound (pathEnv : CStr) :
    Sound Proc.stdout (classifyPath sys (some pathEnv))
      fun classified => classified.1 = components sys.fs pathEnv := by
  unfold classifyPath
  apply (pathComponentsLoad_sound sys pathEnv).bind
  rintro _ rfl
  apply (Sound.foldlM (fun _ _ => True)
    (fun _ root _ b _ _ => classifyRoot_sound sys true b root) trivial).bind
  intro findings _
  exact Sound.pure rfl

/-- What a completed scan of PATH has. -/
theorem auditPath_sound (h : Hashes) (pathEnv : CStr) :
    Sound Proc.stdout (auditPath sys h (some pathEnv)) fun s => s.tables.Holds h
      (((components sys.fs pathEnv).flatMap (foundUnder sys)).map Found.hit) := by
  unfold auditPath
  apply (classifyPath_sound pathEnv).bind
  rintro classified hroots
  rw [← hroots]
  apply (scanPath_meets sys.promiseNothing classified.1 False.elim).sound.imp
  rintro s ⟨-, hs⟩
  exact hs.tables.holds

theorem emitPathReport_some {findings : List Finding} {shadows : List ShadowRecord} {status : ℕ}
    {p p' : Proc W} (h : emitPathReport sys findings shadows p = (some status, p')) :
    p'.stdout = p.stdout ++ (findings.flatMap findingPieces).flatten ++
      (shadows.flatMap shadowPieces).flatten := by
  obtain ⟨_, p₁, hfindings, h⟩ := bind_eq_some.mp h
  obtain ⟨_, p₂, hshadows, h⟩ := bind_eq_some.mp h
  rw [(completeStdout_some h).2, putAll_some hshadows, putAll_some hfindings]

theorem emitCommandQuery_some {paths : List CStr} {findings : List Finding} {status : ℕ}
    {p p' : Proc W} (h : emitCommandQuery sys paths findings p = (some status, p')) :
    p'.stdout = p.stdout ++ (paths.flatMap matchPieces).flatten ++
      (findings.flatMap findingPieces).flatten := by
  obtain ⟨_, p₁, hpaths, h⟩ := bind_eq_some.mp h
  obtain ⟨_, p₂, hfindings, h⟩ := bind_eq_some.mp h
  rw [(completeStdout_some h).2, putAll_some hfindings, putAll_some hpaths]

theorem status_of_exitStatus {r : Option ℕ × Proc W} (h : exitStatus r.1 ≠ 2) :
    ∃ status, r = (some status, r.2) := by
  obtain ⟨r, p⟩ := r
  cases r with
  | none => exact absurd rfl h
  | some status => exact ⟨status, rfl⟩

/-- The hits of a command are its matches under the components. -/
theorem hits_filter {pathEnv : CStr} (hfields : ∅ ∉ pathFragments pathEnv)
    (hlists : ListsCommand sys.fs (components sys.fs pathEnv) command)
    (hname : commandNameIsValid command) :
    (((components sys.fs pathEnv).flatMap (foundUnder sys)).map Found.hit).filter
        (fun g => g.command = command) =
      ((components sys.fs pathEnv).filterMap (foundCommand sys command)).map Found.hit := by
  rw [List.filter_map, List.filter_flatMap]
  congr 1
  rw [List.filterMap_eq_flatMap_toList]
  apply List.flatMap_congr
  intro root hroot
  exact foundUnder_filter hlists hname hroot (components_nonEmpty hfields root hroot)

end Components

/-- When both modes complete, `--path` has a winner for a command just when `--command`
prints a match, which is the first; and its rows for the command are the other paths
that `--command` prints, each once, in the order of their first match. -/
theorem runCommandMode_agrees {W : Type} (sys : Sys W) (h : Hashes)
    (qf : QSort compareFindings) (qs : QSort compareShadows) {pathEnv command : CStr}
    (hfields : ∅ ∉ pathFragments pathEnv) (hname : commandNameIsValid command)
    (hlists : ListsCommand sys.fs (components sys.fs pathEnv) command) {p p' : Proc W}
    (hpath : exitStatus (runPathMode sys h qf qs (some pathEnv) p).1 ≠ 2)
    (hcommand : exitStatus (runCommandMode sys qf (some pathEnv) command p').1 ≠ 2) :
    ∃ (s : Scan) (q : Proc W) (paths : List CStr) (findings findings' : List Finding),
      let rows := sortIfMany qs s.tables.shadows.items
      auditPath sys h (some pathEnv) p = (some s, q) ∧
      (runPathMode sys h qf qs (some pathEnv) p).2.stdout = p.stdout ++
        (findings.flatMap findingPieces).flatten ++ (rows.flatMap shadowPieces).flatten ∧
      (runCommandMode sys qf (some pathEnv) command p').2.stdout = p'.stdout ++
        (paths.flatMap matchPieces).flatten ++ (findings'.flatMap findingPieces).flatten ∧
      winnersFind h s.tables.winners command = some (paths.head?.map fun path => ⟨command, path⟩) ∧
      ((rows.filter fun r => r.command = command).map ShadowRecord.shadow =
        paths.eraseDups.filter fun path => paths.head? ≠ some path) ∧
      ∀ r ∈ rows.filter fun r => r.command = command, paths.head? = some r.winner := by
  obtain ⟨status, hrun⟩ := status_of_exitStatus hpath
  obtain ⟨status', hrun'⟩ := status_of_exitStatus hcommand
  obtain ⟨s, q, haudit, hemit⟩ := bind_eq_some.mp hrun
  obtain ⟨-, hslash⟩ : command ≠ ∅ ∧ 47 ∉ command.bytes := by
    simpa [commandNameIsValid] using hname
  rw [runCommandMode, if_neg (by simp [hname])] at hrun'
  obtain ⟨roots, q₁, hload, hrun'⟩ := bind_eq_some.mp hrun'
  obtain ⟨s', q₂, hquery, hemit'⟩ := bind_eq_some.mp hrun'
  obtain ⟨hkept, hholds⟩ := (auditPath_sound h pathEnv).result haudit
  obtain ⟨hkept₁, rfl⟩ := (pathComponentsLoad_sound sys pathEnv).result hload
  obtain ⟨hkept₂, hpaths⟩ := (queryPath_sound hslash _).result hquery
  set found := (components sys.fs pathEnv).filterMap (foundCommand sys command) with hfound
  set hits := ((components sys.fs pathEnv).flatMap (foundUnder sys)).map Found.hit with hhits
  have hfilter : hits.filter (fun g => g.command = command) = found.map Found.hit :=
    hits_filter hfields hlists hname
  have hcommands : ∀ g ∈ found.map Found.hit, g.command = command := by
    rw [← hfilter]
    intro g hg
    simpa using (List.mem_filter.mp hg).2
  have hwinner : winnerOf hits command = s'.found.paths.head? := by
    rw [winnerOf_filter, hfilter, hpaths, List.head?_map, List.head?_map, Option.map_map]
    rfl
  have hrows : (sortIfMany qs s.tables.shadows.items).filter (fun r => r.command = command) =
      collect shadowAfter (found.map Found.hit) := by
    rw [filter_sortIfMany qs, hholds.shadows, collect_filter, hfilter]
    rw [hholds.shadows, collect_filter, hfilter, ← List.pairwise_map (R := (· < ·))]
    apply List.Pairwise.sublist (collect_index_sublist _)
    rw [List.map_map, List.pairwise_map, hfound, List.pairwise_filterMap]
    apply (components_index_lt pathEnv).imp
    intro root root' hlt f hf f' hf'
    obtain ⟨m, -, rfl⟩ := Option.map_eq_some_iff.mp hf
    obtain ⟨m', -, rfl⟩ := Option.map_eq_some_iff.mp hf'
    exact hlt
  refine ⟨s, q, s'.found.paths, sortIfMany qf s.findings.items,
    sortIfMany qf s'.findings.items, haudit, ?_, ?_, ?_, ?_, ?_⟩
  · rw [emitPathReport_some hemit, hkept]
  · rw [runCommandMode, if_neg (by simp [hname])]
    rw [emitCommandQuery_some hemit', hkept₂, hkept₁]
  · rw [hholds.find, hwinner]
  · rw [hrows, collect_shadows hcommands, hpaths, List.map_map]
    rfl
  · rw [hrows]
    intro r hr
    obtain ⟨pre, hit, post, heq, -, hwin, -, -⟩ := mem_shadows.mp hr
    have hhit : hit.command = command := hcommands hit (by rw [heq]; simp)
    rw [hhit, ← hfilter, winnerOf_filtered, hwinner] at hwin
    exact hwin

theorem compareFindings_nonpos {a b : Finding} :
    compareFindings a b ≤ 0 ↔ a.root < b.root ∨ a.root = b.root ∧
      (a.index < b.index ∨ a.index = b.index ∧ a.code.rank ≤ b.code.rank) := by
  rw [compareFindings, ite_compare_nonpos, ite_compare_nonpos, cmpUnsignedBytes_eq_zero,
    compareSizes_nonpos, compareSizes_eq_zero, compareSizes_neg]
  exact or_congr_left strcmp_neg

/-- Sorts for the comparators, by their keys. -/
def sortShadows : QSort compareShadows :=
  .byKey (fun r => toLex (r.command, r.shadowIndex)) fun _ _ => by
    rw [compareShadows_nonpos, Prod.Lex.toLex_le_toLex]

def sortFindings : QSort compareFindings :=
  .byKey (fun f => toLex (f.root, toLex (f.index, f.code.rank))) fun _ _ => by
    rw [compareFindings_nonpos, Prod.Lex.toLex_le_toLex, Prod.Lex.toLex_le_toLex]

namespace Sample

/-- Two directories with a command of the same name. -/
def directories : List CStr := [.lit "/", .lit "/a", .lit "/a/", .lit "/b", .lit "/b/"]

def executables : List CStr := [.lit "/a/t", .lit "/b/t"]

def tool : CStr := .lit "t"

def stat (path : CStr) : Except Errno Stat :=
  if path ∈ directories then .ok ⟨.directory, 0o755, 0⟩
  else if path ∈ executables then .ok ⟨.regular, 0o755, 0⟩
  else .error ENOENT

/-- The directory of a path, with its last slash and without it. -/
def parents (path : CStr) : List (List UInt8) :=
  [path.bytes.rdropWhile (· ≠ 47), (path.bytes.rdropWhile (· ≠ 47)).dropLast]

/-- The directory above a listed path is listed where all parents are. -/
theorem mem_of_childPath {dirs paths : List CStr}
    (hparents : ∀ path ∈ paths, path.bytes.rtakeWhile (· ≠ 47) ≠ [] →
      ∀ parent ∈ parents path, parent ≠ [] → parent ∈ dirs.map CStr.bytes)
    {dir name : CStr} (hdir : dir ≠ ∅) (hname : name ≠ ∅) (hslash : 47 ∉ name.bytes)
    (h : childPath dir name ∈ paths) : dir ∈ dirs := by
  obtain ⟨hlast, hrest⟩ := childPath_parts dir hslash
  have hlisted := hparents _ h (by
    rw [hlast]
    exact fun hnil => hname (CStr.ext hnil)) dir.bytes (by
      rw [parents, List.mem_cons, List.mem_singleton]
      exact hrest hdir) fun hnil => hdir (CStr.ext hnil)
  obtain ⟨dir', hdir', hbytes⟩ := List.mem_map.mp hlisted
  rwa [CStr.ext hbytes] at hdir'

theorem notMem_of_dots {paths : List CStr}
    (hlast : ∀ path ∈ paths, path.bytes.rtakeWhile (· ≠ 47) ∉
      [(CStr.lit ".").bytes, (CStr.lit "..").bytes])
    {dir name : CStr} (hname : name = .lit "." ∨ name = .lit "..") :
    childPath dir name ∉ paths := by
  have hslash : 47 ∉ name.bytes := by
    rcases hname with rfl | rfl
    · decide
    · decide
  intro h
  apply hlast _ h
  rw [(childPath_parts _ hslash).1]
  rcases hname with rfl | rfl
  · exact List.mem_cons_self
  · exact List.mem_cons_of_mem _ List.mem_cons_self

theorem mem_of_stat {path : CStr} {st : Stat} (h : stat path = .ok st) :
    path ∈ directories ++ executables := by
  rw [List.mem_append]
  by_contra hnot
  rw [not_or] at hnot
  rw [stat, if_neg hnot.1, if_neg hnot.2] at h
  contradiction

theorem stat_child (dir name : CStr) (st : Stat) (hdir : dir ≠ ∅) (hname : name ≠ ∅)
    (hslash : 47 ∉ name.bytes) (h : stat (childPath dir name) = .ok st) :
    ∃ dst, stat dir = .ok dst ∧ dst.kind = .directory := by
  have hmem : dir ∈ directories :=
    mem_of_childPath (by decide) hdir hname hslash (mem_of_stat h)
  exact ⟨_, by rw [stat, if_pos hmem], rfl⟩

theorem stat_dots (dir name : CStr) (st : Stat) (_ : dir ≠ ∅)
    (hname : name = .lit "." ∨ name = .lit "..") (h : stat (childPath dir name) = .ok st) :
    st.kind = .directory :=
  absurd (mem_of_stat h) (notMem_of_dots (by decide) hname)

def fs : FileSystem where
  stat := stat
  lstat := stat
  readlink := fun _ => .error 22
  access := fun _ => true
  openRead := fun _ => .ok (.ok [0x7f, 69, 76, 70])
  realpath := .ok
  opendir := fun _ => .ok ⟨[.lit ".", tool, .lit ".."], none⟩
  getuid := 0
  stat_child := stat_child
  stat_dots := stat_dots

def sys : Sys Unit where
  fs := fs
  malloc := fun u => (true, u)
  output := fun u => (true, u)
  flush := fun u => (true, u)
  signal := fun u => (true, u)

def start : Proc Unit := ⟨(), [], []⟩

def pathEnv : CStr := .lit "/a:/b"

theorem listsCommand : ListsCommand fs (components fs pathEnv) tool where
  opens _ _ _ _ _ := ⟨_, rfl⟩
  once _ _ listing st h _ := by
    rw [← Except.ok.inj h]
    decide

end Sample

theorem runCommandMode_agrees_sample :
    ∃ (s : Scan) (q : Proc Unit) (paths : List CStr) (findings findings' : List Finding),
      let rows := sortIfMany sortShadows s.tables.shadows.items
      auditPath Sample.sys fnvHashes (some Sample.pathEnv) Sample.start = (some s, q) ∧
      (runPathMode Sample.sys fnvHashes sortFindings sortShadows (some Sample.pathEnv)
        Sample.start).2.stdout = Sample.start.stdout ++
          (findings.flatMap findingPieces).flatten ++ (rows.flatMap shadowPieces).flatten ∧
      (runCommandMode Sample.sys sortFindings (some Sample.pathEnv) Sample.tool
        Sample.start).2.stdout = Sample.start.stdout ++
          (paths.flatMap matchPieces).flatten ++ (findings'.flatMap findingPieces).flatten ∧
      winnersFind fnvHashes s.tables.winners Sample.tool =
        some (paths.head?.map fun path => ⟨Sample.tool, path⟩) ∧
      ((rows.filter fun r => r.command = Sample.tool).map ShadowRecord.shadow =
        paths.eraseDups.filter fun path => paths.head? ≠ some path) ∧
      ∀ r ∈ rows.filter fun r => r.command = Sample.tool, paths.head? = some r.winner :=
  runCommandMode_agrees Sample.sys fnvHashes sortFindings sortShadows (by decide) (by decide)
    Sample.listsCommand (by decide +kernel) (by decide +kernel)

end Pathaudit
