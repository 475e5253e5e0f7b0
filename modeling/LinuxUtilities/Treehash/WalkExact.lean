import LinuxUtilities.Treehash.Tree

/-! The walk over a presented tree: every directory lists the files at and below it,
whatever the order of its entries, and gives back the rules and ancestors it found. -/
namespace Treehash
open CString

/-- How a system shows a tree below an operand when nothing fails. Names may come in any
order, contents in any cut, and any call may change the state. -/
structure Presents {W : Type} (sys : Sys W) (t : Tree) (fnmatch : CStr → CStr → Bool → Bool)
    (root : CStr) : Prop where
  globs : sys.fnmatch = fnmatch
  lstat : ∀ p n, t.node p = some n → ∀ w, (sys.lstat (diskPath root p) w).1 = .ok n.stat
  lstatMissing : ∀ d, t.Visited fnmatch d → t.node (d ++ [gitignoreName]) = none →
    ∀ w, ∃ err, (sys.lstat (diskPath root (d ++ [gitignoreName])) w).1 = .error err
  opendir : ∀ d, t.Visited fnmatch d → ∀ w, ∃ listing,
    (sys.opendir (diskPath root d) w).1 = .ok listing ∧ listing.error = none ∧
      listing.names.Nodup ∧ ∀ name, name ≠ .lit "." → name ≠ .lit ".." →
        (name ∈ listing.names ↔ (t.node (d ++ [name])).isSome)
  fopen : ∀ d n, t.Visited fnmatch d → t.node (d ++ [gitignoreName]) = some n →
    n.stat.kind = .regular →
      ∀ w, (sys.fopen (diskPath root (d ++ [gitignoreName])) w).1 = .ok ⟨n.content, false⟩
  openRead : ∀ p n, t.Listed fnmatch p n → ∀ w, ∃ chunks,
    (sys.openRead (diskPath root p) w).1 = .ok ⟨chunks, none, none⟩ ∧ chunks.flatten = n.content
  malloc : ∀ w, (sys.malloc w).1 = true
  printf : ∀ w, (sys.printf w).1 = true
  fflush : ∀ w, (sys.fflush w).1 = true

/-- The limits of the program: depth, cycles, path lengths and the size of the manifest. -/
structure WithinLimits (t : Tree) (fnmatch : CStr → CStr → Bool → Bool) (root : CStr) : Prop where
  depth : ∀ d, t.Visited fnmatch d → d.length < maxDepth
  acyclic : ∀ d, t.Visited fnmatch d → t.ident d ∉ t.ancestorIds d
  pathLength : ∀ d name, t.Visited fnmatch d →
    (t.node (d ++ [name])).isSome ∧ name ≠ .lit ".git" ∨ name = gitignoreName →
      (diskPath root (d ++ [name])).length < pathMax
  count : ∀ ps : List (List CStr), ps.Nodup → (∀ p ∈ ps, ∃ n, t.Listed fnmatch p n) →
    ps.length ≤ sizeMax / 32

theorem relPath_length_le (root : CStr) (p : List CStr) :
    (relPath p).length ≤ (diskPath root p).length := by
  induction p using List.reverseRecOn with
  | nil => exact Nat.zero_le _
  | append_singleton d name ih =>
    rw [relPath_concat, diskPath_concat, childRel, childDisk]
    split
    · simp only [CStr.length_append]
      omega
    · simp only [CStr.length_append]
      omega

/-- The manifest entry of a file. -/
def Tree.entryOf (t : Tree) (H : List UInt8 → Digest) (p : List CStr) : FileEntry :=
  ⟨relPath p, hexOf (H ((t.node p).elim [] Node.content))⟩

/-- A part of the walk that lists exactly the files of `P` and leaves the rest as it was. -/
structure Walked {W : Type} (t : Tree) (H : List UInt8 → Digest) (P : List CStr → Prop)
    (c c' : Context W) : Prop where
  entries : ∃ ps : List (List CStr), ps.Nodup ∧ (∀ p, p ∈ ps ↔ P p) ∧
    c'.entries.items = c.entries.items ++ ps.map (t.entryOf H)
  rules : c'.rules.items = c.rules.items
  ancestors : c'.ancestors = c.ancestors
  stdout : c'.stdout = c.stdout

namespace Walked
variable {W : Type} {t : Tree} {H : List UInt8 → Digest} {P Q : List CStr → Prop}
  {c c' c'' : Context W}

theorem nothing (hP : ∀ p, ¬ P p) (w : W) : Walked t H P c { c with world := w } where
  entries := ⟨[], by simp, by simpa using hP, by simp⟩
  rules := rfl
  ancestors := rfl
  stdout := rfl

theorem congr (h : Walked t H P c c') (hPQ : ∀ p, P p ↔ Q p) : Walked t H Q c c' := by
  obtain ⟨ps, hnodup, hmem, heq⟩ := h.entries
  exact ⟨⟨ps, hnodup, fun p => (hmem p).trans (hPQ p), heq⟩, h.rules, h.ancestors, h.stdout⟩

/-- Parts that list different files add up. -/
theorem trans (h : Walked t H P c c') (h' : Walked t H Q c' c'') (hPQ : ∀ p, P p → ¬ Q p) :
    Walked t H (fun p => P p ∨ Q p) c c'' := by
  obtain ⟨ps, hnodup, hmem, heq⟩ := h.entries
  obtain ⟨qs, hnodup', hmem', heq'⟩ := h'.entries
  refine ⟨⟨ps ++ qs, ?_, ?_, ?_⟩, h'.rules.trans h.rules, h'.ancestors.trans h.ancestors,
    h'.stdout.trans h.stdout⟩
  · apply List.nodup_append.mpr
    refine ⟨hnodup, hnodup', fun p hp q hq hpq => ?_⟩
    rw [← hpq] at hq
    exact hPQ p ((hmem p).mp hp) ((hmem' p).mp hq)
  · intro p
    rw [List.mem_append, hmem, hmem']
  · rw [heq', heq, List.append_assoc, List.map_append]

end Walked

/-- What `walk_dir` is to do in a directory. -/
def Below (t : Tree) (fnmatch : CStr → CStr → Bool → Bool) (d p : List CStr) : Prop :=
  (∃ n, t.Listed fnmatch p n) ∧ d <+: p

theorem foldl_append_flatten {α : Type*} (acc : List α) (xss : List (List α)) :
    xss.foldl (fun acc xs => acc ++ xs) acc = acc ++ xss.flatten := by
  induction xss generalizing acc with
  | nil => simp
  | cons xs xss ih => rw [List.foldl_cons, ih, List.flatten_cons, List.append_assoc]

section
variable {W : Type} {sys : Sys W} {t : Tree} {fnmatch : CStr → CStr → Bool → Bool} {root : CStr}
  {H : List UInt8 → Digest}

theorem addFileEntry_granted (hm : ∀ w, (sys.malloc w).1 = true) (relPath : CStr) (hex : Hex)
    (c : Context W) : ∃ c', addFileEntry sys relPath hex c = (true, c') ∧
      c'.entries.items = c.entries.items ++ [⟨relPath, hex⟩] ∧ c'.rules = c.rules ∧
      c'.ancestors = c.ancestors ∧ c'.stdout = c.stdout := by
  obtain ⟨cap, w, hreserve⟩ := reserve_granted hm 64 c.entries c
  unfold addFileEntry
  simp only [hreserve, Context.call_fst, Context.call_snd, hm, ↓reduceIte]
  exact ⟨_, rfl, rfl, rfl, rfl, rfl⟩

/-- A listed file gets its line. -/
theorem walkFile_exact (hsys : Presents sys t fnmatch root) {p : List CStr} {n : Node}
    (h : t.Listed fnmatch p n) (c : Context W) :
    ∃ c', walkFile sys (.ofFunction H) (diskPath root p) (relPath p) c = (0, c') ∧
      Walked t H (· = p) c c' := by
  obtain ⟨chunks, hopen, hcontent⟩ := hsys.openRead p n h c.world
  have hhash : hashFileSha256 sys (.ofFunction H) (diskPath root p) c =
      (.ok (hexOf (H n.content)), (c.call (sys.openRead (diskPath root p))).2) := by
    unfold hashFileSha256 Context.call
    simp only [hopen, StreamHash.ofFunction, foldl_append_flatten, List.nil_append, hcontent]
  obtain ⟨c', hadd, hentries, hrules, hanc, hout⟩ := addFileEntry_granted hsys.malloc (relPath p)
    (hexOf (H n.content)) (c.call (sys.openRead (diskPath root p))).2
  refine ⟨c', by simp only [walkFile, hhash, hadd], ?_⟩
  refine ⟨⟨[p], by simp, by simp, ?_⟩, by rw [hrules]; rfl, hanc, hout⟩
  simp [hentries, Tree.entryOf, h.node]

/-- The context in the `readdir` loop of a directory. -/
structure InDir (t : Tree) (d : List CStr) (c : Context W) : Prop where
  rules : c.rules.items = t.rulesFor d ++ t.dirRules d
  ancestors : c.ancestors = t.ident d :: t.ancestorIds d

theorem InDir.walked {d : List CStr} {P : List CStr → Prop} {c c' : Context W}
    (h : InDir t d c) (hw : Walked t H P c c') : InDir t d c' :=
  ⟨hw.rules.trans h.rules, hw.ancestors.trans h.ancestors⟩

/-- The recursion does its work in the subdirectories of a directory. -/
def Descends (t : Tree) (fnmatch : CStr → CStr → Bool → Bool) (root : CStr)
    (H : List UInt8 → Digest) (descend : CStr → CStr → Context W → ℤ × Context W)
    (d : List CStr) : Prop :=
  ∀ name (c : Context W), t.Visited fnmatch (d ++ [name]) → InDir t d c →
    ∃ c', descend (diskPath root (d ++ [name])) (relPath (d ++ [name])) c = (0, c') ∧
      Walked t H (Below t fnmatch (d ++ [name])) c c'

/-- An ignored directory, a symbolic link or another file that is not regular lists nothing. -/
theorem not_below_of_not_regular {d p : List CStr} {name : CStr} {n : Node}
    (hn : t.node (d ++ [name]) = some n) (hreg : n.stat.kind ≠ .regular)
    (hdir : n.stat.kind = .directory → t.Ignored fnmatch (d ++ [name]) true) :
    ¬ Below t fnmatch (d ++ [name]) p := by
  rintro ⟨⟨m, hm⟩, hpre⟩
  rcases hm.of_prefix hpre with rfl | hv
  · rw [hm.node] at hn
    obtain rfl := Option.some.inj hn
    exact hreg hm.regular
  · obtain ⟨m', hm', hkind⟩ := hv.node
    rw [hm'] at hn
    obtain rfl := Option.some.inj hn
    have hign := hv.notIgnored _ le_rfl
    rw [List.take_length] at hign
    exact hign (hdir hkind)

/-- Below a regular file there is only that file. -/
theorem below_regular {d p : List CStr} {name : CStr} {n : Node}
    (hn : t.node (d ++ [name]) = some n) (hreg : n.stat.kind = .regular) :
    Below t fnmatch (d ++ [name]) p ↔ p = d ++ [name] ∧ t.Listed fnmatch p n := by
  constructor
  · rintro ⟨⟨m, hm⟩, hpre⟩
    rcases hm.of_prefix hpre with rfl | hv
    · have hnode := hm.node
      rw [hn] at hnode
      obtain rfl := Option.some.inj hnode
      exact ⟨rfl, hm⟩
    · obtain ⟨m', hm', hkind⟩ := hv.node
      rw [hm'] at hn
      obtain rfl := Option.some.inj hn
      rw [hreg] at hkind
      contradiction
  · rintro ⟨rfl, hl⟩
    exact ⟨⟨n, hl⟩, List.prefix_rfl⟩

/-- A child that exists lists what is at and below it. -/
theorem walkChild_exact (hsys : Presents sys t fnmatch root)
    {descend : CStr → CStr → Context W → ℤ × Context W} {d : List CStr}
    (hd : t.Visited fnmatch d) (hdesc : Descends t fnmatch root H descend d) {name : CStr}
    {n : Node} (hn : t.node (d ++ [name]) = some n) (hgit : name ≠ .lit ".git")
    {c : Context W} (hc : InDir t d c) :
    ∃ c', walkChild sys (.ofFunction H) descend (diskPath root (d ++ [name]))
        (relPath (d ++ [name])) c = (0, c') ∧
      Walked t H (Below t fnmatch (d ++ [name])) c c' := by
  have hstat := hsys.lstat _ n hn c.world
  have hignored : ∀ isDir, isPathIgnored sys.fnmatch c.rules.items (relPath (d ++ [name])) isDir =
      true ↔ t.Ignored fnmatch (d ++ [name]) isDir := by
    intro isDir
    rw [hsys.globs, hc.rules, ← t.rulesFor_concat]
    exact isPathIgnored_iff hn isDir
  unfold walkChild Context.call
  simp only [hstat]
  generalize (sys.lstat (diskPath root (d ++ [name])) c.world).2 = w
  cases hkind : n.stat.kind with
  | symlink =>
    have hnone : ∀ p, ¬ Below t fnmatch (d ++ [name]) p := fun p =>
      not_below_of_not_regular hn (by simp [hkind]) (by simp [hkind])
    exact ⟨_, rfl, Walked.nothing hnone w⟩
  | other =>
    have hnone : ∀ p, ¬ Below t fnmatch (d ++ [name]) p := fun p =>
      not_below_of_not_regular hn (by simp [hkind]) (by simp [hkind])
    exact ⟨_, rfl, Walked.nothing hnone w⟩
  | directory =>
    by_cases hign : t.Ignored fnmatch (d ++ [name]) true
    · have hnone : ∀ p, ¬ Below t fnmatch (d ++ [name]) p := fun p =>
        not_below_of_not_regular hn (by simp [hkind]) fun _ => hign
      simp only [(hignored true).mpr hign, ↓reduceIte]
      exact ⟨_, rfl, Walked.nothing hnone w⟩
    · obtain ⟨c', heq, hw⟩ := hdesc name { c with world := w } (hd.child hn hkind hgit hign)
        ⟨hc.rules, hc.ancestors⟩
      simp only [mt (hignored true).mp hign]
      exact ⟨c', heq, hw.entries, hw.rules, hw.ancestors, hw.stdout⟩
  | regular =>
    by_cases hign : t.Ignored fnmatch (d ++ [name]) false
    · have hnone : ∀ p, ¬ Below t fnmatch (d ++ [name]) p := by
        intro p hp
        obtain ⟨rfl, hlisted⟩ := (below_regular hn hkind).mp hp
        exact hlisted.notIgnored hign
      simp only [(hignored false).mpr hign, ↓reduceIte]
      exact ⟨_, rfl, Walked.nothing hnone w⟩
    · have hlisted := Tree.Listed.of_visited hd hn hkind hgit hign
      have hbelow : ∀ p, p = d ++ [name] ↔ Below t fnmatch (d ++ [name]) p := by
        intro p
        rw [below_regular hn hkind]
        constructor
        · rintro rfl
          exact ⟨rfl, hlisted⟩
        · exact And.left
      obtain ⟨c', heq, hw⟩ := walkFile_exact (H := H) hsys hlisted { c with world := w }
      simp only [mt (hignored false).mp hign]
      exact ⟨c', heq, Walked.congr ⟨hw.entries, hw.rules, hw.ancestors, hw.stdout⟩ hbelow⟩

/-- One name of a directory lists what is at and below it. -/
theorem walkEntry_exact (hlim : WithinLimits t fnmatch root) (hsys : Presents sys t fnmatch root)
    {descend : CStr → CStr → Context W → ℤ × Context W} {d : List CStr}
    (hd : t.Visited fnmatch d) (hdesc : Descends t fnmatch root H descend d) {name : CStr}
    (hname : name ≠ .lit "." → name ≠ .lit ".." → (t.node (d ++ [name])).isSome)
    {c : Context W} (hc : InDir t d c) :
    ∃ c', walkEntry sys (.ofFunction H) descend (diskPath root d) (relPath d) name c = (0, c') ∧
      Walked t H (Below t fnmatch (d ++ [name])) c c' := by
  unfold walkEntry
  by_cases hdots : name = .lit "." ∨ name = .lit ".."
  · have hnone : ∀ p, ¬ Below t fnmatch (d ++ [name]) p := by
      rintro p ⟨⟨n, hn⟩, hpre⟩
      have hok := t.nameOk d name (hn.isSome_of_prefix hpre)
      exact hdots.elim hok.2.2.1 hok.2.2.2
    rw [if_pos hdots]
    exact ⟨c, rfl, Walked.nothing hnone c.world⟩
  · rw [if_neg hdots]
    rw [not_or] at hdots
    obtain ⟨n, hn⟩ := Option.isSome_iff_exists.mp (hname hdots.1 hdots.2)
    by_cases hgit : name = .lit ".git"
    · have hnone : ∀ p, ¬ Below t fnmatch (d ++ [name]) p := by
        rintro p ⟨⟨m, hm⟩, hpre⟩
        exact hm.notGit name (hpre.subset (by simp)) hgit
      rw [if_pos hgit]
      exact ⟨c, rfl, Walked.nothing hnone c.world⟩
    · have hdisk := hlim.pathLength d name hd (.inl ⟨by rw [hn]; rfl, hgit⟩)
      have hrel := (relPath_length_le root (d ++ [name])).trans_lt hdisk
      rw [if_neg hgit, ← diskPath_concat, ← relPath_concat, if_neg (by omega), if_neg (by omega)]
      exact walkChild_exact hsys hd hdesc hn hgit hc

/-- Different names of a directory have different files below them. -/
theorem name_eq_of_above {d p : List CStr} {name name' : CStr} (h : d ++ [name] <+: p)
    (h' : d ++ [name'] <+: p) : name = name' := by
  have hpre := List.prefix_of_prefix_length_le h h' (by simp)
  simpa using hpre

/-- The loop lists what is at and below its names, in their order. -/
theorem walkEntries_exact (hlim : WithinLimits t fnmatch root) (hsys : Presents sys t fnmatch root)
    {descend : CStr → CStr → Context W → ℤ × Context W} {d : List CStr}
    (hd : t.Visited fnmatch d) (hdesc : Descends t fnmatch root H descend d) {names : List CStr}
    (hnodup : names.Nodup) (hnames : ∀ name ∈ names,
      name ≠ .lit "." → name ≠ .lit ".." → (t.node (d ++ [name])).isSome)
    {c : Context W} (hc : InDir t d c) :
    ∃ c', walkEntries sys (.ofFunction H) descend (diskPath root d) (relPath d) names c =
        (0, c') ∧
      Walked t H (fun p => ∃ name ∈ names, Below t fnmatch (d ++ [name]) p) c c' := by
  induction names generalizing c with
  | nil => exact ⟨c, rfl, Walked.nothing (by simp) c.world⟩
  | cons name names ih =>
    rw [List.nodup_cons] at hnodup
    obtain ⟨c₁, heq₁, hw₁⟩ := walkEntry_exact hlim hsys hd hdesc
      (hnames name List.mem_cons_self) hc
    obtain ⟨c', heq, hw⟩ := ih hnodup.2 (fun m hm => hnames m (List.mem_cons_of_mem _ hm))
      (hc.walked hw₁)
    have hdisj : ∀ p, Below t fnmatch (d ++ [name]) p →
        ¬ ∃ m ∈ names, Below t fnmatch (d ++ [m]) p := by
      rintro p hp ⟨m, hm, hp'⟩
      rw [name_eq_of_above hp.2 hp'.2] at hnodup
      exact hnodup.1 hm
    refine ⟨c', ?_, (hw₁.trans hw hdisj).congr fun p => ?_⟩
    · unfold walkEntries
      simp only [heq₁, heq]
    · simp

/-- Popping a directory's rules gives back the rules above it. -/
theorem popRules_items {d : List CStr} {c : Context W}
    (h : c.rules.items = t.rulesFor d ++ t.dirRules d) :
    (popRules d.length c).rules.items = t.rulesFor d :=
  popRules_append h (fun _ hr => (t.depth_of_mem_rulesFor hr).ne) fun _ => t.depth_of_mem_dirRules

/-- The rules of the `.gitignore` of a directory go on the stack. -/
theorem loadDirRules_exact (hsys : Presents sys t fnmatch root) {d : List CStr}
    (hd : t.Visited fnmatch d) (c : Context W) :
    ∃ c', loadDirRules sys (diskPath root d) (relPath d) d.length c = (0, c') ∧
      OnlyRules c c' (t.dirRules d) := by
  unfold loadDirRules Tree.dirRules Context.call
  rw [← diskPath_concat]
  cases hn : t.node (d ++ [gitignoreName]) with
  | none =>
    obtain ⟨err, herr⟩ := hsys.lstatMissing d hd hn c.world
    simp only [herr]
    exact ⟨_, rfl, by simp, rfl, rfl, rfl⟩
  | some n =>
    simp only [hsys.lstat _ n hn c.world]
    by_cases hreg : n.stat.kind = .regular
    · simp only [hreg, ↓reduceIte]
      obtain ⟨c', heq, hrules⟩ := loadGitignore_granted hsys.malloc (relPath d)
        d.length (hsys.fopen d n hd hn hreg)
        { c with world := (sys.lstat (diskPath root (d ++ [gitignoreName])) c.world).2 }
      exact ⟨c', heq, hrules.rules, hrules.entries, hrules.ancestors, hrules.stdout⟩
    · simp only [hreg, ↓reduceIte]
      exact ⟨_, rfl, by simp, rfl, rfl, rfl⟩

/-- Below a directory is what is at and below its names. -/
theorem below_iff_names {d p : List CStr} (hd : t.Visited fnmatch d) {names : List CStr}
    (hnames : ∀ name, name ≠ .lit "." → name ≠ .lit ".." →
      (name ∈ names ↔ (t.node (d ++ [name])).isSome)) :
    (∃ name ∈ names, Below t fnmatch (d ++ [name]) p) ↔ Below t fnmatch d p := by
  constructor
  · rintro ⟨name, -, hp, hpre⟩
    exact ⟨hp, (List.prefix_append d [name]).trans hpre⟩
  · rintro ⟨⟨n, hn⟩, rest, rfl⟩
    cases rest with
    | nil =>
      rw [List.append_nil] at hn
      exact absurd hd hn.not_visited
    | cons name rest =>
      have hpre : d ++ [name] <+: d ++ name :: rest := ⟨rest, by simp⟩
      have hsome := hn.isSome_of_prefix hpre
      have hok := t.nameOk d name hsome
      exact ⟨name, (hnames name hok.2.2.1 hok.2.2.2).mpr hsome, ⟨n, hn⟩, hpre⟩

/-- An opened directory lists its files, and leaves the stack as its parent had it. -/
theorem walkOpened_exact (hlim : WithinLimits t fnmatch root) (hsys : Presents sys t fnmatch root)
    {descend : CStr → CStr → Context W → ℤ × Context W} {d : List CStr}
    (hd : t.Visited fnmatch d) (hdesc : Descends t fnmatch root H descend d) {listing : Listing}
    (herror : listing.error = none) (hnodup : listing.names.Nodup)
    (hnames : ∀ name, name ≠ .lit "." → name ≠ .lit ".." →
      (name ∈ listing.names ↔ (t.node (d ++ [name])).isSome))
    {c : Context W} (hrules : c.rules.items = t.rulesFor d)
    (hanc : c.ancestors = t.ident d :: t.ancestorIds d) :
    ∃ c', walkOpened sys (.ofFunction H) descend (diskPath root d) (relPath d) d.length listing c =
        (0, c') ∧
      Walked t H (Below t fnmatch d) { c with ancestors := t.ancestorIds d } c' := by
  have hpath := hlim.pathLength d gitignoreName hd (.inr rfl)
  rw [diskPath_concat] at hpath
  obtain ⟨c₁, hload, honly⟩ := loadDirRules_exact hsys hd c
  have hin : InDir t d c₁ := ⟨by rw [honly.rules, hrules], honly.ancestors.trans hanc⟩
  obtain ⟨c₂, hloop, hw⟩ := walkEntries_exact hlim hsys hd hdesc hnodup
    (fun name hname hdot hdots => (hnames name hdot hdots).mp hname) hin
  have hin₂ := hin.walked hw
  refine ⟨(popRules d.length c₂).leave, ?_, ?_⟩
  · unfold walkOpened
    rw [if_neg (Nat.not_le.mpr hpath)]
    simp only [hload, hloop, herror]
  · have hw' := hw.congr fun p => below_iff_names hd hnames
    obtain ⟨ps, hps⟩ := hw'.entries
    rw [honly.entries] at hps
    refine ⟨⟨ps, hps⟩, ?_, ?_, hw'.stdout.trans honly.stdout⟩
    · exact (popRules_items hin₂.rules).trans hrules.symm
    · exact congrArg List.tail hin₂.ancestors

/-- `walk_dir` lists exactly the files below its directory. The induction is on the levels
left; the limits keep them from running out. -/
theorem walkDir_exact (hlim : WithinLimits t fnmatch root) (hsys : Presents sys t fnmatch root)
    (levels : ℕ) {d : List CStr} (hd : t.Visited fnmatch d) (hlevels : d.length + levels = maxDepth)
    {c : Context W} (hrules : c.rules.items = t.rulesFor d) (hanc : c.ancestors = t.ancestorIds d) :
    ∃ c', walkDir sys (.ofFunction H) levels (diskPath root d) (relPath d) c = (0, c') ∧
      Walked t H (Below t fnmatch d) c c' := by
  induction levels generalizing d c with
  | zero =>
    have hdepth := hlim.depth d hd
    omega
  | succ levels ih =>
    have hdesc : Descends t fnmatch root H (walkDir sys (.ofFunction H) levels) d := by
      intro name c hv hc
      apply ih hv
      · rw [List.length_append, List.length_singleton]
        omega
      · rw [hc.rules, t.rulesFor_concat]
      · rw [hc.ancestors, t.ancestorIds_concat]
    obtain ⟨n, hn, hdir⟩ := hd.node
    have hident : (n.stat.dev, n.stat.ino) = t.ident d := by rw [Tree.ident, hn]
    have hacyclic := hlim.acyclic d hd
    rw [← hanc, ← hident] at hacyclic
    obtain ⟨listing, hopen, herror, hnodup, hnames⟩ :=
      hsys.opendir d hd (sys.lstat (diskPath root d) c.world).2
    obtain ⟨c', heq, hw⟩ := walkOpened_exact hlim hsys hd hdesc herror hnodup hnames
      (c := { c with
        ancestors := (n.stat.dev, n.stat.ino) :: c.ancestors
        world := (sys.opendir (diskPath root d) (sys.lstat (diskPath root d) c.world).2).2 })
      hrules (by rw [hident, hanc])
    have hdepth : maxDepth - (levels + 1) = d.length := by omega
    refine ⟨c', ?_, hw.entries, hw.rules, hw.ancestors.trans hanc.symm, hw.stdout⟩
    rw [walkDir, walkBody, hdepth]
    unfold Context.call
    simp only [hsys.lstat d n hn c.world, hdir, ne_eq, not_true_eq_false, hacyclic, hopen,
      ↓reduceIte]
    exact heq

end

end Treehash
