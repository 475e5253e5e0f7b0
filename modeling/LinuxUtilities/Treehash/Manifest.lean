import LinuxUtilities.Treehash.WalkExact

/-! The printed manifest: which files it has, and what it does not depend on. -/
namespace Treehash
open CString

/-- The listed files in `strcmp` order of their paths. -/
structure Tree.IsManifest (t : Tree) (fnmatch : CStr → CStr → Bool → Bool)
    (ps : List (List CStr)) : Prop where
  sorted : ps.Pairwise fun p q => strcmp (relPath p).bytes (relPath q).bytes < 0
  mem : ∀ p, p ∈ ps ↔ ∃ n, t.Listed fnmatch p n

/-- What a run without failures prints. -/
def manifestText (S : StreamHash) (entries : List FileEntry) : List UInt8 :=
  ascii "ROOT " ++ merkleRoot S entries ++ ascii "\n" ++ entries.flatMap leafRecord

variable {t : Tree} {fnmatch : CStr → CStr → Bool → Bool}

theorem relPath_injOn {p q : List CStr} {n m : Node} (hp : t.Listed fnmatch p n)
    (hq : t.Listed fnmatch q m) (h : relPath p = relPath q) : p = q :=
  relPath_injective (t.name_ne_empty hp.node) (t.name_ne_empty hq.node) h

theorem compareFileEntries_nonpos (a b : FileEntry) :
    compareFileEntries a b ≤ 0 ↔ a.relPath ≤ b.relPath :=
  strcmp_nonpos

namespace Tree.IsManifest

theorem nodup {ps : List (List CStr)} (h : t.IsManifest fnmatch ps) : ps.Nodup := by
  apply h.sorted.imp
  rintro p _ hlt rfl
  rw [strcmp_neg] at hlt
  exact lt_irrefl _ hlt

/-- Any list of the files can be put in order. -/
theorem of_nodup {ps : List (List CStr)} (hnodup : ps.Nodup)
    (hmem : ∀ p, p ∈ ps ↔ ∃ n, t.Listed fnmatch p n) : ∃ qs, t.IsManifest fnmatch qs := by
  let cmp (p q : List CStr) : ℤ := strcmp (relPath p).bytes (relPath q).bytes
  have hcmp : ∀ p q, cmp p q ≤ 0 ↔ relPath p ≤ relPath q := fun p q => strcmp_nonpos
  have hkeys : (ps.map relPath).Nodup := by
    apply hnodup.map_on
    intro p hp q hq
    obtain ⟨n, hn⟩ := (hmem p).mp hp
    obtain ⟨m, hm⟩ := (hmem q).mp hq
    exact relPath_injOn hn hm
  have hsorted := (QSort.byKey relPath hcmp).pairwise_lt hcmp hkeys
  refine ⟨(QSort.byKey relPath hcmp).sort ps, hsorted.imp strcmp_neg.mpr, fun p => ?_⟩
  rw [QSort.mem_sort, hmem]

/-- Sorting the entries of the files in any order gives the manifest. -/
theorem sort_entries {ps qs : List (List CStr)} (h : t.IsManifest fnmatch ps)
    (q : QSort compareFileEntries) (H : List UInt8 → Digest) (hnodup : qs.Nodup)
    (hmem : ∀ p, p ∈ qs ↔ ∃ n, t.Listed fnmatch p n) :
    q.sort (qs.map (t.entryOf H)) = ps.map (t.entryOf H) := by
  have hperm : qs.Perm ps := by
    rw [List.perm_ext_iff_of_nodup hnodup h.nodup]
    intro p
    rw [hmem, h.mem]
  have hsorted : (ps.map (t.entryOf H)).Pairwise fun a b => compareFileEntries a b ≤ 0 := by
    rw [List.pairwise_map]
    exact h.sorted.imp le_of_lt
  apply ((q.perm _).trans (hperm.map _)).eq_of_pairwise _ (q.sorted _) hsorted
  intro a b ha hb hab hba
  obtain ⟨p, hp, rfl⟩ := List.mem_map.mp (q.mem_sort.mp ha)
  obtain ⟨p', hp', rfl⟩ := List.mem_map.mp hb
  rw [compareFileEntries_nonpos] at hab hba
  obtain ⟨n, hn⟩ := (hmem p).mp hp
  obtain ⟨m, hm⟩ := (h.mem p').mp hp'
  rw [relPath_injOn hn hm (le_antisymm hab hba)]

end Tree.IsManifest

section Print
variable {W : Type} {sys : Sys W} {S : StreamHash}

theorem printStdout_granted (hp : ∀ w, (sys.printf w).1 = true) (text : List UInt8)
    (c : Context W) : ∃ c', printStdout sys text c = (true, c') ∧ c'.stdout = c.stdout ++ text := by
  unfold printStdout
  simp only [Context.call_fst, Context.call_snd, hp, ↓reduceIte]
  exact ⟨_, rfl, rfl⟩

theorem printEntries_granted (hp : ∀ w, (sys.printf w).1 = true) (entries : List FileEntry)
    (c : Context W) : ∃ c', printEntries sys entries c = (true, c') ∧
      c'.stdout = c.stdout ++ entries.flatMap leafRecord := by
  induction entries generalizing c with
  | nil => exact ⟨c, rfl, by simp⟩
  | cons e entries ih =>
    obtain ⟨c₁, heq₁, hout₁⟩ := printStdout_granted hp (leafRecord e) c
    obtain ⟨c', heq, hout⟩ := ih c₁
    refine ⟨c', by simp only [printEntries, heq₁, heq], ?_⟩
    rw [hout, hout₁, List.flatMap_cons, List.append_assoc]

/-- After the walk, the sorted entries are printed below their root. -/
theorem printTree_granted (hm : ∀ w, (sys.malloc w).1 = true) (hp : ∀ w, (sys.printf w).1 = true)
    (hf : ∀ w, (sys.fflush w).1 = true) (q : QSort compareFileEntries) (c : Context W)
    (hlen : c.entries.items.length ≤ sizeMax / 32) :
    ∃ c', printTree sys S q c = (0, c') ∧
      c'.stdout = c.stdout ++ manifestText S (q.sort c.entries.items) := by
  have hitems : (if 0 < c.entries.items.length then q.sort c.entries.items
      else c.entries.items) = q.sort c.entries.items := by
    split
    · rfl
    next hnil =>
      rw [List.length_eq_zero_iff.mp (Nat.eq_zero_of_not_pos hnil)]
      exact (List.perm_nil.mp (q.perm [])).symm
  obtain ⟨c₁, heq₁, hout₁⟩ := computeMerkleRoot_total (S := S) hm
    (q.sort c.entries.items) (by rwa [(q.perm _).length_eq])
    { c with entries.items := q.sort c.entries.items }
  obtain ⟨c₂, heq₂, hout₂⟩ := printStdout_granted hp
    (ascii "ROOT " ++ merkleRoot S (q.sort c.entries.items) ++ ascii "\n") c₁
  obtain ⟨c₃, heq₃, hout₃⟩ := printEntries_granted hp (q.sort c.entries.items) c₂
  unfold printTree
  simp only [hitems, heq₁, heq₂, heq₃, Context.call_fst, Context.call_snd, hf, ↓reduceIte]
  refine ⟨_, rfl, ?_⟩
  rw [hout₃, hout₂, hout₁, manifestText]
  simp

/-- A run over a presented tree prints the manifest of the tree. -/
theorem hashTree_manifest {root : CStr} {H : List UInt8 → Digest}
    (hlim : WithinLimits t fnmatch root) (hsys : Presents sys t fnmatch root)
    (q : QSort compareFileEntries) (rawOperand : CStr) (w : W) :
    ∃ qs : List (List CStr), qs.Nodup ∧ (∀ p, p ∈ qs ↔ ∃ n, t.Listed fnmatch p n) ∧
      ∃ c', hashTree sys (.ofFunction H) q rawOperand root w = (0, c') ∧
        c'.stdout = manifestText (.ofFunction H) (q.sort (qs.map (t.entryOf H))) := by
  obtain ⟨n, hn, hdir⟩ := t.rootDir
  have hstat : (sys.lstat root (Context.init w).world).1 = .ok n.stat := hsys.lstat [] n hn w
  obtain ⟨c₁, heq₁, hw⟩ := walkDir_exact (H := H) hlim hsys maxDepth Tree.visited_nil
    (by simp) (c := (((Context.init w).call (sys.lstat root)).2.call sys.malloc).2) rfl rfl
  obtain ⟨qs, hnodup, hmem, hentries⟩ := hw.entries
  have hmem' : ∀ p, p ∈ qs ↔ ∃ n, t.Listed fnmatch p n := by
    intro p
    rw [hmem, Below]
    simp
  have hentries' : c₁.entries.items = qs.map (t.entryOf H) := by
    rw [hentries]
    rfl
  obtain ⟨c', heq, hout⟩ := printTree_granted (S := .ofFunction H) hsys.malloc hsys.printf
    hsys.fflush q c₁ (by
      rw [hentries', List.length_map]
      exact hlim.count qs hnodup fun p => (hmem' p).mp)
  refine ⟨qs, hnodup, hmem', c', ?_, ?_⟩
  · have hwalk : walkDir sys (.ofFunction H) maxDepth root ∅ _ = (0, c₁) := heq₁
    unfold Context.call at hwalk
    unfold hashTree Context.call
    simp only [hstat, hdir, hsys.malloc, ne_eq, not_true_eq_false, ↓reduceIte, hwalk, heq]
  · rw [hout, hw.stdout, hentries']
    rfl

end Print

/-- Two trees that differ at most in the `.gitignore` of a directory. -/
def Tree.AgreeExcept (t t' : Tree) (d : List CStr) : Prop :=
  ∀ p, p ≠ d ++ [gitignoreName] → t'.node p = t.node p

namespace Tree.AgreeExcept
variable {t' : Tree} {d : List CStr}

theorem symm (h : t.AgreeExcept t' d) : t'.AgreeExcept t d :=
  fun p hp => (h p hp).symm

theorem dirRules_eq (h : t.AgreeExcept t' d) {p : List CStr} (hp : p ≠ d) :
    t'.dirRules p = t.dirRules p := by
  rw [Tree.dirRules, Tree.dirRules, h _ fun heq => hp (List.append_inj_left' heq rfl)]

theorem rulesFor_eq (h : t.AgreeExcept t' d) {p : List CStr} (hp : ¬ d <+: p) :
    t'.rulesFor p = t.rulesFor p := by
  apply List.flatMap_congr
  intro k _
  apply h.dirRules_eq
  rintro rfl
  exact hp (List.take_prefix k p)

theorem ignored_iff (h : t.AgreeExcept t' d) {p : List CStr} (hp : ¬ d <+: p) (isDir : Bool) :
    t'.Ignored fnmatch p isDir ↔ t.Ignored fnmatch p isDir := by
  rw [Tree.Ignored, Tree.Ignored, h.rulesFor_eq hp]

theorem listed (h : t.AgreeExcept t' d) {p : List CStr} {n : Node} (hp : ¬ d <+: p)
    (hl : t.Listed fnmatch p n) : t'.Listed fnmatch p n := by
  refine ⟨?_, hl.regular, hl.notGit, ?_, mt (h.ignored_iff hp false).mp hl.notIgnored⟩
  · rw [h p fun heq => hp ⟨[gitignoreName], heq.symm⟩, hl.node]
  · intro k hk
    have hpre : ¬ d <+: p.take k := fun hpre => hp (hpre.trans (List.take_prefix k p))
    exact mt (h.ignored_iff hpre true).mp (hl.ancestors k hk)

end Tree.AgreeExcept

namespace Sample

def keep : CStr := .lit "keep"
def skip : CStr := .lit "skip"

/-- A root with a `.gitignore` for one of its two other files. -/
def nodes : List (List CStr × Node) :=
  [([], ⟨⟨.directory, 1, 1⟩, []⟩), ([gitignoreName], ⟨⟨.regular, 1, 2⟩, ascii "skip\n"⟩),
    ([keep], ⟨⟨.regular, 1, 3⟩, []⟩), ([skip], ⟨⟨.regular, 1, 4⟩, []⟩)]

def node (p : List CStr) : Option Node := (nodes.find? fun e => e.1 = p).map Prod.snd

theorem mem_of_node {p : List CStr} {n : Node} (h : node p = some n) : (p, n) ∈ nodes := by
  obtain ⟨e, he, rfl⟩ := Option.map_eq_some_iff.mp h
  have hp : e.1 = p := by simpa using List.find?_some he
  rw [← hp]
  exact List.mem_of_find?_eq_some he

theorem parent_nil {d : List CStr} {name : CStr} (h : (node (d ++ [name])).isSome) : d = [] := by
  obtain ⟨n, hn⟩ := Option.isSome_iff_exists.mp h
  have hlen : ∀ e ∈ nodes, e.1.length ≤ 1 := by decide
  have := hlen _ (mem_of_node hn)
  rw [List.length_append, List.length_singleton] at this
  exact List.length_eq_zero_iff.mp (by omega)

def tree : Tree where
  node := node
  rootDir := ⟨_, rfl, rfl⟩
  parentDir := by
    intro p name h
    rw [parent_nil h]
    exact ⟨_, rfl, rfl⟩
  nameOk := by
    intro p name h
    have hok : ∀ e ∈ nodes, ∀ name ∈ e.1,
        name ≠ ∅ ∧ 47 ∉ name.bytes ∧ name ≠ .lit "." ∧ name ≠ .lit ".." := by decide
    obtain ⟨n, hn⟩ := Option.isSome_iff_exists.mp h
    exact hok _ (mem_of_node hn) name (by simp)

def root : CStr := .lit "/r"

/-- Patterns that match themselves only. -/
def sameName (pat text : CStr) (_ : Bool) : Bool := pat = text

def lookup {α : Type} (f : Node → α) (path : CStr) (u : Unit) : Except Errno α × Unit :=
  (match nodes.find? fun e => diskPath root e.1 = path with
    | some e => .ok (f e.2)
    | none => .error ENOENT, u)

def sys : Sys Unit where
  lstat := lookup Node.stat
  opendir := lookup fun _ => ⟨[skip, .lit ".", keep, .lit "..", gitignoreName], none⟩
  fopen := lookup fun n => ⟨n.content, false⟩
  openRead := lookup fun n => ⟨[n.content], none, none⟩
  malloc := fun u => (true, u)
  fnmatch := sameName
  printf := fun u => (true, u)
  fflush := fun u => (true, u)
  strerror := fun _ => []

theorem visited_eq {d : List CStr} (h : tree.Visited sameName d) : d = [] := by
  have hdir : ∀ e ∈ nodes, e.2.stat.kind = .directory → e.1 = [] := by decide
  obtain ⟨n, hn, hkind⟩ := h.node
  exact hdir _ (mem_of_node hn) hkind

theorem lookup_node {α : Type} (f : Node → α) {p : List CStr} {n : Node}
    (h : tree.node p = some n) (u : Unit) : (lookup f (diskPath root p) u).1 = .ok (f n) := by
  have hfind : ∀ e ∈ nodes, (nodes.find? fun e' => diskPath root e'.1 = diskPath root e.1) =
      some e := by decide
  simp only [lookup, hfind _ (mem_of_node h)]

theorem withinLimits : WithinLimits tree sameName root where
  depth d hd := by
    rw [visited_eq hd]
    decide
  acyclic d hd := by
    rw [visited_eq hd]
    decide
  pathLength d name hd h := by
    have hlen : ∀ e ∈ nodes, (diskPath root e.1).length < pathMax := by decide
    rcases h with ⟨h, -⟩ | rfl
    · obtain ⟨n, hn⟩ := Option.isSome_iff_exists.mp h
      exact hlen _ (mem_of_node hn)
    · rw [visited_eq hd]
      exact hlen _ (mem_of_node (n := ⟨⟨.regular, 1, 2⟩, ascii "skip\n"⟩) rfl)
  count ps hnodup hlisted := by
    have hsub : ps ⊆ nodes.map Prod.fst := by
      intro p hp
      obtain ⟨n, hn⟩ := hlisted p hp
      exact List.mem_map.mpr ⟨_, mem_of_node hn.node, rfl⟩
    have hlen := (List.subperm_of_subset hnodup hsub).length_le
    have : (nodes.map Prod.fst).length ≤ sizeMax / 32 := by decide
    omega

theorem presents : Presents sys tree sameName root where
  globs := rfl
  lstat p n h := lookup_node Node.stat h
  lstatMissing d hd h := by
    rw [visited_eq hd] at h
    contradiction
  opendir d hd u := by
    obtain ⟨n, hn, -⟩ := hd.node
    refine ⟨_, lookup_node _ hn u, rfl, by decide, ?_⟩
    rw [visited_eq hd]
    intro name hdot hdots
    constructor
    · intro h
      have hsome : ∀ m ∈ [skip, CStr.lit ".", keep, .lit "..", gitignoreName],
          m = .lit "." ∨ m = .lit ".." ∨ (node [m]).isSome := by decide
      change (node [name]).isSome
      simpa [hdot, hdots] using hsome name h
    · intro h
      have hmem : ∀ e ∈ nodes, ∀ m ∈ e.1,
          m ∈ [skip, CStr.lit ".", keep, .lit "..", gitignoreName] := by decide
      obtain ⟨m, hm⟩ := Option.isSome_iff_exists.mp h
      exact hmem _ (mem_of_node hm) name (by simp)
  fopen d n hd h _ := lookup_node _ h
  openRead p n h u := ⟨_, lookup_node _ h.node u, by simp⟩
  malloc _ := rfl
  printf _ := rfl
  fflush _ := rfl

def sortEntries : QSort compareFileEntries := .byKey FileEntry.relPath compareFileEntries_nonpos

end Sample

end Treehash
