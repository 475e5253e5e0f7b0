import LinuxUtilities.Foundation.LastMatch
import LinuxUtilities.Foundation.PackedStrings
import LinuxUtilities.Treehash.Walk

/-! A workspace as a tree without order, the files its manifest is to list, and how a
system presents such a tree to the program. -/
namespace Treehash
open CString

/-- What stands at a path: its `struct stat`, and the bytes of a regular file. -/
structure Node where
  stat : Stat
  content : List UInt8
  deriving DecidableEq

/-- A directory tree by the names on the way down from its root. -/
structure Tree where
  node : List CStr → Option Node
  rootDir : ∃ n, node [] = some n ∧ n.stat.kind = .directory
  parentDir : ∀ p name, (node (p ++ [name])).isSome →
    ∃ n, node p = some n ∧ n.stat.kind = .directory
  nameOk : ∀ p name, (node (p ++ [name])).isSome →
    name ≠ ∅ ∧ 47 ∉ name.bytes ∧ name ≠ .lit "." ∧ name ≠ .lit ".."

def diskPath (root : CStr) (p : List CStr) : CStr := p.foldl childDisk root

def relPath (p : List CStr) : CStr := p.foldl childRel ∅

theorem diskPath_concat (root : CStr) (p : List CStr) (name : CStr) :
    diskPath root (p ++ [name]) = childDisk (diskPath root p) name := by
  rw [diskPath, List.foldl_append, List.foldl_cons, List.foldl_nil, diskPath]

theorem relPath_concat (p : List CStr) (name : CStr) :
    relPath (p ++ [name]) = childRel (relPath p) name := by
  rw [relPath, List.foldl_append, List.foldl_cons, List.foldl_nil, relPath]

/-- What a rule matches among the paths below its directory, by their names from the root: an
anchored pattern is put to the part below the directory, another also to the last name. -/
structure IgnoreRule.Matches (fnmatch : CStr → CStr → Bool → Bool) (r : IgnoreRule)
    (p : List CStr) (isDir : Bool) : Prop where
  kind : r.isDirOnly = true → isDir = true
  pattern : fnmatch r.pattern (relPath (p.drop r.depth)) true = true ∨
    r.isAnchored = false ∧ ∃ name ∈ p.getLast?, fnmatch r.pattern name false = true

namespace Tree
variable (t : Tree) (fnmatch : CStr → CStr → Bool → Bool)

/-- The rules of the `.gitignore` of a directory, when that is a regular file. -/
def dirRules (d : List CStr) : List IgnoreRule :=
  match t.node (d ++ [gitignoreName]) with
  | some n => if n.stat.kind = .regular then gitignoreRules (relPath d) d.length n.content else []
  | none => []

/-- The rules that apply to a path: those of its proper ancestors, root first. -/
def rulesFor (p : List CStr) : List IgnoreRule :=
  (List.range p.length).flatMap fun k => t.dirRules (p.take k)

/-- Of the rules that apply to a path, the last that matches it is not negated. -/
def Ignored (p : List CStr) (isDir : Bool) : Prop :=
  ∃ r, LastMatch.Decides (fun r => r.Matches fnmatch p isDir) (t.rulesFor p) r ∧
    r.isNegated = false

/-- The regular files that belong in the manifest. -/
structure Listed (p : List CStr) (n : Node) : Prop where
  node : t.node p = some n
  regular : n.stat.kind = .regular
  notGit : ∀ name ∈ p, name ≠ .lit ".git"
  ancestors : ∀ k < p.length, ¬ t.Ignored fnmatch (p.take k) true
  notIgnored : ¬ t.Ignored fnmatch p false

/-- The directories that the walk enters. -/
structure Visited (p : List CStr) : Prop where
  node : ∃ n, t.node p = some n ∧ n.stat.kind = .directory
  notGit : ∀ name ∈ p, name ≠ .lit ".git"
  notIgnored : ∀ k ≤ p.length, ¬ t.Ignored fnmatch (p.take k) true

/-- The device and inode numbers at a path. -/
def ident (p : List CStr) : ℕ × ℕ :=
  match t.node p with
  | some n => (n.stat.dev, n.stat.ino)
  | none => (0, 0)

/-- The identities of the proper ancestors of a path, nearest first. -/
def ancestorIds (p : List CStr) : List (ℕ × ℕ) :=
  (List.range p.length).reverse.map fun k => t.ident (p.take k)

theorem take_concat_of_le {p : List CStr} {name : CStr} {k : ℕ} (h : k ≤ p.length) :
    (p ++ [name]).take k = p.take k :=
  List.take_append_of_le_length h

theorem rulesFor_concat (p : List CStr) (name : CStr) :
    t.rulesFor (p ++ [name]) = t.rulesFor p ++ t.dirRules p := by
  rw [rulesFor, List.length_append, List.length_singleton, List.range_succ, List.flatMap_append]
  congr 1
  · apply List.flatMap_congr
    intro k hk
    rw [take_concat_of_le (List.mem_range.mp hk).le]
  · simp

theorem ancestorIds_concat (p : List CStr) (name : CStr) :
    t.ancestorIds (p ++ [name]) = t.ident p :: t.ancestorIds p := by
  rw [ancestorIds, List.length_append, List.length_singleton, List.range_succ,
    List.reverse_append, List.reverse_singleton, List.singleton_append, List.map_cons,
    List.take_left, ancestorIds]
  congr 1
  apply List.map_congr_left
  intro k hk
  rw [take_concat_of_le (List.mem_range.mp (List.mem_reverse.mp hk)).le]

theorem depth_of_mem_dirRules {d : List CStr} {r : IgnoreRule} (h : r ∈ t.dirRules d) :
    r.depth = d.length := by
  unfold dirRules at h
  split at h
  · split at h
    · exact depth_of_mem_gitignoreRules h
    · contradiction
  · contradiction

theorem dirRel_of_mem_dirRules {d : List CStr} {r : IgnoreRule} (h : r ∈ t.dirRules d) :
    r.dirRel = relPath d := by
  unfold dirRules at h
  split at h
  · split at h
    · exact dirRel_of_mem_gitignoreRules h
    · contradiction
  · contradiction

/-- The rules above a directory come from directories above it. -/
theorem depth_of_mem_rulesFor {p : List CStr} {r : IgnoreRule} (h : r ∈ t.rulesFor p) :
    r.depth < p.length := by
  obtain ⟨k, hk, hr⟩ := List.mem_flatMap.mp h
  have hlt := List.mem_range.mp hk
  rw [t.depth_of_mem_dirRules hr, List.length_take]
  omega

/-- A rule carries the path of the directory that it comes from. -/
theorem dirRel_of_mem_rulesFor {p : List CStr} {r : IgnoreRule} (h : r ∈ t.rulesFor p) :
    r.dirRel = relPath (p.take r.depth) := by
  obtain ⟨k, hk, hr⟩ := List.mem_flatMap.mp h
  have hlt := List.mem_range.mp hk
  rw [t.dirRel_of_mem_dirRules hr, t.depth_of_mem_dirRules hr, List.length_take,
    min_eq_left hlt.le]

variable {t fnmatch}

theorem not_ignored_nil (isDir : Bool) : ¬ t.Ignored fnmatch [] isDir := by
  rintro ⟨r, hr, -⟩
  exact LastMatch.not_decides_nil hr

theorem visited_nil : t.Visited fnmatch [] := by
  refine ⟨t.rootDir, by simp, fun k hk => ?_⟩
  rw [List.length_nil, Nat.le_zero] at hk
  rw [hk, List.take_nil]
  exact not_ignored_nil true

/-- The walk goes on into a subdirectory that is neither `.git` nor ignored. -/
theorem Visited.child {d : List CStr} {name : CStr} {n : Node} (h : t.Visited fnmatch d)
    (hn : t.node (d ++ [name]) = some n) (hdir : n.stat.kind = .directory)
    (hgit : name ≠ .lit ".git") (hign : ¬ t.Ignored fnmatch (d ++ [name]) true) :
    t.Visited fnmatch (d ++ [name]) := by
  refine ⟨⟨n, hn, hdir⟩, ?_, ?_⟩
  · intro m hm
    obtain hm | rfl := by simpa using hm
    · exact h.notGit m hm
    · exact hgit
  · intro k hk
    rw [List.length_append, List.length_singleton] at hk
    obtain hle | rfl := Nat.le_succ_iff.mp hk
    · rw [take_concat_of_le hle]
      exact h.notIgnored k hle
    · rwa [List.take_of_length_le (by simp)]

/-- Every directory on the way to a listed file is entered. -/
theorem Listed.visited_parent {d : List CStr} {name : CStr} {n : Node}
    (h : t.Listed fnmatch (d ++ [name]) n) : t.Visited fnmatch d := by
  refine ⟨t.parentDir d name (by rw [h.node]; rfl), ?_, ?_⟩
  · exact fun m hm => h.notGit m (List.mem_append_left _ hm)
  · intro k hk
    have hanc := h.ancestors k (by simp; omega)
    rwa [take_concat_of_le hk] at hanc

theorem Listed.of_visited {d : List CStr} {name : CStr} {n : Node} (h : t.Visited fnmatch d)
    (hn : t.node (d ++ [name]) = some n) (hreg : n.stat.kind = .regular)
    (hgit : name ≠ .lit ".git") (hign : ¬ t.Ignored fnmatch (d ++ [name]) false) :
    t.Listed fnmatch (d ++ [name]) n := by
  refine ⟨hn, hreg, ?_, ?_, hign⟩
  · intro m hm
    obtain hm | rfl := by simpa using hm
    · exact h.notGit m hm
    · exact hgit
  · intro k hk
    rw [List.length_append, List.length_singleton, Nat.lt_succ_iff] at hk
    rw [take_concat_of_le hk]
    exact h.notIgnored k hk

/-- A listed file is no directory. -/
theorem Listed.not_visited {p : List CStr} {n : Node} (h : t.Listed fnmatch p n) :
    ¬ t.Visited fnmatch p := by
  intro hv
  obtain ⟨m, hm, hdir⟩ := hv.node
  rw [h.node] at hm
  obtain rfl := Option.some.inj hm
  rw [h.regular] at hdir
  contradiction

theorem Visited.parent {d : List CStr} {name : CStr} (h : t.Visited fnmatch (d ++ [name])) :
    t.Visited fnmatch d := by
  obtain ⟨n, hn, -⟩ := h.node
  refine ⟨t.parentDir d name (by rw [hn]; rfl), ?_, ?_⟩
  · exact fun m hm => h.notGit m (List.mem_append_left _ hm)
  · intro k hk
    have hign := h.notIgnored k (by simp; omega)
    rwa [take_concat_of_le hk] at hign

theorem Visited.of_append {d rest : List CStr} (h : t.Visited fnmatch (d ++ rest)) :
    t.Visited fnmatch d := by
  induction rest using List.reverseRecOn with
  | nil => simpa using h
  | append_singleton rest name ih =>
    rw [← List.append_assoc] at h
    exact ih h.parent

/-- Every directory above a listed file is entered. -/
theorem Listed.visited_of_append {d : List CStr} {name : CStr} {rest : List CStr} {n : Node}
    (h : t.Listed fnmatch (d ++ name :: rest) n) :
    t.Visited fnmatch d ∧ (rest ≠ [] → t.Visited fnmatch (d ++ [name])) := by
  induction rest using List.reverseRecOn with
  | nil => exact ⟨h.visited_parent, fun hne => absurd rfl hne⟩
  | append_singleton rest last _ =>
    have heq : d ++ name :: (rest ++ [last]) = (d ++ [name] ++ rest) ++ [last] := by simp
    have hv : t.Visited fnmatch (d ++ [name]) := by
      rw [heq] at h
      exact h.visited_parent.of_append
    exact ⟨hv.parent, fun _ => hv⟩

/-- What is listed at or below an entry of a directory: the entry, or files of the
subdirectory that it is. -/
theorem Listed.of_prefix {d p : List CStr} {name : CStr} {n : Node} (h : t.Listed fnmatch p n)
    (hpre : d ++ [name] <+: p) : p = d ++ [name] ∨ t.Visited fnmatch (d ++ [name]) := by
  obtain ⟨rest, rfl⟩ := hpre
  by_cases hrest : rest = []
  · exact .inl (by simp [hrest])
  · rw [List.append_assoc, List.singleton_append] at h
    exact .inr (h.visited_of_append.2 hrest)

theorem Listed.isSome_of_prefix {d p : List CStr} {name : CStr} {n : Node}
    (h : t.Listed fnmatch p n) (hpre : d ++ [name] <+: p) : (t.node (d ++ [name])).isSome := by
  rcases h.of_prefix hpre with rfl | hv
  · rw [h.node]
    rfl
  · obtain ⟨m, hm, -⟩ := hv.node
    rw [hm]
    rfl

theorem name_ne_empty {p : List CStr} {n : Node} (h : t.node p = some n) :
    ∀ name ∈ p, name ≠ ∅ ∧ 47 ∉ name.bytes := by
  induction p using List.reverseRecOn generalizing n with
  | nil => simp
  | append_singleton d name ih =>
    have hok := t.nameOk d name (by rw [h]; rfl)
    obtain ⟨m, hm, -⟩ := t.parentDir d name (by rw [h]; rfl)
    intro x hx
    obtain hx | rfl := by simpa using hx
    · exact ih hm x hx
    · exact ⟨hok.1, hok.2.1⟩

end Tree

theorem relPath_ne_empty {p : List CStr} (hne : p ≠ []) (h : ∀ name ∈ p, name ≠ ∅) :
    relPath p ≠ ∅ := by
  cases p using List.reverseRecOn with
  | nil => contradiction
  | append_singleton d name =>
    have hname : name ≠ ∅ := h name (by simp)
    intro hempty
    rw [relPath_concat, childRel] at hempty
    split at hempty
    · exact hname hempty
    · have hbytes := congrArg CStr.bytes hempty
      simp only [CStr.append_bytes, CStr.empty_bytes, List.append_eq_nil_iff] at hbytes
      exact hname (CStr.ext hbytes.2)

/-- The printed path is the names with slashes between them. -/
theorem relPath_bytes {p : List CStr} (h : ∀ name ∈ p, name ≠ ∅) :
    (relPath p).bytes = [47].intercalate (p.map CStr.bytes) := by
  induction p using List.reverseRecOn with
  | nil => rfl
  | append_singleton d name ih =>
    have hd : ∀ m ∈ d, m ≠ ∅ := fun m hm => h m (List.mem_append_left _ hm)
    rw [relPath_concat, childRel, List.map_append, List.map_singleton]
    by_cases hnil : d = []
    · simp [hnil, relPath]
    · rw [if_neg (relPath_ne_empty hnil hd), intercalate_append _ (by simpa using hnil) (by simp),
        List.intercalate_singleton, CStr.append_bytes, CStr.append_bytes, ih hd]
      rfl

/-- Different files have different lines in the manifest. -/
theorem relPath_injective {p q : List CStr} (hp : ∀ name ∈ p, name ≠ ∅ ∧ 47 ∉ name.bytes)
    (hq : ∀ name ∈ q, name ≠ ∅ ∧ 47 ∉ name.bytes) (h : relPath p = relPath q) : p = q := by
  have hp' : ∀ name ∈ p, name ≠ ∅ := fun name hname => (hp name hname).1
  have hq' : ∀ name ∈ q, name ≠ ∅ := fun name hname => (hq name hname).1
  by_cases hnil : p = [] ∨ q = []
  · rcases hnil with rfl | rfl
    · by_contra hne
      exact relPath_ne_empty (Ne.symm hne) hq' h.symm
    · by_contra hne
      exact relPath_ne_empty hne hp' h
  · rw [not_or] at hnil
    have hbytes := congrArg CStr.bytes h
    rw [relPath_bytes hp', relPath_bytes hq'] at hbytes
    have hsplit := congrArg (List.splitOn 47) hbytes
    rw [List.splitOn_intercalate 47 (by simpa using fun name hname => (hp name hname).2)
        (by simpa using hnil.1),
      List.splitOn_intercalate 47 (by simpa using fun name hname => (hq name hname).2)
        (by simpa using hnil.2)] at hsplit
    exact List.map_injective_iff.mpr (fun _ _ => CStr.ext) hsplit

/-- The path of what stands below a directory. -/
theorem relPath_append {d rest : List CStr} (hd : d ≠ []) (hrest : rest ≠ [])
    (h : ∀ name ∈ d ++ rest, name ≠ ∅) :
    relPath (d ++ rest) = relPath d ++ .lit "/" ++ relPath rest := by
  have hd' : ∀ name ∈ d, name ≠ ∅ := fun name hname => h name (List.mem_append_left _ hname)
  have hrest' : ∀ name ∈ rest, name ≠ ∅ := fun name hname => h name (List.mem_append_right _ hname)
  apply CStr.ext
  rw [CStr.append_bytes, CStr.append_bytes, relPath_bytes h, relPath_bytes hd',
    relPath_bytes hrest', List.map_append,
    intercalate_append _ (by simpa using hd) (by simpa using hrest)]
  rfl

section Matching
variable {fnmatch : CStr → CStr → Bool → Bool} {r : IgnoreRule} {d rest : List CStr}

/-- The candidate relative to a directory is what of its path lies below. -/
theorem relativeTo_relPath (hrest : rest ≠ []) (h : ∀ name ∈ d ++ rest, name ≠ ∅) :
    relativeTo (relPath d) (relPath (d ++ rest)) = some (relPath rest).bytes := by
  unfold relativeTo
  by_cases hnil : d = []
  · simp [hnil, relPath]
  · have hd : ∀ name ∈ d, name ≠ ∅ := fun name hname => h name (List.mem_append_left _ hname)
    have hbytes : (relPath (d ++ rest)).bytes =
        (relPath d).bytes ++ 47 :: (relPath rest).bytes := by
      rw [relPath_append hnil hrest h, CStr.append_bytes, CStr.append_bytes, List.append_assoc]
      rfl
    rw [if_neg (relPath_ne_empty hnil hd), hbytes, if_pos (List.prefix_append _ _), CStr.length,
      List.drop_left]
    simp

/-- The part of a path after its last slash is its last name. -/
theorem rtakeWhile_relPath {name : CStr} (hname : 47 ∉ name.bytes) :
    (relPath (rest ++ [name])).bytes.rtakeWhile (· ≠ 47) = name.bytes := by
  have hbytes : ∀ b ∈ name.bytes.reverse, decide (b ≠ 47) = true := by
    intro b hb
    rw [decide_eq_true_eq]
    exact ne_of_mem_of_not_mem (List.mem_reverse.mp hb) hname
  rw [relPath_concat, childRel, List.rtakeWhile]
  split
  · rw [← List.append_nil name.bytes.reverse, List.takeWhile_append_of_pos hbytes]
    simp
  · have hslash : ((relPath rest).bytes ++ (CStr.lit "/").bytes).reverse =
        47 :: (relPath rest).bytes.reverse := by
      rw [List.reverse_append]
      rfl
    rw [CStr.append_bytes, CStr.append_bytes, List.reverse_append,
      List.takeWhile_append_of_pos hbytes, hslash]
    simp

/-- `match_rule` on a path below the directory of a rule. -/
theorem matchRule_iff {p : List CStr} (hp : ∀ name ∈ p, name ≠ ∅ ∧ 47 ∉ name.bytes)
    (hdir : r.dirRel = relPath (p.take r.depth)) (hdepth : r.depth < p.length) (isDir : Bool) :
    matchRule fnmatch r (relPath p) isDir = true ↔ r.Matches fnmatch p isDir := by
  have hdrop : p.drop r.depth ≠ [] := by simpa using hdepth
  have hne : ∀ name ∈ p, name ≠ ∅ := fun name hname => (hp name hname).1
  have hrel : relativeTo r.dirRel (relPath p) = some (relPath (p.drop r.depth)).bytes := by
    have h := relativeTo_relPath (d := p.take r.depth) hdrop (by rwa [List.take_append_drop])
    rwa [List.take_append_drop, ← hdir] at h
  have hbytes : (relPath (p.drop r.depth)).bytes ≠ [] := by
    intro hnil
    exact relPath_ne_empty hdrop (fun name hname => hne name (List.mem_of_mem_drop hname))
      (CStr.ext hnil)
  obtain ⟨rest, name, hlast⟩ := (p.drop r.depth).eq_nil_or_concat'.resolve_left hdrop
  have hmem : name ∈ p := List.mem_of_mem_drop (by rw [hlast]; simp)
  have hbase : CStr.ofBytes ((relPath (p.drop r.depth)).bytes.rtakeWhile (· ≠ 47)) = name := by
    rw [hlast, rtakeWhile_relPath (hp name hmem).2, CStr.ofBytes_self]
  have hname : p.getLast? = some name := by
    rw [← List.take_append_drop r.depth p, hlast]
    simp
  have hiff : r.Matches fnmatch p isDir ↔ (r.isDirOnly = true → isDir = true) ∧
      (fnmatch r.pattern (relPath (p.drop r.depth)) true = true ∨
        r.isAnchored = false ∧ fnmatch r.pattern name false = true) :=
    ⟨fun h => ⟨h.kind, by simpa [hname] using h.pattern⟩,
      fun h => ⟨h.1, by simpa [hname] using h.2⟩⟩
  rw [hiff]
  unfold matchRule
  simp only [hrel, if_neg hbytes, hbase, CStr.ofBytes_self]
  cases r.isDirOnly <;> cases isDir <;> cases r.isAnchored <;> simp [or_comm]

end Matching

/-- `is_path_ignored` with the rules of the directories above a path that exists. -/
theorem isPathIgnored_iff {t : Tree} {fnmatch : CStr → CStr → Bool → Bool} {p : List CStr}
    {n : Node} (hn : t.node p = some n) (isDir : Bool) :
    isPathIgnored fnmatch (t.rulesFor p) (relPath p) isDir = true ↔ t.Ignored fnmatch p isDir := by
  have hmatch : ∀ r ∈ t.rulesFor p,
      matchRule fnmatch r (relPath p) isDir = true ↔ r.Matches fnmatch p isDir := by
    intro r hr
    exact matchRule_iff (Tree.name_ne_empty hn) (t.dirRel_of_mem_rulesFor hr)
      (t.depth_of_mem_rulesFor hr) isDir
  unfold isPathIgnored
  rw [LastMatch.foldl_eq_true_iff (fun r => !r.isNegated) (t.rulesFor p)]
  simp only [LastMatch.Decides.congr hmatch, Bool.not_eq_true', Tree.Ignored]

end Treehash
