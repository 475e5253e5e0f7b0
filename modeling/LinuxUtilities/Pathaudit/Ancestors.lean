import LinuxUtilities.Pathaudit.Findings

/-! The walk of `append_directory_chain_ownership` from a path up to the root. -/
namespace Pathaudit
open CString

/-- The path itself, the root directory, or what precedes one of the slashes of the path. -/
def Above (dir path : CStr) : Prop :=
  dir = path ∨ dir = .lit "/" ∨ dir ≠ ∅ ∧ dir.bytes ++ [47] <+: path.bytes

def isAbsolute (path : CStr) : Prop := path.bytes.head? = some 47

theorem isAbsolute_root : isAbsolute (.lit "/") := rfl

/-- What ends in a slash and begins a path begins it at its last slash or before. -/
theorem slash_isPrefix_iff {d init name : List UInt8} (hname : 47 ∉ name) :
    d ++ [47] <+: init ++ 47 :: name ↔ d = init ∨ d ++ [47] <+: init := by
  constructor
  · intro h
    rcases Nat.lt_or_ge init.length (d ++ [47]).length with hlt | hle
    · left
      obtain ⟨rest, hrest⟩ := h
      rw [List.length_append, List.length_singleton] at hlt
      obtain ⟨mid, rfl⟩ : init <+: d := by
        have hinit : init <+: init ++ 47 :: name := List.prefix_append _ _
        have hd : d <+: init ++ 47 :: name := ⟨47 :: rest, by rw [← hrest]; simp⟩
        exact List.prefix_of_prefix_length_le hinit hd (by omega)
      rw [List.append_assoc, List.append_assoc, List.append_cancel_left_eq] at hrest
      cases mid with
      | nil => rw [List.append_nil]
      | cons c mid =>
        refine absurd ?_ hname
        rw [← (List.cons.inj hrest).2]
        simp
    · right
      exact List.prefix_of_prefix_length_le h (List.prefix_append _ _) hle
  · rintro (rfl | h)
    · exact ⟨name, by simp⟩
    · exact h.trans (List.prefix_append _ _)

/-- An absolute path below the root ends in a slash and a name, and its parent is what
precedes the slash. -/
theorem pathTruncateToParent_absolute {path : CStr} (habs : isAbsolute path)
    (hroot : path ≠ .lit "/") :
    ∃ init name, path.bytes = init ++ 47 :: name ∧ 47 ∉ name ∧
      pathTruncateToParent path = some (if init = [] then .lit "/" else .ofBytes init) := by
  have hmem : (47 : UInt8) ∈ path.bytes := List.mem_of_head? habs
  have happ : path.bytes.rdropWhile (· ≠ 47) ++ path.bytes.rtakeWhile (· ≠ 47) = path.bytes :=
    List.rdropWhile_append_rtakeWhile
  have hname : (47 : UInt8) ∉ path.bytes.rtakeWhile (· ≠ 47) := by
    intro h
    simpa using List.mem_rtakeWhile_imp h
  have hne : path.bytes.rdropWhile (· ≠ 47) ≠ [] := by
    intro hnil
    rw [hnil, List.nil_append] at happ
    have hin := hmem
    rw [← happ] at hin
    exact hname hin
  have hlast : (path.bytes.rdropWhile (· ≠ 47)).getLast hne = 47 := by
    simpa using List.rdropWhile_last_not (· ≠ 47) path.bytes hne
  have hinit := List.dropLast_append_getLast hne
  rw [hlast] at hinit
  refine ⟨(path.bytes.rdropWhile (· ≠ 47)).dropLast, path.bytes.rtakeWhile (· ≠ 47), ?_, hname, ?_⟩
  · rw [← List.singleton_append, ← List.append_assoc, hinit, happ]
  · rw [pathTruncateToParent, if_neg hroot, if_pos hmem]

/-- The parent of an absolute path is absolute and shorter, and is above what the path is. -/
theorem parent_spec {path parent : CStr} (habs : isAbsolute path)
    (h : pathTruncateToParent path = some parent) :
    isAbsolute parent ∧ parent.length < path.length ∧
      ∀ dir, Above dir path ↔ dir = path ∨ Above dir parent := by
  have hroot : path ≠ .lit "/" := by
    rintro rfl
    contradiction
  obtain ⟨init, name, hbytes, hname, htrunc⟩ := pathTruncateToParent_absolute habs hroot
  obtain rfl := Option.some.inj (h.symm.trans htrunc)
  by_cases hinit : init = []
  · rw [if_pos hinit]
    subst hinit
    have hlong : name ≠ [] := by
      rintro rfl
      exact hroot (CStr.ext hbytes)
    refine ⟨isAbsolute_root, ?_, fun dir => or_congr_right ?_⟩
    · have hpos := List.length_pos_iff.mpr hlong
      rw [CStr.length, CStr.length, hbytes]
      change 1 < _
      simpa using hpos
    · have hroot' : ∀ d : List UInt8, d ++ [47] <+: (CStr.lit "/").bytes ↔ d = [] := by
        intro d
        have hslash : d ++ [47] <+: [] ++ 47 :: [] ↔ d = [] ∨ d ++ [47] <+: [] :=
          slash_isPrefix_iff (by simp)
        exact hslash.trans (by simp)
      rw [Above, hbytes, slash_isPrefix_iff hname, hroot']
      have hempty : dir.bytes = [] → dir = ∅ := fun hd => CStr.ext hd
      simp only [List.prefix_nil, List.append_eq_nil_iff, List.cons_ne_self, and_false, or_false]
      tauto
  · rw [if_neg hinit]
    have hzero : (0 : UInt8) ∉ init := by
      intro hmem
      exact path.nulFree (by rw [hbytes]; exact List.mem_append_left _ hmem)
    have hparent : (CStr.ofBytes init).bytes = init := CStr.ofBytes_bytes hzero
    refine ⟨?_, ?_, fun dir => ?_⟩
    · rw [isAbsolute, hbytes, List.head?_append_of_ne_nil _ hinit] at habs
      rwa [isAbsolute, hparent]
    · rw [CStr.length, CStr.length, hparent, hbytes]
      simp
    · have hdir : dir = .ofBytes init ↔ dir.bytes = init := by rw [CStr.ext_iff, hparent]
      have hne : dir.bytes = init → dir ≠ ∅ := by
        rintro rfl rfl
        exact hinit rfl
      rw [Above, Above, hbytes, slash_isPrefix_iff hname, hparent, hdir]
      tauto

/-- What a path hands on to its parent holds along the walk. -/
theorem ancestorChain_forall {good : CStr → Prop}
    (hstep : ∀ path parent, good path → pathTruncateToParent path = some parent → good parent)
    {fuel : ℕ} {path : CStr} (hpath : good path) : ∀ dir ∈ ancestorChain fuel path, good dir := by
  induction fuel generalizing path with
  | zero => exact fun dir hdir => List.mem_singleton.mp hdir ▸ hpath
  | succ fuel ih =>
    rw [ancestorChain, List.forall_mem_cons]
    refine ⟨hpath, ?_⟩
    cases htrunc : pathTruncateToParent path with
    | none => exact fun dir hdir => absurd hdir List.not_mem_nil
    | some parent => exact ih (hstep path parent hpath htrunc)

/-- The path, its parent, and so on until the root, each once. -/
structure WalksUp (path : CStr) (walk : List CStr) : Prop where
  start : walk.head? = some path
  steps : walk.IsChain fun dir parent => pathTruncateToParent dir = some parent
  last : walk.getLast? = some (.lit "/")
  mem : ∀ dir, dir ∈ walk ↔ Above dir path
  shrinks : walk.Pairwise fun dir dir' => dir'.length < dir.length

theorem WalksUp.nodup {path : CStr} {walk : List CStr} (h : WalksUp path walk) : walk.Nodup :=
  h.shrinks.imp fun hlt heq => absurd (heq ▸ hlt) (lt_irrefl _)

theorem ancestorChain_root (fuel : ℕ) : ancestorChain fuel (.lit "/") = [.lit "/"] := by
  cases fuel <;> rfl

/-- The walk from an absolute path ends, with as many rounds as the path is long. -/
theorem ancestorChain_walksUp {fuel : ℕ} {path : CStr} (habs : isAbsolute path)
    (hfuel : path.length ≤ fuel) : WalksUp path (ancestorChain fuel path) := by
  induction fuel generalizing path with
  | zero =>
    have hnil : path.bytes = [] := List.length_eq_zero_iff.mp (Nat.le_zero.mp hfuel)
    rw [isAbsolute, hnil] at habs
    contradiction
  | succ fuel ih =>
    by_cases hroot : path = .lit "/"
    · rw [hroot, ancestorChain_root]
      have hup : ∀ dir, Above dir (.lit "/") → dir = .lit "/" := by
        rintro dir (rfl | rfl | ⟨hne, hd⟩)
        · rfl
        · rfl
        · obtain ⟨rest, hrest⟩ := hd
          cases hbytes : dir.bytes with
          | nil => exact absurd (CStr.ext hbytes) hne
          | cons c cs =>
            rw [hbytes] at hrest
            have hlen := congrArg List.length hrest
            simp [show (CStr.lit "/").bytes = [47] from rfl] at hlen
      exact ⟨rfl, List.isChain_singleton _, rfl,
        fun dir => ⟨fun h => .inl (List.mem_singleton.mp h), fun h => by simp [hup dir h]⟩,
        List.pairwise_singleton _ _⟩
    · obtain ⟨init, name, -, -, htrunc⟩ := pathTruncateToParent_absolute habs hroot
      obtain ⟨habs', hlt, hup⟩ := parent_spec habs htrunc
      have hwalk := ih habs' (by omega)
      rw [ancestorChain, htrunc]
      dsimp only
      obtain ⟨tail, htail⟩ := List.head?_eq_some_iff.mp hwalk.start
      refine ⟨rfl, ?_, ?_, fun dir => ?_, ?_⟩
      · rw [htail, List.isChain_cons_cons, ← htail]
        exact ⟨htrunc, hwalk.steps⟩
      · rw [htail, List.getLast?_cons_cons, ← htail]
        exact hwalk.last
      · rw [List.mem_cons, hwalk.mem, hup]
      · refine List.pairwise_cons.mpr ⟨fun dir hdir => ?_, hwalk.shrinks⟩
        have hshrinks := hwalk.shrinks
        rw [htail] at hshrinks hdir
        rcases List.mem_cons.mp hdir with rfl | hdir
        · exact hlt
        · exact ((List.pairwise_cons.mp hshrinks).1 dir hdir).trans hlt

end Pathaudit
