import LinuxUtilities.Treehash.Walk

/-! How `main` checks and normalises its operand, and which operands keep their directory. -/
namespace Treehash
open CString

/-- The loop of `has_dotdot_segment`, with the byte before the text. -/
def dotdotLoop : Option UInt8 → List UInt8 → Bool
  | _, [] => false
  | previous, b :: rest =>
    if b = 46 ∧ rest.head? = some 46 ∧ (previous = none ∨ previous = some 47) ∧
        (rest[1]? = none ∨ rest[1]? = some 47) then true
    else dotdotLoop (some b) rest

/-- `has_dotdot_segment`. -/
def hasDotdotSegment (path : CStr) : Bool := dotdotLoop none path.bytes

/-- The stripping loop of `main`, on the bytes of `norm_dir` from their end. -/
def stripLoop : List UInt8 → List UInt8
  | 47 :: b :: rest => stripLoop (b :: rest)
  | 46 :: 47 :: rest => stripLoop rest
  | text => text

/-- What is left of the operand after the loop. -/
def stripped (operand : List UInt8) : List UInt8 := (stripLoop operand.reverse).reverse

/-- `norm_dir` as `main` passes it on. -/
def normalizeOperand (operand : CStr) : CStr :=
  if stripped operand.bytes = [] then .lit "." else .ofBytes (stripped operand.bytes)

/-- The checks of `main` on its operand: a diagnostic, or the normalised operand. -/
def checkOperand (operand : CStr) : Except (List UInt8) CStr :=
  if operand.bytes = [] then .error (ascii "treehash: invalid empty workspace directory\n")
  else if hasDotdotSegment operand then
    .error (printDiagPath "treehash: PATH_ESCAPE: \"" operand "\"\n")
  else if pathMax ≤ operand.length then .error (ascii "treehash: PATH_LENGTH_EXCEEDED\n")
  else .ok (normalizeOperand operand)

/-- `main` from its operand on. -/
def hashOperand {W : Type} (sys : Sys W) (S : StreamHash) (q : QSort compareFileEntries)
    (operand : CStr) (w : W) : ℕ × Context W :=
  match checkOperand operand with
  | .error text => (2, (Context.init w).fputs text)
  | .ok normDir => hashTree sys S q operand normDir w

/-- The components of a path other than empty ones and dots. -/
def components (path : List UInt8) : List (List UInt8) :=
  (path.splitOn 47).filter fun c => c ≠ [] ∧ c ≠ [46]

def isAbsolute (path : List UInt8) : Prop := path.head? = some 47

instance (path : List UInt8) : Decidable (isAbsolute path) :=
  inferInstanceAs (Decidable (_ = _))

/-- A path stands for the same directory, whatever the working directory is: it is absolute if
the other is, and has the same components. -/
structure SameDirectory (operand path : CStr) : Prop where
  absolute : isAbsolute path.bytes ↔ isAbsolute operand.bytes
  components : components path.bytes = components operand.bytes

theorem components_append (u v : List UInt8) :
    components (u ++ 47 :: v) = components u ++ components v := by
  simp [components, List.splitOn_append_cons_self]

theorem components_of_notMem {u : List UInt8} (h : 47 ∉ u) :
    components u = if u = [] ∨ u = [46] then [] else [u] := by
  have hsplit : u.splitOn 47 = [u] := List.splitOn_eq_singleton h
  unfold components
  rw [hsplit]
  split
  next hu => rcases hu with rfl | rfl <;> rfl
  next hu => simpa [List.filter_cons] using not_or.mp hu

/-- Neither a slash nor a slash and a dot at the end change the components. -/
theorem components_stripped (text : List UInt8) :
    components (stripLoop text).reverse = components text.reverse := by
  fun_induction stripLoop text with
  | case1 b rest ih =>
    have h := components_append (b :: rest).reverse []
    have hempty : components [] = [] := by decide
    rw [hempty, List.append_nil] at h
    rw [ih, ← h]
    simp
  | case2 rest ih =>
    have h := components_append rest.reverse [46]
    have hdot : components [46] = [] := by decide
    rw [hdot, List.append_nil] at h
    rw [ih, ← h]
    simp
  | case3 text _ _ => rfl

/-- The loop leaves the operand from its start. -/
theorem stripLoop_suffix (text : List UInt8) : stripLoop text <:+ text := by
  fun_induction stripLoop text with
  | case1 b rest ih => exact ih.trans (List.suffix_cons 47 _)
  | case2 rest ih => exact ih.trans ((List.suffix_cons 47 rest).trans (List.suffix_cons 46 _))
  | case3 text _ _ => exact List.suffix_rfl

/-- Where the loop stops on at least two bytes, the path has a last component. -/
theorem components_ne_nil {x y : UInt8} {text : List UInt8} (hslash : x ≠ 47)
    (hdot : ¬ (x = 46 ∧ y = 47)) : components (x :: y :: text).reverse ≠ [] := by
  have hlast : ∀ v, 47 ∉ v → v ≠ [] → v ≠ [46] → components v ≠ [] := by
    intro v hv hne hne'
    rw [components_of_notMem hv, if_neg (not_or.mpr ⟨hne, hne'⟩)]
    exact List.cons_ne_nil _ _
  by_cases hmem : 47 ∈ y :: text
  · obtain ⟨u, v, huv, hu⟩ := List.eq_append_cons_of_mem hmem
    have hrev : (x :: y :: text).reverse = v.reverse ++ 47 :: (u.reverse ++ [x]) := by
      rw [huv]
      simp
    have hne : u.reverse ++ [x] ≠ [46] := by
      intro heq
      cases u with
      | nil =>
        obtain rfl : x = 46 := by simpa using heq
        exact hdot ⟨rfl, (List.cons.inj huv).1⟩
      | cons a u => simpa using congrArg List.length heq
    have hcomponent := hlast (u.reverse ++ [x]) (by simp [hu, Ne.symm hslash]) (by simp) hne
    rw [hrev, components_append]
    intro hnil
    exact hcomponent (List.append_eq_nil_iff.mp hnil).2
  · refine hlast _ ?_ (by simp) ?_
    · rw [List.mem_reverse, List.mem_cons, not_or]
      exact ⟨Ne.symm hslash, hmem⟩
    · intro heq
      have hlength := congrArg List.length heq
      simp at hlength

/-- A root with a dot after it and no components is stripped to nothing. -/
theorem stripLoop_eq_nil {text t : List UInt8} (h : text.reverse = 47 :: 46 :: t)
    (hcomponents : components text.reverse = []) : stripLoop text = [] := by
  fun_induction stripLoop text generalizing t with
  | case1 b rest ih =>
    have hrest := components_append (b :: rest).reverse []
    have hempty : components [] = [] := by decide
    rw [hempty, List.append_nil] at hrest
    have hrev : (47 :: b :: rest).reverse = (b :: rest).reverse ++ [47] := by simp
    rw [hrev, hrest] at hcomponents
    rw [hrev] at h
    -- the slash at the end is not the one at the start
    cases t using List.reverseRecOn with
    | nil =>
      have hlast := congrArg List.getLast? h
      simp at hlast
    | append_singleton t c =>
      have hdrop := congrArg List.dropLast h
      rw [List.dropLast_concat] at hdrop
      have hfront : (b :: rest).reverse = 47 :: 46 :: t := by
        rw [hdrop]
        simp [List.dropLast_cons_of_ne_nil]
      exact ih hfront hcomponents
  | case2 rest ih =>
    have hrest := components_append rest.reverse [46]
    have hdot : components [46] = [] := by decide
    rw [hdot, List.append_nil] at hrest
    have hrev : (46 :: 47 :: rest).reverse = rest.reverse ++ [47, 46] := by simp
    rw [hrev, hrest] at hcomponents
    rw [hrev] at h
    cases hr : rest.reverse with
    | nil =>
      obtain rfl := List.reverse_eq_nil_iff.mp hr
      rfl
    | cons a rest' =>
      rw [hr] at h
      obtain ⟨rfl, htail⟩ := List.cons.inj h
      cases rest' with
      | nil => exact absurd (List.cons.inj htail).1 (by decide)
      | cons c rest'' =>
        obtain ⟨rfl, -⟩ := List.cons.inj htail
        exact ih hr hcomponents
  | case3 text hslash hdot =>
    match text with
    | [] => rfl
    | [x] =>
      have hlength := congrArg List.length h
      simp at hlength
    | x :: y :: rest =>
      refine absurd hcomponents (components_ne_nil ?_ ?_)
      · rintro rfl
        exact hslash y rest rfl
      · rintro ⟨rfl, rfl⟩
        exact hdot rest rfl

/-- What is stripped to nothing is a root with a dot after it. -/
theorem dot_of_stripLoop_eq_nil {text : List UInt8} (hne : text ≠ []) (h : stripLoop text = []) :
    ascii "/." <+: text.reverse := by
  have hroot : ascii "/." = [47, 46] := by decide
  fun_induction stripLoop text with
  | case1 b rest ih =>
    obtain ⟨t, ht⟩ := ih (List.cons_ne_nil _ _) h
    refine ⟨t ++ [47], ?_⟩
    rw [← List.append_assoc, ht]
    simp
  | case2 rest ih =>
    cases rest with
    | nil => exact ⟨[], by rw [hroot]; rfl⟩
    | cons b rest =>
      obtain ⟨t, ht⟩ := ih (List.cons_ne_nil _ _) h
      refine ⟨t ++ [47, 46], ?_⟩
      rw [← List.append_assoc, ht]
      simp
  | case3 text _ _ => exact absurd h hne

/-- The normalised operand stands for the directory of the operand, unless the operand is a root
with a dot after it and has no components. -/
theorem normalizeOperand_same_iff {operand : CStr} (hne : operand.bytes ≠ []) :
    SameDirectory operand (normalizeOperand operand) ↔
      ¬ (ascii "/." <+: operand.bytes ∧ components operand.bytes = []) := by
  have hcomponents : components (stripped operand.bytes) = components operand.bytes := by
    have h := components_stripped operand.bytes.reverse
    rwa [List.reverse_reverse] at h
  by_cases hnil : stripped operand.bytes = []
  · have hloop : stripLoop operand.bytes.reverse = [] := List.reverse_eq_nil_iff.mp hnil
    have hroot := dot_of_stripLoop_eq_nil (by simpa using hne) hloop
    rw [List.reverse_reverse] at hroot
    have hempty : components operand.bytes = [] := by
      rw [← hcomponents, hnil]
      decide
    have hnorm : normalizeOperand operand = .lit "." := if_pos hnil
    refine iff_of_false ?_ (not_not.mpr ⟨hroot, hempty⟩)
    intro hsame
    obtain ⟨t, ht⟩ := hroot
    have habs : isAbsolute operand.bytes := by
      rw [← ht]
      rfl
    rw [hnorm] at hsame
    exact absurd (hsame.absolute.mpr habs) (by decide)
  · have hpre : stripped operand.bytes <+: operand.bytes := by
      have h := stripLoop_suffix operand.bytes.reverse
      rw [← List.reverse_prefix, List.reverse_reverse] at h
      exact h
    have hnul : (0 : UInt8) ∉ stripped operand.bytes := fun h => operand.nulFree (hpre.subset h)
    have hbytes : (normalizeOperand operand).bytes = stripped operand.bytes := by
      unfold normalizeOperand
      rw [if_neg hnil, CStr.ofBytes_bytes hnul]
    refine iff_of_true ⟨?_, by rw [hbytes, hcomponents]⟩ ?_
    · obtain ⟨t, ht⟩ := hpre
      cases hs : stripped operand.bytes with
      | nil => exact absurd hs hnil
      | cons b s =>
        have hoperand : operand.bytes = b :: (s ++ t) := by
          rw [← ht, hs]
          rfl
        rw [hbytes, hs, hoperand]
        rfl
    · rintro ⟨⟨t, ht⟩, hempty⟩
      have hroot : ascii "/." = [47, 46] := by decide
      rw [hroot] at ht
      have hback : operand.bytes.reverse.reverse = 47 :: 46 :: t := by
        rw [List.reverse_reverse, ← ht]
        rfl
      have hloop := stripLoop_eq_nil hback (by rwa [List.reverse_reverse])
      exact hnil (List.reverse_eq_nil_iff.mpr hloop)

/-- An accepted operand keeps its directory, unless it is a root with a dot after it and has no
components. -/
theorem checkOperand_same_iff {operand normDir : CStr} (h : checkOperand operand = .ok normDir) :
    SameDirectory operand normDir ↔
      ¬ (ascii "/." <+: operand.bytes ∧ components operand.bytes = []) := by
  unfold checkOperand at h
  split at h
  · contradiction
  next hne =>
    split at h
    · contradiction
    split at h
    · contradiction
    obtain rfl := Except.ok.inj h
    exact normalizeOperand_same_iff hne

theorem checkOperand_same_iff_sample :
    SameDirectory (.lit "//a/././/") (.lit "//a") ↔
      ¬ (ascii "/." <+: (CStr.lit "//a/././/").bytes ∧
        components (CStr.lit "//a/././/").bytes = []) :=
  checkOperand_same_iff (by decide +kernel)

/-- The root with a dot after it becomes the working directory. -/
theorem checkOperand_root_dot :
    ¬ ∀ operand normDir : CStr, checkOperand operand = .ok normDir →
      SameDirectory operand normDir := by
  intro h
  have hsame := h (.lit "/.") (.lit ".") (by decide +kernel)
  exact absurd (hsame.absolute.mpr (by decide)) (by decide)

end Treehash
