import LinuxUtilities.Pathaudit.Components

/-! Which fragments of PATH stay components of their own when fragments are joined again. -/
namespace Pathaudit
open CString

section
variable (stat : CStr → Except Errno Stat)

/-- A fragment that a lookup finds. -/
def lookupFinds (text : CStr) : Bool := text ≠ ∅ && (stat text).isOk

/-- The lookups of the growing joins of a text with the fragments after it: all end in
`ENOENT`, but for the last, which fails in another way. -/
inductive JoinFails : CStr → List CStr → Prop
  | last {text next : CStr} {err : Errno} (hnext : next ≠ ∅)
    (hlen : (text ++ .lit ":" ++ next).length ≤ maxRootLength)
    (hstat : stat (text ++ .lit ":" ++ next) = .error err) (herr : err ≠ ENOENT) :
    JoinFails text [next]
  | more {text next : CStr} {rest : List CStr} (hnext : next ≠ ∅)
    (hlen : (text ++ .lit ":" ++ next).length ≤ maxRootLength)
    (hstat : stat (text ++ .lit ":" ++ next) = .error ENOENT)
    (hrest : JoinFails (text ++ .lit ":" ++ next) rest) : JoinFails text (next :: rest)

/-- A fragment that is joined with the fragments after it. -/
structure Join (text : CStr) (taken : List CStr) : Prop where
  nonempty : text ≠ ∅
  missing : stat text = .error ENOENT
  fails : JoinFails stat text taken

/-- From the left, the fragments that are joined to an earlier one cannot be looked up. -/
inductive JoinsOnlyMissing : List CStr → Prop
  | nil : JoinsOnlyMissing []
  | keep {text : CStr} {rest : List CStr} (hkeep : ∀ taken, taken <+: rest → ¬ Join stat text taken)
    (hrest : JoinsOnlyMissing rest) : JoinsOnlyMissing (text :: rest)
  | join {text : CStr} {taken rest : List CStr} (hjoin : Join stat text taken)
    (hmissing : ∀ t ∈ taken, lookupFinds stat t = false) (hrest : JoinsOnlyMissing rest) :
    JoinsOnlyMissing (text :: (taken ++ rest))

/-- Each fragment that a lookup finds is a component of its own, in PATH order. -/
def KeepsExisting (texts : List CStr) (roots : List Root) : Prop :=
  (texts.filter (lookupFinds stat)).Sublist (roots.map Root.text)

end

section
variable {stat : CStr → Except Errno Stat}

theorem JoinFails.nonempty {text : CStr} {taken : List CStr} (h : JoinFails stat text taken) :
    taken ≠ [] ∧ ∀ t ∈ taken, t ≠ ∅ := by
  induction h with
  | last hnext => simpa using hnext
  | more hnext _ _ _ ih => exact ⟨by simp, List.forall_mem_cons.mpr ⟨hnext, ih.2⟩⟩

/-- There is at most one join. -/
theorem JoinFails.unique {text : CStr} {taken taken' rest rest' : List CStr}
    (h : JoinFails stat text taken) (h' : JoinFails stat text taken')
    (heq : taken ++ rest = taken' ++ rest') : taken = taken' ∧ rest = rest' := by
  induction h generalizing taken' with
  | last hnext hlen hstat herr =>
    cases h' with
    | last => simpa using heq
    | more _ _ hstat' =>
      obtain ⟨rfl, -⟩ := List.cons_eq_cons.mp heq
      rw [hstat] at hstat'
      exact absurd (Except.error.inj hstat') herr
  | more hnext hlen hstat hrest ih =>
    cases h' with
    | last _ _ hstat' herr' =>
      obtain ⟨rfl, -⟩ := List.cons_eq_cons.mp heq
      rw [hstat] at hstat'
      exact absurd (Except.error.inj hstat').symm herr'
    | more _ _ _ hrest' =>
      obtain ⟨rfl, htail⟩ := List.cons_eq_cons.mp heq
      obtain ⟨rfl, hrest⟩ := ih hrest' htail
      exact ⟨rfl, hrest⟩

/-- A fragment that is not joined does not matter. -/
theorem joinsOnlyMissing_keep {text : CStr} {rest : List CStr}
    (hkeep : ∀ taken, taken <+: rest → ¬ Join stat text taken) :
    JoinsOnlyMissing stat (text :: rest) ↔ JoinsOnlyMissing stat rest := by
  constructor
  · intro h
    generalize hl : text :: rest = l at h
    cases h with
    | nil => contradiction
    | keep _ hrest =>
      obtain ⟨-, rfl⟩ := List.cons_eq_cons.mp hl
      exact hrest
    | join hjoin _ _ =>
      obtain ⟨rfl, htail⟩ := List.cons_eq_cons.mp hl
      exact absurd hjoin (hkeep _ ⟨_, htail.symm⟩)
  · exact .keep hkeep

theorem joinsOnlyMissing_join {text : CStr} {taken rest : List CStr}
    (hjoin : Join stat text taken) :
    JoinsOnlyMissing stat (text :: (taken ++ rest)) ↔
      (∀ t ∈ taken, lookupFinds stat t = false) ∧ JoinsOnlyMissing stat rest := by
  constructor
  · intro h
    generalize hl : text :: (taken ++ rest) = l at h
    cases h with
    | nil => contradiction
    | keep hkeep _ =>
      obtain ⟨rfl, rfl⟩ := List.cons_eq_cons.mp hl
      exact absurd hjoin (hkeep taken (List.prefix_append taken rest))
    | join hjoin' hmissing hrest =>
      obtain ⟨rfl, htail⟩ := List.cons_eq_cons.mp hl
      obtain ⟨rfl, rfl⟩ := hjoin.fails.unique hjoin'.fails htail
      exact ⟨hmissing, hrest⟩
  · rintro ⟨hmissing, hrest⟩
    exact .join hjoin hmissing hrest

theorem rejoin_some {root merged : Root} {roots : List Root} {n : ℕ}
    (hlen : ∀ r ∈ root :: roots, r.len = r.text.length)
    (h : rejoin stat root roots = some (merged, n)) :
    ∃ taken rest, roots = taken ++ rest ∧ taken.length = n ∧
      JoinFails stat root.text (taken.map Root.text) ∧ (stat merged.text).isOk = false := by
  induction roots generalizing root n with
  | nil => contradiction
  | cons next roots ih =>
    obtain ⟨hroot, hnext, hroots⟩ := by simpa using hlen
    unfold rejoin at h
    split at h
    · contradiction
    next hempty =>
      have hnonempty : next.text ≠ ∅ := by
        rintro hnil
        exact hempty (by rw [hnext, hnil]; rfl)
      extract_lets mergedLen merged' at h
      have hmergedLen : mergedLen = merged'.text.length := by
        simp only [merged', mergedLen, hroot, hnext, CStr.length_append]
        rfl
      split at h
      · contradiction
      next hlimit =>
        have hlimit' : merged'.text.length ≤ maxRootLength := by omega
        split at h
        · contradiction
        next err hstat =>
          split at h
          next herr =>
            obtain ⟨rfl, rfl⟩ := Prod.mk.inj (Option.some.inj h)
            exact ⟨[next], roots, rfl, rfl, .last hnonempty hlimit' hstat herr, by rw [hstat]; rfl⟩
          next herr =>
            obtain ⟨r, hr, heq⟩ := Option.map_eq_some_iff.mp h
            obtain ⟨rfl, rfl⟩ := Prod.mk.inj heq
            rw [not_not] at herr
            obtain ⟨taken, rest, rfl, hn, hfails, hmerged⟩ :=
              ih (List.forall_mem_cons.mpr ⟨hmergedLen, hroots⟩) hr
            refine ⟨next :: taken, rest, rfl, by simp [hn], ?_, hmerged⟩
            exact .more hnonempty hlimit' (by rw [hstat, herr]) hfails

theorem rejoin_none {root : Root} {roots : List Root}
    (hlen : ∀ r ∈ root :: roots, r.len = r.text.length)
    (h : rejoin stat root roots = none) {taken : List CStr}
    (htaken : taken <+: roots.map Root.text) :
    ¬ JoinFails stat root.text taken := by
  induction roots generalizing root taken with
  | nil =>
    intro hfails
    exact hfails.nonempty.1 (List.prefix_nil.mp htaken)
  | cons next roots ih =>
    obtain ⟨hroot, hnext, hroots⟩ := by simpa using hlen
    intro hfails
    obtain ⟨hne, hall⟩ := hfails.nonempty
    cases taken with
    | nil => exact hne rfl
    | cons t taken =>
      rw [List.map_cons, List.cons_prefix_cons] at htaken
      obtain ⟨rfl, htaken⟩ := htaken
      have hempty : next.len ≠ 0 := by
        rw [hnext]
        intro hzero
        exact hall _ List.mem_cons_self (CStr.ext (List.length_eq_zero_iff.mp hzero))
      unfold rejoin at h
      rw [if_neg hempty] at h
      extract_lets mergedLen merged' at h
      have hmergedLen : mergedLen = merged'.text.length := by
        simp only [merged', mergedLen, hroot, hnext, CStr.length_append]
        rfl
      cases hfails with
      | last _ hlimit hstat herr =>
        rw [if_neg (by rw [hmergedLen]; exact not_lt.mpr hlimit), hstat] at h
        dsimp only at h
        rw [if_pos herr] at h
        contradiction
      | more _ hlimit hstat hrest =>
        rw [if_neg (by rw [hmergedLen]; exact not_lt.mpr hlimit), hstat] at h
        dsimp only at h
        rw [if_neg (by simp), Option.map_eq_none_iff] at h
        exact ih (List.forall_mem_cons.mpr ⟨hmergedLen, hroots⟩) h htaken hrest

/-- What the outer loop does at a fragment. -/
theorem coalesceRoots_cases {root : Root} {roots : List Root}
    (hlen : ∀ r ∈ root :: roots, r.len = r.text.length) :
    ((∀ taken, taken <+: roots.map Root.text → ¬ Join stat root.text taken) ∧
      coalesceRoots stat 0 (root :: roots) = root :: coalesceRoots stat 0 roots) ∨
    ∃ taken rest merged, roots = taken ++ rest ∧ Join stat root.text (taken.map Root.text) ∧
      lookupFinds stat merged.text = false ∧
      coalesceRoots stat 0 (root :: roots) = merged :: coalesceRoots stat taken.length roots := by
  have hroot := hlen root List.mem_cons_self
  rw [coalesceRoots]
  split
  next hempty =>
    refine .inl ⟨fun taken _ hjoin => ?_, rfl⟩
    exact hjoin.nonempty (CStr.ext (List.length_eq_zero_iff.mp (hroot.symm.trans hempty)))
  next hempty =>
    split
    next st hstat =>
      refine .inl ⟨fun taken _ hjoin => ?_, rfl⟩
      have hmissing := hjoin.missing
      rw [hstat] at hmissing
      contradiction
    next err hstat =>
      split
      next herr =>
        refine .inl ⟨fun taken _ hjoin => ?_, rfl⟩
        have hmissing := hjoin.missing
        rw [hstat] at hmissing
        exact herr (Except.error.inj hmissing)
      next herr =>
        rw [not_not] at herr
        split
        next hnone =>
          exact .inl ⟨fun taken htaken hjoin => rejoin_none hlen hnone htaken hjoin.fails, rfl⟩
        next merged n hsome =>
          obtain ⟨taken, rest, rfl, rfl, hfails, hmerged⟩ := rejoin_some hlen hsome
          refine .inr ⟨taken, rest, merged, rfl, ⟨?_, by rw [hstat, herr], hfails⟩, ?_, rfl⟩
          · rintro hnil
            exact hempty (by rw [hroot, hnil]; rfl)
          · simp [lookupFinds, hmerged]

theorem coalesceRoots_taken (taken rest : List Root) :
    coalesceRoots stat taken.length (taken ++ rest) = coalesceRoots stat 0 rest := by
  induction taken with
  | nil => rfl
  | cons root taken ih => exact ih

theorem lookupFinds_missing {text : CStr} {taken : List CStr} (h : Join stat text taken) :
    lookupFinds stat text = false := by
  rw [lookupFinds, h.missing]
  simp [Except.isOk, Except.toBool]

/-- Only joins of fragments that cannot be looked up leave all others in place. -/
theorem coalesceRoots_filter {roots : List Root} (hlen : ∀ r ∈ roots, r.len = r.text.length) :
    (((coalesceRoots stat 0 roots).map Root.text).filter (lookupFinds stat)).Sublist
        ((roots.map Root.text).filter (lookupFinds stat)) ∧
      (((coalesceRoots stat 0 roots).map Root.text).filter (lookupFinds stat) =
          (roots.map Root.text).filter (lookupFinds stat) ↔
        JoinsOnlyMissing stat (roots.map Root.text)) := by
  induction hn : roots.length using Nat.strong_induction_on generalizing roots with
  | _ n ih =>
    cases roots with
    | nil => exact ⟨List.Sublist.refl _, iff_of_true rfl .nil⟩
    | cons root roots =>
      have htail : ∀ r ∈ roots, r.len = r.text.length :=
        fun r hr => hlen r (List.mem_cons_of_mem _ hr)
      rcases coalesceRoots_cases hlen with
        ⟨hkeep, heq⟩ | ⟨taken, rest, merged, rfl, hjoin, hmerged, heq⟩
      · obtain ⟨hsub, hiff⟩ := ih roots.length (by rw [← hn]; simp) htail rfl
        rw [heq, List.map_cons, List.map_cons, List.filter_cons, List.filter_cons]
        constructor
        · split
          · exact hsub.cons_cons _
          · exact hsub
        · rw [joinsOnlyMissing_keep hkeep, ← hiff]
          split <;> simp
      · have hlt : rest.length < n := by
          rw [← hn, List.length_cons, List.length_append]
          omega
        obtain ⟨hsub, hiff⟩ :=
          ih rest.length hlt (fun r hr => htail r (List.mem_append_right _ hr)) rfl
        rw [heq, coalesceRoots_taken, List.map_cons, List.map_cons, List.map_append,
          List.filter_cons_of_neg (by simp [hmerged]),
          List.filter_cons_of_neg (by simp [lookupFinds_missing hjoin]), List.filter_append,
          joinsOnlyMissing_join hjoin, ← hiff]
        refine ⟨hsub.trans (List.sublist_append_right _ _), ?_⟩
        constructor
        · intro hfilter
          have hnil : (taken.map Root.text).filter (lookupFinds stat) = [] := by
            have hlength := congrArg List.length hfilter
            rw [List.length_append] at hlength
            have hle := hsub.length_le
            exact List.length_eq_zero_iff.mp (by omega)
          rw [hnil, List.nil_append] at hfilter
          exact ⟨fun t ht => by simpa using List.filter_eq_nil_iff.mp hnil t ht, hfilter⟩
        · rintro ⟨hmissing, hfilter⟩
          have hnil : (taken.map Root.text).filter (lookupFinds stat) = [] :=
            List.filter_eq_nil_iff.mpr fun t ht => by simp [hmissing t ht]
          rw [hfilter, hnil, List.nil_append]

theorem coalesce_texts (roots : List Root) :
    (coalesceInspectionPathFragments stat roots).map Root.text =
      (coalesceRoots stat 0 roots).map Root.text := by
  apply List.ext_getElem
  · simp [coalesceInspectionPathFragments]
  · intro i hi hi'
    simp [coalesceInspectionPathFragments]

theorem numberedRoots_len {index : ℕ} {texts : List CStr} :
    ∀ root ∈ numberedRoots index texts, root.len = root.text.length := by
  intro root hroot
  obtain ⟨i, hi, rfl⟩ := List.mem_mapIdx.mp hroot
  rfl

theorem numberedRoots_texts (index : ℕ) (texts : List CStr) :
    (numberedRoots index texts).map Root.text = texts := by
  apply List.ext_getElem
  · simp [numberedRoots]
  · intro i hi hi'
    simp [numberedRoots]

/-- Every fragment that a lookup finds stays a component if and only if no fragment that is
joined to an earlier one can be looked up, whatever `stat` answers. -/
theorem coalesce_keeps_existing_iff {W : Type} {pathEnv : CStr} {roots : List Root}
    {p p' : Proc W}
    (hload : loadRoots (1 + pathEnv.bytes.count 58) 0 0 (pathFragments pathEnv) p =
      (some roots, p')) :
    KeepsExisting stat (pathFragments pathEnv) (coalesceInspectionPathFragments stat roots) ↔
      JoinsOnlyMissing stat (pathFragments pathEnv) := by
  obtain rfl := ((loadRoots_sound _ _ _ _).result hload).2
  obtain ⟨hsub, hiff⟩ :=
    @coalesceRoots_filter stat _ (@numberedRoots_len 0 (pathFragments pathEnv))
  rw [numberedRoots_texts] at hsub hiff
  rw [← hiff, KeepsExisting, coalesce_texts]
  constructor
  · intro hkeeps
    have hfilter := hkeeps.filter (lookupFinds stat)
    rw [List.filter_filter] at hfilter
    simp only [Bool.and_self] at hfilter
    exact hsub.antisymm hfilter
  · intro hfilter
    rw [← hfilter]
    exact List.filter_sublist

end

/-- A `stat` that finds `b` alone, and a regular file below `a:`. -/
def colonStat (text : CStr) : Except Errno Stat :=
  if text = .lit "b" then .ok ⟨.directory, 0o755, 0⟩
  else if text = .lit "a:b" then .error ENOTDIR
  else .error ENOENT

theorem loadRoots_colon (p : Proc Unit) :
    loadRoots (1 + (CStr.lit "a:b").bytes.count 58) 0 0 (pathFragments (.lit "a:b")) p =
      (some (numberedRoots 0 [.lit "a", .lit "b"]), p) := rfl

theorem coalesce_keeps_existing_iff_colon :
    KeepsExisting colonStat (pathFragments (.lit "a:b"))
        (coalesceInspectionPathFragments colonStat (numberedRoots 0 [.lit "a", .lit "b"])) ↔
      JoinsOnlyMissing colonStat (pathFragments (.lit "a:b")) :=
  coalesce_keeps_existing_iff (loadRoots_colon ⟨(), [], []⟩)

/-- `b` is swallowed by `a:b`. -/
theorem coalesce_swallows_existing : ¬ ∀ (stat : CStr → Except Errno Stat) (pathEnv : CStr)
    (roots : List Root) (p p' : Proc Unit),
    loadRoots (1 + pathEnv.bytes.count 58) 0 0 (pathFragments pathEnv) p = (some roots, p') →
      KeepsExisting stat (pathFragments pathEnv) (coalesceInspectionPathFragments stat roots) := by
  intro h
  have hkeeps := h colonStat (.lit "a:b") _ _ _ (loadRoots_colon ⟨(), [], []⟩)
  revert hkeeps
  unfold KeepsExisting
  decide

end Pathaudit
