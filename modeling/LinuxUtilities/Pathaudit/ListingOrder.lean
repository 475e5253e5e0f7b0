import LinuxUtilities.Pathaudit.Agreement

/-! The output of `--path` does not depend on the order in which directories list their
names. -/
namespace Pathaudit
open CString Attempt

/-- Hits in PATH order, with one path for a command in each component. -/
structure InPathOrder (hits : List Hit) : Prop where
  ordered : hits.Pairwise fun g g' => g.pathIndex ≤ g'.pathIndex
  functional : ∀ g ∈ hits, ∀ g' ∈ hits, g.command = g'.command → g.pathIndex = g'.pathIndex →
    g.path = g'.path

namespace InPathOrder

theorem le_of_split {pre post : List Hit} {hit g : Hit} (h : InPathOrder (pre ++ hit :: post))
    (hg : g ∈ hit :: post) : hit.pathIndex ≤ g.pathIndex := by
  obtain rfl | hg := List.mem_cons.mp hg
  · exact le_rfl
  · exact List.rel_of_pairwise_cons (List.pairwise_append.mp h.ordered).2.1 hg

/-- A winner is the path of a hit of the least index. -/
theorem winnerOf_iff {hits : List Hit} (h : InPathOrder hits) {c w : CStr} :
    winnerOf hits c = some w ↔ ∃ g ∈ hits, g.command = c ∧ g.path = w ∧
      ∀ g' ∈ hits, g'.command = c → g.pathIndex ≤ g'.pathIndex := by
  constructor
  · intro hw
    obtain ⟨g, hfind, rfl⟩ := Option.map_eq_some_iff.mp hw
    obtain ⟨hc, pre, post, rfl, hpre⟩ := List.find?_eq_some_iff_append.mp hfind
    refine ⟨g, by simp, by simpa using hc, rfl, fun g' hg' hc' => ?_⟩
    obtain hg' | hg' := List.mem_append.mp hg'
    · have hne := hpre g' hg'
      simp [hc'] at hne
    · exact h.le_of_split hg'
  · rintro ⟨g, hg, rfl, rfl, hleast⟩
    obtain ⟨w, hw⟩ := winnerOf_some_of_mem hg
    obtain ⟨g', hfind, rfl⟩ := Option.map_eq_some_iff.mp hw
    have hmem := List.mem_of_find?_eq_some hfind
    have hc : g'.command = g.command := by simpa using List.find?_some hfind
    obtain ⟨-, pre, post, rfl, hpre⟩ := List.find?_eq_some_iff_append.mp hfind
    have hge : g'.pathIndex ≤ g.pathIndex := by
      obtain hg | hg := List.mem_append.mp hg
      · have hne := hpre g hg
        simp at hne
      · exact h.le_of_split hg
    rw [hw, h.functional g' hmem g hg hc (le_antisymm hge (hleast g' hmem hc))]

/-- A shadow record is about a hit of the least index for its pair. -/
theorem mem_shadows_iff {hits : List Hit} (h : InPathOrder hits) {r : ShadowRecord} :
    r ∈ collect shadowAfter hits ↔ ∃ hit ∈ hits,
      (∀ g ∈ hits, samePair g hit → hit.pathIndex ≤ g.pathIndex) ∧
      winnerOf hits hit.command = some r.winner ∧ r.winner ≠ hit.path ∧
      r = ⟨hit.command, r.winner, hit.path, hit.pathIndex⟩ := by
  rw [mem_shadows]
  constructor
  · rintro ⟨pre, hit, post, rfl, hfirst, hw, hne, hr⟩
    refine ⟨hit, by simp, fun g hg hsame => ?_, hw, hne, hr⟩
    obtain hg | hg := List.mem_append.mp hg
    · exact absurd hsame (hfirst g hg)
    · exact h.le_of_split hg
  · rintro ⟨hit, hmem, hleast, hw, hne, hr⟩
    obtain ⟨g, hfind⟩ : ∃ g, hits.find? (fun g => samePair g hit) = some g := by
      rw [← Option.isSome_iff_exists, List.find?_isSome]
      exact ⟨hit, hmem, by simp [samePair]⟩
    obtain ⟨hsame, pre, post, rfl, hpre⟩ := List.find?_eq_some_iff_append.mp hfind
    rw [decide_eq_true_eq] at hsame
    have hge : g.pathIndex ≤ hit.pathIndex := by
      obtain hmem | hmem := List.mem_append.mp hmem
      · have hnot := hpre hit hmem
        simp [samePair] at hnot
      · exact h.le_of_split hmem
    have hindex := le_antisymm hge (hleast g (by simp) hsame)
    refine ⟨pre, g, post, rfl, fun g' hg' hs => ?_, ?_, ?_, ?_⟩
    · have hnot := hpre g' hg'
      simp only [Bool.not_eq_true', decide_eq_false_iff_not] at hnot
      exact hnot ⟨hs.1.trans hsame.1, hs.2.trans hsame.2⟩
    · rw [hsame.1, hw]
    · rw [hsame.2]
      exact hne
    · rw [hsame.1, hsame.2, hindex]
      exact hr

theorem winnerOf_perm {hits hits' : List Hit} (h : InPathOrder hits) (h' : InPathOrder hits')
    (hp : hits.Perm hits') (c : CStr) : winnerOf hits c = winnerOf hits' c := by
  apply Option.ext
  intro w
  rw [h.winnerOf_iff, h'.winnerOf_iff]
  simp only [hp.mem_iff]

theorem shadows_nodup (hits : List Hit) : (collect shadowAfter hits).Nodup := by
  apply (shadows_pairwise hits).imp
  rintro r _ hne rfl
  exact hne ⟨rfl, rfl⟩

/-- The records do not depend on the order inside the components. -/
theorem shadows_perm {hits hits' : List Hit} (h : InPathOrder hits) (h' : InPathOrder hits')
    (hp : hits.Perm hits') : (collect shadowAfter hits).Perm (collect shadowAfter hits') := by
  rw [List.perm_ext_iff_of_nodup (shadows_nodup hits) (shadows_nodup hits')]
  intro r
  rw [h.mem_shadows_iff, h'.mem_shadows_iff]
  simp only [hp.mem_iff, h.winnerOf_perm h' hp]

/-- No two records tie in the sort. -/
theorem shadows_antisymm {hits : List Hit} (h : InPathOrder hits) :
    ∀ r ∈ collect shadowAfter hits, ∀ s ∈ collect shadowAfter hits,
      compareShadows r s ≤ 0 → compareShadows s r ≤ 0 → r = s := by
  intro r hr s hs hrs hsr
  obtain ⟨g, hg, -, hw, -, her⟩ := h.mem_shadows_iff.mp hr
  obtain ⟨g', hg', -, hw', -, hes⟩ := h.mem_shadows_iff.mp hs
  rw [compareShadows_nonpos] at hrs hsr
  have hkeys : r.command = s.command ∧ r.shadowIndex = s.shadowIndex := by
    rcases hrs with hlt | ⟨hc, hle⟩
    · rcases hsr with hlt' | ⟨hc', -⟩
      · exact absurd hlt (lt_asymm hlt')
      · exact absurd hc'.symm hlt.ne
    · rcases hsr with hlt' | ⟨-, hle'⟩
      · exact absurd hc.symm hlt'.ne
      · exact ⟨hc, le_antisymm hle hle'⟩
  rw [her, hes] at hkeys ⊢
  obtain ⟨hc, hi⟩ : g.command = g'.command ∧ g.pathIndex = g'.pathIndex := hkeys
  rw [hc, hw'] at hw
  rw [h.functional g hg g' hg' hc hi, hc, hi, Option.some.inj hw]

end InPathOrder

/-- The exit status and the output of a run. -/
def outcome {W : Type} (r : Option ℕ × Proc W) : ℕ × List UInt8 := (exitStatus r.1, r.2.stdout)

theorem sortIfMany_eq_of_perm {α : Type} {cmp : α → α → ℤ} (q q' : QSort cmp) {l l' : List α}
    (hp : l.Perm l') (hanti : ∀ a ∈ l, ∀ b ∈ l, cmp a b ≤ 0 → cmp b a ≤ 0 → a = b) :
    sortIfMany q l = sortIfMany q' l' := by
  have hperm := (sortIfMany_perm q l).trans (hp.trans (sortIfMany_perm q' l').symm)
  apply hperm.eq_of_pairwise _ (sortIfMany_sorted q l) (sortIfMany_sorted q' l')
  intro a b ha hb
  exact hanti a ((sortIfMany_perm q l).mem_iff.mp ha) b
    (hp.mem_iff.mpr ((sortIfMany_perm q' l').mem_iff.mp hb))

/-- Findings that tie in the sort are equal. -/
theorem compareFindings_antisymm {a b : Finding} (h : compareFindings a b ≤ 0)
    (h' : compareFindings b a ≤ 0) : a = b := by
  rw [compareFindings_nonpos] at h h'
  have hroot : a.root = b.root := by
    rcases h with hlt | ⟨heq, -⟩
    · rcases h' with hlt' | ⟨heq', -⟩
      · exact absurd hlt (lt_asymm hlt')
      · exact heq'.symm
    · exact heq
  have hrest := h.resolve_left hroot.not_lt
  have hrest' := h'.resolve_left hroot.symm.not_lt
  have hindex : a.index = b.index := by omega
  have hrank : a.code.rank = b.code.rank := by omega
  exact Finding.ext hroot hindex (HazardCode.rank_injective hrank)

section Path
variable {W : Type} {sys : Sys W} {pathEnv : CStr}

theorem mem_foundUnder {root : Root} {f : Found} (h : f ∈ foundUnder sys root) :
    f.index = root.index ∧ foundCommand sys f.name root = some f := by
  unfold foundUnder at h
  split at h
  · contradiction
  · obtain ⟨name, -, hfound⟩ := List.mem_filterMap.mp h
    obtain ⟨rfl, hcommand⟩ := name_of_foundName hfound
    obtain ⟨m, -, heq⟩ := Option.map_eq_some_iff.mp hcommand
    exact ⟨by rw [← heq], hcommand⟩

/-- The hits of a scan are in PATH order. -/
theorem inPathOrder_hits (sys : Sys W) (pathEnv : CStr) :
    InPathOrder (((components sys.fs pathEnv).flatMap (foundUnder sys)).map Found.hit) := by
  constructor
  · rw [List.pairwise_map, List.pairwise_flatMap]
    constructor
    · intro root _
      apply List.pairwise_of_forall_mem_list
      intro f hf f' hf'
      exact ((mem_foundUnder hf).1.trans (mem_foundUnder hf').1.symm).le
    · apply (components_index_lt pathEnv).imp
      intro root root' hlt f hf f' hf'
      have hle : root.index ≤ root'.index := hlt.le
      rwa [← (mem_foundUnder hf).1, ← (mem_foundUnder hf').1] at hle
  · intro g hg g' hg' hc hi
    obtain ⟨f, hf, rfl⟩ := List.mem_map.mp hg
    obtain ⟨f', hf', rfl⟩ := List.mem_map.mp hg'
    obtain ⟨root, hroot, hf⟩ := List.mem_flatMap.mp hf
    obtain ⟨root', hroot', hf'⟩ := List.mem_flatMap.mp hf'
    have hindex : root.index = root'.index := by
      rw [← (mem_foundUnder hf).1, ← (mem_foundUnder hf').1]
      exact hi
    have hnodup : ((components sys.fs pathEnv).map Root.index).Nodup :=
      (List.pairwise_map.mpr (components_index_lt pathEnv)).imp ne_of_lt
    have hsame := List.inj_on_of_nodup_map hnodup hroot hroot' hindex
    have hname : f.name = f'.name := hc
    have hfound := (mem_foundUnder hf).2
    rw [hname, hsame, (mem_foundUnder hf').2] at hfound
    rw [Option.some.inj hfound]

/-- The outcome of a report that is written after some output. -/
def reported (out : List UInt8) (findings : List Finding) (shadows : List ShadowRecord) :
    ℕ × List UInt8 :=
  (if findings = [] ∧ shadows = [] then 0 else 1,
    out ++ (findings.flatMap findingPieces).flatten ++ (shadows.flatMap shadowPieces).flatten)

theorem emitPathReport_granted (hg : sys.Granted) (findings : List Finding)
    (shadows : List ShadowRecord) (p : Proc W) :
    outcome (emitPathReport sys findings shadows p) = reported p.stdout findings shadows := by
  obtain ⟨p₁, h₁⟩ := putAll_granted hg (findings.flatMap findingPieces) p
  obtain ⟨p₂, h₂⟩ := putAll_granted hg (shadows.flatMap shadowPieces) p₁
  obtain ⟨p₃, h₃⟩ := completeStdout_granted hg
    (if findings = [] ∧ shadows = [] then 0 else 1) p₂
  have hrun : emitPathReport sys findings shadows p =
      (some (if findings = [] ∧ shadows = [] then 0 else 1), p₃) :=
    bind_eq_some.mpr ⟨(), p₁, h₁, bind_eq_some.mpr ⟨(), p₂, h₂, h₃⟩⟩
  rw [hrun, outcome, emitPathReport_some hrun]
  rfl

/-- Two answers of `opendir` that differ in the order of the names only. -/
def SameListing : Except Errno Listing → Except Errno Listing → Prop
  | .ok l, .ok l' => l.names.Perm l'.names ∧ l.error = l'.error
  | .error err, .error err' => err = err'
  | _, _ => False

/-- The same system with other listings. -/
def Sys.withOpendir (sys : Sys W) (opendir : CStr → Except Errno Listing) : Sys W :=
  { sys with fs := { sys.fs with opendir := opendir } }

section Reorder
variable {opendir : CStr → Except Errno Listing}
  (hsame : ∀ path, SameListing (sys.fs.opendir path) (opendir path))
include hsame

theorem listingOf_withOpendir (root : Root) :
    listingOf sys.fs root = none ∧ listingOf (sys.withOpendir opendir).fs root = none ∨
      ∃ l l', listingOf sys.fs root = some l ∧
        listingOf (sys.withOpendir opendir).fs root = some l' ∧ l.names.Perm l'.names ∧
        l.error = l'.error := by
  have hlisting := hsame root.text
  unfold listingOf Sys.withOpendir
  dsimp only
  split
  · exact .inl ⟨rfl, rfl⟩
  · split
    · exact .inl ⟨rfl, rfl⟩
    · split
      · exact .inl ⟨rfl, rfl⟩
      · revert hlisting
        cases sys.fs.opendir root.text with
        | error err =>
          cases opendir root.text with
          | error err' => exact fun _ => .inl ⟨rfl, rfl⟩
          | ok l' => exact False.elim
        | ok l =>
          cases opendir root.text with
          | error err' => exact False.elim
          | ok l' => exact fun hl => .inr ⟨l, l', rfl, rfl, hl⟩

theorem foundUnder_withOpendir (root : Root) :
    (foundUnder sys root).Perm (foundUnder (sys.withOpendir opendir) root) := by
  unfold foundUnder
  rcases listingOf_withOpendir hsame root with ⟨hl, hl'⟩ | ⟨l, l', hl, hl', hperm, -⟩
  · rw [hl, hl']
  · rw [hl, hl']
    exact hperm.filterMap _

theorem scanFails_withOpendir (root : Root) :
    scanFails sys root ↔ scanFails (sys.withOpendir opendir) root := by
  unfold scanFails
  rcases listingOf_withOpendir hsame root with ⟨hl, hl'⟩ | ⟨l, l', hl, hl', hperm, herr⟩
  · simp [hl, hl']
  · have hmatch : ∀ name, matchFails (sys.withOpendir opendir).fs root name ↔
        matchFails sys.fs root name := fun _ => Iff.rfl
    simp only [hl, hl', Option.some.injEq, exists_eq_left', herr, hperm.mem_iff, hmatch]

theorem found_withOpendir (roots : List Root) :
    (roots.flatMap (foundUnder sys)).Perm
      (roots.flatMap (foundUnder (sys.withOpendir opendir))) :=
  List.Perm.flatMap_left roots fun root _ => foundUnder_withOpendir hsame root

end Reorder

theorem outcome_bind_none {α : Type} {x : Run W α} {f : α → Run W ℕ} {p p₁ : Proc W}
    (h : x p = (none, p₁)) : outcome ((x >>= f) p) = (2, p₁.stdout) := by
  rw [bind_apply, h]
  rfl

theorem outcome_bind_some {α : Type} {x : Run W α} {f : α → Run W ℕ} {p p₁ : Proc W} {a : α}
    (h : x p = (some a, p₁)) : outcome ((x >>= f) p) = outcome (f a p₁) := by
  rw [bind_apply, h]

/-- With its resources granted, a scan that does not fail of itself ends in its report. -/
theorem runPathMode_outcome (hg : sys.Granted) (h : Hashes) (qf : QSort compareFindings)
    (qs : QSort compareShadows) {p p₁ : Proc W} {classified : List Root × FindingBuffer}
    (hclassify : classifyPath sys (some pathEnv) p = (some classified, p₁))
    (hlen : (classified.1.flatMap (foundUnder sys)).length < 2 ^ 57) :
    ((∃ root ∈ classified.1, scanFails sys root) →
      outcome (runPathMode sys h qf qs (some pathEnv) p) = (2, p₁.stdout)) ∧
    ((¬ ∃ root ∈ classified.1, scanFails sys root) →
      outcome (runPathMode sys h qf qs (some pathEnv) p) = reported p₁.stdout
        (sortIfMany qf (classified.2.items ++ (classified.1.flatMap (foundUnder sys)).flatMap
          fun f => trustFindings sys f.index f.target))
        (sortIfMany qs (collect shadowAfter
          ((classified.1.flatMap (foundUnder sys)).map Found.hit)))) := by
  have hmeets : Meets Proc.stdout True (scanPath sys h classified.1 classified.2) _ _ :=
    scanPath_meets (fun _ => hg) classified.1 fun _ => hlen
  have haudit : auditPath sys h (some pathEnv) p =
      scanPath sys h classified.1 classified.2 p₁ := by
    rw [auditPath, bind_apply, hclassify]
  have hsound := hmeets.sound p₁
  have htotal := fun hok => hmeets.total trivial hok p₁
  cases hscan : scanPath sys h classified.1 classified.2 p₁ with
  | mk r p₂ =>
    rw [hscan] at haudit hsound htotal
    have hkept : p₂.stdout = p₁.stdout := hsound.1
    cases r with
    | none =>
      constructor
      · intro _
        rw [runPathMode, outcome_bind_none haudit, hkept]
      · exact fun hok => absurd (htotal hok) (by simp)
    | some s =>
      obtain ⟨hok, hs⟩ := hsound.2 s rfl
      constructor
      · exact fun hfails => absurd hfails hok
      · intro _
        rw [runPathMode, outcome_bind_some haudit, emitPathReport_granted hg, hs.findings,
          hs.tables.holds.shadows, hkept]

/-- The order of the names in the listings cannot be seen in the outcome. -/
theorem runPathMode_withOpendir (hg : sys.Granted) (h : Hashes)
    (hlen : ((components sys.fs pathEnv).flatMap (foundUnder sys)).length < 2 ^ 57)
    {opendir : CStr → Except Errno Listing}
    (hsame : ∀ path, SameListing (sys.fs.opendir path) (opendir path))
    (qf qf' : QSort compareFindings) (qs qs' : QSort compareShadows) (p : Proc W) :
    outcome (runPathMode (sys.withOpendir opendir) h qf' qs' (some pathEnv) p) =
      outcome (runPathMode sys h qf qs (some pathEnv) p) := by
  have hg' : (sys.withOpendir opendir).Granted := ⟨hg.malloc, hg.output, hg.flush, hg.signal⟩
  -- classification does not read directories
  have hclassify : classifyPath (sys.withOpendir opendir) (some pathEnv) p =
      classifyPath sys (some pathEnv) p := rfl
  cases hrun : classifyPath sys (some pathEnv) p with
  | mk r p₁ =>
    rw [hrun] at hclassify
    cases r with
    | none =>
      have haudit : auditPath sys h (some pathEnv) p = (none, p₁) := by
        rw [auditPath, bind_apply, hrun]
      have haudit' : auditPath (sys.withOpendir opendir) h (some pathEnv) p = (none, p₁) := by
        rw [auditPath, bind_apply, hclassify]
      rw [runPathMode, runPathMode, outcome_bind_none haudit, outcome_bind_none haudit']
    | some classified =>
      have hroots := ((classifyPath_sound pathEnv).result hrun).2
      have hroots' : classified.1 = components (sys.withOpendir opendir).fs pathEnv := hroots
      rw [← hroots] at hlen
      have hfound := found_withOpendir hsame classified.1
      have hfails : (∃ root ∈ classified.1, scanFails sys root) ↔
          ∃ root ∈ classified.1, scanFails (sys.withOpendir opendir) root := by
        simp only [scanFails_withOpendir hsame]
      obtain ⟨hbad, hgood⟩ := runPathMode_outcome hg h qf qs hrun hlen
      obtain ⟨hbad', hgood'⟩ := runPathMode_outcome hg' h qf' qs' hclassify
        (hfound.length_eq ▸ hlen)
      by_cases hf : ∃ root ∈ classified.1, scanFails sys root
      · rw [hbad hf, hbad' (hfails.mp hf)]
      · have horder := inPathOrder_hits sys pathEnv
        have horder' := inPathOrder_hits (sys.withOpendir opendir) pathEnv
        rw [← hroots] at horder
        rw [← hroots'] at horder'
        rw [hgood hf, hgood' (mt hfails.mpr hf),
          sortIfMany_eq_of_perm qs qs' (horder.shadows_perm horder' (hfound.map _))
            horder.shadows_antisymm,
          sortIfMany_eq_of_perm qf qf' ((hfound.flatMap_right _).append_left classified.2.items)
            fun _ _ _ _ => compareFindings_antisymm]
        rfl

end Path

end Pathaudit
