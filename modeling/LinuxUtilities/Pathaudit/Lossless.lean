import LinuxUtilities.Pathaudit.Coalescing
import LinuxUtilities.Pathaudit.Storage

/-! The components of PATH lose nothing of it, and a component with a colon is a join whose
lookups failed. -/
namespace Pathaudit
open CString

section Texts
variable {stat : StatOracle}

/-- Every answer in the log is the one `stat` gave at that point. -/
inductive History (stat : StatOracle) : Lookups → Prop
  | nil : History stat []
  | snoc {lookups : Lookups} (h : History stat lookups) (text : CStr) :
    History stat (lookups ++ [(text, stat lookups text)])

/-- The lookups of a join: the whole fails in its own way, and all before it with `ENOENT`. -/
def JoinLookups (lookups : Lookups) (first : CStr) (rest : List CStr) : Prop :=
  (∃ err ≠ ENOENT, (joined (.lit ":") first rest, .error err) ∈ lookups) ∧
    ∀ k < rest.length, (joined (.lit ":") first (rest.take k), .error ENOENT) ∈ lookups

theorem JoinLookups.mono {lookups lookups' : Lookups} {first : CStr} {rest : List CStr}
    (h : JoinLookups lookups first rest) (hsub : lookups <+: lookups') :
    JoinLookups lookups' first rest := by
  obtain ⟨⟨err, herr, hwhole⟩, hbefore⟩ := h
  exact ⟨⟨err, herr, hsub.subset hwhole⟩, fun k hk => hsub.subset (hbefore k hk)⟩

theorem JoinLookups.single {lookups : Lookups} {text next : CStr} {err : Errno}
    (htext : (text, .error ENOENT) ∈ lookups) (herr : err ≠ ENOENT)
    (hjoin : (text ++ .lit ":" ++ next, .error err) ∈ lookups) :
    JoinLookups lookups text [next] := by
  refine ⟨⟨err, herr, hjoin⟩, fun k hk => ?_⟩
  obtain rfl : k = 0 := by simpa using hk
  exact htext

theorem JoinLookups.cons {lookups : Lookups} {text next : CStr} {rest : List CStr}
    (htext : (text, .error ENOENT) ∈ lookups)
    (h : JoinLookups lookups (text ++ .lit ":" ++ next) rest) :
    JoinLookups lookups text (next :: rest) := by
  refine ⟨h.1, fun k hk => ?_⟩
  cases k with
  | zero => exact htext
  | succ k => exact h.2 k (by simpa using hk)

/-- What one attempt at a join tells of the lookups. -/
structure Rejoined (stat : StatOracle) (text : CStr) (rest : List CStr) (lookups : Lookups)
    (r : Option (CStr × ℕ) × Lookups) : Prop where
  history : History stat r.2
  grows : lookups <+: r.2
  accepted : ∀ merged taken, r.1 = some (merged, taken) →
    ∃ group, group = rest.take taken ∧ merged = joined (.lit ":") text group ∧
      (∀ t ∈ group, t ≠ ∅) ∧ group ≠ [] ∧ JoinLookups r.2 text group

theorem rejoinTexts_spec {text : CStr} {rest : List CStr} {lookups : Lookups}
    (h : History stat lookups) (htext : (text, .error ENOENT) ∈ lookups) :
    Rejoined stat text rest lookups (rejoinTexts stat text rest lookups) := by
  induction rest generalizing text lookups with
  | nil => exact ⟨h, List.prefix_rfl, by simp [rejoinTexts]⟩
  | cons next rest ih =>
    have hlog := h.snoc (text ++ .lit ":" ++ next)
    unfold rejoinTexts
    dsimp only
    generalize stat lookups (text ++ .lit ":" ++ next) = answer at hlog ⊢
    have hgrows : lookups <+: lookups ++ [(text ++ .lit ":" ++ next, answer)] :=
      List.prefix_append _ _
    have hanswer : (text ++ .lit ":" ++ next, answer) ∈
        lookups ++ [(text ++ .lit ":" ++ next, answer)] :=
      List.mem_append_right _ (List.mem_singleton_self _)
    split
    · exact ⟨h, List.prefix_rfl, by simp⟩
    next hgo =>
      rw [not_or] at hgo
      cases answer with
      | ok st => exact ⟨hlog, hgrows, by simp⟩
      | error err =>
        dsimp only
        split
        next herr =>
          refine ⟨hlog, hgrows, fun merged' taken hsome => ?_⟩
          obtain ⟨rfl, rfl⟩ := Prod.mk.inj (Option.some.inj hsome)
          exact ⟨[next], rfl, rfl, by simpa using hgo.1, by simp,
            .single (hgrows.subset htext) herr hanswer⟩
        next herr =>
          rw [not_not] at herr
          subst herr
          obtain ⟨hhistory, hmore, haccepted⟩ := ih hlog hanswer
          refine ⟨hhistory, hgrows.trans hmore, fun merged' taken hsome => ?_⟩
          obtain ⟨join, hjoin, heq'⟩ := Option.map_eq_some_iff.mp hsome
          obtain ⟨rfl, rfl⟩ := Prod.mk.inj heq'
          obtain ⟨group, rfl, hmerged, hne, -, hlookups⟩ := haccepted join.1 join.2 hjoin
          exact ⟨next :: rest.take join.2, rfl, hmerged, List.forall_mem_cons.mpr ⟨hgo.1, hne⟩,
            by simp, .cons ((hgrows.trans hmore).subset htext) hlookups⟩

/-- The fragments of a component: an empty one is alone, and more than one have failed
lookups. -/
structure Group (lookups : Lookups) (first : CStr) (rest : List CStr) : Prop where
  nonempty : ∅ ∈ first :: rest → first = ∅ ∧ rest = []
  lookups : rest ≠ [] → JoinLookups lookups first rest

/-- Texts that come from fragments by joins. -/
inductive Grouped (lookups : Lookups) : List CStr → List CStr → Prop
  | nil : Grouped lookups [] []
  | cons {first : CStr} {rest fragments texts : List CStr} (hgroup : Group lookups first rest)
    (h : Grouped lookups fragments texts) :
    Grouped lookups (first :: (rest ++ fragments)) (joined (.lit ":") first rest :: texts)

theorem Group.single (lookups : Lookups) (text : CStr) : Group lookups text [] :=
  ⟨fun hmem => ⟨(List.mem_singleton.mp hmem).symm, rfl⟩, by simp⟩

theorem coalesceTexts_spec {taken : ℕ} {texts : List CStr} {lookups : Lookups}
    (h : History stat lookups) :
    let r := coalesceTexts stat taken texts lookups
    History stat r.2 ∧ lookups <+: r.2 ∧ ∀ later, r.2 <+: later →
      Grouped later (texts.drop taken) r.1 := by
  induction texts generalizing taken lookups with
  | nil =>
    cases taken <;> exact ⟨h, List.prefix_rfl, fun _ _ => .nil⟩
  | cons text rest ih =>
    cases taken with
    | succ taken => exact ih h
    | zero =>
      have hkeep {log : Lookups} (hlog : History stat log) (hgrows : lookups <+: log) :
          let r := coalesceTexts stat 0 rest log
          History stat r.2 ∧ lookups <+: r.2 ∧ ∀ later, r.2 <+: later →
            Grouped later (text :: rest) (text :: r.1) := by
        obtain ⟨hhistory, hmore, hgrouped⟩ := @ih 0 _ hlog
        exact ⟨hhistory, hgrows.trans hmore, fun later hlater =>
          .cons (.single later text) (hgrouped later hlater)⟩
      have hlog := h.snoc text
      unfold coalesceTexts
      dsimp only
      generalize stat lookups text = answer at hlog ⊢
      have hgrows : lookups <+: lookups ++ [(text, answer)] := List.prefix_append _ _
      split
      · exact hkeep h List.prefix_rfl
      next hempty =>
        split
        · exact hkeep hlog hgrows
        next hmissing =>
          rw [not_not] at hmissing
          subst hmissing
          have htext : (text, .error ENOENT) ∈ lookups ++ [(text, .error ENOENT)] :=
            List.mem_append_right _ (List.mem_singleton_self _)
          obtain ⟨hhistory, hmore, haccepted⟩ :=
            @rejoinTexts_spec stat text rest _ hlog htext
          split
          next log' heq =>
            rw [heq] at hhistory hmore
            exact hkeep hhistory (hgrows.trans hmore)
          next merged taken log' heq =>
            rw [heq] at hhistory hmore haccepted
            obtain ⟨group, hgroup, rfl, hne, hnil, hlookups⟩ := haccepted _ _ rfl
            obtain ⟨hhistory', hmore', hgrouped⟩ := @ih taken _ hhistory
            refine ⟨hhistory', hgrows.trans (hmore.trans hmore'), fun later hlater => ?_⟩
            have hsplit : rest = group ++ rest.drop taken := by
              rw [hgroup, List.take_append_drop]
            have hnonempty : ∅ ∉ text :: group := by
              rw [List.mem_cons, not_or]
              exact ⟨fun heq => hempty heq.symm, fun hmem => hne _ hmem rfl⟩
            have hgroup' : Group later text group :=
              ⟨fun hmem => absurd hmem hnonempty, fun _ => hlookups.mono (hmore'.trans hlater)⟩
            have hcons := Grouped.cons hgroup' (hgrouped later hlater)
            rw [← hsplit] at hcons
            exact hcons

end Texts

section Load
variable {stat : StatOracle}

/-- The components as C strings with their numbers and recorded lengths. -/
def PathStorage.components (c : PathStorage) : List Root :=
  c.roots.map fun r => ⟨c.text r, r.index, r.len⟩

/-- Roots over packed texts are the texts with their lengths. -/
theorem rootSpans_texts (done texts : List CStr) (index : ℕ) :
    (rootSpans (packed done).length index texts).map
        (fun r => (⟨cstrAt (packed (done ++ texts)) r.text, r.index, r.len⟩ : Root)) =
      numberedRoots index texts := by
  induction texts generalizing done index with
  | nil => rfl
  | cons text texts ih =>
    have htail := ih (done ++ [text]) (index + 1)
    rw [length_packed_append, List.append_assoc, List.singleton_append] at htail
    rw [rootSpans, List.map_cons, cstrAt_packed, htail, numberedRoots_cons]

theorem pathFragments_bytes (pathEnv : CStr) :
    (pathFragments pathEnv).map CStr.bytes = pathEnv.bytes.splitOn 58 := by
  rw [pathFragments, List.map_map]
  have hpart : ∀ part ∈ pathEnv.bytes.splitOn 58, (CStr.bytes ∘ CStr.ofBytes) part = part := by
    intro part hpart
    exact CStr.ofBytes_bytes fun hmem => pathEnv.nulFree (mem_splitOn hpart _ hmem).1
  rw [List.map_congr_left hpart, List.map_id']

theorem colon_notMem {pathEnv text : CStr} (h : text ∈ pathFragments pathEnv) :
    58 ∉ text.bytes := by
  intro hmem
  have hpart := List.mem_map_of_mem h (f := CStr.bytes)
  rw [pathFragments_bytes] at hpart
  exact (mem_splitOn hpart _ hmem).2 rfl

theorem packed_pathFragments (pathEnv : CStr) :
    (packed (pathFragments pathEnv)).length = pathEnv.length + 1 := by
  rw [length_packed]
  have hsum := sum_splitOn 58 pathEnv.bytes
  rw [← pathFragments_bytes, List.map_map] at hsum
  exact hsum

theorem Grouped.nil_iff {lookups : Lookups} {fragments texts : List CStr}
    (h : Grouped lookups fragments texts) : fragments = [] ↔ texts = [] := by
  cases h <;> simp

/-- The joins lose no byte. -/
theorem Grouped.intercalate {lookups : Lookups} {fragments texts : List CStr}
    (h : Grouped lookups fragments texts) :
    List.intercalate [58] (texts.map CStr.bytes) =
      List.intercalate [58] (fragments.map CStr.bytes) := by
  induction h with
  | nil => rfl
  | @cons first rest fragments texts hgroup h ih =>
    rw [List.map_cons, ← List.cons_append, List.map_append, joined_bytes, colon_bytes]
    by_cases hnil : fragments = []
    · rw [hnil, h.nil_iff.mp hnil]
      simp
    · have hfragments : fragments.map CStr.bytes ≠ [] := by simpa using hnil
      have htexts : texts.map CStr.bytes ≠ [] := by simpa using mt h.nil_iff.mpr hnil
      rw [List.intercalate_cons_of_ne_nil htexts, ih, intercalate_append _ (by simp) hfragments,
        List.map_cons]

/-- Each text is the join of a group of the fragments. -/
theorem Grouped.group {lookups : Lookups} {fragments texts : List CStr}
    (h : Grouped lookups fragments texts) {text : CStr} (htext : text ∈ texts) :
    ∃ first rest, text = joined (.lit ":") first rest ∧ Group lookups first rest ∧
      ∀ t ∈ first :: rest, t ∈ fragments := by
  induction h with
  | nil => contradiction
  | @cons first rest fragments texts hgroup h ih =>
    rcases List.mem_cons.mp htext with rfl | htext
    · refine ⟨first, rest, rfl, hgroup, fun t ht => ?_⟩
      rw [← List.cons_append]
      exact List.mem_append_left _ ht
    · obtain ⟨first', rest', heq, hgroup', hmem⟩ := ih htext
      refine ⟨first', rest', heq, hgroup', fun t ht => ?_⟩
      exact List.mem_cons_of_mem _ (List.mem_append_right _ (hmem t ht))

/-- A join of fragments without colons splits into them again. -/
theorem pathFragments_joined {first : CStr} {rest : List CStr}
    (h : ∀ t ∈ first :: rest, 58 ∉ t.bytes) :
    pathFragments (joined (.lit ":") first rest) = first :: rest := by
  apply List.map_injective_iff.mpr (fun s t hst => CStr.ext hst)
  rw [pathFragments_bytes, joined_bytes, colon_bytes, ← List.map_cons]
  exact List.splitOn_intercalate 58 (by simpa using h) (by simp)

/-- What the components keep of PATH, and what `stat` answered for those with a colon. -/
structure Lossless (stat : StatOracle) (pathEnv : CStr) (c : PathStorage) : Prop where
  joined : List.intercalate [58] (c.components.map fun r => r.text.bytes) = pathEnv.bytes
  length : ∀ r ∈ c.components, r.len = r.text.length
  index : c.components.map Root.index = List.range c.components.length
  history : History stat c.lookups
  grouped : Grouped c.lookups (pathFragments pathEnv) (c.components.map Root.text)
  colon : ∀ r ∈ c.components, 58 ∈ r.text.bytes →
    ∃ first rest, pathFragments r.text = first :: rest ∧
      (∃ err ≠ ENOENT, (r.text, .error err) ∈ c.lookups) ∧
      ∀ k < rest.length, (CString.joined (.lit ":") first (rest.take k), .error ENOENT) ∈ c.lookups

theorem Coalesced.result {texts : List CStr × Lookups} {r : ℕ × PathStorage}
    (h : Coalesced [] texts r) :
    ({ r.2 with roots := r.2.roots.take r.1 } : PathStorage) =
      ⟨packed texts.1, rootSpans 0 0 texts.1, texts.2⟩ := by
  obtain ⟨hstorage, hroots, hlookups⟩ := h
  rw [List.nil_append] at hstorage hroots
  dsimp only
  rw [hstorage, hroots, hlookups]

theorem coalesceInPlace_eq (texts : List CStr) :
    coalesceInPlace stat (packed texts) (rootSpans 0 0 texts) =
      ⟨packed (coalesceTexts stat 0 texts []).1, rootSpans 0 0 (coalesceTexts stat 0 texts []).1,
        (coalesceTexts stat 0 texts []).2⟩ := by
  have haligned : Aligned ⟨packed texts, rootSpans 0 0 texts, []⟩ 0 0 [] texts :=
    ⟨rfl, rfl, rfl, rfl, le_rfl⟩
  rw [coalesceInPlace, rootSpans_length]
  exact (coalesceLoop_spec haligned (rootSpans_length 0 0 texts) le_rfl).result

/-- What `path_components_load` leaves, in terms of the texts. -/
theorem loadInPlace_components (stat : StatOracle) {pathEnv : CStr} (h : WithinLimits pathEnv) :
    ∃ c, loadInPlace stat true true pathEnv = some (.ok c) ∧
      c.components = numberedRoots 0 (coalesceTexts stat 0 (pathFragments pathEnv) []).1 ∧
      c.lookups = (coalesceTexts stat 0 (pathFragments pathEnv) []).2 := by
  have hlimit := h.count
  have hcount : (pathFragments pathEnv).length = 1 + pathEnv.bytes.count 58 := by
    rw [pathFragments, List.length_map, length_splitOn]
  have hsplit : splitFields (1 + pathEnv.bytes.count 58) (pathEnv.bytes ++ [0]) 0 0 0
      (pathEnv.bytes ++ [0]) [] =
      some (.ok (packed (pathFragments pathEnv), rootSpans 0 0 (pathFragments pathEnv))) :=
    @splitFields_spec _ _ pathEnv.nulFree [] _ ∅ (by simp) rfl h.length
      (by rw [packed_pathFragments]; exact h.bytes) hcount.le
  refine ⟨coalesceInPlace stat (packed (pathFragments pathEnv))
    (rootSpans 0 0 (pathFragments pathEnv)), ?_, ?_, ?_⟩
  · rw [loadInPlace, if_neg (by omega)]
    simp only [Bool.not_true, Bool.false_eq_true, if_false, hsplit, rootSpans_length]
    rw [if_neg (by omega)]
  · rw [coalesceInPlace_eq]
    exact rootSpans_texts [] _ 0
  · rw [coalesceInPlace_eq]

/-- Within the limits and with its memory `path_components_load` succeeds, and its components
lose nothing of PATH, whatever `stat` answers. -/
theorem loadInPlace_lossless (stat : StatOracle) {pathEnv : CStr} (h : WithinLimits pathEnv) :
    ∃ c, loadInPlace stat true true pathEnv = some (.ok c) ∧ Lossless stat pathEnv c := by
  obtain ⟨c, hload, hcomponents, hlookups⟩ := loadInPlace_components stat h
  obtain ⟨hhistory, -, hgrouped⟩ :=
    @coalesceTexts_spec stat 0 (pathFragments pathEnv) [] .nil
  rw [← hlookups] at hhistory
  have hgrouped := hgrouped c.lookups (hlookups ▸ List.prefix_rfl)
  have htexts : c.components.map Root.text =
      (coalesceTexts stat 0 (pathFragments pathEnv) []).1 := by
    rw [hcomponents, numberedRoots_texts]
  rw [List.drop_zero, ← htexts] at hgrouped
  refine ⟨c, hload, ?_, ?_, ?_, hhistory, hgrouped, ?_⟩
  · have hjoined := hgrouped.intercalate
    rw [List.map_map, pathFragments_bytes, List.intercalate_splitOn] at hjoined
    exact hjoined
  · rw [hcomponents]
    exact numberedRoots_len
  · rw [hcomponents]
    apply List.ext_getElem
    · simp
    · intro i hi hi'
      simp [numberedRoots]
  · intro r hr hcolon
    obtain ⟨first, rest, htext, hgroup, hmem⟩ := hgrouped.group (List.mem_map_of_mem hr)
    have hclear : ∀ t ∈ first :: rest, 58 ∉ t.bytes := fun t ht => colon_notMem (hmem t ht)
    have hrest : rest ≠ [] := by
      rintro rfl
      rw [htext] at hcolon
      exact hclear first List.mem_cons_self hcolon
    obtain ⟨hwhole, hbefore⟩ := hgroup.lookups hrest
    rw [htext]
    exact ⟨first, rest, pathFragments_joined hclear, hwhole, hbefore⟩

theorem loadInPlace_lossless_sample :
    ∃ c, loadInPlace (fun _ => colonStat) true true (.lit "x::a:b") = some (.ok c) ∧
      Lossless (fun _ => colonStat) (.lit "x::a:b") c :=
  loadInPlace_lossless _ ⟨by decide, by decide, by decide⟩

end Load

section Refinement
variable {stat : CStr → Except Errno Stat}

theorem rejoin_texts {root : Root} {roots : List Root} (lookups : Lookups)
    (hlen : ∀ r ∈ root :: roots, r.len = r.text.length) :
    rejoin stat root roots =
      (rejoinTexts (fun _ => stat) root.text (roots.map Root.text) lookups).1.map fun join =>
        (⟨join.1, root.index, join.1.length⟩, join.2) := by
  induction roots generalizing root lookups with
  | nil => rfl
  | cons next roots ih =>
    obtain ⟨hroot, hnext, hroots⟩ := by simpa using hlen
    have hlength : (root.text ++ CStr.lit ":" ++ next.text).length = root.len + 1 + next.len := by
      rw [CStr.length_append, CStr.length_append, hroot, hnext]
      rfl
    have hempty : next.len = 0 ↔ next.text = ∅ := by rw [hnext, length_eq_zero]
    rw [List.map_cons, rejoin, rejoinTexts]
    dsimp only
    rw [hlength]
    by_cases hnil : next.len = 0
    · rw [if_pos hnil, if_pos (.inl (hempty.mp hnil))]
      rfl
    by_cases hlimit : root.len + 1 + next.len > maxRootLength
    · rw [if_neg hnil, if_pos hlimit, if_pos (.inr hlimit)]
      rfl
    rw [if_neg hnil, if_neg hlimit, if_neg (by rw [← hempty]; tauto)]
    cases stat (root.text ++ .lit ":" ++ next.text) with
    | ok st => rfl
    | error err =>
      dsimp only
      split
      · rw [Option.map_some, hlength]
      · rw [ih _ (List.forall_mem_cons.mpr ⟨hlength.symm, hroots⟩), Option.map_map, Option.map_map]
        rfl

/-- With a `stat` that does not change, the texts are joined as `coalesceRoots` joins them. -/
theorem coalesceRoots_texts {taken : ℕ} {roots : List Root} (lookups : Lookups)
    (hlen : ∀ r ∈ roots, r.len = r.text.length) :
    (coalesceRoots stat taken roots).map Root.text =
        (coalesceTexts (fun _ => stat) taken (roots.map Root.text) lookups).1 ∧
      ∀ r ∈ coalesceRoots stat taken roots, r.len = r.text.length := by
  induction roots generalizing taken lookups with
  | nil =>
    cases taken <;> exact ⟨rfl, by simp [coalesceRoots]⟩
  | cons root roots ih =>
    rw [List.forall_mem_cons] at hlen
    cases taken with
    | succ taken => exact ih lookups hlen.2
    | zero =>
      have hkeep (log : Lookups) :
          (root :: coalesceRoots stat 0 roots).map Root.text =
              root.text :: (coalesceTexts (fun _ => stat) 0 (roots.map Root.text) log).1 ∧
            ∀ r ∈ root :: coalesceRoots stat 0 roots, r.len = r.text.length := by
        obtain ⟨htexts, hlens⟩ := @ih 0 log hlen.2
        exact ⟨by rw [List.map_cons, htexts], List.forall_mem_cons.mpr ⟨hlen.1, hlens⟩⟩
      have hempty : root.len = 0 ↔ root.text = ∅ := by rw [hlen.1, length_eq_zero]
      rw [List.map_cons, coalesceRoots, coalesceTexts]
      dsimp only
      by_cases hnil : root.len = 0
      · rw [if_pos hnil, if_pos (hempty.mp hnil)]
        exact hkeep _
      rw [if_neg hnil, if_neg (mt hempty.mpr hnil)]
      cases stat root.text with
      | ok st =>
        rw [if_pos (by simp)]
        exact hkeep _
      | error err =>
        dsimp only
        by_cases herr : err ≠ ENOENT
        · rw [if_pos herr, if_pos (by simpa using herr)]
          exact hkeep _
        rw [if_neg herr, if_neg (by simpa using herr),
          rejoin_texts (lookups ++ [(root.text, .error err)]) (List.forall_mem_cons.mpr hlen)]
        generalize rejoinTexts (fun _ => stat) root.text (roots.map Root.text) _ = r
        obtain ⟨join, log⟩ := r
        cases join with
        | none => exact hkeep log
        | some join =>
          obtain ⟨htexts, hlens⟩ := @ih join.2 log hlen.2
          exact ⟨by rw [Option.map_some, List.map_cons, htexts],
            List.forall_mem_cons.mpr ⟨rfl, hlens⟩⟩

theorem components_len (fs : FileSystem) (pathEnv : CStr) :
    ∀ root ∈ components fs pathEnv, root.len = root.text.length := by
  intro root hroot
  obtain ⟨i, hi, rfl⟩ := List.mem_mapIdx.mp hroot
  have hlens := (@coalesceRoots_texts fs.stat 0 _ []
    (@numberedRoots_len 0 (pathFragments pathEnv))).2
  have hlen := hlens _ (List.getElem_mem hi)
  exact hlen

/-- The storage holds the components of the model without storage. -/
theorem loadInPlace_refines (fs : FileSystem) {pathEnv : CStr} (h : WithinLimits pathEnv) :
    ∃ c, loadInPlace (fun _ => fs.stat) true true pathEnv = some (.ok c) ∧
      c.components = components fs pathEnv := by
  obtain ⟨c, hload, hcomponents, -⟩ := loadInPlace_components (fun _ => fs.stat) h
  refine ⟨c, hload, ?_⟩
  obtain ⟨htexts, hlens⟩ := @coalesceRoots_texts fs.stat 0 _ []
    (@numberedRoots_len 0 (pathFragments pathEnv))
  rw [numberedRoots_texts] at htexts
  rw [hcomponents, ← htexts, components, coalesceInspectionPathFragments]
  apply List.ext_getElem
  · simp [numberedRoots]
  · intro i hi hi'
    have hmem : i < (coalesceRoots fs.stat 0 (numberedRoots 0 (pathFragments pathEnv))).length := by
      simpa using hi'
    simpa [numberedRoots] using (hlens _ (List.getElem_mem hmem)).symm

end Refinement

end Pathaudit
