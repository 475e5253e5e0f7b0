import LinuxUtilities.Pathaudit.InPlace

/-! The loops of `path_components_load` in its storage do to the packed texts what
`coalesceTexts` does to the texts. -/
namespace Pathaudit
open CString

theorem colon_bytes : (CStr.lit ":").bytes = [58] := by decide

section Fields

/-- The limits on PATH. -/
structure WithinLimits (pathEnv : CStr) : Prop where
  count : (pathFragments pathEnv).length ≤ maxRootCount
  length : ∀ text ∈ pathFragments pathEnv, text.length ≤ maxRootLength
  bytes : pathEnv.length + 1 ≤ maxRootBytes

@[simp] theorem rootSpans_length (offset index : ℕ) (texts : List CStr) :
    (rootSpans offset index texts).length = texts.length := by
  induction texts generalizing offset index with
  | nil => rfl
  | cons text texts ih => rw [rootSpans, List.length_cons, ih, List.length_cons]

theorem rootSpans_append (offset index : ℕ) (texts rest : List CStr) :
    rootSpans offset index (texts ++ rest) = rootSpans offset index texts ++
      rootSpans (offset + (packed texts).length) (index + texts.length) rest := by
  induction texts generalizing offset index with
  | nil => rfl
  | cons text texts ih =>
    have hoffset : offset + text.length + 1 + (packed texts).length =
        offset + (packed (text :: texts)).length := by
      simp only [packed_cons, List.length_append, List.length_cons, CStr.length]
      omega
    rw [List.cons_append, rootSpans, rootSpans, ih, hoffset, List.length_cons, List.cons_append,
      Nat.add_right_comm index]
    rfl

theorem rootSpans_concat (texts : List CStr) (text : CStr) :
    rootSpans 0 0 (texts ++ [text]) =
      rootSpans 0 0 texts ++ [⟨(packed texts).length, texts.length, text.length⟩] := by
  rw [rootSpans_append, Nat.zero_add, Nat.zero_add]
  rfl

/-- One field, at the colon or the terminator after it. -/
theorem splitFields_field {rootCount : ℕ} {fields : List CStr} {current : CStr} {b : UInt8}
    (bytes : List UInt8) (hb : b = 58 ∨ b = 0) (hlength : current.length ≤ maxRootLength)
    (htotal : (packed (fields ++ [current])).length ≤ maxRootBytes)
    (hcount : fields.length < rootCount) :
    splitFields rootCount (b :: bytes) ((packed fields).length + current.length)
        (packed fields).length (packed fields).length
        (packed fields ++ (current.bytes ++ b :: bytes)) (rootSpans 0 0 fields) =
      if b = 0 then
        some (.ok (packed (fields ++ [current]) ++ bytes, rootSpans 0 0 (fields ++ [current])))
      else
        splitFields rootCount bytes (packed (fields ++ [current])).length
          (packed (fields ++ [current])).length (packed (fields ++ [current])).length
          (packed (fields ++ [current]) ++ bytes) (rootSpans 0 0 (fields ++ [current])) := by
  have hstorage : packed fields ++ (current.bytes ++ 0 :: bytes) =
      packed (fields ++ [current]) ++ bytes := by simp
  have hnext := length_packed_append fields current
  have hlimits : checkRootLimits current.length (packed fields).length =
      .ok ((packed fields).length + (current.length + 1)) := by
    rw [checkRootLimits_ok hlength (by omega), if_neg (by omega)]
  rw [splitFields, if_neg (by tauto), set_after, hstorage, Nat.add_sub_cancel_left, hnext]
  simp only [hlimits, rootSpans_length, rootSpans_concat]
  rw [if_neg (by omega)]
  rfl

/-- The first loop packs the fields one by one. -/
theorem splitFields_spec {rootCount : ℕ} {bytes : List UInt8} (hbytes : 0 ∉ bytes)
    {fields all : List CStr} {current : CStr} (hcurrent : 58 ∉ current.bytes)
    (hall : fields ++ ((current.bytes ++ bytes).splitOn 58).map CStr.ofBytes = all)
    (hlength : ∀ text ∈ all, text.length ≤ maxRootLength)
    (htotal : (packed all).length ≤ maxRootBytes) (hcount : all.length ≤ rootCount) :
    splitFields rootCount (bytes ++ [0]) ((packed fields).length + current.length)
        (packed fields).length (packed fields).length
        (packed fields ++ (current.bytes ++ (bytes ++ [0]))) (rootSpans 0 0 fields) =
      some (.ok (packed all, rootSpans 0 0 all)) := by
  have hof : CStr.ofBytes current.bytes = current := CStr.ofBytes_self current
  induction bytes generalizing fields current with
  | nil =>
    have hsplit : current.bytes.splitOn 58 = [current.bytes] := List.splitOn_eq_singleton hcurrent
    rw [List.append_nil, hsplit, List.map_singleton, hof] at hall
    subst hall
    rw [List.nil_append, splitFields_field _ (.inr rfl) (hlength _ (by simp)) htotal
      (by simpa using hcount), if_pos rfl, List.append_nil]
  | cons b bytes ih =>
    obtain ⟨hb, hrest⟩ : b ≠ 0 ∧ 0 ∉ bytes := by
      rw [List.mem_cons, not_or] at hbytes
      exact ⟨Ne.symm hbytes.1, hbytes.2⟩
    by_cases hcolon : b = 58
    · subst hcolon
      have hnext : (fields ++ [current]) ++
          (((∅ : CStr).bytes ++ bytes).splitOn 58).map CStr.ofBytes = all := by
        rw [← hall, List.splitOn_append_cons_self_of_not_mem hcurrent, List.map_cons, hof]
        simp
      have htail := ih hrest (by simp) hnext rfl
      have hmem : current ∈ all := by
        rw [← hnext]
        simp
      have hle : (packed (fields ++ [current])).length ≤ (packed all).length := by
        rw [← hnext, packed_append (fields ++ [current])]
        simp
      have hlt : fields.length < all.length := by
        rw [← hnext]
        simp
      rw [List.cons_append, splitFields_field _ (.inl rfl) (hlength _ hmem) (by omega) (by omega),
        if_neg hb]
      simpa [show (∅ : CStr).length = 0 from rfl] using htail
    · let next : CStr := ⟨current.bytes ++ [b], by
        rw [List.mem_append, not_or]
        exact ⟨current.nulFree, by simpa using hb.symm⟩⟩
      have hnext : 58 ∉ next.bytes := by
        simp only [next, List.mem_append, List.mem_singleton, not_or]
        exact ⟨hcurrent, Ne.symm hcolon⟩
      have hbytes' : next.bytes ++ bytes = current.bytes ++ b :: bytes := by simp [next]
      have htail := @ih hrest fields next hnext (by rw [hbytes', hall]) (by
        ext1
        exact CStr.ofBytes_bytes next.nulFree)
      have hlen : next.length = current.length + 1 := by simp [CStr.length, next]
      rw [List.cons_append, splitFields, if_pos ⟨hcolon, hb⟩]
      rw [hlen, ← List.append_assoc next.bytes, hbytes', List.append_assoc] at htail
      simpa only [Nat.add_assoc, List.cons_append] using htail

end Fields

section Storage
variable {stat : StatOracle}

theorem PathStorage.root_of_drop {s : PathStorage} {i : ℕ} {root : RootSpan}
    {rest : List RootSpan} (h : s.roots.drop i = root :: rest) :
    s.root i = root ∧ i < s.roots.length ∧ s.roots.drop (i + 1) = rest := by
  have hlt : i < s.roots.length := by
    by_contra hle
    rw [List.drop_eq_nil_of_le (by omega)] at h
    contradiction
  rw [List.drop_eq_getElem_cons hlt] at h
  obtain ⟨hroot, hrest⟩ := List.cons_eq_cons.mp h
  refine ⟨?_, hlt, hrest⟩
  rw [PathStorage.root, List.getD_eq_getElem _ _ hlt, hroot]

/-- The storage holds the components that are done and the fragments that are not, the array
the roots of both, with what is left of older roots between them. -/
structure Aligned (s : PathStorage) (i out : ℕ) (done rest : List CStr) : Prop where
  storage : s.storage = packed (done ++ rest)
  kept : s.roots.take out = rootSpans 0 0 done
  ahead : s.roots.drop i = rootSpans (packed done).length i rest
  count : out = done.length
  le : out ≤ i

theorem Aligned.nil_iff {s : PathStorage} {i out : ℕ} {done rest : List CStr}
    (h : Aligned s i out done rest) : s.roots.length ≤ i ↔ rest = [] := by
  have hlen := congrArg List.length h.ahead
  rw [List.length_drop, rootSpans_length] at hlen
  rw [← List.length_eq_zero_iff]
  omega

/-- The next component goes to its place in the array. -/
theorem keepRoot_aligned {s : PathStorage} {i k out : ℕ} {done rest : List CStr} {text : CStr}
    (hstorage : s.storage = packed (done ++ text :: rest))
    (hkept : s.roots.take out = rootSpans 0 0 done) (hcount : out = done.length)
    (hroot : s.root i = ⟨(packed done).length, i, text.length⟩)
    (hahead : s.roots.drop k = rootSpans ((packed done).length + text.length + 1) k rest)
    (hle : out ≤ i) (hik : i < k) (hlt : i < s.roots.length) :
    Aligned (s.keepRoot i out) k (out + 1) (done ++ [text]) rest := by
  constructor
  · simpa [PathStorage.keepRoot, PathStorage.setRoot] using hstorage
  · have hset : (s.keepRoot i out).roots =
        s.roots.set out ⟨(packed done).length, out, text.length⟩ := by
      rw [PathStorage.keepRoot, hroot]
      rfl
    rw [hset, List.take_add_one, List.take_set_of_le (le_refl out), hkept,
      List.getElem?_set_self (by omega), rootSpans_concat, hcount]
    rfl
  · have hdrop : (s.keepRoot i out).roots.drop k = s.roots.drop k :=
      List.drop_set_of_lt (by omega)
    rw [hdrop, hahead, length_packed_append]
  · rw [hcount, List.length_append, List.length_singleton]
  · omega

/-- In the middle of a join: the fragments from `i` to before `j` are one text. -/
structure Joining (roots : List RootSpan) (i j : ℕ) (done : List CStr) (text : CStr)
    (rest : List CStr) (s : PathStorage) : Prop where
  storage : s.storage = packed (done ++ text :: rest)
  array : s.roots = roots.set i ⟨(packed done).length, i, text.length⟩
  ahead : roots.drop j = rootSpans ((packed done).length + text.length + 1) j rest
  lt : i < j
  inside : i < roots.length

section Joining
variable {roots : List RootSpan} {i j : ℕ} {done rest : List CStr} {text next : CStr}
  {s : PathStorage}

theorem Joining.root (h : Joining roots i j done text rest s) :
    s.root i = ⟨(packed done).length, i, text.length⟩ := by
  rw [PathStorage.root, h.array, List.getD_eq_getElem _ _ (by simpa using h.inside)]
  simp

theorem Joining.drop (h : Joining roots i j done text rest s) {k : ℕ} (hk : i < k) :
    s.roots.drop k = roots.drop k := by
  rw [h.array, List.drop_set_of_lt hk]

theorem Joining.root_next (h : Joining roots i j done text (next :: rest) s) :
    s.root j = ⟨(packed done).length + text.length + 1, j, next.length⟩ :=
  (PathStorage.root_of_drop ((h.drop h.lt).trans h.ahead)).1

/-- The text that is looked up. -/
theorem Joining.text_root (h : Joining roots i j done text rest s) :
    s.text (s.root i) = text := by
  rw [PathStorage.text, h.root, h.storage]
  exact cstrAt_packed done text rest

/-- One colon written back. -/
theorem Joining.restore (h : Joining roots i j done text (next :: rest) s) (lookups : Lookups) :
    Joining roots i (j + 1) done (text ++ .lit ":" ++ next) rest
      { (s.setByte ((packed done).length + text.length) 58).setRoot i
          ⟨(packed done).length, i, text.length + 1 + next.length⟩ with lookups := lookups } := by
  have hlen : (text ++ CStr.lit ":" ++ next).length = text.length + 1 + next.length := by
    rw [CStr.length_append, CStr.length_append]
    rfl
  refine ⟨?_, ?_, ?_, h.lt.trans (Nat.lt_succ_self j), h.inside⟩
  · simp only [PathStorage.setRoot, PathStorage.setByte, h.storage]
    exact packed_join colon_bytes done text next rest
  · simp only [PathStorage.setRoot, PathStorage.setByte, h.array, List.set_set, hlen]
  · have hahead := h.ahead
    rw [rootSpans] at hahead
    have hdrop : roots.drop (j + 1) = (roots.drop j).drop 1 := by rw [List.drop_drop]
    rw [hdrop, hahead, List.drop_one, List.tail_cons, hlen]
    congr 1
    omega

theorem length_eq_zero {text : CStr} : text.length = 0 ↔ text = ∅ := by
  rw [CStr.length, List.length_eq_zero_iff, CStr.ext_iff]
  rfl

/-- What the inner loop leaves when it starts after `j`: some fragments are joined, and
whether the join is accepted is what the texts say. -/
def Restored (stat : StatOracle) (roots : List RootSpan) (i j : ℕ) (done : List CStr) (text : CStr)
    (rest : List CStr) (lookups : Lookups) (r : Bool × ℕ × PathStorage) : Prop :=
  ∃ m ≤ rest.length, r.2.1 = j + m ∧ (∀ t ∈ rest.take m, t ≠ ∅) ∧
    Joining roots i (j + m + 1) done (joined (.lit ":") text (rest.take m)) (rest.drop m) r.2.2 ∧
    rejoinTexts stat text rest lookups =
      (if r.1 then some (joined (.lit ":") text (rest.take m), m) else none, r.2.2.lookups)

theorem Joining.stop (h : Joining roots i (j + 1) done text rest s) {lookups : Lookups}
    (htexts : rejoinTexts stat text rest lookups = (none, s.lookups)) :
    Restored stat roots i j done text rest lookups (false, j, s) :=
  ⟨0, Nat.zero_le _, rfl, by simp, h, htexts⟩

/-- The inner loop does to the storage what `rejoinTexts` does to the texts. -/
theorem restoreColons_spec (h : Joining roots i (j + 1) done text rest s) {fuel : ℕ}
    (hfuel : rest.length ≤ fuel) :
    Restored stat roots i j done text rest s.lookups
      (restoreColons stat i roots.length fuel j s) := by
  induction rest generalizing text j s fuel with
  | nil =>
    have hle : roots.length ≤ j + 1 := by
      have hahead := h.ahead
      rwa [rootSpans, List.drop_eq_nil_iff] at hahead
    cases fuel with
    | zero => exact h.stop rfl
    | succ fuel =>
      rw [restoreColons, if_pos hle]
      exact h.stop rfl
  | cons next rest ih =>
    obtain ⟨fuel, rfl⟩ : ∃ k, fuel = k + 1 := ⟨fuel - 1, by simp at hfuel; omega⟩
    have hroot := h.root
    have hnext := h.root_next
    have hinside : ¬ roots.length ≤ j + 1 := by
      have hlen := congrArg List.length h.ahead
      rw [List.length_drop, rootSpans_length, List.length_cons] at hlen
      omega
    have hsep : (packed done).length + text.length + 1 - 1 =
        (packed done).length + text.length := by omega
    have hmerged : (packed done).length + text.length + 1 + next.length - (packed done).length =
        text.length + 1 + next.length := by omega
    have hlength : (text ++ CStr.lit ":" ++ next).length = text.length + 1 + next.length := by
      rw [CStr.length_append, CStr.length_append]
      rfl
    unfold restoreColons
    rw [if_neg hinside, hnext, hroot]
    simp only [hsep, hmerged]
    split
    next hempty =>
      refine h.stop ?_
      rw [rejoinTexts, if_pos (.inl (length_eq_zero.mp hempty))]
    next hempty =>
      have hne : next ≠ ∅ := fun hnil => hempty (length_eq_zero.mpr hnil)
      split
      next hlimit =>
        refine h.stop ?_
        rw [rejoinTexts, if_pos (.inr (by rw [hlength]; exact hlimit))]
      next hlimit =>
        have hgo : ¬ (next = ∅ ∨ (text ++ CStr.lit ":" ++ next).length > maxRootLength) := by
          rw [hlength]
          tauto
        have hjoin : Joining roots i (j + 1 + 1) done (text ++ .lit ":" ++ next) rest
            ((s.setByte ((packed done).length + text.length) 58).setRoot i
              ⟨(packed done).length, i, text.length + 1 + next.length⟩) := h.restore s.lookups
        have hjoin' := h.restore
          (s.lookups ++ [(text ++ .lit ":" ++ next, stat s.lookups (text ++ .lit ":" ++ next))])
        have hone : ∀ t ∈ (next :: rest).take 1, t ≠ ∅ := by simpa using hne
        rw [hjoin.text_root, PathStorage.lookup]
        simp only [PathStorage.setRoot_lookups, PathStorage.setByte_lookups]
        generalize hanswer : stat s.lookups (text ++ .lit ":" ++ next) = answer at hjoin' ⊢
        cases answer with
        | ok st =>
          refine ⟨1, by simp, rfl, hone, hjoin', ?_⟩
          rw [rejoinTexts, if_neg hgo, hanswer]
          rfl
        | error err =>
          dsimp only
          split
          next herr =>
            refine ⟨1, by simp, rfl, hone, hjoin', ?_⟩
            rw [rejoinTexts, if_neg hgo, hanswer]
            exact if_pos herr
          next herr =>
            obtain ⟨m, hm, hlast, hne', hend, htexts⟩ :=
              ih hjoin' (by simpa using hfuel)
            refine ⟨m + 1, by simpa using hm, hlast.trans (by omega), ?_, ?_, ?_⟩
            · rw [List.take_succ_cons, List.forall_mem_cons]
              exact ⟨hne, hne'⟩
            · rw [List.take_succ_cons, joined_cons, List.drop_succ_cons,
                show j + (m + 1) + 1 = j + 1 + m + 1 by omega]
              exact hend
            · rw [rejoinTexts, if_neg hgo, hanswer]
              dsimp only
              rw [if_neg herr, htexts]
              split <;> rfl

/-- A join that is not accepted is taken apart again, from the left. -/
theorem removeColons_spec {lastRestored fuel : ℕ} {first : CStr} {taken : List CStr}
    (hstorage : s.storage = packed (done ++ joined (.lit ":") first taken :: rest))
    (hahead : s.roots.drop j =
      rootSpans ((packed done).length + first.length + 1) j (taken ++ rest))
    (hnonempty : ∀ t ∈ taken, t ≠ ∅) (hlast : lastRestored + 1 = j + taken.length)
    (hfuel : taken.length ≤ fuel) :
    removeColons lastRestored fuel j s =
      { s with storage := packed (done ++ first :: (taken ++ rest)) } := by
  induction taken generalizing done first j s fuel with
  | nil =>
    have hsame : s = { s with storage := packed (done ++ first :: ([] ++ rest)) } := by
      rw [joined_nil] at hstorage
      rw [List.nil_append, ← hstorage]
    rw [List.length_nil] at hlast
    cases fuel with
    | zero => exact hsame
    | succ fuel =>
      rw [removeColons, if_pos (by omega)]
      exact hsame
  | cons next taken ih =>
    obtain ⟨fuel, rfl⟩ : ∃ k, fuel = k + 1 := ⟨fuel - 1, by simp at hfuel; omega⟩
    rw [List.forall_mem_cons] at hnonempty
    rw [List.length_cons] at hlast
    obtain ⟨hroot, -, hdrop⟩ := PathStorage.root_of_drop hahead
    have hempty : ¬ next.length = 0 := fun hzero => hnonempty.1 (length_eq_zero.mp hzero)
    rw [removeColons, if_neg (by omega), hroot, if_neg hempty, Nat.add_sub_cancel]
    have hpart : (s.setByte ((packed done).length + first.length) 0).storage =
        packed ((done ++ [first]) ++ joined (.lit ":") next taken :: rest) := by
      rw [PathStorage.setByte, hstorage, joined_cons, joined_head, packed_part colon_bytes,
        List.append_assoc]
      rfl
    have hrest : (s.setByte ((packed done).length + first.length) 0).roots.drop (j + 1) =
        rootSpans ((packed (done ++ [first])).length + next.length + 1) (j + 1)
          (taken ++ rest) := by
      rw [length_packed_append]
      exact hdrop
    rw [ih hpart hrest hnonempty.2 (by omega) (by simpa using hfuel)]
    simp [PathStorage.setByte]

end Joining

/-- Fragments that went into a join are passed over. -/
theorem coalesceTexts_skip (taken : ℕ) (texts : List CStr) (lookups : Lookups) :
    coalesceTexts stat taken texts lookups = coalesceTexts stat 0 (texts.drop taken) lookups := by
  induction taken generalizing texts with
  | zero => rfl
  | succ taken ih =>
    cases texts with
    | nil => rfl
    | cons text texts => exact ih texts

/-- What the outer loop leaves is what `coalesceTexts` makes of the texts. -/
def Coalesced (done : List CStr) (texts : List CStr × Lookups) (r : ℕ × PathStorage) : Prop :=
  r.2.storage = packed (done ++ texts.1) ∧ r.2.roots.take r.1 = rootSpans 0 0 (done ++ texts.1) ∧
    r.2.lookups = texts.2

theorem Coalesced.cons {done : List CStr} {text : CStr} {texts : List CStr × Lookups}
    {r : ℕ × PathStorage} (h : Coalesced (done ++ [text]) texts r) :
    Coalesced done (text :: texts.1, texts.2) r := by
  unfold Coalesced at h ⊢
  rwa [List.append_assoc, List.singleton_append] at h

theorem Aligned.setLookups {s : PathStorage} {i out : ℕ} {done rest : List CStr}
    (h : Aligned s i out done rest) (lookups : Lookups) :
    Aligned { s with lookups := lookups } i out done rest :=
  ⟨h.storage, h.kept, h.ahead, h.count, h.le⟩

/-- A fragment that stays a component. -/
theorem Aligned.keep {s : PathStorage} {i out : ℕ} {done rest : List CStr} {text : CStr}
    (h : Aligned s i out done (text :: rest)) :
    Aligned (s.keepRoot i out) (i + 1) (out + 1) (done ++ [text]) rest := by
  obtain ⟨hroot, hlt, hdrop⟩ := PathStorage.root_of_drop h.ahead
  exact keepRoot_aligned h.storage h.kept h.count hroot hdrop h.le (Nat.lt_succ_self i) hlt

theorem Aligned.joining {s : PathStorage} {i out : ℕ} {done rest : List CStr} {text : CStr}
    (h : Aligned s i out done (text :: rest)) :
    Joining s.roots i (i + 1) done text rest s := by
  obtain ⟨hroot, hlt, hdrop⟩ := PathStorage.root_of_drop h.ahead
  refine ⟨h.storage, ?_, hdrop, Nat.lt_succ_self i, hlt⟩
  rw [← hroot, PathStorage.root, List.getD_eq_getElem _ _ hlt, List.set_getElem_self]

theorem Aligned.finish {s : PathStorage} {i out : ℕ} {done : List CStr}
    (h : Aligned s i out done []) : Coalesced done ([], s.lookups) (out, s) := by
  refine ⟨h.storage, ?_, rfl⟩
  rw [List.append_nil]
  exact h.kept

/-- The storage is as before once a join is taken apart. -/
theorem Aligned.undo {s s' : PathStorage} {i out m fuel : ℕ} {done rest : List CStr} {text : CStr}
    (h : Aligned s i out done (text :: rest)) (hm : m ≤ rest.length) (hfuel : rest.length ≤ fuel)
    (hnonempty : ∀ t ∈ rest.take m, t ≠ ∅)
    (hend : Joining s.roots i (i + m + 1) done (joined (.lit ":") text (rest.take m))
      (rest.drop m) s') :
    let u := removeColons (i + m) fuel (i + 1) s'
    u.setRoot i { u.root i with len := text.length } = { s with lookups := s'.lookups } := by
  have htake : (rest.take m).length = m := List.length_take_of_le hm
  have hahead : s'.roots.drop (i + 1) = rootSpans ((packed done).length + text.length + 1) (i + 1)
      (rest.take m ++ rest.drop m) := by
    rw [hend.drop (Nat.lt_succ_self i), h.joining.ahead, List.take_append_drop]
  have hlast : i + m + 1 = i + 1 + (rest.take m).length := by omega
  have hfuel' : (rest.take m).length ≤ fuel := by omega
  have hremove := removeColons_spec hend.storage hahead hnonempty hlast hfuel'
  have hroot : ({ s' with storage := packed (done ++ text :: rest) } : PathStorage).root i =
      ⟨(packed done).length, i, (joined (.lit ":") text (rest.take m)).length⟩ := hend.root
  have hroots : s.roots = s.roots.set i ⟨(packed done).length, i, text.length⟩ := h.joining.array
  intro u
  have hu : u = { s' with storage := packed (done ++ text :: rest) } := by
    rw [← List.take_append_drop m rest]
    exact hremove
  rw [hu, hroot, PathStorage.setRoot]
  dsimp only
  rw [hend.array, List.set_set, ← hroots, ← h.storage]

/-- An accepted join is the next component. -/
theorem Aligned.accept {s s' : PathStorage} {i k out : ℕ} {done rest rest' : List CStr}
    {text merged : CStr} (h : Aligned s i out done (text :: rest))
    (hend : Joining s.roots i k done merged rest' s') :
    Aligned (s'.keepRoot i out) k (out + 1) (done ++ [merged]) rest' := by
  have hkept : s'.roots.take out = rootSpans 0 0 done := by
    rw [hend.array, List.take_set_of_le h.le, h.kept]
  have hlt : i < s'.roots.length := by
    rw [hend.array, List.length_set]
    exact hend.inside
  exact keepRoot_aligned hend.storage hkept h.count hend.root
    ((hend.drop hend.lt).trans hend.ahead) h.le hend.lt hlt

theorem keepRoot_length (s : PathStorage) (i out : ℕ) :
    (s.keepRoot i out).roots.length = s.roots.length := List.length_set

theorem coalesceLoop_spec {s : PathStorage} {i out n fuel : ℕ} {done rest : List CStr}
    (h : Aligned s i out done rest) (hn : s.roots.length = n) (hfuel : rest.length ≤ fuel) :
    Coalesced done (coalesceTexts stat 0 rest s.lookups) (coalesceLoop stat n fuel i out s) := by
  induction fuel generalizing s i out done rest with
  | zero =>
    obtain rfl := List.length_eq_zero_iff.mp (Nat.le_zero.mp hfuel)
    exact h.finish
  | succ fuel ih =>
    cases rest with
    | nil =>
      rw [coalesceLoop, if_pos (hn ▸ h.nil_iff.mpr rfl)]
      exact h.finish
    | cons text rest =>
      have hfuel' : rest.length ≤ fuel := by simpa using hfuel
      obtain ⟨hroot, hlt, -⟩ := PathStorage.root_of_drop h.ahead
      have hkeep {s' : PathStorage} (h' : Aligned s' i out done (text :: rest))
          (hn' : s'.roots.length = n) :
          Coalesced done (text :: (coalesceTexts stat 0 rest s'.lookups).1,
              (coalesceTexts stat 0 rest s'.lookups).2)
            (coalesceLoop stat n fuel (i + 1) (out + 1) (s'.keepRoot i out)) :=
        (ih h'.keep (by simpa [PathStorage.keepRoot, PathStorage.setRoot]) hfuel').cons
      have htext : s.text (s.root i) = text := h.joining.text_root
      rw [coalesceLoop, if_neg (by omega), htext, hroot]
      by_cases hempty : text = ∅
      · rw [if_pos (length_eq_zero.mpr hempty), coalesceTexts, if_pos hempty]
        exact hkeep h hn
      rw [if_neg (fun hzero => hempty (length_eq_zero.mp hzero)), coalesceTexts, if_neg hempty,
        PathStorage.lookup]
      dsimp only
      generalize hanswer : stat s.lookups text = answer
      have h' := h.setLookups (s.lookups ++ [(text, answer)])
      split
      next hother => exact hkeep h' hn
      next hmissing =>
        have hlen : rest.length ≤ n := by
          have hahead := congrArg List.length h.ahead
          rw [List.length_drop, rootSpans_length, List.length_cons] at hahead
          omega
        obtain ⟨m, hm, hlast, hnonempty, hend, htexts⟩ :=
          @restoreColons_spec stat _ _ _ _ _ _ _ h'.joining n hlen
        have hfuel'' : (rest.drop m).length ≤ fuel := by
          rw [List.length_drop]
          omega
        dsimp only at hlast hend htexts
        rw [hn] at hlast hend htexts
        rw [htexts]
        change Coalesced done _ (if _ then _ else _)
        generalize restoreColons stat i n n i _ = r at hlast hend htexts ⊢
        obtain ⟨accepted, lastRestored, s'⟩ := r
        dsimp only at hlast hend htexts ⊢
        subst hlast
        cases accepted with
        | false =>
          have hundo := h'.undo hm hlen hnonempty hend
          dsimp only at hundo
          simp only [Bool.not_false, if_true, Bool.false_eq_true, if_false]
          rw [h'.joining.root, hundo]
          exact hkeep (h.setLookups s'.lookups) hn
        | true =>
          have hlength : (s'.keepRoot i out).roots.length = n := by
            rw [keepRoot_length, hend.array, List.length_set]
            exact hn
          have hrun := (ih (h'.accept hend) hlength hfuel'').cons
          simp only [Bool.not_true, Bool.false_eq_true, if_false, if_true]
          rw [coalesceTexts_skip m]
          exact hrun

end Storage

end Pathaudit
