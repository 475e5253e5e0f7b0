import LinuxUtilities.Sysdiff.Format

/-! `parse_snapshot` accepts exactly the streams of format 1 and gives their entries. -/
namespace Sysdiff
open CString

/-- Every allocation to come succeeds. -/
def Granted (allocs : List Bool) : Prop := ∀ a ∈ allocs, a = true

theorem Granted.head {allocs : List Bool} (h : Granted allocs) : allocs.headD true = true := by
  cases allocs with
  | nil => rfl
  | cons a rest => exact h a List.mem_cons_self

theorem Granted.tail {allocs : List Bool} (h : Granted allocs) : Granted allocs.tail :=
  fun a ha => h a (List.mem_of_mem_tail ha)

/-- A parser step leaves the outputs alone, and the allocations to come succeed after it. -/
structure Quiet (p p' : Proc) : Prop where
  allocs : Granted p'.allocs
  outs : p'.outs = p.outs
  stdout : p'.stdout = p.stdout

theorem Quiet.trans {p p' p'' : Proc} (h : Quiet p p') (h' : Quiet p' p'') : Quiet p p'' :=
  ⟨h'.allocs, h'.outs.trans h.outs, h'.stdout.trans h.stdout⟩

theorem Quiet.withAllocs {p : Proc} {allocs : List Bool} (h : Granted allocs) :
    Quiet p { p with allocs := allocs } :=
  ⟨h, rfl, rfl⟩

/-- An outcome of the parser: the snapshot with these items when the condition holds, and
an error otherwise. -/
def Yields (result : Except Proc (Snapshot × Proc)) (good : Prop) (p : Proc)
    (post : Snapshot → Prop) : Prop :=
  (good → ∃ snapshot p', result = .ok (snapshot, p') ∧ post snapshot ∧ Quiet p p') ∧
    (¬ good → ∃ p', result = .error p' ∧ Quiet p p')

theorem Yields.error {result : Except Proc (Snapshot × Proc)} {good : Prop} {p p' : Proc}
    {post : Snapshot → Prop} (hgood : ¬ good) (h : result = .error p') (hq : Quiet p p') :
    Yields result good p post :=
  ⟨fun hg => absurd hg hgood, fun _ => ⟨p', h, hq⟩⟩

/-- The statuses of `read_line` that end the parser with an error. -/
def LineStatus.Fails (s : LineStatus) : Prop := s ≠ .ok ∧ s ≠ .eof

theorem growLine_granted {len cap : ℕ} {allocs : List Bool} (hlen : len ≤ maxLineBytes + 1)
    (hcap : cap ≤ 2 * len + 130) (h : Granted allocs) :
    ∃ cap' allocs', growLine len cap allocs = (some cap', allocs') ∧
      cap' ≤ 2 * (len + 1) + 130 ∧ Granted allocs' := by
  unfold maxLineBytes at hlen
  by_cases hfull : cap = 0 ∨ cap - 1 ≤ len
  · refine ⟨if cap = 0 then 128 else cap * 2, allocs.tail, ?_, ?_, h.tail⟩
    · rw [growLine_full allocs hfull (by omega), h.head]
      rfl
    · split <;> omega
  · exact ⟨cap, allocs, if_neg hfull, by omega, h⟩

/-- What `read_line` lets pass before the end of the line: no NUL, one byte over the limit
at most, and no more bytes than a snapshot may have. -/
structure Readable (l : List UInt8) (len total : ℕ) : Prop where
  nulFree : (0 : UInt8) ∉ l
  length : len + l.length ≤ maxLineBytes + 1
  total : total + l.length ≤ maxSnapshotBytes

section ReadLine
variable {l tail line : List UInt8} {cap total : ℕ} {allocs : List Bool}

theorem Readable.cons_iff {ch : UInt8} {len : ℕ} :
    Readable (ch :: l) len total ↔
      (total < maxSnapshotBytes ∧ ch ≠ 0 ∧ len ≤ maxLineBytes) ∧
        Readable l (len + 1) (total + 1) := by
  constructor
  · rintro ⟨hnul, hlen, htotal⟩
    simp only [List.mem_cons, not_or, List.length_cons] at hnul hlen htotal
    exact ⟨⟨by omega, Ne.symm hnul.1, by omega⟩, hnul.2, by omega, by omega⟩
  · rintro ⟨⟨htotal, hch, hlen⟩, h⟩
    have hlen' := h.length
    have htotal' := h.total
    refine ⟨?_, ?_, ?_⟩
    · simp [h.nulFree, Ne.symm hch]
    · simp only [List.length_cons]
      omega
    · simp only [List.length_cons]
      omega

/-- The loop passes over readable bytes, or fails in them. -/
theorem readLineLoop_append (l tail line : List UInt8) (cap total : ℕ) (hlf : 10 ∉ l)
    (hlen : line.length ≤ maxLineBytes + 1) (hcap : cap ≤ 2 * line.length + 130)
    (h : Granted allocs) :
    (Readable l line.length total → ∃ cap' allocs',
      readLineLoop false (l ++ tail) line cap total allocs =
        readLineLoop false tail (line ++ l) cap' (total + l.length) allocs' ∧
      cap' ≤ 2 * (line ++ l).length + 130 ∧ Granted allocs') ∧
    (¬ Readable l line.length total → total ≤ maxSnapshotBytes →
      (readLineLoop false (l ++ tail) line cap total allocs).status.Fails ∧
      Granted (readLineLoop false (l ++ tail) line cap total allocs).allocs) := by
  induction l generalizing line cap total allocs with
  | nil =>
    constructor
    · intro _
      exact ⟨cap, allocs, by simp, by simpa using hcap, h⟩
    · intro hnot htotal
      exact absurd ⟨by simp, by simpa using hlen, by simpa using htotal⟩ hnot
  | cons ch l ih =>
    rw [List.mem_cons, not_or] at hlf
    have hne : ch ≠ 10 := Ne.symm hlf.1
    rw [Readable.cons_iff, List.cons_append, readLineLoop]
    by_cases htotal : maxSnapshotBytes ≤ total
    · have hnot : ¬ total < maxSnapshotBytes := by omega
      simp only [hnot, htotal, ↓reduceIte, false_and, IsEmpty.forall_iff, not_false_eq_true,
        forall_const, true_and]
      exact fun _ => ⟨⟨by simp, by simp⟩, h⟩
    · by_cases hch : ch = 0
      · simp only [hch, htotal, ↓reduceIte, ne_eq, not_true_eq_false, false_and, and_false,
          IsEmpty.forall_iff, not_false_eq_true, forall_const, true_and]
        exact fun _ => ⟨⟨by simp, by simp⟩, h⟩
      · by_cases hlong : maxLineBytes < line.length
        · have hnot : ¬ line.length ≤ maxLineBytes := by omega
          simp only [hch, hne, hlong, hnot, htotal, ↓reduceIte, ne_eq, not_false_eq_true, and_self,
            and_false, false_and, IsEmpty.forall_iff, forall_const, true_and]
          exact fun _ => ⟨⟨by simp, by simp⟩, h⟩
        · obtain ⟨cap₁, allocs₁, hgrow, hcap₁, h₁⟩ := growLine_granted hlen hcap h
          have hlen₁ : (line ++ [ch]).length = line.length + 1 := by simp
          have ih' := @ih allocs₁ (line ++ [ch]) cap₁ (total + 1) hlf.2
            (by omega) (by omega) h₁
          rw [hlen₁] at ih'
          have hstep : total < maxSnapshotBytes ∧ ch ≠ 0 ∧ line.length ≤ maxLineBytes :=
            ⟨by omega, hch, by omega⟩
          simp only [hstep, htotal, hlong, hgrow, hne, ↓reduceIte, and_false, ne_eq,
            not_false_eq_true, and_self, true_and]
          constructor
          · intro hread
            obtain ⟨cap', allocs', heq, hcap', h'⟩ := ih'.1 hread
            refine ⟨cap', allocs', ?_, ?_, h'⟩
            · rw [heq, List.append_assoc, List.singleton_append, List.length_cons, Nat.add_assoc,
                Nat.add_comm 1]
            · simpa using hcap'
          · intro hread _
            exact ih'.2 hread (by omega)

/-- A line that LF ends is read with its LF, or `read_line` fails in it. -/
theorem readLine_terminated (tail : List UInt8) (hlf : 10 ∉ l) (h : Granted allocs)
    (htotal : total ≤ maxSnapshotBytes) :
    (Readable l 0 total ∧ total + l.length < maxSnapshotBytes → ∃ allocs',
      readLine false (l ++ 10 :: tail) total allocs =
        ⟨.ok, l ++ [10], tail, total + l.length + 1, allocs'⟩ ∧ Granted allocs') ∧
    (¬ (Readable l 0 total ∧ total + l.length < maxSnapshotBytes) →
      (readLine false (l ++ 10 :: tail) total allocs).status.Fails ∧
      Granted (readLine false (l ++ 10 :: tail) total allocs).allocs) := by
  have hloop := readLineLoop_append l (10 :: tail) [] 0 total hlf (by simp) (by simp) h
  simp only [List.length_nil, List.nil_append] at hloop
  unfold readLine
  by_cases hread : Readable l 0 total
  · obtain ⟨cap', allocs', heq, hcap', h'⟩ := hloop.1 hread
    have hlen := hread.length
    rw [Nat.zero_add] at hlen
    obtain ⟨cap'', allocs'', hgrow, -, h''⟩ := growLine_granted hlen hcap' h'
    rw [heq, readLineLoop]
    by_cases hfull : maxSnapshotBytes ≤ total + l.length
    · have hnot : ¬ total + l.length < maxSnapshotBytes := by omega
      simp only [hfull, hnot, ↓reduceIte, and_false, IsEmpty.forall_iff, not_false_eq_true,
        forall_const, true_and]
      exact ⟨⟨by simp, by simp⟩, h'⟩
    · have hlt : total + l.length < maxSnapshotBytes := by omega
      simp only [hread, hfull, hlt, hgrow, ↓reduceIte, and_self, forall_const, not_true_eq_false,
        IsEmpty.forall_iff, and_true, ne_eq, false_and, show (10 : UInt8) ≠ 0 by decide]
      exact ⟨allocs'', rfl, h''⟩
  · simp only [hread, false_and, IsEmpty.forall_iff, not_false_eq_true, forall_const, true_and]
    exact hloop.2 hread htotal

/-- So it is with a last line without LF. -/
theorem readLine_last (hlf : 10 ∉ l) (hne : l ≠ []) (h : Granted allocs)
    (htotal : total ≤ maxSnapshotBytes) :
    (Readable l 0 total → ∃ allocs',
      readLine false l total allocs = ⟨.ok, l, [], total + l.length, allocs'⟩ ∧ Granted allocs') ∧
    (¬ Readable l 0 total →
      (readLine false l total allocs).status.Fails ∧
        Granted (readLine false l total allocs).allocs) := by
  have hloop := readLineLoop_append l [] [] 0 total hlf (by simp) (by simp) h
  simp only [List.length_nil, List.nil_append, List.append_nil] at hloop
  unfold readLine
  constructor
  · intro hread
    obtain ⟨cap', allocs', heq, -, h'⟩ := hloop.1 hread
    refine ⟨allocs', ?_, h'⟩
    rw [heq, readLineLoop]
    simp [hne]
  · intro hread
    exact hloop.2 hread htotal

end ReadLine

/-- The array of a snapshot has its items within its capacity. -/
structure Snapshot.Sound (s : Snapshot) : Prop where
  items : s.items.length ≤ s.cap
  cap : s.cap ≤ maxSnapshotEntries

theorem Snapshot.empty_sound : Snapshot.empty.Sound := ⟨le_rfl, Nat.zero_le _⟩

/-- `snapshot_append` refuses only the entry over the limit. -/
theorem snapshotAppend_granted {s : Snapshot} {e : Entry} {allocs : List Bool} (hs : s.Sound)
    (h : Granted allocs) :
    (s.items.length < maxSnapshotEntries → ∃ s' allocs',
      snapshotAppend s e allocs = (.ok, s', allocs') ∧ s'.items = s.items ++ [e] ∧ s'.Sound ∧
        Granted allocs') ∧
    (¬ s.items.length < maxSnapshotEntries →
      snapshotAppend s e allocs = (.entryLimit, s, allocs)) := by
  have hitems := hs.items
  have hcap := hs.cap
  unfold snapshotAppend
  constructor
  · intro hlt
    rw [if_neg (Nat.not_le.mpr hlt)]
    split
    next hfull =>
      have hsmall : ¬ (s.cap ≠ 0 ∧ sizeMax / 2 < s.cap) := by
        unfold maxSnapshotEntries at hcap
        unfold sizeMax
        omega
      rw [if_neg hsmall]
      extract_lets newCap
      have hnew : s.cap < newCap ∧ newCap ≤ maxSnapshotEntries := by
        simp only [newCap]
        split <;> omega
      have hmul : checkedSizeMul newCap 16 ≠ none := by
        have hle := hnew.2
        unfold maxSnapshotEntries at hle
        unfold checkedSizeMul sizeMax
        rw [if_neg (by omega)]
        simp
      rw [if_neg (by simp [hmul, hnew.1]), h.head, if_pos rfl]
      refine ⟨_, _, rfl, rfl, ⟨?_, hnew.2⟩, h.tail⟩
      simp only [List.length_append, List.length_singleton]
      omega
    next hroom =>
      refine ⟨_, _, rfl, rfl, ⟨?_, hcap⟩, h⟩
      simp only [List.length_append, List.length_singleton]
      omega
  · intro hge
    rw [if_pos (by omega)]

theorem copyRange_granted {text : List UInt8} {allocs : List Bool}
    (hlen : text.length ≤ maxLineBytes) (h : Granted allocs) :
    copyRange text allocs = (some (.ofBytes text), allocs.tail) := by
  have hadd : checkedSizeAdd text.length 1 ≠ none := by
    unfold maxLineBytes at hlen
    unfold checkedSizeAdd sizeMax
    rw [if_neg (by omega)]
    simp
  unfold copyRange
  rw [if_neg (by simp [hadd, hlen]), h.head]
  rfl

/-- What one line adds to a snapshot with so many entries, when it may. -/
structure Addable (line : List UInt8) (count : ℕ) : Prop where
  length : line.length ≤ maxLineBytes
  kind : LineKind line
  count : count + (recordOf line).toList.length ≤ maxSnapshotEntries

/-- A record goes into the snapshot while there is room. -/
theorem appendEntry_yields {path : CStr} {lineNo : ℕ} {line : List UInt8} {s : Snapshot}
    {p : Proc} {key value : CStr} {allocs : List Bool} (hlen : line.length ≤ maxLineBytes)
    (hrecord : recordOf line = some ⟨key, value⟩) (hs : s.Sound) (hallocs : Granted allocs) :
    Yields (appendEntry path lineNo (some key) (some value) s { p with allocs := allocs })
      (Addable line s.items.length) p
      fun s' => s'.items = s.items ++ (recordOf line).toList ∧ s'.Sound := by
  obtain ⟨happend, hfull⟩ := snapshotAppend_granted (e := ⟨key, value⟩) hs hallocs
  simp only [appendEntry]
  by_cases hroom : s.items.length < maxSnapshotEntries
  · obtain ⟨s', allocs', heq, hitems, hsound, h'⟩ := happend hroom
    rw [heq]
    constructor
    · intro _
      exact ⟨s', _, rfl, ⟨by rw [hitems, hrecord]; rfl, hsound⟩, h', rfl, rfl⟩
    · intro hbad
      have hkind : LineKind line := .inr (.inr (by rw [hrecord]; rfl))
      exact absurd ⟨hlen, hkind, by simpa [hrecord] using hroom⟩ hbad
  · rw [hfull hroom]
    refine Yields.error (fun hgood => hroom ?_) rfl ⟨hallocs, rfl, rfl⟩
    simpa [hrecord] using hgood.count

/-- `parse_snapshot` adds the record of a line that may be added. -/
theorem parseLine_yields {path : CStr} {lineNo : ℕ} {line : List UInt8} {s : Snapshot} {p : Proc}
    (hs : s.Sound) (h : Granted p.allocs) :
    Yields (parseLine path lineNo line s p) (Addable line s.items.length) p
      fun s' => s'.items = s.items ++ (recordOf line).toList ∧ s'.Sound := by
  unfold parseLine
  split
  next hlong =>
    exact Yields.error (fun hgood => absurd hgood.length (Nat.not_le.mpr hlong)) rfl ⟨h, rfl, rfl⟩
  next hlong =>
    split
    next hskip =>
      have hkind : Blank line ∨ Comment line := by
        simpa [isBlankLine_iff, isCommentLine_iff] using hskip
      have hnone := recordOf_eq_none hkind
      constructor
      · intro _
        exact ⟨s, p, rfl, ⟨by simp [hnone], hs⟩, h, rfl, rfl⟩
      · intro hbad
        have hroom : s.items.length ≤ maxSnapshotEntries := hs.items.trans hs.cap
        exact absurd
          ⟨Nat.not_lt.mp hlong, by unfold LineKind; tauto, by simpa [hnone] using hroom⟩ hbad
    next hskip =>
      have hkind : LineKind line ↔ (recordOf line).isSome := by
        have hskip' : ¬ (Blank line ∨ Comment line) := by
          simpa [← isBlankLine_iff, ← isCommentLine_iff] using hskip
        unfold LineKind
        tauto
      -- the three checks that reject a line are those of `recordOf`
      have hreject : ∀ {text}, recordOf line = none →
          Yields (failAtLine path lineNo text p) (Addable line s.items.length) p
            fun s' => s'.items = s.items ++ (recordOf line).toList ∧ s'.Sound := by
        intro text hnone
        refine Yields.error (fun hgood => ?_) rfl ⟨h, rfl, rfl⟩
        have hsome := hkind.mp hgood.kind
        simp [hnone] at hsome
      split
      next hsep => exact hreject (if_neg fun hc => hsep hc.1)
      next hsep =>
        dsimp only
        split
        next hempty =>
          apply hreject
          rw [recordOf, hempty, if_neg]
          rintro ⟨-, hkey⟩
          exact absurd hkey.dot (by simp)
        next hempty =>
          split
          next hkey =>
            apply hreject
            rw [recordOf, if_neg]
            rintro ⟨-, hvalid⟩
            simp [isValidKey_iff.mpr hvalid] at hkey
          next hkey =>
            have hvalid : ValidKey (line.take (line.idxOf 61)) := by
              simpa [isValidKey_iff] using hkey
            have hrecord : recordOf line = some ⟨.ofBytes (line.take (line.idxOf 61)),
                .ofBytes (line.drop (line.idxOf 61 + 1))⟩ :=
              if_pos ⟨not_not.mp hsep, hvalid⟩
            have hlen := Nat.not_lt.mp hlong
            rw [copyRange_granted (by simp; omega) h, copyRange_granted (by simp; omega) h.tail]
            exact appendEntry_yields hlen hrecord hs h.tail.tail

theorem Yields.bind {r : Except Proc (Snapshot × Proc)}
    {f : Snapshot × Proc → Except Proc (Snapshot × Proc)} {good good' : Prop} {p : Proc}
    {mid post : Snapshot → Prop} (h : Yields r good p mid)
    (hf : ∀ s p', mid s → Quiet p p' → Yields (f (s, p')) good' p' post) :
    Yields (r >>= f) (good ∧ good') p post := by
  by_cases hgood : good
  · obtain ⟨s, p', rfl, hmid, hq⟩ := h.1 hgood
    have hrest := hf s p' hmid hq
    constructor
    · intro hboth
      obtain ⟨s', p'', heq, hpost, hq'⟩ := hrest.1 hboth.2
      exact ⟨s', p'', heq, hpost, hq.trans hq'⟩
    · intro hnot
      obtain ⟨p'', heq, hq'⟩ := hrest.2 fun hg => hnot ⟨hgood, hg⟩
      exact ⟨p'', heq, hq.trans hq'⟩
  · obtain ⟨p', rfl, hq⟩ := h.2 hgood
    exact Yields.error (fun hboth => hgood hboth.1) rfl hq

theorem Yields.of_quiet {r : Except Proc (Snapshot × Proc)} {good : Prop} {p p' : Proc}
    {post : Snapshot → Prop} (hq : Quiet p p') (h : Yields r good p' post) :
    Yields r good p post := by
  constructor
  · intro hgood
    obtain ⟨s, p'', heq, hpost, hq'⟩ := h.1 hgood
    exact ⟨s, p'', heq, hpost, hq.trans hq'⟩
  · intro hbad
    obtain ⟨p'', heq, hq'⟩ := h.2 hbad
    exact ⟨p'', heq, hq.trans hq'⟩

theorem Yields.congr {r : Except Proc (Snapshot × Proc)} {good good' : Prop} {p : Proc}
    {post : Snapshot → Prop} (h : Yields r good p post) (hiff : good' ↔ good) :
    Yields r good' p post := by
  rwa [Yields, hiff]

section Lines
variable {path : CStr} {stream line rest : List UInt8} {lineNo total total' : ℕ} {s : Snapshot}
  {p : Proc} {allocs : List Bool}

theorem parseLines_eof (path : CStr) (lineNo total : ℕ) (s : Snapshot) (h : Granted p.allocs) :
    ∃ p', parseLines path false [] lineNo total s p = .ok (s, p') ∧ Quiet p p' := by
  rw [parseLines]
  exact ⟨_, rfl, h, rfl, rfl⟩

theorem parseLines_ok
    (h : readLine false stream total p.allocs = ⟨.ok, line, rest, total', allocs⟩) :
    parseLines path false stream lineNo total s p =
      parseLine path (lineNo + 1) (stripEnding line) s { p with allocs := allocs } >>=
        fun r => parseLines path false rest (lineNo + 1) total' r.1 r.2 := by
  rw [parseLines]
  split
  next hs => simp [h] at hs
  next hs => simp [h] at hs
  next hs => simp [h] at hs
  next hs => simp [h] at hs
  next hs => simp [h] at hs
  next hs => simp [h] at hs
  next hs => simp only [h]

theorem parseLines_fails (path : CStr) (lineNo : ℕ) (s : Snapshot)
    (h : (readLine false stream total p.allocs).status.Fails)
    (hallocs : Granted (readLine false stream total p.allocs).allocs) :
    ∃ p', parseLines path false stream lineNo total s p = .error p' ∧ Quiet p p' := by
  rw [parseLines]
  split
  next hs => exact absurd hs h.2
  next hs => exact ⟨_, rfl, hallocs, rfl, rfl⟩
  next hs => exact ⟨_, rfl, hallocs, rfl, rfl⟩
  next hs => exact ⟨_, rfl, hallocs, rfl, rfl⟩
  next hs => exact ⟨_, rfl, hallocs, rfl, rfl⟩
  next hs => exact ⟨_, rfl, hallocs, rfl, rfl⟩
  next hs => exact absurd hs h.1

/-- A line that is read is added, and the loop goes on. -/
theorem parseLines_read {content : List UInt8} (good : Prop) (post : Snapshot → Prop)
    (h : readLine false stream total p.allocs = ⟨.ok, line, rest, total', allocs⟩)
    (hcontent : stripEnding line = content) (hallocs : Granted allocs) (hs : s.Sound)
    (hrest : ∀ s' p', s'.items = s.items ++ (recordOf content).toList → s'.Sound →
      Granted p'.allocs →
        Yields (parseLines path false rest (lineNo + 1) total' s' p') good p' post) :
    Yields (parseLines path false stream lineNo total s p)
      (Addable content s.items.length ∧ good) p post := by
  rw [parseLines_ok h, hcontent]
  apply Yields.of_quiet (Quiet.withAllocs hallocs)
  apply (parseLine_yields hs hallocs).bind
  intro s' p' hs' hq
  exact hrest s' p' hs'.1 hs'.2 hq.allocs

/-- What is left of a stream may be added to a snapshot with so many entries, after so many
bytes. -/
structure Loadable (lines : List (List UInt8)) (last : List UInt8) (count total : ℕ) : Prop where
  total : total + (Lines.join 10 lines last).length ≤ maxSnapshotBytes
  nulFree : (0 : UInt8) ∉ Lines.join 10 lines last
  each : ∀ line ∈ contents lines last, line.length ≤ maxLineBytes ∧ LineKind line
  count : count + ((contents lines last).filterMap recordOf).length ≤ maxSnapshotEntries

theorem contents_cons (l : List UInt8) (lines : List (List UInt8)) (last : List UInt8) :
    contents (l :: lines) last = dropCr l :: contents lines last := rfl

theorem length_le_dropCr (l : List UInt8) : l.length ≤ (dropCr l).length + 1 := by
  unfold dropCr
  split
  · rw [List.length_dropLast]
    omega
  · omega

theorem length_filterMap_cons (f : List UInt8 → Option Entry) (l : List UInt8)
    (lines : List (List UInt8)) : ((l :: lines).filterMap f).length =
      (f l).toList.length + (lines.filterMap f).length := by
  cases h : f l <;> simp [h, Nat.add_comm]

theorem Loadable.cons_iff {l last : List UInt8} {lines : List (List UInt8)} {count total : ℕ} :
    Loadable (l :: lines) last count total ↔
      (Readable l 0 total ∧ total + l.length < maxSnapshotBytes) ∧ Addable (dropCr l) count ∧
        Loadable lines last (count + (recordOf (dropCr l)).toList.length)
          (total + l.length + 1) := by
  have hlen := length_le_dropCr l
  constructor
  · rintro ⟨htotal, hnul, heach, hcount⟩
    rw [Lines.join_cons, List.length_append, List.length_cons] at htotal
    rw [Lines.join_cons, List.mem_append, List.mem_cons, not_or, not_or] at hnul
    rw [contents_cons, length_filterMap_cons] at hcount
    rw [contents_cons, List.forall_mem_cons] at heach
    exact ⟨⟨⟨hnul.1, by omega, by omega⟩, by omega⟩, ⟨heach.1.1, heach.1.2, by omega⟩, by omega,
      hnul.2.2, heach.2, by omega⟩
  · rintro ⟨⟨hread, hlt⟩, hadd, hrest⟩
    have htotal := hrest.total
    have hcount := hrest.count
    refine ⟨?_, ?_, ?_, ?_⟩
    · rw [Lines.join_cons, List.length_append, List.length_cons]
      omega
    · rw [Lines.join_cons, List.mem_append, List.mem_cons, not_or, not_or]
      exact ⟨hread.nulFree, by decide, hrest.nulFree⟩
    · rw [contents_cons, List.forall_mem_cons]
      exact ⟨⟨hadd.length, hadd.kind⟩, hrest.each⟩
    · rw [contents_cons, length_filterMap_cons]
      omega

theorem Loadable.last_iff {last : List UInt8} {count total : ℕ} (hne : last ≠ []) :
    Loadable [] last count total ↔ Readable last 0 total ∧ Addable last count := by
  have hcontents : contents [] last = [last] := by simp [contents, hne]
  have hcount : ((contents [] last).filterMap recordOf).length = (recordOf last).toList.length := by
    rw [hcontents, length_filterMap_cons]
    simp
  constructor
  · rintro ⟨htotal, hnul, heach, hc⟩
    rw [hcontents, List.forall_mem_singleton] at heach
    rw [hcount] at hc
    exact ⟨⟨hnul, by omega, htotal⟩, heach.1, heach.2, hc⟩
  · rintro ⟨hread, hadd⟩
    refine ⟨hread.total, hread.nulFree, ?_, ?_⟩
    · rw [hcontents, List.forall_mem_singleton]
      exact ⟨hadd.length, hadd.kind⟩
    · rw [hcount]
      exact hadd.count

theorem stripEnding_terminated (l : List UInt8) : stripEnding (l ++ [10]) = dropCr l := by
  simp [stripEnding, dropCr]

theorem stripEnding_last {l : List UInt8} (hlf : 10 ∉ l) : stripEnding l = l := by
  rw [stripEnding, if_neg]
  intro h
  exact hlf (List.mem_of_getLast? h)

/-- The loop over the lines loads what may be loaded, and fails otherwise. -/
theorem parseLines_yields (path : CStr) (lineNo : ℕ) {lines : List (List UInt8)} {last : List UInt8}
    (hlines : ∀ l ∈ lines, 10 ∉ l) (hlast : 10 ∉ last) (hs : s.Sound) (h : Granted p.allocs)
    (htotal : total ≤ maxSnapshotBytes) :
    Yields (parseLines path false (Lines.join 10 lines last) lineNo total s p)
      (Loadable lines last s.items.length total) p
      fun s' => s'.items = s.items ++ (contents lines last).filterMap recordOf := by
  induction lines generalizing lineNo total s p with
  | nil =>
    rw [Lines.join_nil]
    by_cases hne : last = []
    · subst hne
      obtain ⟨p', heq, hq⟩ := parseLines_eof path lineNo total s h
      have hgood : Loadable [] [] s.items.length total :=
        ⟨by simpa using htotal, by simp, by simp [contents],
          by simpa [contents] using hs.items.trans hs.cap⟩
      exact ⟨fun _ => ⟨s, p', heq, by simp [contents], hq⟩, fun hbad => absurd hgood hbad⟩
    · rw [Loadable.last_iff hne]
      obtain ⟨hok, hfails⟩ := readLine_last hlast hne h htotal
      by_cases hread : Readable last 0 total
      · obtain ⟨allocs', heq, h'⟩ := hok hread
        have hend : Yields (parseLines path false last lineNo total s p)
            (Addable last s.items.length ∧ True) p
            fun s' => s'.items = s.items ++ (contents [] last).filterMap recordOf := by
          apply parseLines_read True _ heq (stripEnding_last hlast) h' hs
          intro s' p' hitems _ h''
          obtain ⟨p'', heq', hq⟩ := parseLines_eof path (lineNo + 1) (total + last.length) s' h''
          refine ⟨fun _ => ⟨s', p'', heq', ?_, hq⟩, fun hn => absurd trivial hn⟩
          show s'.items = _
          rw [hitems]
          cases hr : recordOf last <;> simp [contents, hne, hr]
        exact hend.congr (by simp [hread])
      · obtain ⟨hf, h'⟩ := hfails hread
        obtain ⟨p', heq, hq⟩ := parseLines_fails path lineNo s hf h'
        exact Yields.error (fun hgood => hread hgood.1) heq hq
  | cons l lines ih =>
    rw [Lines.join_cons, Loadable.cons_iff]
    obtain ⟨hok, hfails⟩ := readLine_terminated (Lines.join 10 lines last)
      (hlines l List.mem_cons_self) h htotal
    by_cases hread : Readable l 0 total ∧ total + l.length < maxSnapshotBytes
    · obtain ⟨allocs', heq, h'⟩ := hok hread
      have hrest := parseLines_read
        (Loadable lines last (s.items.length + (recordOf (dropCr l)).toList.length)
          (total + l.length + 1))
        (fun s' => s'.items = s.items ++ (contents (l :: lines) last).filterMap recordOf)
        heq (stripEnding_terminated l) h' hs (by
          intro s' p' hitems hs' h''
          have ih' := @ih (total + l.length + 1) s' p' (lineNo + 1)
            (fun m hm => hlines m (List.mem_cons_of_mem _ hm)) hs' h'' (by omega)
          rw [hitems, List.length_append, List.append_assoc] at ih'
          have hitems' : (recordOf (dropCr l)).toList ++ (contents lines last).filterMap recordOf =
              (contents (l :: lines) last).filterMap recordOf := by
            cases hr : recordOf (dropCr l) <;> simp [contents_cons, hr]
          rwa [hitems'] at ih')
      exact hrest.congr (by simp [hread])
    · obtain ⟨hf, h'⟩ := hfails hread
      obtain ⟨p', heq, hq⟩ := parseLines_fails path lineNo s hf h'
      exact Yields.error (fun hgood => hread hgood.1) heq hq

end Lines

theorem compareEntriesByKey_nonpos (a b : Entry) : compareEntriesByKey a b ≤ 0 ↔ a.key ≤ b.key :=
  strcmp_nonpos

/-- Neighbours in a sorted list tell whether a key occurs twice. -/
theorem validateNoDuplicates_sorted {l : List Entry}
    (h : l.Pairwise fun a b => compareEntriesByKey a b ≤ 0) :
    validateNoDuplicates l = none ↔ (l.map Entry.key).Nodup := by
  fun_induction validateNoDuplicates l with
  | case1 => simp
  | case2 => simp
  | case3 left right rest heq =>
    rw [strcmp_eq_zero] at heq
    simp [heq]
  | case4 left right rest hne ih =>
    rw [strcmp_eq_zero] at hne
    rw [List.pairwise_cons] at h
    rw [ih h.2, List.map_cons (l := right :: rest), List.nodup_cons, and_iff_right]
    -- the key before lies below its neighbour, and so below every later key
    have hlt : left.key < right.key :=
      lt_of_le_of_ne ((compareEntriesByKey_nonpos _ _).mp (h.1 right List.mem_cons_self)) hne
    intro hmem
    obtain ⟨e, he, hkey⟩ := List.mem_map.mp hmem
    obtain rfl | he := List.mem_cons.mp he
    · exact hlt.ne' hkey
    · have hle := (compareEntriesByKey_nonpos _ _).mp (List.rel_of_pairwise_cons h.2 he)
      exact (hlt.trans_le hle).ne' hkey

/-- The parser on an opened stream that can be read to its end. -/
theorem loadSnapshot_yields (q : QSort compareEntriesByKey) (path : CStr) (bytes : List UInt8)
    {p : Proc} (h : Granted p.allocs) :
    Yields (loadSnapshot q path ⟨bytes, false, none⟩ .empty p) (Format1 bytes) p
      fun s => (s.items.Pairwise fun a b => a.key < b.key) ∧ s.items.Perm (records bytes) := by
  obtain ⟨hlines, hlast⟩ := Lines.notMem_split (10 : UInt8) bytes
  have hload := parseLines_yields path 0 hlines hlast Snapshot.empty_sound h
    (Nat.zero_le maxSnapshotBytes)
  rw [Lines.join_split] at hload
  have hformat : Format1 bytes ↔
      Loadable (Lines.split 10 bytes).1 (Lines.split 10 bytes).2 Snapshot.empty.items.length 0 ∧
        ((records bytes).map Entry.key).Nodup := by
    constructor
    · intro hf
      refine ⟨⟨?_, ?_, fun line hline => ⟨hf.lineLength line hline, hf.lineKind line hline⟩, ?_⟩,
        hf.unique⟩
      · rw [Lines.join_split, Nat.zero_add]
        exact hf.size
      · rw [Lines.join_split]
        exact hf.nulFree
      · rw [show Snapshot.empty.items.length = 0 from rfl, Nat.zero_add]
        exact hf.count
    · rintro ⟨⟨htotal, hnul, heach, hcount⟩, hunique⟩
      rw [Lines.join_split, Nat.zero_add] at htotal
      rw [Lines.join_split] at hnul
      rw [show Snapshot.empty.items.length = 0 from rfl, Nat.zero_add] at hcount
      exact ⟨htotal, hnul, fun line hl => (heach line hl).1, fun line hl => (heach line hl).2,
        hcount, hunique⟩
  unfold loadSnapshot
  refine (hload.bind ?_).congr hformat
  intro s p' hitems hq
  change s.items = [] ++ records bytes at hitems
  rw [List.nil_append] at hitems
  dsimp only
  -- one entry or none needs no sorting
  generalize hsorted : (if 1 < s.items.length then q.sort s.items else s.items) = items
  have hitems' : items.Perm (records bytes) ∧
      items.Pairwise fun a b => compareEntriesByKey a b ≤ 0 := by
    rw [← hsorted, ← hitems]
    split
    · exact ⟨q.perm _, q.sorted _⟩
    next hshort =>
      refine ⟨List.Perm.refl _, ?_⟩
      match hl : s.items with
      | [] => exact List.Pairwise.nil
      | [_] => exact List.pairwise_singleton _ _
      | _ :: _ :: _ => simp [hl] at hshort
  have hunique : validateNoDuplicates items = none ↔ ((records bytes).map Entry.key).Nodup := by
    rw [validateNoDuplicates_sorted hitems'.2, (hitems'.1.map Entry.key).nodup_iff]
  cases hvalid : validateNoDuplicates items with
  | none =>
    have hnodup : (items.map Entry.key).Nodup := (validateNoDuplicates_sorted hitems'.2).mp hvalid
    rw [List.Nodup, List.pairwise_map] at hnodup
    refine ⟨fun _ => ⟨_, p', rfl, ⟨?_, hitems'.1⟩, hq.allocs, rfl, rfl⟩,
      fun hbad => absurd (hunique.mp hvalid) hbad⟩
    apply (hitems'.2.and hnodup).imp
    rintro a b ⟨hle, hne⟩
    exact lt_of_le_of_ne ((compareEntriesByKey_nonpos a b).mp hle) hne
  | some key =>
    refine ⟨fun hgood => ?_, fun _ => ⟨_, rfl, hq.allocs, rfl, rfl⟩⟩
    rw [hunique.mpr hgood] at hvalid
    contradiction

/-- A stream of format 1 is parsed to its entries, in order. -/
theorem parseSnapshot_format1 (q : QSort compareEntriesByKey) (path : CStr) {bytes : List UInt8}
    {p : Proc} (h : Granted p.allocs) (hformat : Format1 bytes) :
    ∃ s p', parseSnapshot q path (.ok ⟨bytes, false, none⟩) .empty p = ⟨0, s, p'⟩ ∧
      (s.items.Pairwise fun a b => a.key < b.key) ∧
      (∀ e, e ∈ s.items ↔ (e.key, e.value) ∈ snapshotMap bytes) ∧ Quiet p p' := by
  obtain ⟨s, p', heq, ⟨hsorted, hperm⟩, hq⟩ := (loadSnapshot_yields q path bytes h).1 hformat
  refine ⟨s, p', by simp only [parseSnapshot, heq], hsorted, fun e => ?_, hq⟩
  rw [hperm.mem_iff, mem_records hformat.nulFree]

/-- Any other stream is refused, and the snapshot is left empty. -/
theorem parseSnapshot_invalid (q : QSort compareEntriesByKey) (path : CStr) {bytes : List UInt8}
    {p : Proc} (h : Granted p.allocs) (hformat : ¬ Format1 bytes) :
    ∃ p', parseSnapshot q path (.ok ⟨bytes, false, none⟩) .empty p = ⟨2, .empty, p'⟩ ∧
      Quiet p p' := by
  obtain ⟨p', heq, hq⟩ := (loadSnapshot_yields q path bytes h).2 hformat
  exact ⟨p', by simp only [parseSnapshot, heq], hq⟩

/-- `parse_snapshot` succeeds exactly on the streams of format 1, with their entries in
strict order of the keys, and leaves an empty snapshot otherwise. -/
theorem parseSnapshot_exact (q : QSort compareEntriesByKey) (path : CStr) (bytes : List UInt8)
    (p : Proc) (h : Granted p.allocs) :
    let parsed := parseSnapshot q path (.ok ⟨bytes, false, none⟩) .empty p
    (parsed.status = 0 ↔ Format1 bytes) ∧
      (parsed.status = 0 → (parsed.snapshot.items.Pairwise fun a b => a.key < b.key) ∧
        ∀ e, e ∈ parsed.snapshot.items ↔ (e.key, e.value) ∈ snapshotMap bytes) ∧
      (parsed.status ≠ 0 → parsed.status = 2 ∧ parsed.snapshot = .empty) := by
  intro parsed
  by_cases hformat : Format1 bytes
  · obtain ⟨s, p', heq, hsorted, hmem, -⟩ := parseSnapshot_format1 q path h hformat
    have hparsed : parsed = ⟨0, s, p'⟩ := heq
    rw [hparsed]
    exact ⟨by simp [hformat], fun _ => ⟨hsorted, hmem⟩, fun hne => absurd rfl hne⟩
  · obtain ⟨p', heq, -⟩ := parseSnapshot_invalid q path h hformat
    have hparsed : parsed = ⟨2, .empty, p'⟩ := heq
    rw [hparsed]
    exact ⟨by simp [hformat], fun h0 => absurd h0 (by simp), fun _ => ⟨rfl, rfl⟩⟩

/-- A sort to evaluate the model with. -/
def mergeSortEntries : QSort compareEntriesByKey := .byKey Entry.key compareEntriesByKey_nonpos

def sampleSnapshot : List UInt8 := ascii "b.x=2=3\n# note\r\n \t\na.y=\r"

theorem parseSnapshot_exact_sample :
    (parseSnapshot mergeSortEntries (.lit "s") (.ok ⟨sampleSnapshot, false, none⟩) .empty
      ⟨[true], [], [], [], fun _ => []⟩).status = 0 := by
  have hformat : Format1 sampleSnapshot :=
    ⟨by decide, by decide, by decide, by decide, by decide, by decide⟩
  exact (parseSnapshot_exact mergeSortEntries (.lit "s") sampleSnapshot
    ⟨[true], [], [], [], fun _ => []⟩ (by simp [Granted])).1.mpr hformat

end Sysdiff
