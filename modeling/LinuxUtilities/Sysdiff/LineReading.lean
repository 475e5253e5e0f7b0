import LinuxUtilities.Sysdiff.Snapshot

/-! `read_line` call by call, on streams that need not end: it stops within the limits, and its
buffer has room for whatever it writes. -/
namespace Sysdiff

/-- What `fgetc` answers; an error is told from the end of file by `ferror`. -/
inductive Fgetc where
  | byte (ch : UInt8)
  | eof
  | error
  deriving DecidableEq

/-- The variables of `read_line`, and what it has done so far: the bytes that it took, the
capacities that it computed, and the indexes that it wrote with the capacity at that time. -/
structure LineState where
  line : List UInt8
  cap : ℕ
  total : ℕ
  allocs : List Bool
  consumed : ℕ
  wanted : List ℕ
  writes : List (ℕ × ℕ)

namespace LineState

def start (total : ℕ) (allocs : List Bool) : LineState := ⟨[], 0, total, allocs, 0, [], []⟩

/-- A byte is stored, here the terminator. -/
def terminate (s : LineState) : LineState :=
  { s with writes := s.writes ++ [(s.line.length, s.cap)] }

def push (ch : UInt8) (s : LineState) : LineState :=
  { s with line := s.line ++ [ch], writes := s.writes ++ [(s.line.length, s.cap)] }

/-- The capacities that have been computed once a full buffer is to grow. -/
def wantedCaps (s : LineState) : List ℕ :=
  if s.cap = 0 ∨ s.cap - 1 ≤ s.line.length then
    s.wanted ++ [if s.cap = 0 then 128 else s.cap * 2]
  else s.wanted

/-- The room for one more byte; `false` when it cannot be had. -/
def grow (s : LineState) : Bool × LineState :=
  let grown := growLine s.line.length s.cap s.allocs
  (grown.1.isSome,
    { s with cap := grown.1.getD s.cap, allocs := grown.2, wanted := s.wantedCaps })

end LineState

/-- The loop goes on, or ends with a status. -/
inductive Progress where
  | goOn (s : LineState)
  | stop (status : LineStatus) (s : LineState)

/-- The body of the loop of `read_line`. -/
def readLineStep : Fgetc → LineState → Progress
  | .error, s => .stop .readError s
  | .eof, s => if s.line = [] then .stop .eof s else .stop .ok s.terminate
  | .byte ch, s =>
    let s := { s with consumed := s.consumed + 1 }
    if maxSnapshotBytes ≤ s.total then .stop .byteLimit s
    else
      let s := { s with total := s.total + 1 }
      if ch = 0 then .stop .embeddedNul s
      else if ch ≠ 10 ∧ maxLineBytes < s.line.length then .stop .tooLong s
      else
        if ¬ s.grow.1 then .stop .allocError s.grow.2
        else if ch = 10 then .stop .ok (s.grow.2.push ch).terminate
        else .goOn (s.grow.2.push ch)

/-- The loop, for a number of rounds, over what the calls of `fgetc` answer one after the other. -/
def readLineRun (fgetc : ℕ → Fgetc) : ℕ → LineState → Option (LineStatus × LineState)
  | 0, _ => none
  | rounds + 1, s =>
    match readLineStep (fgetc s.consumed) s with
    | .stop status s => some (status, s)
    | .goOn s => readLineRun fgetc rounds s

/-- What holds before every round of a call that began with `total₀` and `allocs₀`. -/
structure LineInv (total₀ : ℕ) (allocs₀ : List Bool) (s : LineState) : Prop where
  plain : 0 ∉ s.line ∧ 10 ∉ s.line
  length : s.line.length ≤ maxLineBytes + 1
  room : s.cap = 0 ∧ s.line.length = 0 ∨ s.line.length < s.cap
  cap : s.cap ≤ 2 * (maxLineBytes + 2)
  counted : s.total = total₀ + s.consumed
  total : s.total ≤ maxSnapshotBytes
  allocs : s.allocs <:+ allocs₀
  wanted : ∀ cap ∈ s.wanted, cap ≤ sizeMax
  writes : ∀ w ∈ s.writes, w.1 < w.2

/-- What holds when a call that began with `total₀` and `allocs₀` ends. -/
structure LineEnds (total₀ : ℕ) (allocs₀ : List Bool) (status : LineStatus) (s : LineState) :
    Prop where
  /-- Every index that was written lies below the capacity at that time. -/
  writes : ∀ w ∈ s.writes, w.1 < w.2
  /-- No capacity that was computed overflows, so that only a refusal ends in an error. -/
  wanted : ∀ cap ∈ s.wanted, cap ≤ sizeMax
  refused : status = .allocError → false ∈ allocs₀
  line : status = .ok → s.line.length ≤ maxLineBytes + 2 ∧ 0 ∉ s.line ∧ 10 ∉ s.line.dropLast
  total : s.total ≤ maxSnapshotBytes
  counted : status ≠ .byteLimit → s.total = total₀ + s.consumed
  /-- The byte that meets the limit of the stream is taken, and not counted. -/
  limit : status = .byteLimit → s.total = maxSnapshotBytes ∧ s.total + 1 = total₀ + s.consumed

/-- A buffer with room for its bytes gets room for one more, unless memory is refused. -/
theorem growLine_cases {len cap : ℕ} (allocs : List Bool) (hlen : len ≤ maxLineBytes + 1)
    (hroom : cap = 0 ∧ len = 0 ∨ len < cap) (hcap : cap ≤ 2 * (maxLineBytes + 2)) :
    (growLine len cap allocs).2 <:+ allocs ∧
      ((∃ cap', (growLine len cap allocs).1 = some cap' ∧ len + 1 < cap' ∧
          cap' ≤ 2 * (maxLineBytes + 2)) ∨
        (growLine len cap allocs).1 = none ∧ false ∈ allocs) := by
  unfold maxLineBytes at hlen hcap
  by_cases hfull : cap = 0 ∨ cap - 1 ≤ len
  · have hnew : len + 1 < (if cap = 0 then 128 else cap * 2) ∧
        (if cap = 0 then 128 else cap * 2) ≤ 2 * (65536 + 2) := by
      split <;> omega
    rw [growLine_full allocs hfull (by omega)]
    refine ⟨List.tail_suffix allocs, ?_⟩
    cases allocs with
    | nil => exact .inl ⟨_, rfl, hnew⟩
    | cons granted rest =>
      cases granted with
      | true => exact .inl ⟨_, rfl, hnew⟩
      | false => exact .inr ⟨rfl, List.mem_cons_self⟩
  · rw [growLine, if_neg hfull]
    exact ⟨List.suffix_rfl, .inl ⟨cap, rfl, by omega, hcap⟩⟩

section Steps
variable {total₀ : ℕ} {allocs₀ : List Bool} {s : LineState}

/-- The capacity that is computed for a buffer within its bounds is far from the greatest one. -/
theorem wantedCaps_le (h : ∀ cap ∈ s.wanted, cap ≤ sizeMax)
    (hcap : s.cap ≤ 2 * (maxLineBytes + 2)) : ∀ cap ∈ s.wantedCaps, cap ≤ sizeMax := by
  have hnew : (if s.cap = 0 then 128 else s.cap * 2) ≤ sizeMax := by
    unfold maxLineBytes at hcap
    unfold sizeMax
    split <;> omega
  unfold LineState.wantedCaps
  split
  · intro cap hmem
    rcases List.mem_append.mp hmem with hold | hlast
    · exact h cap hold
    · obtain rfl := List.mem_singleton.mp hlast
      exact hnew
  · exact h

/-- A byte that is neither NUL nor LF keeps the invariant when it is stored. -/
theorem LineInv.push {ch : UInt8} (h : LineInv total₀ allocs₀ s) (hnul : ch ≠ 0) (hlf : ch ≠ 10)
    (hlen : s.line.length ≤ maxLineBytes) (hroom : s.line.length + 1 < s.cap) :
    LineInv total₀ allocs₀ (s.push ch) where
  plain := by simp [LineState.push, h.plain, Ne.symm hnul, Ne.symm hlf]
  length := by simpa [LineState.push] using hlen
  room := .inr (by simpa [LineState.push] using hroom)
  cap := h.cap
  counted := h.counted
  total := h.total
  allocs := h.allocs
  wanted := h.wanted
  writes := by
    intro w hw
    rcases List.mem_append.mp hw with hold | hlast
    · exact h.writes w hold
    · obtain rfl := List.mem_singleton.mp hlast
      exact Nat.lt_of_succ_lt hroom

/-- The terminator lies in the buffer, and ends the call. -/
theorem LineInv.terminate (h : LineInv total₀ allocs₀ s) (hroom : s.line.length < s.cap) :
    LineEnds total₀ allocs₀ .ok s.terminate where
  writes := by
    intro w hw
    rcases List.mem_append.mp hw with hold | hlast
    · exact h.writes w hold
    · obtain rfl := List.mem_singleton.mp hlast
      exact hroom
  wanted := h.wanted
  refused := fun heq => by contradiction
  line := fun _ => ⟨h.length.trans (Nat.le_succ _), h.plain.1,
    fun hmem => h.plain.2 (List.mem_of_mem_dropLast hmem)⟩
  total := h.total
  counted := fun _ => h.counted
  limit := fun heq => by contradiction

/-- A call that ends without a line. -/
theorem LineInv.ends (h : LineInv total₀ allocs₀ s) {status : LineStatus} (hok : status ≠ .ok)
    (halloc : status = .allocError → false ∈ allocs₀) (hlimit : status ≠ .byteLimit) :
    LineEnds total₀ allocs₀ status s where
  writes := h.writes
  wanted := h.wanted
  refused := halloc
  line := fun heq => absurd heq hok
  total := h.total
  counted := fun _ => h.counted
  limit := fun heq => absurd heq hlimit

/-- A line feed ends the call, with room for itself and the terminator. -/
theorem LineInv.finish (h : LineInv total₀ allocs₀ s) (hroom : s.line.length + 1 < s.cap) :
    LineEnds total₀ allocs₀ .ok (s.push 10).terminate where
  writes := by
    have hlength : (s.line ++ [10]).length = s.line.length + 1 := by simp
    intro w hw
    simp only [LineState.terminate, LineState.push, List.mem_append, List.mem_singleton,
      hlength] at hw
    rcases hw with (hold | rfl) | rfl
    · exact h.writes w hold
    · exact Nat.lt_of_succ_lt hroom
    · exact hroom
  wanted := h.wanted
  refused := fun heq => by contradiction
  line := by
    intro _
    have hlength := h.length
    refine ⟨?_, ?_, ?_⟩
    · simp only [LineState.terminate, LineState.push, List.length_append, List.length_singleton]
      omega
    · simp [LineState.terminate, LineState.push, h.plain.1]
    · simp [LineState.terminate, LineState.push, h.plain.2]
  total := h.total
  counted := fun _ => h.counted
  limit := fun heq => by contradiction

/-- The byte that is taken is counted. -/
theorem LineInv.count (h : LineInv total₀ allocs₀ s) (htotal : s.total < maxSnapshotBytes) :
    LineInv total₀ allocs₀ { s with consumed := s.consumed + 1, total := s.total + 1 } :=
  { h with
    counted := by
      have := h.counted
      simp only
      omega
    total := htotal }

/-- A buffer that grows keeps the invariant, and has room for two bytes more. -/
theorem LineInv.grow (h : LineInv total₀ allocs₀ s) :
    (s.grow.1 = true ∧ LineInv total₀ allocs₀ s.grow.2 ∧
        s.grow.2.line.length + 1 < s.grow.2.cap) ∨
      s.grow.1 = false ∧ false ∈ allocs₀ ∧ LineInv total₀ allocs₀ s.grow.2 := by
  obtain ⟨hsuffix, hgrown⟩ := growLine_cases s.allocs h.length h.room h.cap
  have hwanted := wantedCaps_le h.wanted h.cap
  rcases hgrown with ⟨cap, hcap, hroom, hle⟩ | ⟨hnone, hrefused⟩
  · refine .inl ⟨by simp [LineState.grow, hcap], ?_, by simpa [LineState.grow, hcap] using hroom⟩
    exact { h with
      room := .inr (by simpa [LineState.grow, hcap] using Nat.lt_of_succ_lt hroom)
      cap := by simpa [LineState.grow, hcap] using hle
      allocs := hsuffix.trans h.allocs
      wanted := hwanted }
  · refine .inr ⟨by simp [LineState.grow, hnone], h.allocs.mem hrefused, ?_⟩
    exact { h with
      room := by simpa [LineState.grow, hnone] using h.room
      cap := by simpa [LineState.grow, hnone] using h.cap
      allocs := hsuffix.trans h.allocs
      wanted := hwanted }

/-- A round keeps the invariant and counts one byte, or ends the call. -/
theorem readLineStep_keeps (h : LineInv total₀ allocs₀ s) (ch : Fgetc) :
    match readLineStep ch s with
    | .goOn s' => LineInv total₀ allocs₀ s' ∧ s.total < s'.total
    | .stop status s' => LineEnds total₀ allocs₀ status s' := by
  cases ch with
  | error => exact h.ends (by decide) (fun heq => by contradiction) (by decide)
  | eof =>
    by_cases hempty : s.line = []
    · simp only [readLineStep, if_pos hempty]
      exact h.ends (by decide) (fun heq => by contradiction) (by decide)
    · simp only [readLineStep, if_neg hempty]
      rcases h.room with ⟨-, hzero⟩ | hroom
      · exact absurd (List.length_eq_zero_iff.mp hzero) hempty
      · exact h.terminate hroom
  | byte ch =>
    by_cases hlimit : maxSnapshotBytes ≤ s.total
    · simp only [readLineStep, if_pos hlimit]
      have htotal := h.total
      have hcounted := h.counted
      exact ⟨h.writes, h.wanted, fun heq => by contradiction, fun heq => by contradiction, htotal,
        fun hne => absurd rfl hne, fun _ => ⟨le_antisymm htotal hlimit, by simp only; omega⟩⟩
    have hinv := h.count (Nat.not_le.mp hlimit)
    by_cases hnul : ch = 0
    · simp only [readLineStep, if_neg hlimit, if_pos hnul]
      exact hinv.ends (by decide) (fun heq => by contradiction) (by decide)
    by_cases hlong : ch ≠ 10 ∧ maxLineBytes < s.line.length
    · simp only [readLineStep, if_neg hlimit, if_neg hnul, if_pos hlong]
      exact hinv.ends (by decide) (fun heq => by contradiction) (by decide)
    simp only [readLineStep, if_neg hlimit, if_neg hnul, if_neg hlong]
    rcases hinv.grow with ⟨hgrown, hinv', hroom⟩ | ⟨hrefused, hmem, hinv'⟩
    · by_cases hlf : ch = 10
      · subst hlf
        simp only [hgrown, not_true_eq_false, if_false, if_true]
        exact hinv'.finish hroom
      · simp only [hgrown, not_true_eq_false, if_false, if_neg hlf]
        have hlen : s.line.length ≤ maxLineBytes := by
          rw [not_and, Nat.not_lt] at hlong
          exact hlong hlf
        exact ⟨hinv'.push hnul hlf hlen hroom, Nat.lt_succ_self s.total⟩
    · simp only [hrefused, Bool.false_eq_true, not_false_eq_true, if_true]
      exact hinv'.ends (by decide) (fun _ => hmem) (by decide)

/-- The rounds that the limit of the stream leaves are enough. -/
theorem readLineRun_ends (fgetc : ℕ → Fgetc) {rounds : ℕ} (h : LineInv total₀ allocs₀ s)
    (hrounds : maxSnapshotBytes - s.total < rounds) :
    ∃ status s', readLineRun fgetc rounds s = some (status, s') ∧
      LineEnds total₀ allocs₀ status s' := by
  induction rounds generalizing s with
  | zero => exact absurd hrounds (Nat.not_lt_zero _)
  | succ rounds ih =>
    have hstep := readLineStep_keeps h (fgetc s.consumed)
    rw [readLineRun]
    cases hnext : readLineStep (fgetc s.consumed) s with
    | stop status s' =>
      rw [hnext] at hstep
      exact ⟨status, s', rfl, hstep⟩
    | goOn s' =>
      rw [hnext] at hstep
      have htotal := hstep.1.total
      exact ih hstep.1 (by omega)

end Steps

theorem LineInv.start {total : ℕ} (allocs : List Bool) (h : total ≤ maxSnapshotBytes) :
    LineInv total allocs (.start total allocs) where
  plain := ⟨List.not_mem_nil, List.not_mem_nil⟩
  length := Nat.zero_le _
  room := .inl ⟨rfl, rfl⟩
  cap := Nat.zero_le _
  counted := rfl
  total := h
  allocs := List.suffix_rfl
  wanted := fun _ hmem => absurd hmem List.not_mem_nil
  writes := fun _ hmem => absurd hmem List.not_mem_nil

/-- Whatever the stream, `read_line` ends within the bytes that the limit leaves, in its buffer,
with a line that has no NUL, at most its limit with CRLF, and LF at its end only. -/
theorem readLine_within_limits (fgetc : ℕ → Fgetc) (allocs : List Bool) {total : ℕ}
    (h : total ≤ maxSnapshotBytes) :
    ∃ status s, readLineRun fgetc (maxSnapshotBytes - total + 1) (.start total allocs) =
        some (status, s) ∧ LineEnds total allocs status s :=
  readLineRun_ends fgetc (.start allocs h) (Nat.lt_succ_self _)

/-- A stream whose bytes do not end before the limit. -/
theorem readLine_within_limits_endless :
    ∃ status s, readLineRun (fun _ => .byte 65) (maxSnapshotBytes - 0 + 1) (.start 0 []) =
        some (status, s) ∧ LineEnds 0 [] status s :=
  readLine_within_limits _ [] (Nat.zero_le _)

/-- The answers of `fgetc` on a stream of these bytes. -/
def answers (bytes : List UInt8) (readFails : Bool) (n : ℕ) : Fgetc :=
  match bytes[n]? with
  | some ch => .byte ch
  | none => if readFails then .error else .eof

/-- A state of the buffer with what a call returns. -/
structure Returns (bytes : List UInt8) (r : LineRead) (status : LineStatus) (s : LineState) :
    Prop where
  returned : r.status = status
  rest : r.rest = bytes.drop s.consumed
  total : r.total = s.total
  allocs : r.allocs = s.allocs
  line : status = .ok → r.line = s.line

/-- On the bytes of a stream, the rounds do what the loop does with the rest of it. -/
theorem readLineRun_returns {bytes : List UInt8} {readFails : Bool} {rounds : ℕ}
    {s s' : LineState} {status : LineStatus}
    (h : readLineRun (answers bytes readFails) rounds s = some (status, s')) :
    Returns bytes (readLineLoop readFails (bytes.drop s.consumed) s.line s.cap s.total s.allocs)
      status s' := by
  induction rounds generalizing s with
  | zero => contradiction
  | succ rounds ih =>
    rw [readLineRun] at h
    cases hrest : bytes.drop s.consumed with
    | nil =>
      have hnone : bytes[s.consumed]? = none :=
        List.getElem?_eq_none (List.drop_eq_nil_iff.mp hrest)
      rw [answers, hnone] at h
      rw [readLineLoop]
      cases readFails with
      | true =>
        obtain ⟨rfl, rfl⟩ := Prod.mk.inj (Option.some.inj h)
        exact ⟨rfl, hrest.symm, rfl, rfl, fun heq => by contradiction⟩
      | false =>
        simp only [Bool.false_eq_true, if_false, readLineStep] at h ⊢
        split at h
        next heq =>
          split at heq
          next hempty =>
            obtain ⟨rfl, rfl⟩ := Progress.stop.inj heq
            obtain ⟨rfl, rfl⟩ := Prod.mk.inj (Option.some.inj h)
            rw [if_pos hempty]
            exact ⟨rfl, hrest.symm, rfl, rfl, fun heq => by contradiction⟩
          next hsome =>
            obtain ⟨rfl, rfl⟩ := Progress.stop.inj heq
            obtain ⟨rfl, rfl⟩ := Prod.mk.inj (Option.some.inj h)
            rw [if_neg hsome]
            exact ⟨rfl, hrest.symm, rfl, rfl, fun _ => rfl⟩
        next heq => split at heq <;> contradiction
    | cons ch rest =>
      have hbyte : bytes[s.consumed]? = some ch := by
        rw [← List.head?_drop, hrest, List.head?_cons]
      have hnext : bytes.drop (s.consumed + 1) = rest := by
        rw [← List.drop_drop, hrest, List.drop_one, List.tail_cons]
      rw [answers, hbyte] at h
      rw [readLineLoop]
      by_cases hlimit : maxSnapshotBytes ≤ s.total
      · simp only [readLineStep, if_pos hlimit] at h ⊢
        obtain ⟨rfl, rfl⟩ := Prod.mk.inj (Option.some.inj h)
        exact ⟨rfl, hnext.symm, rfl, rfl, fun heq => by contradiction⟩
      by_cases hnul : ch = 0
      · simp only [readLineStep, if_neg hlimit, if_pos hnul] at h ⊢
        obtain ⟨rfl, rfl⟩ := Prod.mk.inj (Option.some.inj h)
        exact ⟨rfl, hnext.symm, rfl, rfl, fun heq => by contradiction⟩
      by_cases hlong : ch ≠ 10 ∧ maxLineBytes < s.line.length
      · simp only [readLineStep, if_neg hlimit, if_neg hnul, if_pos hlong] at h ⊢
        obtain ⟨rfl, rfl⟩ := Prod.mk.inj (Option.some.inj h)
        exact ⟨rfl, hnext.symm, rfl, rfl, fun heq => by contradiction⟩
      simp only [readLineStep, if_neg hlimit, if_neg hnul, if_neg hlong, LineState.grow] at h ⊢
      rcases hgrown : growLine s.line.length s.cap s.allocs with ⟨_ | cap, allocs⟩
      · simp only [hgrown, Option.isSome_none, Bool.false_eq_true, not_false_eq_true,
          if_true] at h ⊢
        obtain ⟨rfl, rfl⟩ := Prod.mk.inj (Option.some.inj h)
        exact ⟨rfl, hnext.symm, rfl, rfl, fun heq => by contradiction⟩
      · simp only [hgrown, Option.isSome_some, not_true_eq_false, if_false] at h ⊢
        by_cases hlf : ch = 10
        · simp only [if_pos hlf] at h ⊢
          obtain ⟨rfl, rfl⟩ := Prod.mk.inj (Option.some.inj h)
          exact ⟨rfl, hnext.symm, rfl, rfl, fun _ => rfl⟩
        · simp only [if_neg hlf] at h ⊢
          have hreturns := ih h
          simp only [LineState.push, hnext] at hreturns
          exact hreturns

/-- On a stream that ends, `read_line` is the loop over its bytes. -/
theorem readLine_returns (bytes : List UInt8) (readFails : Bool) (allocs : List Bool) {total : ℕ}
    (h : total ≤ maxSnapshotBytes) :
    ∃ s, readLineRun (answers bytes readFails) (maxSnapshotBytes - total + 1)
          (.start total allocs) = some ((readLine readFails bytes total allocs).status, s) ∧
      Returns bytes (readLine readFails bytes total allocs)
        (readLine readFails bytes total allocs).status s := by
  obtain ⟨status, s, hrun, -⟩ :=
    readLineRun_ends (answers bytes readFails) (.start allocs h) (Nat.lt_succ_self _)
  have hreturns := readLineRun_returns hrun
  obtain rfl := hreturns.returned
  exact ⟨s, hrun, hreturns⟩

end Sysdiff
