import LinuxUtilities.Foundation.Checkpoints
import LinuxUtilities.Openunlink.LineBuffer
import LinuxUtilities.Openunlink.Scan

/-! A scan up to the first descriptor it inspects: what is retained, which failures are
possible, and that nothing is printed. -/
namespace Openunlink
open CString Checkpoints

/-- The entries that are skipped. -/
def ReaddirResult.isDot : ReaddirResult → Bool
  | .entry name => name = .lit "." || name = .lit ".."
  | .failed => false

/-- The descriptor that an entry names. -/
def ReaddirResult.number : ReaddirResult → Option ℕ
  | .entry name => parseFdName name
  | .failed => none

/-- The results of `readdir` that are looked at, one more than are retained. -/
def observed (sys : System) : List ReaddirResult :=
  (sys.entries.filter (! ·.isDot)).take (fdRetainCap + 1)

/-- The descriptors that are retained, in the order of the directory. -/
def retained (sys : System) : List ℕ :=
  ((observed sys).filterMap ReaddirResult.number).take fdRetainCap

/-- The retained descriptors in the order in which they are inspected. -/
def ascending (sys : System) : List ℕ := (retained sys).mergeSort (· ≤ ·)

/-- Whether there are more descriptors than can be retained. -/
def overLimit (sys : System) : Bool := decide (fdRetainCap < (observed sys).length)

/-- What can fail before the first descriptor is inspected, in the order of the run. -/
def setupFailures (sys : System) (pid : ℕ) : List (Option OpCode) :=
  [(sys.openDir (processPath pid)).map openFailure,
    if sys.dup then none else some .processScan,
    if sys.mallocFds then none else some .memory,
    if sys.mallocLink then none else some .memory,
    if sys.mallocLine then none else some .memory,
    if sys.fdopendir then none else some .processScan,
    if ∀ e ∈ observed sys, e.number.isSome then none else some .processScan,
    if sys.closedir then none else some .processScan,
    if (retained sys).Nodup then none else some .processScan]

/-- Nothing was printed yet. -/
structure Untouched (pid : ℕ) (p : Process) : Prop where
  pid : p.st.pid = pid
  stdout : p.stdout = .empty
  writes : p.writes = 0
  stderr : p.stderr = []
  hadFinding : p.st.hadFinding = false
  hadAdvisory : p.st.hadAdvisory = false

/-- Nothing failed yet either, and some descriptors are retained. -/
structure Ready (pid : ℕ) (fds : List ℕ) (limit : Bool) (p : Process) : Prop
    extends Untouched pid p where
  op : p.st.op = none
  retained : p.st.retained = fds
  limit : p.st.fdCountLimit = limit

/-- The line buffer can hold every line. -/
structure Allocated (p : Process) : Prop where
  lineCap : p.st.lineCap = findingLineCapacity
  lineBuf : ∃ buf, p.st.lineBuf = some buf ∧ buf.length = findingLineCapacity

/-- Two processes that have printed the same and agree on what was noted of it. -/
structure SameOutput (p p' : Process) : Prop where
  pid : p'.st.pid = p.st.pid
  stdout : p'.stdout = p.stdout
  writes : p'.writes = p.writes
  stderr : p'.stderr = p.stderr
  hadFinding : p'.st.hadFinding = p.st.hadFinding
  hadAdvisory : p'.st.hadAdvisory = p.st.hadAdvisory
  op : p'.st.op = p.st.op

abbrev opCode (p : Process) : Option OpCode := p.st.op

section Setup
variable {sys : System} {pid : ℕ} {fds : List ℕ} {limit : Bool} {p : Process} {code : OpCode}

theorem Ready.congr {fds' : List ℕ} {limit' : Bool} {p' : Process} (h : Ready pid fds limit p)
    (hs : SameOutput p p') (hfds : p'.st.retained = fds') (hlimit : p'.st.fdCountLimit = limit') :
    Ready pid fds' limit' p' :=
  ⟨⟨hs.pid.trans h.pid, hs.stdout.trans h.stdout, hs.writes.trans h.writes,
    hs.stderr.trans h.stderr, hs.hadFinding.trans h.hadFinding, hs.hadAdvisory.trans h.hadAdvisory⟩,
    hs.op.trans h.op, hfds, hlimit⟩

/-- A failure before anything is printed. -/
theorem Ready.failed (h : Ready pid fds limit p) (code : OpCode) :
    opCode (p.setOp code) = some code ∧ Untouched pid (p.setOp code) := by
  unfold Process.setOp
  rw [if_pos h.op]
  exact ⟨rfl, h.pid, h.stdout, h.writes, h.stderr, h.hadFinding, h.hadAdvisory⟩

theorem Ready.note (h : Ready pid fds limit p) (event : Fd → FdEvent) (fd : Option Fd) :
    Ready pid fds limit (p.note event fd) :=
  h.congr (by constructor <;> rfl) h.retained h.limit

theorem processPathCapacity_eq : processPathCapacity = 22 := by decide

/-- The path of every process fits. -/
theorem length_processPath_lt (hpid : pid ≤ intMax) :
    (processPath pid).length < processPathCapacity := by
  have hdigits := length_decimal_int hpid
  have htexts : (ascii "/proc/").length = 6 ∧ (ascii "/fd").length = 3 := by decide
  simp only [processPath, List.length_append, processPathCapacity_eq]
  omega

theorem openProcess_passes (hpid : pid ≤ intMax) (h : Ready pid fds limit p) :
    Passes opCode [(sys.openDir (processPath pid)).map openFailure] (Ready pid fds limit)
      (Untouched pid) (openProcess sys p) := by
  have hfits := length_processPath_lt hpid
  have hcap : ¬ (processPathCapacity = 0 ∨ pathBufSize < processPathCapacity) := by
    rw [processPathCapacity_eq]
    decide
  unfold openProcess
  rw [if_neg hcap, h.pid, if_neg (Nat.not_le.mpr hfits)]
  cases sys.openDir (processPath pid) with
  | none => exact ⟨_, rfl, h.congr (by constructor <;> rfl) h.retained h.limit⟩
  | some err =>
    obtain ⟨hop, huntouched⟩ := h.failed (openFailure err)
    exact Passes.error hop huntouched

theorem duplicate_passes (h : Ready pid fds limit p) :
    Passes opCode [if sys.dup then none else some .processScan] (Ready pid fds limit)
      (Untouched pid) (duplicate sys p) := by
  apply Passes.check
  · exact fun _ => (h.note _ _).failed _
  · exact fun _ => Passes.ok (h.congr (by constructor <;> rfl) h.retained h.limit)

theorem allocateScanBuffers_passes (h : Ready pid [] limit p) :
    Passes opCode
      [if sys.mallocFds then none else some .memory, if sys.mallocLink then none else some .memory,
        if sys.mallocLine then none else some .memory]
      (fun p' => Ready pid [] limit p' ∧ Allocated p') (Untouched pid)
      (allocateScanBuffers sys p) := by
  have hline : ¬ findingLineCapacity = 0 := by
    rw [findingLineCapacity_eq]
    decide
  have hfds : ¬ sizeMul fdRetainCap 4 = none := by decide
  unfold allocateScanBuffers
  rw [if_neg hfds, if_neg hline]
  have hready : ∀ p', SameOutput p p' → p'.st.retained = [] → p'.st.fdCountLimit = limit →
      opCode (p'.setOp .memory) = some .memory ∧ Untouched pid (p'.setOp .memory) :=
    fun p' hs hfds hlimit => (h.congr hs hfds hlimit).failed .memory
  apply Passes.check
  · exact fun _ => hready _ (by constructor <;> rfl) h.retained h.limit
  intro _
  apply Passes.check
  · exact fun _ => hready _ (by constructor <;> rfl) rfl h.limit
  intro _
  apply Passes.check
  · exact fun _ => hready _ (by constructor <;> rfl) rfl h.limit
  intro _
  apply Passes.ok
  exact ⟨h.congr (by constructor <;> rfl) rfl h.limit, rfl, _, rfl, by simp⟩

theorem openStream_passes (h : Ready pid fds limit p) (halloc : Allocated p) :
    Passes opCode [if sys.fdopendir then none else some .processScan]
      (fun p' => Ready pid fds limit p' ∧ Allocated p') (Untouched pid) (openStream sys p) := by
  apply Passes.check
  · exact fun _ => (h.note _ _).failed _
  · exact fun _ => Passes.ok
      ⟨h.congr (by constructor <;> rfl) h.retained h.limit, halloc.1, halloc.2⟩

theorem closeStream_passes (h : Ready pid fds limit p) (halloc : Allocated p) :
    Passes opCode [if sys.closedir then none else some .processScan]
      (fun p' => Ready pid fds limit p' ∧ Allocated p') (Untouched pid) (closeStream sys p) := by
  have hclosed : Ready pid fds limit { p.note .streamClosed p.st.dir with st.dir := none } :=
    h.congr (by constructor <;> rfl) h.retained h.limit
  apply Passes.check
  · exact fun _ => hclosed.failed _
  · exact fun _ => Passes.ok ⟨hclosed, halloc.1, halloc.2⟩

/-- What `enumerate_fds` still looks at when some descriptors are retained. -/
theorem enumerateFds_passes {entries : List ReaddirResult} (h : Ready pid fds false p)
    (halloc : Allocated p) (hroom : fds.length ≤ fdRetainCap) :
    let seen := (entries.filter (! ·.isDot)).take (fdRetainCap + 1 - fds.length)
    Passes opCode [if ∀ e ∈ seen, e.number.isSome then none else some .processScan]
      (fun p' => Ready pid ((fds ++ seen.filterMap ReaddirResult.number).take fdRetainCap)
        (decide (fdRetainCap < fds.length + seen.length)) p' ∧ Allocated p')
      (Untouched pid) (enumerateFds entries p) := by
  induction entries generalizing fds p with
  | nil =>
    intro seen
    have hseen : seen = [] := by simp [seen]
    simp only [hseen, List.not_mem_nil, false_imp_iff, implies_true, ↓reduceIte,
      List.filterMap_nil, List.append_nil, List.take_of_length_le hroom, List.length_nil,
      Nat.add_zero, Nat.not_lt.mpr hroom, decide_false]
    exact ⟨_, rfl, h.note _ _, halloc.1, halloc.2⟩
  | cons e entries ih =>
    intro seen
    have hnoted : Ready pid fds false (p.note .used p.st.dir) := h.note _ _
    have hcons : e.isDot = false →
        seen = e :: (entries.filter (! ·.isDot)).take (fdRetainCap - fds.length) := by
      intro hdot
      simp only [seen, List.filter_cons, hdot, Bool.not_false, ↓reduceIte,
        Nat.sub_add_comm hroom, List.take_succ_cons]
    have hbad : e.isDot = false → e.number = none →
        (if ∀ e ∈ seen, e.number.isSome then none else some OpCode.processScan) =
          some .processScan := by
      intro hdot hnone
      rw [if_neg]
      intro hall
      have hsome := hall e (hcons hdot ▸ List.mem_cons_self)
      simp [hnone] at hsome
    cases e with
    | failed =>
      rw [hbad rfl rfl]
      obtain ⟨hop, huntouched⟩ := hnoted.failed .processScan
      exact Passes.error hop huntouched
    | entry name =>
      unfold enumerateFds
      by_cases hdot : name = .lit "." ∨ name = .lit ".."
      · have hdot' : (ReaddirResult.entry name).isDot = true := by
          simpa [ReaddirResult.isDot] using hdot
        have hskip : seen = (entries.filter (! ·.isDot)).take (fdRetainCap + 1 - fds.length) := by
          simp [seen, hdot']
        simp only [hdot, ↓reduceIte, hskip]
        exact ih hnoted ⟨halloc.1, halloc.2⟩ hroom
      have hnot : (ReaddirResult.entry name).isDot = false := by
        simpa [ReaddirResult.isDot] using hdot
      simp only [hdot, ↓reduceIte]
      cases hnumber : parseFdName name with
      | none =>
        rw [hbad hnot hnumber]
        obtain ⟨hop, huntouched⟩ := hnoted.failed .processScan
        exact Passes.error hop huntouched
      | some fd =>
        have hfd : (ReaddirResult.entry name).number = some fd := hnumber
        rw [hcons hnot]
        simp only [List.forall_mem_cons, hfd, Option.isSome_some, true_and, List.filterMap_cons,
          List.length_cons,
          show (p.note .used p.st.dir).st.retained = fds from h.retained]
        by_cases hfull : fdRetainCap ≤ fds.length
        · have hlen : fds.length = fdRetainCap := le_antisymm hroom hfull
          have htail : (entries.filter (! ·.isDot)).take (fdRetainCap - fds.length) = [] := by
            simp [hlen]
          simp only [hfull, ↓reduceIte, htail, List.not_mem_nil, false_imp_iff, implies_true]
          refine ⟨_, rfl, hnoted.congr (by constructor <;> rfl) ?_ ?_, halloc.1, halloc.2⟩
          · rw [List.take_append_of_le_length hfull, ← hlen, List.take_length]
            exact h.retained
          · simp [hlen]
        · simp only [hfull, ↓reduceIte]
          have hready : Ready pid (fds ++ [fd]) false
              { p.note .used p.st.dir with st.fds := some (fds ++ [fd]) } :=
            hnoted.congr (by constructor <;> rfl) rfl h.limit
          have hroom' : (fds ++ [fd]).length ≤ fdRetainCap := by
            rw [List.length_append, List.length_singleton]
            omega
          have hnext := ih hready ⟨halloc.1, halloc.2⟩ hroom'
          simp only [List.length_append, List.length_singleton, Nat.add_sub_add_right,
            List.append_assoc, List.singleton_append] at hnext
          simpa only [Nat.add_assoc, Nat.add_comm 1] using hnext

theorem fdCmp_nonpos (a b : ℕ) : fdCmp a b ≤ 0 ↔ a ≤ b := by
  unfold fdCmp
  split
  · simp; omega
  split
  · simp; omega
  · simp; omega

/-- Sorted descriptors have equal neighbours exactly if two of them are equal. -/
theorem neighboursEqual_iff {l : List ℕ} (h : l.Pairwise (· ≤ ·)) :
    neighboursEqual l = true ↔ ¬ l.Nodup := by
  induction l with
  | nil => simp [neighboursEqual]
  | cons a l ih =>
    cases l with
    | nil => simp [neighboursEqual]
    | cons b l =>
      rw [neighboursEqual, Bool.or_eq_true, ih h.tail, decide_eq_true_eq,
        List.nodup_cons (a := a)]
      have hfirst : a ∈ b :: l ↔ a = b := by
        obtain ⟨hle, htail⟩ := List.pairwise_cons.mp h
        constructor
        · intro hmem
          obtain rfl | hmem := List.mem_cons.mp hmem
          · rfl
          · exact le_antisymm (hle b List.mem_cons_self) ((List.pairwise_cons.mp htail).1 a hmem)
        · rintro rfl
          exact List.mem_cons_self
      rw [hfirst]
      tauto

/-- Whatever `qsort` does, the retained descriptors end up in ascending order. -/
theorem sorted_eq (q : QSort fdCmp) (l : List ℕ) :
    (if 1 < l.length then q.sort l else l) = l.mergeSort (· ≤ ·) := by
  have hsorted : (if 1 < l.length then q.sort l else l).Pairwise (· ≤ ·) := by
    split
    · exact (q.sorted l).imp fun hab => (fdCmp_nonpos _ _).mp hab
    next hlen =>
      cases l with
      | nil => exact List.Pairwise.nil
      | cons a l =>
        obtain rfl : l = [] := by simpa using hlen
        exact List.pairwise_singleton _ a
  have hperm : (if 1 < l.length then q.sort l else l).Perm (l.mergeSort (· ≤ ·)) := by
    split
    · exact (q.perm l).trans (List.mergeSort_perm l _).symm
    · exact (List.mergeSort_perm l _).symm
  exact hperm.eq_of_pairwise' hsorted (List.pairwise_mergeSort' (· ≤ ·) l)

theorem sortAndCheckDuplicates_passes (q : QSort fdCmp) (h : Ready pid fds limit p)
    (halloc : Allocated p) :
    Passes opCode [if fds.Nodup then none else some .processScan]
      (fun p' => Ready pid (fds.mergeSort (· ≤ ·)) limit p' ∧ Allocated p') (Untouched pid)
      (sortAndCheckDuplicates q p) := by
  let sorted : Process :=
    if 1 < p.st.retained.length then { p with st.fds := some (q.sort p.st.retained) } else p
  have hready : Ready pid (fds.mergeSort (· ≤ ·)) limit sorted := by
    rw [← sorted_eq q, ← h.retained]
    simp only [sorted]
    split
    · exact h.congr (by constructor <;> rfl) rfl h.limit
    · exact h.congr (by constructor <;> rfl) rfl h.limit
  have halloc' : Allocated sorted := by
    simp only [sorted]
    split
    · exact ⟨halloc.1, halloc.2⟩
    · exact halloc
  have hdup : neighboursEqual sorted.st.retained = true ↔ ¬ fds.Nodup := by
    rw [hready.retained, neighboursEqual_iff (List.pairwise_mergeSort' (· ≤ ·) fds),
      List.nodup_mergeSort]
  show Passes opCode _ _ _
    (if neighboursEqual sorted.st.retained = true then failOp .processScan sorted else .ok sorted)
  simp only [hdup]
  apply Passes.check
  · exact fun _ => hready.failed _
  · exact fun _ => Passes.ok ⟨hready, halloc'⟩

/-- `run_scan` before the first descriptor is inspected. -/
def setUp (sys : System) (q : QSort fdCmp) : Step := fun p => do
  let p ← openProcess sys p
  let p ← duplicate sys p
  let p ← allocateScanBuffers sys p
  let p ← openStream sys p
  let p ← enumerateFds sys.entries p
  let p ← closeStream sys p
  sortAndCheckDuplicates q p

theorem Ready.init (pid : ℕ) : Ready pid [] false (.init pid) :=
  ⟨⟨rfl, rfl, rfl, rfl, rfl, rfl⟩, rfl, rfl, rfl⟩

/-- The set-up fails with the first of its failures, or has the retained descriptors in
order; nothing is printed either way. -/
theorem setUp_passes (q : QSort fdCmp) (hpid : pid ≤ intMax) :
    Passes opCode (setupFailures sys pid)
      (fun p => Ready pid (ascending sys) (overLimit sys) p ∧ Allocated p) (Untouched pid)
      (setUp sys q (.init pid)) := by
  apply (openProcess_passes hpid (Ready.init pid)).bind
  intro p hp
  apply (duplicate_passes hp).bind
  intro p hp
  apply (allocateScanBuffers_passes hp).bind
  intro p ⟨hp, halloc⟩
  apply (openStream_passes hp halloc).bind
  intro p ⟨hp, halloc⟩
  apply (enumerateFds_passes hp halloc (Nat.zero_le _)).bind
  intro p ⟨hp, halloc⟩
  simp only [List.length_nil, Nat.sub_zero, List.nil_append, Nat.zero_add] at hp
  apply (closeStream_passes hp halloc).bind
  intro p ⟨hp, halloc⟩
  exact sortAndCheckDuplicates_passes q hp halloc

/-- Every retained descriptor is an `int`. -/
theorem le_intMax_of_mem_ascending {fd : ℕ} (h : fd ∈ ascending sys) : fd ≤ intMax := by
  have hmem := List.mem_of_mem_take ((List.mergeSort_perm _ _).mem_iff.mp h)
  obtain ⟨e, -, he⟩ := List.mem_filterMap.mp hmem
  cases e with
  | entry name => exact parseCanonicalInt_le he
  | failed => contradiction

end Setup

end Openunlink
