import LinuxUtilities.Agentwatch.Supervise

/-! The start of the command: `supervise` after `fork` in the parent and in the child, with the
close-on-exec pipe between them, under every order of their steps. -/
namespace Agentwatch
open CString

/-- Where the child is: before `setpgid`; before `execvp`; in `child_report_errno`, with the
bytes that are left to write; in the command; or ended. -/
inductive ChildStage where
  | forked | grouped
  | reporting (remaining : List UInt8)
  | running | ended
  deriving DecidableEq

/-- Where the parent is: before it closes its write end; before `setpgid`; in the loop around
`read`, with whether `setpgid` went well; or past its last `close`. -/
inductive ParentStage where
  | forked | closed
  | reading (setpgid : Bool)
  | done (setpgid handshake : Bool)
  deriving DecidableEq

/-- The two processes and the pipe. The last fields tell what has happened: that the command
was started, that it moved to another group, that the child has ended otherwise than by
`_exit(127)`, that a `write` took only a part of the errno, and that a `read` failed. -/
structure Launch where
  child : ChildStage
  parent : ParentStage
  pipe : List UInt8
  ownGroup : Bool
  sameSession : Bool
  execed : Bool
  moved : Bool
  died : Bool
  split : Bool
  readFailed : Bool
  deriving DecidableEq

namespace Launch

/-- After `fork`. -/
def initial : Launch := ⟨.forked, .forked, [], false, true, false, false, false, false, false⟩

/-- An `int` in memory. -/
def intBytes (n : ℕ) : List UInt8 := (List.range 4).map fun i => (n / 256 ^ i).toUInt8

/-- How `write` ends in `child_report_errno`: with the number of bytes it took. -/
inductive WriteOutcome where
  | written (amount : ℕ)
  | interrupted | failed
  deriving DecidableEq

/-- How `setpgid(child, child)` ends. -/
inductive SetpgidOutcome where
  | ok | accessDenied | noProcess | notPermitted
  deriving DecidableEq

/-- How `read` ends. -/
inductive ReadOutcome where
  | returned | interrupted | failed
  deriving DecidableEq

/-- One step: a call of the child or of the parent with its outcome, the death of the child, or
a move of the command to another group or session. An errno is given where a call fails. -/
inductive Event where
  | childSetpgid (err : Option ℕ)
  | childExec (err : Option ℕ)
  | childWrite (outcome : WriteOutcome)
  | childExit
  | childDies
  | commandJoins
  | commandSetsid
  | parentClose
  | parentSetpgid (outcome : SetpgidOutcome)
  | parentRead (outcome : ReadOutcome)
  deriving DecidableEq

/-- Whether the child still holds the write end: the command does not, for it is closed on
`exec`. -/
def childWrites (s : Launch) : Bool :=
  match s.child with
  | .forked | .grouped | .reporting _ => true
  | .running | .ended => false

/-- Whether the parent still holds the write end. -/
def parentWrites (s : Launch) : Bool := s.parent = .forked

/-- Whether the read end is open. -/
def readable (s : Launch) : Bool :=
  match s.parent with
  | .done _ _ => false
  | _ => true

/-- The results that `setpgid(child, child)` can have: a child in another session is refused
first, then one that has called `exec`. -/
def setpgidAllows (s : Launch) : SetpgidOutcome → Bool
  | .ok => s.sameSession && !s.execed
  | .accessDenied => s.sameSession && s.execed
  | .notPermitted => !s.sameSession
  | .noProcess => s.child = .ended

/-- What the parent goes on with after `setpgid`: any other errno than `EACCES` and `ESRCH`
spares it the `read`. -/
def afterSetpgid : SetpgidOutcome → ParentStage
  | .notPermitted => .done false true
  | _ => .reading true

def step (s : Launch) : Event → Option Launch
  | .childSetpgid err =>
    if s.child = .forked then
      match err with
      | none => some { s with child := .grouped, ownGroup := true }
      | some err => some { s with child := .reporting (intBytes err) }
    else none
  | .childExec err =>
    if s.child = .grouped then
      match err with
      | none => some { s with child := .running, execed := true }
      | some err => some { s with child := .reporting (intBytes err) }
    else none
  | .childWrite outcome =>
    match s.child with
    | .reporting remaining =>
      if remaining = [] then none
      else
        match outcome with
        | .written amount =>
          if s.readable = true ∧ 0 < amount ∧ amount ≤ remaining.length then
            some { s with
              child := .reporting (remaining.drop amount)
              pipe := s.pipe ++ remaining.take amount
              split := s.split || decide (amount < remaining.length) }
          else none
        | .interrupted => some s
        -- nobody is left to read: the loop ends with its `break`
        | .failed => if s.readable then none else some { s with child := .reporting [] }
    | _ => none
  | .childExit => if s.child = .reporting [] then some { s with child := .ended } else none
  | .childDies =>
    if s.child = .ended then none else some { s with child := .ended, died := true }
  | .commandJoins =>
    if s.child = .running then some { s with ownGroup := false, moved := true } else none
  | .commandSetsid =>
    -- the leader of a group gets no new session
    if s.child = .running ∧ s.ownGroup = false then
      some { s with ownGroup := true, sameSession := false }
    else none
  | .parentClose => if s.parent = .forked then some { s with parent := .closed } else none
  | .parentSetpgid outcome =>
    if s.parent = .closed ∧ s.setpgidAllows outcome = true then
      some { s with
        parent := afterSetpgid outcome
        ownGroup := s.ownGroup || (outcome = .ok) }
    else none
  | .parentRead outcome =>
    match s.parent with
    | .reading setpgid =>
      match outcome with
      | .interrupted => some s
      | .failed => some { s with parent := .done setpgid false, readFailed := true }
      | .returned =>
        -- a read of nothing waits for as long as there is a writer
        if s.pipe = [] ∧ (s.childWrites || s.parentWrites) = true then none
        else
          let amount := min 4 s.pipe.length
          some { s with
            parent := .done setpgid (amount != 4)
            pipe := s.pipe.drop amount }
    | _ => none

/-- A run over a list of steps. -/
def exec : List Event → Launch → Option Launch
  | [], s => some s
  | e :: events, s => (s.step e).bind (exec events)

/-- What a `write` of the child does: it takes a part of what is left of the errno, is interrupted,
or finds that nobody is left to read. -/
theorem step_childWrite {s s' : Launch} {outcome : WriteOutcome}
    (hs : s.step (.childWrite outcome) = some s') :
    ∃ remaining, s.child = .reporting remaining ∧ remaining ≠ [] ∧
      ((∃ amount, outcome = .written amount ∧ s.readable = true ∧ 0 < amount ∧
          amount ≤ remaining.length ∧ s' = { s with
            child := .reporting (remaining.drop amount)
            pipe := s.pipe ++ remaining.take amount
            split := s.split || decide (amount < remaining.length) }) ∨
        (outcome = .interrupted ∧ s' = s) ∨
        (outcome = .failed ∧ s.readable = false ∧ s' = { s with child := .reporting [] })) := by
  simp only [step] at hs
  split at hs
  next remaining hchild =>
    split at hs
    · contradiction
    next hne =>
      refine ⟨remaining, hchild, hne, ?_⟩
      cases outcome with
      | written amount =>
        simp only [Option.ite_none_right_eq_some] at hs
        obtain ⟨⟨hopen, hpos, hle⟩, heq⟩ := hs
        exact .inl ⟨amount, rfl, hopen, hpos, hle, (Option.some.inj heq).symm⟩
      | interrupted => exact .inr (.inl ⟨rfl, (Option.some.inj hs).symm⟩)
      | failed =>
        simp only [Option.ite_none_left_eq_some, Bool.not_eq_true] at hs
        exact .inr (.inr ⟨rfl, hs.1, (Option.some.inj hs.2).symm⟩)
  · contradiction

/-- What a `read` of the parent does: it is interrupted, fails, or returns at once when there is
something to read or no writer is left. -/
theorem step_parentRead {s s' : Launch} {outcome : ReadOutcome}
    (hs : s.step (.parentRead outcome) = some s') :
    ∃ setpgid, s.parent = .reading setpgid ∧
      ((outcome = .interrupted ∧ s' = s) ∨
        (outcome = .failed ∧ s' = { s with parent := .done setpgid false, readFailed := true }) ∨
        (outcome = .returned ∧ ¬ (s.pipe = [] ∧ (s.childWrites || s.parentWrites) = true) ∧
          s' = { s with
            parent := .done setpgid (min 4 s.pipe.length != 4)
            pipe := s.pipe.drop (min 4 s.pipe.length) })) := by
  simp only [step] at hs
  split at hs
  next setpgid hparent =>
    refine ⟨setpgid, hparent, ?_⟩
    cases outcome with
    | interrupted => exact .inl ⟨rfl, (Option.some.inj hs).symm⟩
    | failed => exact .inr (.inl ⟨rfl, (Option.some.inj hs).symm⟩)
    | returned =>
      simp only [Option.ite_none_left_eq_some] at hs
      exact .inr (.inr ⟨rfl, hs.1, (Option.some.inj hs.2).symm⟩)
  · contradiction

/-- What holds in every state of a start. -/
structure Inv (s : Launch) : Prop where
  pipe : s.pipe.length ≤ 4
  whole : s.split = false → s.pipe = [] ∨ s.pipe.length = 4
  reported : s.pipe ≠ [] → s.execed = false ∧ ((∃ r, s.child = .reporting r) ∨ s.child = .ended)
  unread : s.readable = true → ∀ r, s.child = .reporting r → s.pipe.length + r.length = 4
  told : s.readable = true → s.child = .ended → s.died = false → s.pipe.length = 4
  running : s.child = .running → s.execed = true
  execed : s.execed = true → s.child = .running ∨ s.child = .ended ∧ s.died = true
  session : s.sameSession = false → s.execed = true ∧ s.moved = true
  remaining : ∀ r, s.child = .reporting r → r.length ≤ 4
  grouped : s.child = .grouped ∨ s.execed = true ∧ s.moved = false → s.ownGroup = true
  started : s.parent = .done true true → s.execed = true ∨ s.died = true ∨ s.split = true
  failed : ∀ setpgid, s.parent = .done setpgid false → s.readFailed = true ∨
    s.execed = false ∧ (s.child = .reporting [] ∨ s.child = .ended)
  refused : ∀ handshake, s.parent = .done false handshake → s.moved = true
  setpgid : ∀ ok, s.parent = .reading ok → ok = true

theorem initial_inv : initial.Inv := by
  constructor <;> simp [initial]

theorem readable_done {s : Launch} {setpgid handshake : Bool}
    (h : s.parent = .done setpgid handshake) : s.readable = false := by simp [readable, h]

theorem intBytes_length (n : ℕ) : (intBytes n).length = 4 := by simp [intBytes]

/-- A child that is in its own code has not been started. -/
theorem Inv.not_execed {s : Launch} (h : s.Inv) (hr : s.child ≠ .running) (he : s.child ≠ .ended) :
    s.execed = false := by
  by_contra hexec
  rcases h.execed (Bool.not_eq_false _ ▸ hexec) with hc | hc
  · exact hr hc
  · exact he hc.1

/-- A child that has nothing to report has put nothing into the pipe. -/
theorem Inv.pipe_nil {s : Launch} (h : s.Inv) (hr : ∀ r, s.child ≠ .reporting r)
    (he : s.child ≠ .ended) : s.pipe = [] := by
  by_contra hne
  rcases (h.reported hne).2 with ⟨r, hc⟩ | hc
  · exact hr r hc
  · exact he hc

/-- A child that has not reported everything has not let a read return it. -/
theorem Inv.not_reported {s : Launch} (h : s.Inv) (hr : s.child ≠ .reporting [])
    (he : s.child ≠ .ended) (setpgid : Bool) (hdone : s.parent = .done setpgid false) :
    s.readFailed = true :=
  (h.failed setpgid hdone).resolve_right fun hc => not_or.mpr ⟨hr, he⟩ hc.2

/-- The child fails, before or in `execvp`, and is about to report. -/
theorem Inv.fail {s : Launch} (h : s.Inv) (hchild : s.child = .forked ∨ s.child = .grouped)
    (err : ℕ) : Inv { s with child := .reporting (intBytes err) } := by
  have hother : s.child ≠ .running ∧ s.child ≠ .ended ∧ ∀ r, s.child ≠ .reporting r := by
    rcases hchild with hchild | hchild <;> simp [hchild]
  have hexec := h.not_execed hother.1 hother.2.1
  have hnil := h.pipe_nil hother.2.2 hother.2.1
  exact {
    pipe := h.pipe
    whole := h.whole
    reported := fun hpipe => absurd hnil hpipe
    unread := fun _ r hr => by
      cases hr
      rw [hnil, List.length_nil, intBytes_length]
    told := fun _ hc => nomatch hc
    running := fun hc => nomatch hc
    execed := fun he => absurd he (by simp [hexec])
    session := h.session
    remaining := fun r hr => by
      cases hr
      rw [intBytes_length]
    grouped := fun hc => hc.elim (fun hc => nomatch hc) fun hc => h.grouped (.inr hc)
    started := h.started
    failed := fun setpgid hdone => .inl (h.not_reported (hother.2.2 []) hother.2.1 setpgid hdone)
    refused := h.refused
    setpgid := h.setpgid }

/-- A part of the errno goes into the pipe. -/
theorem Inv.writes {s : Launch} (h : s.Inv) {remaining : List UInt8}
    (hchild : s.child = .reporting remaining) (hopen : s.readable = true) {amount : ℕ}
    (hpos : 0 < amount) (hle : amount ≤ remaining.length) :
    Inv { s with
      child := .reporting (remaining.drop amount)
      pipe := s.pipe ++ remaining.take amount
      split := s.split || decide (amount < remaining.length) } := by
  have hexec := h.not_execed (by simp [hchild]) (by simp [hchild])
  have hsum := h.unread hopen remaining hchild
  have hlength : (s.pipe ++ remaining.take amount).length = s.pipe.length + amount := by
    rw [List.length_append, List.length_take, min_eq_left hle]
  exact {
    pipe := by
      rw [hlength]
      omega
    whole := fun hsplit => by
      rw [Bool.or_eq_false_iff, decide_eq_false_iff_not, not_lt] at hsplit
      rw [hlength]
      rcases h.whole hsplit.1 with hnil | hlen
      · rw [hnil, List.length_nil] at hsum ⊢
        exact .inr (by omega)
      · exfalso
        omega
    reported := fun _ => ⟨hexec, .inl ⟨_, rfl⟩⟩
    unread := fun _ r hr => by
      cases hr
      rw [hlength, List.length_drop]
      omega
    told := fun _ hc => nomatch hc
    running := fun hc => nomatch hc
    execed := fun he => absurd he (by simp [hexec])
    session := h.session
    remaining := fun r hr => by
      cases hr
      rw [List.length_drop]
      omega
    grouped := fun hc => hc.elim (fun hc => nomatch hc) fun hc => h.grouped (.inr hc)
    started := fun hdone => absurd (hopen.symm.trans (readable_done hdone)) (by decide)
    failed := fun _ hdone => absurd (hopen.symm.trans (readable_done hdone)) (by decide)
    refused := h.refused
    setpgid := h.setpgid }

/-- What is left of the errno is lost, for nobody can read it. -/
theorem Inv.givesUp {s : Launch} (h : s.Inv) {remaining : List UInt8}
    (hchild : s.child = .reporting remaining) (hclosed : s.readable = false) :
    Inv { s with child := .reporting [] } := by
  have hexec := h.not_execed (by simp [hchild]) (by simp [hchild])
  exact {
    pipe := h.pipe
    whole := h.whole
    reported := fun _ => ⟨hexec, .inl ⟨[], rfl⟩⟩
    unread := fun hopen => absurd (hopen.symm.trans hclosed) (by decide)
    told := fun _ hc => nomatch hc
    running := fun hc => nomatch hc
    execed := fun he => absurd he (by simp [hexec])
    session := h.session
    remaining := fun r hr => by
      cases hr
      exact Nat.zero_le 4
    grouped := fun hc => hc.elim (fun hc => nomatch hc) fun hc => h.grouped (.inr hc)
    started := h.started
    failed := fun setpgid hdone => (h.failed setpgid hdone).imp_right fun hc => ⟨hc.1, .inl rfl⟩
    refused := h.refused
    setpgid := h.setpgid }

/-- The child is in its own group, or in the command. -/
theorem Inv.advance {s : Launch} (h : s.Inv) {child : ChildStage} {execed : Bool}
    (hchild : s.child = .forked ∧ child = .grouped ∧ execed = false ∨
      s.child = .grouped ∧ child = .running ∧ execed = true) :
    Inv { s with child := child, ownGroup := true, execed := execed } := by
  have hother : s.child ≠ .running ∧ s.child ≠ .ended ∧ ∀ r, s.child ≠ .reporting r := by
    rcases hchild with ⟨hchild, -⟩ | ⟨hchild, -⟩ <;> simp [hchild]
  have hexec := h.not_execed hother.1 hother.2.1
  have hnew : child ≠ .ended ∧ (∀ r, child ≠ .reporting r) ∧
      (child = .running ↔ execed = true) := by
    rcases hchild with ⟨-, rfl, rfl⟩ | ⟨-, rfl, rfl⟩ <;> simp
  exact {
    pipe := h.pipe
    whole := h.whole
    reported := fun hpipe => absurd (h.pipe_nil hother.2.2 hother.2.1) hpipe
    unread := fun _ r hr => absurd hr (hnew.2.1 r)
    told := fun _ hc => absurd hc hnew.1
    running := hnew.2.2.mp
    execed := fun he => .inl (hnew.2.2.mpr he)
    session := fun hs => absurd (h.session hs).1 (by simp [hexec])
    remaining := fun r hr => absurd hr (hnew.2.1 r)
    grouped := fun _ => rfl
    started := fun hdone => .inr ((h.started hdone).resolve_left (by simp [hexec]))
    failed := fun setpgid hdone => .inl (h.not_reported (hother.2.2 []) hother.2.1 setpgid hdone)
    refused := h.refused
    setpgid := h.setpgid }

theorem Inv.childSetpgid {s s' : Launch} {err : Option ℕ} (h : s.Inv)
    (hs : s.step (.childSetpgid err) = some s') : s'.Inv := by
  simp only [Launch.step, Option.ite_none_right_eq_some] at hs
  obtain ⟨hchild, heq⟩ := hs
  have hexec := h.not_execed (by simp [hchild]) (by simp [hchild])
  cases err with
  | none =>
    obtain rfl := Option.some.inj heq
    rw [hexec]
    exact h.advance (.inl ⟨hchild, rfl, rfl⟩)
  | some err =>
    obtain rfl := Option.some.inj heq
    exact h.fail (.inl hchild) err

theorem Inv.childExec {s s' : Launch} {err : Option ℕ} (h : s.Inv)
    (hs : s.step (.childExec err) = some s') : s'.Inv := by
  simp only [Launch.step, Option.ite_none_right_eq_some] at hs
  obtain ⟨hchild, heq⟩ := hs
  cases err with
  | none =>
    obtain rfl := Option.some.inj heq
    rw [h.grouped (.inl hchild)]
    exact h.advance (.inr ⟨hchild, rfl, rfl⟩)
  | some err =>
    obtain rfl := Option.some.inj heq
    exact h.fail (.inr hchild) err

theorem Inv.childWrite {s s' : Launch} {outcome : WriteOutcome} (h : s.Inv)
    (hs : s.step (.childWrite outcome) = some s') : s'.Inv := by
  obtain ⟨remaining, hchild, -, ⟨amount, -, hopen, hpos, hle, rfl⟩ | ⟨-, rfl⟩ |
    ⟨-, hclosed, rfl⟩⟩ := step_childWrite hs
  · exact h.writes hchild hopen hpos hle
  · exact h
  · exact h.givesUp hchild hclosed

/-- The child ends: it leaves after its report, or dies. -/
theorem Inv.ends {s : Launch} (h : s.Inv) {died : Bool}
    (hdied : died = true ∨ s.child = .reporting [] ∧ died = s.died) :
    Inv { s with child := .ended, died := died } := by
  have hmono : s.died = true → died = true := by
    rcases hdied with hdied | ⟨-, hdied⟩
    · exact fun _ => hdied
    · exact fun h => hdied.trans h
  have hexec : s.execed = true → died = true := by
    intro he
    rcases hdied with hdied | ⟨hchild, -⟩
    · exact hdied
    · exact absurd he (by simp [h.not_execed (by simp [hchild]) (by simp [hchild])])
  exact {
    pipe := h.pipe
    whole := h.whole
    reported := fun hpipe => ⟨(h.reported hpipe).1, .inr rfl⟩
    unread := fun _ r hr => nomatch hr
    told := fun hopen _ halive => by
      rcases hdied with hdied | ⟨hchild, -⟩
      · exact absurd (hdied.symm.trans halive) (by decide)
      · simpa using h.unread hopen [] hchild
    running := fun hc => nomatch hc
    execed := fun he => .inr ⟨rfl, hexec he⟩
    session := h.session
    remaining := fun r hr => nomatch hr
    grouped := fun hc => hc.elim (fun hc => nomatch hc) fun hc => h.grouped (.inr hc)
    started := fun hdone => (h.started hdone).imp_right (Or.imp_left hmono)
    failed := fun setpgid hdone => (h.failed setpgid hdone).imp_right fun hc => ⟨hc.1, .inr rfl⟩
    refused := h.refused
    setpgid := h.setpgid }

/-- The command moves to another group or, when it leads none, to another session. -/
theorem Inv.moves {s : Launch} (h : s.Inv) (hchild : s.child = .running) {group session : Bool} :
    Inv { s with ownGroup := group, sameSession := session, moved := true } := {
  pipe := h.pipe
  whole := h.whole
  reported := h.reported
  unread := h.unread
  told := h.told
  running := h.running
  execed := h.execed
  session := fun _ => ⟨h.running hchild, rfl⟩
  remaining := h.remaining
  grouped := fun hc => hc.elim (fun hc => absurd (hchild.symm.trans hc) (by simp)) fun hc =>
    absurd hc.2 (by simp)
  started := h.started
  failed := h.failed
  refused := fun _ _ => rfl
  setpgid := h.setpgid }

/-- A command in no group of its own has moved. -/
theorem Inv.moved_of {s : Launch} (h : s.Inv) (hchild : s.child = .running)
    (hgroup : s.ownGroup = false) : s.moved = true := by
  by_contra hmoved
  have hown := h.grouped (.inr ⟨h.running hchild, Bool.not_eq_true _ ▸ hmoved⟩)
  exact absurd (hown.symm.trans hgroup) (by decide)

/-- The parent goes on to its `read`, or leaves it out. -/
theorem Inv.parentMoves {s : Launch} (h : s.Inv) (hopen : s.readable = true)
    {parent : ParentStage} {group : Bool} (hgroup : s.ownGroup = true → group = true)
    (hparent : parent = .closed ∨ parent = .reading true ∨
      parent = .done false true ∧ s.sameSession = false) :
    Inv { s with parent := parent, ownGroup := group } := {
  pipe := h.pipe
  whole := h.whole
  reported := h.reported
  unread := fun _ => h.unread hopen
  told := fun _ => h.told hopen
  running := h.running
  execed := h.execed
  session := h.session
  remaining := h.remaining
  grouped := fun hc => hgroup (h.grouped hc)
  started := fun hdone => by rcases hparent with rfl | rfl | ⟨rfl, -⟩ <;> cases hdone
  failed := fun setpgid hdone => by
    rcases hparent with rfl | rfl | ⟨rfl, -⟩
    · contradiction
    · contradiction
    · cases hdone
  refused := fun handshake hdone => by
    rcases hparent with rfl | rfl | ⟨-, hsession⟩
    · contradiction
    · contradiction
    · exact (h.session hsession).2
  setpgid := fun ok hread => by
    rcases hparent with rfl | rfl | ⟨rfl, -⟩
    · contradiction
    · cases hread
      rfl
    · contradiction }

/-- A read returns what there is of the errno or, when no writer is left, nothing. -/
theorem Inv.readReturns {s : Launch} (h : s.Inv) {setpgid : Bool}
    (hparent : s.parent = .reading setpgid)
    (hready : ¬ (s.pipe = [] ∧ (s.childWrites || s.parentWrites) = true)) :
    Inv { s with
      parent := .done setpgid (min 4 s.pipe.length != 4)
      pipe := s.pipe.drop (min 4 s.pipe.length) } := by
  have hset := h.setpgid setpgid hparent
  have hdrop : s.pipe.drop (min 4 s.pipe.length) = [] := by
    rw [min_eq_right h.pipe, List.drop_length]
  have hopen : s.readable = true := by simp [readable, hparent]
  exact {
    pipe := by
      rw [hdrop]
      exact Nat.zero_le 4
    whole := fun _ => .inl hdrop
    reported := fun hpipe => absurd hdrop hpipe
    unread := fun hreadable => absurd hreadable (by simp [readable])
    told := fun hreadable => absurd hreadable (by simp [readable])
    running := h.running
    execed := h.execed
    session := h.session
    remaining := h.remaining
    grouped := h.grouped
    started := fun hdone => by
      have hamount : (min 4 s.pipe.length != 4) = true := by
        injection hdone
      by_contra hnone
      obtain ⟨hexec, halive, hsplit⟩ : s.execed = false ∧ s.died = false ∧ s.split = false := by
        simpa only [not_or, Bool.not_eq_true] using hnone
      -- nothing was read, and the child does not write any more
      have hnil : s.pipe = [] :=
        (h.whole hsplit).resolve_right fun hlen => by simp [hlen] at hamount
      have hwriters : s.childWrites = false := by
        by_contra hw
        exact hready ⟨hnil, by simp [Bool.not_eq_false _ ▸ hw]⟩
      cases hchild : s.child with
      | forked => simp [childWrites, hchild] at hwriters
      | grouped => simp [childWrites, hchild] at hwriters
      | reporting remaining => simp [childWrites, hchild] at hwriters
      | running => exact absurd ((h.running hchild).symm.trans hexec) (by decide)
      | ended =>
        have hlen := h.told hopen hchild halive
        rw [hnil] at hlen
        contradiction
    failed := fun setpgid' hdone => by
      have hamount : (min 4 s.pipe.length != 4) = false := by
        injection hdone
      have hlen : s.pipe.length = 4 := by
        rw [bne_eq_false_iff_eq, min_eq_right h.pipe] at hamount
        exact hamount
      have hne : s.pipe ≠ [] := by
        intro hnil
        simp [hnil] at hlen
      obtain ⟨hexec, ⟨rest, hchild⟩ | hchild⟩ := h.reported hne
      · -- all four bytes are in the pipe
        have hsum := h.unread hopen rest hchild
        have hrest : rest = [] := List.length_eq_zero_iff.mp (by omega)
        exact .inr ⟨hexec, .inl (by rw [hchild, hrest])⟩
      · exact .inr ⟨hexec, .inr hchild⟩
    refused := fun handshake hdone => by
      rw [hset] at hdone
      cases hdone
    setpgid := fun ok hread => nomatch hread }

theorem Inv.readFails {s : Launch} (h : s.Inv) {setpgid : Bool}
    (hparent : s.parent = .reading setpgid) :
    Inv { s with parent := .done setpgid false, readFailed := true } := {
  pipe := h.pipe
  whole := h.whole
  reported := h.reported
  unread := fun hopen => absurd hopen (by simp [readable])
  told := fun hopen => absurd hopen (by simp [readable])
  running := h.running
  execed := h.execed
  session := h.session
  remaining := h.remaining
  grouped := h.grouped
  started := fun hdone => nomatch hdone
  failed := fun _ _ => .inl rfl
  refused := fun handshake hdone => by
    rw [h.setpgid setpgid hparent] at hdone
    cases hdone
  setpgid := fun ok hread => nomatch hread }

theorem Inv.parentSteps {s s' : Launch} {e : Event} (h : s.Inv)
    (he : e = .parentClose ∨ ∃ outcome, e = .parentSetpgid outcome) (hs : s.step e = some s') :
    s'.Inv := by
  rcases he with rfl | ⟨outcome, rfl⟩
  · simp only [Launch.step, Option.ite_none_right_eq_some] at hs
    obtain ⟨hparent, heq⟩ := hs
    obtain rfl := Option.some.inj heq
    exact h.parentMoves (by simp [readable, hparent]) id (.inl rfl)
  · simp only [Launch.step, Option.ite_none_right_eq_some] at hs
    obtain ⟨⟨hparent, hallowed⟩, heq⟩ := hs
    obtain rfl := Option.some.inj heq
    refine h.parentMoves (by simp [readable, hparent]) (by simp +contextual) ?_
    cases outcome with
    | ok => exact .inr (.inl rfl)
    | accessDenied => exact .inr (.inl rfl)
    | noProcess => exact .inr (.inl rfl)
    | notPermitted => exact .inr (.inr ⟨rfl, by simpa [setpgidAllows] using hallowed⟩)

theorem Inv.parentRead {s s' : Launch} {outcome : ReadOutcome} (h : s.Inv)
    (hs : s.step (.parentRead outcome) = some s') : s'.Inv := by
  obtain ⟨setpgid, hparent, ⟨-, rfl⟩ | ⟨-, rfl⟩ | ⟨-, hready, rfl⟩⟩ := step_parentRead hs
  · exact h
  · exact h.readFails hparent
  · exact h.readReturns hparent hready

theorem Inv.step {s s' : Launch} {e : Event} (h : s.Inv) (hs : s.step e = some s') : s'.Inv := by
  cases e with
  | childSetpgid err => exact h.childSetpgid hs
  | childExec err => exact h.childExec hs
  | childWrite outcome => exact h.childWrite hs
  | childExit =>
    simp only [Launch.step, Option.ite_none_right_eq_some] at hs
    obtain rfl := Option.some.inj hs.2
    exact h.ends (.inr ⟨hs.1, rfl⟩)
  | childDies =>
    simp only [Launch.step, Option.ite_none_left_eq_some] at hs
    obtain rfl := Option.some.inj hs.2
    exact h.ends (.inl rfl)
  | commandJoins =>
    simp only [Launch.step, Option.ite_none_right_eq_some] at hs
    obtain rfl := Option.some.inj hs.2
    exact h.moves hs.1
  | commandSetsid =>
    simp only [Launch.step, Option.ite_none_right_eq_some] at hs
    obtain rfl := Option.some.inj hs.2
    rw [h.moved_of hs.1.1 hs.1.2]
    exact h.moves hs.1.1
  | parentClose => exact h.parentSteps (.inl rfl) hs
  | parentSetpgid outcome => exact h.parentSteps (.inr ⟨outcome, rfl⟩) hs
  | parentRead outcome => exact h.parentRead hs

theorem Inv.exec {s s' : Launch} {events : List Event} (h : s.Inv)
    (hs : exec events s = some s') : s'.Inv := by
  induction events generalizing s with
  | nil =>
    obtain rfl := Option.some.inj hs
    exact h
  | cons e events ih =>
    obtain ⟨s₁, hstep, hrest⟩ := Option.bind_eq_some_iff.mp hs
    exact ih (h.step hstep) hrest

/-- How many calls of `write` a report of so many bytes can still take: one for each byte, or
only one when the calls take all that they are given. -/
def writesLeft (whole : Bool) (length : ℕ) : ℕ := if whole then min 1 length else length

theorem writesLeft_lt {whole : Bool} {m n : ℕ} (h : m < n) (hwhole : whole = true → m = 0) :
    writesLeft whole m < writesLeft whole n := by
  cases whole with
  | false => exact h
  | true =>
    rw [hwhole rfl] at h ⊢
    simpa [writesLeft] using h

/-- What the child has left to do. -/
def childRank (whole : Bool) : ChildStage → ℕ
  | .forked => 3 + writesLeft whole 4
  | .grouped => 2 + writesLeft whole 4
  | .reporting remaining => 1 + writesLeft whole remaining.length
  | .running | .ended => 0

def parentRank : ParentStage → ℕ
  | .forked => 3
  | .closed => 2
  | .reading _ => 1
  | .done _ _ => 0

def rank (whole : Bool) (s : Launch) : ℕ := childRank whole s.child + parentRank s.parent

/-- The steps that only the two processes' own code takes, and that go well or fail for good. -/
def Event.own : Event → Bool
  | .childSetpgid _ | .childExec _ | .childExit | .parentClose | .parentSetpgid _ => true
  | .childWrite outcome => outcome != .interrupted
  | .parentRead outcome => outcome = .returned
  | .childDies | .commandJoins | .commandSetsid => false

/-- As long as the parent is not done, one of the two can go on, and comes closer to the end:
the handshake does not deadlock. -/
theorem progress (s : Launch) (h : ∀ setpgid handshake, s.parent ≠ .done setpgid handshake) :
    ∃ e s', e.own = true ∧ s.step e = some s' := by
  cases hparent : s.parent with
  | forked => exact ⟨.parentClose, { s with parent := .closed }, rfl, if_pos hparent⟩
  | closed =>
    obtain ⟨outcome, hallowed⟩ : ∃ outcome, s.setpgidAllows outcome = true := by
      cases hsession : s.sameSession
      · exact ⟨.notPermitted, by simp [setpgidAllows, hsession]⟩
      · cases hexec : s.execed
        · exact ⟨.ok, by simp [setpgidAllows, hsession, hexec]⟩
        · exact ⟨.accessDenied, by simp [setpgidAllows, hsession, hexec]⟩
    exact ⟨.parentSetpgid outcome, _, rfl, if_pos ⟨hparent, hallowed⟩⟩
  | reading setpgid =>
    by_cases hwait : s.pipe = [] ∧ s.childWrites = true
    · -- nothing to read yet: the child goes on
      have hreadable : s.readable = true := by simp [readable, hparent]
      cases hchild : s.child with
      | forked =>
        exact ⟨.childSetpgid none, { s with child := .grouped, ownGroup := true }, rfl,
          if_pos hchild⟩
      | grouped =>
        exact ⟨.childExec none, { s with child := .running, execed := true }, rfl, if_pos hchild⟩
      | reporting remaining =>
        by_cases hnil : remaining = []
        · exact ⟨.childExit, { s with child := .ended }, rfl, if_pos (by rw [hchild, hnil])⟩
        · have hpos : 0 < remaining.length := List.length_pos_iff.mpr hnil
          refine ⟨.childWrite (.written remaining.length), { s with
            child := .reporting (remaining.drop remaining.length)
            pipe := s.pipe ++ remaining.take remaining.length
            split := s.split || decide (remaining.length < remaining.length) }, rfl, ?_⟩
          simp only [step, hchild, hnil, ↓reduceIte]
          exact if_pos ⟨hreadable, hpos, le_rfl⟩
      | running => simp [childWrites, hchild] at hwait
      | ended => simp [childWrites, hchild] at hwait
    · refine ⟨.parentRead .returned, { s with
        parent := .done setpgid (min 4 s.pipe.length != 4)
        pipe := s.pipe.drop (min 4 s.pipe.length) }, rfl, ?_⟩
      simp only [step, hparent, parentWrites]
      exact if_neg (by simpa using hwait)
  | done setpgid handshake => exact absurd hparent (h setpgid handshake)

/-- Each step of theirs brings the two closer to the end, and no other step takes them back. -/
theorem rank_step {s s' : Launch} {e : Event} {whole : Bool} (hs : s.step e = some s')
    (hwhole : whole = true → s'.split = false) :
    s'.rank whole + (if e.own then 1 else 0) ≤ s.rank whole := by
  cases e with
  | childSetpgid err =>
    simp only [step, Option.ite_none_right_eq_some] at hs
    obtain ⟨hchild, heq⟩ := hs
    cases err <;> obtain rfl := Option.some.inj heq <;>
      simp +arith [rank, hchild, Event.own, childRank, intBytes_length]
  | childExec err =>
    simp only [step, Option.ite_none_right_eq_some] at hs
    obtain ⟨hchild, heq⟩ := hs
    cases err <;> obtain rfl := Option.some.inj heq <;>
      simp +arith [rank, hchild, Event.own, childRank, intBytes_length]
  | childWrite outcome =>
    obtain ⟨remaining, hchild, hne, ⟨amount, rfl, -, hpos, hle, rfl⟩ | ⟨rfl, rfl⟩ |
      ⟨rfl, -, rfl⟩⟩ := step_childWrite hs
    · have hlt : writesLeft whole (remaining.length - amount) <
          writesLeft whole remaining.length := by
        apply writesLeft_lt (by omega)
        intro hw
        have hsplit := hwhole hw
        simp only [Bool.or_eq_false_iff, decide_eq_false_iff_not] at hsplit
        omega
      have hown : (Event.childWrite (.written amount)).own = true := rfl
      simp only [rank, hchild, childRank, List.length_drop, hown, ↓reduceIte]
      omega
    · simp [Event.own]
    · have hlt : writesLeft whole 0 < writesLeft whole remaining.length :=
        writesLeft_lt (List.length_pos_iff.mpr hne) fun _ => rfl
      have hown : (Event.childWrite .failed).own = true := rfl
      simp only [rank, hchild, childRank, List.length_nil, hown, ↓reduceIte]
      omega
  | childExit =>
    simp only [step, Option.ite_none_right_eq_some] at hs
    obtain rfl := Option.some.inj hs.2
    simp [rank, hs.1, childRank, Event.own]
  | childDies =>
    simp only [step, Option.ite_none_left_eq_some] at hs
    obtain rfl := Option.some.inj hs.2
    simp [rank, childRank, Event.own]
  | commandJoins =>
    simp only [step, Option.ite_none_right_eq_some] at hs
    obtain rfl := Option.some.inj hs.2
    simp [rank, Event.own]
  | commandSetsid =>
    simp only [step, Option.ite_none_right_eq_some] at hs
    obtain rfl := Option.some.inj hs.2
    simp [rank, Event.own]
  | parentClose =>
    simp only [step, Option.ite_none_right_eq_some] at hs
    obtain rfl := Option.some.inj hs.2
    simp [rank, hs.1, parentRank, Event.own]
  | parentSetpgid outcome =>
    simp only [step, Option.ite_none_right_eq_some] at hs
    obtain rfl := Option.some.inj hs.2
    cases outcome <;> simp [rank, hs.1.1, parentRank, afterSetpgid, Event.own]
  | parentRead outcome =>
    obtain ⟨setpgid, hparent, ⟨rfl, rfl⟩ | ⟨rfl, rfl⟩ | ⟨rfl, -, rfl⟩⟩ := step_parentRead hs
    · simp [Event.own]
    · simp [rank, hparent, parentRank, Event.own]
    · simp [rank, hparent, parentRank, Event.own]

/-- What has been written in pieces stays so. -/
theorem split_step {s s' : Launch} {e : Event} (hs : s.step e = some s') (h : s'.split = false) :
    s.split = false := by
  cases e with
  | childSetpgid err =>
    simp only [step, Option.ite_none_right_eq_some] at hs
    cases err <;> obtain rfl := Option.some.inj hs.2 <;> exact h
  | childExec err =>
    simp only [step, Option.ite_none_right_eq_some] at hs
    cases err <;> obtain rfl := Option.some.inj hs.2 <;> exact h
  | childWrite outcome =>
    obtain ⟨remaining, -, -, ⟨amount, -, -, -, -, rfl⟩ | ⟨-, rfl⟩ | ⟨-, -, rfl⟩⟩ :=
      step_childWrite hs
    · exact (Bool.or_eq_false_iff.mp h).1
    · exact h
    · exact h
  | parentRead outcome =>
    obtain ⟨setpgid, -, ⟨-, rfl⟩ | ⟨-, rfl⟩ | ⟨-, -, rfl⟩⟩ := step_parentRead hs <;> exact h
  | _ =>
    simp only [step, Option.ite_none_right_eq_some, Option.ite_none_left_eq_some] at hs
    obtain rfl := Option.some.inj hs.2
    exact h

theorem split_exec {events : List Event} {s s' : Launch} (hs : exec events s = some s')
    (h : s'.split = false) : s.split = false := by
  induction events generalizing s with
  | nil =>
    obtain rfl := Option.some.inj hs
    exact h
  | cons e events ih =>
    obtain ⟨s₁, hstep, hrest⟩ := Option.bind_eq_some_iff.mp hs
    exact split_step hstep (ih hrest)

theorem rank_exec {events : List Event} {s s' : Launch} {whole : Bool}
    (hs : exec events s = some s') (hwhole : whole = true → s'.split = false) :
    s'.rank whole + (events.countP Event.own) ≤ s.rank whole := by
  induction events generalizing s with
  | nil =>
    obtain rfl := Option.some.inj hs
    simp
  | cons e events ih =>
    obtain ⟨s₁, hstep, hrest⟩ := Option.bind_eq_some_iff.mp hs
    have hfirst := rank_step hstep fun hw => split_exec hrest (hwhole hw)
    have hlater := ih hrest
    rw [List.countP_cons]
    omega

/-- The child has failed, and only has to end. -/
def Failed (s : Launch) : Prop := s.execed = false ∧ (s.child = .reporting [] ∨ s.child = .ended)

theorem Failed.step {s s' : Launch} {e : Event} (h : s.Failed) (hs : s.step e = some s') :
    s'.Failed := by
  obtain ⟨hexec, hchild⟩ := h
  have hnot : s.child ≠ .forked ∧ s.child ≠ .grouped ∧ s.child ≠ .running := by
    rcases hchild with hchild | hchild <;> simp [hchild]
  cases e with
  | childSetpgid err => simp [Launch.step, hnot.1] at hs
  | childExec err => simp [Launch.step, hnot.2.1] at hs
  | childWrite outcome => rcases hchild with hchild | hchild <;> simp [Launch.step, hchild] at hs
  | childExit =>
    simp only [Launch.step, Option.ite_none_right_eq_some] at hs
    obtain rfl := Option.some.inj hs.2
    exact ⟨hexec, .inr rfl⟩
  | childDies =>
    simp only [Launch.step, Option.ite_none_left_eq_some] at hs
    obtain rfl := Option.some.inj hs.2
    exact ⟨hexec, .inr rfl⟩
  | commandJoins => simp [Launch.step, hnot.2.2] at hs
  | commandSetsid => simp [Launch.step, hnot.2.2] at hs
  | parentClose =>
    simp only [Launch.step, Option.ite_none_right_eq_some] at hs
    obtain rfl := Option.some.inj hs.2
    exact ⟨hexec, hchild⟩
  | parentSetpgid outcome =>
    simp only [Launch.step, Option.ite_none_right_eq_some] at hs
    obtain rfl := Option.some.inj hs.2
    exact ⟨hexec, hchild⟩
  | parentRead outcome =>
    obtain ⟨setpgid, -, ⟨-, rfl⟩ | ⟨-, rfl⟩ | ⟨-, -, rfl⟩⟩ := step_parentRead hs <;>
      exact ⟨hexec, hchild⟩

theorem Failed.exec {events : List Event} {s s' : Launch} (h : s.Failed)
    (hs : exec events s = some s') : s'.Failed := by
  induction events generalizing s with
  | nil =>
    obtain rfl := Option.some.inj hs
    exact h
  | cons e events ih =>
    obtain ⟨s₁, hstep, hrest⟩ := Option.bind_eq_some_iff.mp hs
    exact ih (h.step hstep) hrest

end Launch

/-- The environment of `supervise` that a finished start makes. -/
def Startup.after (env : Startup) (setpgid handshake : Bool) : Startup :=
  { env with setpgid := setpgid, handshake := handshake }

/-- The start of the command under every order of the steps of parent, child and command, with
the errno written in any pieces. The handshake never blocks for good: until the parent is done
one of the two can take a step of its own, and they take at most ten, or seven when the errno is
written at once. When it is done, a start that is not reported as failed has run the command,
unless the child was killed before it could tell or the errno came in pieces; and a start is
reported as failed only when the command has not run and will not, unless reading failed or the
command had already left the group that it was started in. -/
theorem launch_exact (events : List Launch.Event) (s : Launch)
    (hs : Launch.exec events .initial = some s) :
    events.countP Launch.Event.own ≤ 10 ∧
    (s.split = false → events.countP Launch.Event.own ≤ 7) ∧
    ((∀ setpgid handshake, s.parent ≠ .done setpgid handshake) →
      ∃ e s', e.own = true ∧ s.step e = some s') ∧
    (s.execed = true → s.moved = false → s.ownGroup = true) ∧
    ∀ setpgid handshake, s.parent = .done setpgid handshake → ∀ env : Startup,
      (startFailed (env.after setpgid handshake) = false →
        s.execed = true ∨ s.died = true ∨ s.split = true) ∧
      (startFailed (env.after setpgid handshake) = true → s.readFailed = false →
        s.moved = false → s.execed = false ∧
          ∀ events' s', Launch.exec events' s = some s' → s'.execed = false) := by
  have hinv := Launch.initial_inv.exec hs
  refine ⟨?_, ?_, s.progress, fun hexec hmoved => hinv.grouped (.inr ⟨hexec, hmoved⟩), ?_⟩
  · have hrank := @Launch.rank_exec _ _ _ false hs nofun
    have hinitial : Launch.initial.rank false = 10 := rfl
    omega
  · intro hsplit
    have hrank := @Launch.rank_exec _ _ _ true hs fun _ => hsplit
    have hinitial : Launch.initial.rank true = 7 := rfl
    omega
  · intro setpgid handshake hdone env
    constructor
    · intro hok
      cases setpgid <;> cases handshake <;> simp [startFailed, Startup.after] at hok
      exact hinv.started hdone
    · intro hfailed hread hmoved
      have hset : setpgid = true := by
        cases setpgid with
        | true => rfl
        | false => rw [hinv.refused handshake hdone] at hmoved; contradiction
      have hhand : handshake = false := by simpa [startFailed, Startup.after, hset] using hfailed
      rw [hhand] at hdone
      have hchild : s.Failed := (hinv.failed setpgid hdone).resolve_left (by simp [hread])
      exact ⟨hchild.1, fun events' s' hs' => (hchild.exec hs').1⟩

/-- The parent reads before the child tells it, in two pieces, that there is no such command. -/
def lateReport : List Launch.Event :=
  [.parentClose, .parentSetpgid .ok, .childSetpgid none, .parentRead .interrupted,
    .childExec (some 2), .childWrite (.written 1), .childWrite .interrupted,
    .childWrite (.written 3), .parentRead .returned, .childExit]

theorem launch_exact_missing : ∃ s, Launch.exec lateReport .initial = some s ∧
    s.parent = .done true false ∧ s.execed = false := by
  obtain ⟨s, hs, hdone, hread, hmoved⟩ : ∃ s, Launch.exec lateReport .initial = some s ∧
      s.parent = .done true false ∧ s.readFailed = false ∧ s.moved = false :=
    ⟨_, rfl, rfl, rfl, rfl⟩
  have hexact := (launch_exact lateReport s hs).2.2.2.2 true false hdone
    ⟨true, true, true, none, none, true, true, []⟩
  exact ⟨s, hs, hdone, (hexact.2 rfl hread hmoved).1⟩

/-- The exception for an errno in pieces: a parent that reads the first of them sees no failure. -/
example : ∃ s, Launch.exec [.parentClose, .parentSetpgid .ok, .childSetpgid none,
      .childExec (some 2), .childWrite (.written 1), .parentRead .returned] .initial = some s ∧
    s.parent = .done true true ∧ s.execed = false ∧ s.died = false :=
  ⟨_, rfl, rfl, rfl, rfl⟩

end Agentwatch
