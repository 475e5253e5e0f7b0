import LinuxUtilities.Agentwatch.Passes

/-! `wake_handler`, which may interrupt the loop of `supervise` and itself at every point, and
the pipe that it writes to: no interrupt and no ended child is slept over. -/
namespace Agentwatch

/-- The signals that `wake_handler` is installed for. -/
inductive Caught where
  | sigchld
  | interrupt (signum : Interrupt)
  deriving DecidableEq, Repr

def Caught.interrupts : Caught → List Interrupt
  | .sigchld => []
  | .interrupt signum => [signum]

/-- Where a call of `wake_handler` is: before it looks at `first_interrupt`; between that and
the assignment; or before its `write`. -/
inductive HandlerStage where
  | entered
  | recording (signum : Interrupt)
  | writing
  deriving DecidableEq, Repr

structure Handler where
  signum : Caught
  stage : HandlerStage
  deriving DecidableEq, Repr

/-- Where the loop of `supervise` is: in its `waitpid` loop; behind it; behind the checks; in
`poll`; in the loop that reads the pipe; in `nanosleep`; or past its end. -/
inductive LoopStage where
  | reaping | reaped | checked | polling | draining | sleeping | left
  deriving DecidableEq, Repr

/-- The `waitpid` loop is behind, and the next is not begun. -/
def LoopStage.collected : LoopStage → Bool
  | .reaped | .checked | .polling | .sleeping => true
  | _ => false

/-- The checks are behind, and the next pass is not begun. -/
def LoopStage.looked : LoopStage → Bool
  | .checked | .polling | .sleeping => true
  | _ => false

/-- The loop, the calls of the handler, the innermost first, and the bytes in the pipe. A signal
that is pending is so once. The last field tells the interrupts in the order of their calls. -/
structure Wakeup where
  stage : LoopStage
  terminating : Bool
  internal : Bool
  unreaped : ℕ
  pipe : ℕ
  firstInterrupt : Option Interrupt
  pending : List Caught
  handlers : List Handler
  delivered : List Interrupt
  deriving DecidableEq, Repr

namespace Wakeup

def initial : Wakeup := ⟨.reaping, false, false, 0, 0, none, [], [], []⟩

inductive PollOutcome where
  | ready | nothing | failed
  deriving DecidableEq, Repr

/-- One step: a signal is sent, by another process or by the end of a child; a call of the
handler begins; the innermost call goes on; or the loop does. -/
inductive Event where
  | arrives (signum : Interrupt)
  | childEnds
  | enter (signum : Caught)
  | handle
  | reap | noneReady | noChildren | waitFails
  | check (failed due : Bool)
  | giveUp
  | pause (directDone : Bool)
  | pollReturns (outcome : PollOutcome)
  | drain
  | wakes
  deriving DecidableEq, Repr

/-- What a call of the handler does next. -/
def handle (capacity : ℕ) (s : Wakeup) (h : Handler) (outer : List Handler) : Wakeup :=
  match h.stage with
  | .entered =>
    match h.signum, s.firstInterrupt with
    | .interrupt signum, none => { s with handlers := ⟨h.signum, .recording signum⟩ :: outer }
    | _, _ => { s with handlers := ⟨h.signum, .writing⟩ :: outer }
  | .recording signum =>
    { s with firstInterrupt := some signum, handlers := ⟨h.signum, .writing⟩ :: outer }
  | .writing =>
    -- a full pipe takes no byte and blocks nobody, and past the loop the pipe is closed
    { s with
      pipe := if s.stage ≠ .left ∧ s.pipe < capacity then s.pipe + 1 else s.pipe
      handlers := outer }

/-- A step of the loop, which goes on only while no call of the handler does. -/
def advance (s : Wakeup) : Event → Option Wakeup
  | .reap =>
    if s.stage = .reaping ∧ 0 < s.unreaped then some { s with unreaped := s.unreaped - 1 } else none
  | .noneReady =>
    if s.stage = .reaping ∧ s.unreaped = 0 then some { s with stage := .reaped } else none
  | .noChildren =>
    if s.stage = .reaping ∧ s.unreaped = 0 then some { s with stage := .left } else none
  | .waitFails =>
    if s.stage = .reaping then some { s with stage := .reaped, internal := true } else none
  | .check failed due =>
    if s.stage = .reaped then
      some { s with
        stage := .checked
        internal := s.internal || failed
        terminating :=
          s.terminating || s.firstInterrupt.isSome || due || (s.internal || failed) }
    else none
  | .giveUp =>
    if s.stage = .checked ∧ s.terminating then some { s with stage := .left, internal := true }
    else none
  | .pause directDone =>
    if s.stage = .checked then
      some { s with stage := if !s.terminating && directDone then .sleeping else .polling }
    else none
  | .pollReturns .ready =>
    if s.stage = .polling ∧ 0 < s.pipe then some { s with stage := .draining } else none
  | .pollReturns .nothing =>
    if s.stage = .polling then some { s with stage := .reaping } else none
  | .pollReturns .failed =>
    if s.stage = .polling then some { s with stage := .reaping, internal := true } else none
  | .drain =>
    if s.stage = .draining then
      if s.pipe = 0 then some { s with stage := .reaping }
      else some { s with pipe := s.pipe - 64 }
    else none
  | .wakes => if s.stage = .sleeping then some { s with stage := .reaping } else none
  | _ => none

def step (capacity : ℕ) (s : Wakeup) : Event → Option Wakeup
  | .arrives signum => some { s with pending := s.pending.insert (.interrupt signum) }
  | .childEnds =>
    some { s with unreaped := s.unreaped + 1, pending := s.pending.insert .sigchld }
  | .enter signum =>
    -- a signal is blocked while its own handler runs
    if signum ∈ s.pending ∧ ∀ h ∈ s.handlers, h.signum ≠ signum then
      some { s with
        pending := s.pending.erase signum
        handlers := ⟨signum, .entered⟩ :: s.handlers
        delivered := s.delivered ++ signum.interrupts }
    else none
  | .handle =>
    match s.handlers with
    | [] => none
    | h :: outer => some (s.handle capacity h outer)
  | e => if s.handlers = [] then s.advance e else none

def exec (capacity : ℕ) (events : List Event) (s : Wakeup) : Option Wakeup :=
  events.foldlM (step capacity) s

/-- `poll` has nothing to return for: nothing is in the pipe and no signal is on its way. -/
def Waits (s : Wakeup) : Prop :=
  s.stage = .polling ∧ s.pipe = 0 ∧ s.pending = [] ∧ s.handlers = []

/-- What holds after every step: a call of the handler that may still be needed is under way,
or its byte is in the pipe. -/
structure Inv (s : Wakeup) : Prop where
  distinct : (s.handlers.map Handler.signum).Nodup
  known : ∀ i, s.firstInterrupt = some i → i ∈ s.delivered
  running : ∀ h ∈ s.handlers, ∀ i, h.signum = .interrupt i → i ∈ s.delivered
  recording : ∀ h ∈ s.handlers, ∀ i, h.stage = .recording i → h.signum = .interrupt i
  recorded : s.delivered ≠ [] → s.firstInterrupt.isSome ∨
    ∃ h ∈ s.handlers, h.signum ≠ .sigchld ∧ h.stage ≠ .writing
  noticed : s.stage.looked = true → s.firstInterrupt.isSome → s.terminating = true ∨ 0 < s.pipe ∨
    ∃ h ∈ s.handlers, h.signum ≠ .sigchld
  collected : s.stage.collected = true → 0 < s.unreaped → s.internal = true ∨ 0 < s.pipe ∨
    .sigchld ∈ s.pending ∨ ∃ h ∈ s.handlers, h.signum = .sigchld

theorem initial_inv : Inv initial := by
  constructor <;> simp [initial, LoopStage.collected, LoopStage.looked]

section Steps
variable {capacity : ℕ} {s s' : Wakeup}

/-- A signal becomes pending, a child that ended with its own. -/
theorem Inv.sent (h : s.Inv) (signum : Caught) (ended : ℕ)
    (hended : 0 < ended → signum = .sigchld) :
    Inv { s with unreaped := s.unreaped + ended, pending := s.pending.insert signum } where
  distinct := h.distinct
  known := h.known
  running := h.running
  recording := h.recording
  recorded := h.recorded
  noticed := h.noticed
  collected := by
    intro hstage hpos
    by_cases hzero : ended = 0
    · subst hzero
      obtain hint | hpipe | hpending | hhandler := h.collected hstage hpos
      · exact .inl hint
      · exact .inr (.inl hpipe)
      · exact .inr (.inr (.inl (List.mem_insert_of_mem hpending)))
      · exact .inr (.inr (.inr hhandler))
    · obtain rfl := hended (Nat.pos_of_ne_zero hzero)
      exact .inr (.inr (.inl List.mem_insert_self))

/-- A call of the handler begins. -/
theorem Inv.enter (h : s.Inv) {signum : Caught} (hnew : ∀ h ∈ s.handlers, h.signum ≠ signum) :
    Inv { s with
      pending := s.pending.erase signum
      handlers := ⟨signum, .entered⟩ :: s.handlers
      delivered := s.delivered ++ signum.interrupts } where
  distinct := by
    rw [List.map_cons, List.nodup_cons]
    refine ⟨fun hmem => ?_, h.distinct⟩
    obtain ⟨h', hh', heq⟩ := List.mem_map.mp hmem
    exact hnew h' hh' heq
  known := fun i hi => List.mem_append_left _ (h.known i hi)
  running := by
    intro h' hh' i hi
    rcases List.mem_cons.mp hh' with rfl | hh'
    · have hsig : signum = .interrupt i := hi
      subst hsig
      exact List.mem_append_right _ (List.mem_singleton_self i)
    · exact List.mem_append_left _ (h.running h' hh' i hi)
  recording := by
    intro h' hh' i hi
    rcases List.mem_cons.mp hh' with rfl | hh'
    · contradiction
    · exact h.recording h' hh' i hi
  recorded := by
    intro hne
    cases signum with
    | sigchld =>
      rw [Caught.interrupts, List.append_nil] at hne
      exact (h.recorded hne).imp_right fun ⟨h', hh', hstage⟩ => ⟨h', .tail _ hh', hstage⟩
    | interrupt i =>
      refine .inr ⟨⟨.interrupt i, .entered⟩, List.mem_cons_self, ?_, ?_⟩
      · exact Caught.noConfusion
      · exact HandlerStage.noConfusion
  noticed := fun hstage hfirst => (h.noticed hstage hfirst).imp_right fun hlater =>
    hlater.imp_right fun ⟨h', hh', hsig⟩ => ⟨h', .tail _ hh', hsig⟩
  collected := by
    intro hstage hpos
    obtain hint | hpipe | hpending | ⟨h', hh', hsig⟩ := h.collected hstage hpos
    · exact .inl hint
    · exact .inr (.inl hpipe)
    · by_cases hsig : signum = .sigchld
      · exact .inr (.inr (.inr ⟨_, List.mem_cons_self, hsig⟩))
      · exact .inr (.inr (.inl ((List.mem_erase_of_ne (Ne.symm hsig)).mpr hpending)))
    · exact .inr (.inr (.inr ⟨h', .tail _ hh', hsig⟩))

/-- The innermost call of the handler looks at `first_interrupt`. -/
theorem Inv.looks (h : s.Inv) {top : Handler} {outer : List Handler}
    (htop : s.handlers = top :: outer) {stage : HandlerStage}
    (hrecording : ∀ i, stage = .recording i → top.signum = .interrupt i)
    (hwriting : stage = .writing → top.signum ≠ .sigchld → s.firstInterrupt.isSome) :
    Inv { s with handlers := ⟨top.signum, stage⟩ :: outer } where
  distinct := by
    have hdistinct := h.distinct
    rw [htop] at hdistinct
    exact hdistinct
  known := h.known
  running := by
    intro h' hh' i hi
    rcases List.mem_cons.mp hh' with rfl | hh'
    · exact h.running top (htop ▸ List.mem_cons_self) i hi
    · exact h.running h' (htop ▸ .tail _ hh') i hi
  recording := by
    intro h' hh' i hi
    rcases List.mem_cons.mp hh' with rfl | hh'
    · exact hrecording i hi
    · exact h.recording h' (htop ▸ .tail _ hh') i hi
  recorded := by
    intro hne
    obtain hsome | ⟨h', hh', hsig, hstage⟩ := h.recorded hne
    · exact .inl hsome
    rw [htop] at hh'
    rcases List.mem_cons.mp hh' with rfl | hh'
    · by_cases hw : stage = .writing
      · exact .inl (hwriting hw hsig)
      · exact .inr ⟨_, List.mem_cons_self, hsig, hw⟩
    · exact .inr ⟨h', .tail _ hh', hsig, hstage⟩
  noticed := by
    have hold := h.noticed
    rw [htop] at hold
    simpa using hold
  collected := by
    have hold := h.collected
    rw [htop] at hold
    simpa using hold

/-- The innermost call of the handler assigns `first_interrupt`. -/
theorem Inv.records (h : s.Inv) {top : Handler} {outer : List Handler}
    (htop : s.handlers = top :: outer) {signum : Interrupt}
    (hstage : top.stage = .recording signum) :
    Inv { s with firstInterrupt := some signum, handlers := ⟨top.signum, .writing⟩ :: outer } where
  distinct := by
    have hdistinct := h.distinct
    rw [htop] at hdistinct
    exact hdistinct
  known := by
    intro i hi
    obtain rfl := Option.some.inj hi
    have hmem : top ∈ s.handlers := htop ▸ List.mem_cons_self
    exact h.running top hmem _ (h.recording top hmem _ hstage)
  running := by
    intro h' hh' i hi
    rcases List.mem_cons.mp hh' with rfl | hh'
    · exact h.running top (htop ▸ List.mem_cons_self) i hi
    · exact h.running h' (htop ▸ .tail _ hh') i hi
  recording := by
    intro h' hh' i hi
    rcases List.mem_cons.mp hh' with rfl | hh'
    · contradiction
    · exact h.recording h' (htop ▸ .tail _ hh') i hi
  recorded := fun _ => .inl rfl
  noticed := by
    intro _ _
    have hsig := h.recording top (htop ▸ List.mem_cons_self) signum hstage
    refine .inr (.inr ⟨_, List.mem_cons_self, ?_⟩)
    show top.signum ≠ .sigchld
    rw [hsig]
    exact Caught.noConfusion
  collected := by
    have hold := h.collected
    rw [htop] at hold
    simpa using hold

/-- The innermost call of the handler writes its byte and returns. -/
theorem Inv.returns (h : s.Inv) {top : Handler} {outer : List Handler}
    (htop : s.handlers = top :: outer) (hstage : top.stage = .writing) {pipe : ℕ}
    (hpipe : s.stage ≠ .left → 0 < pipe) : Inv { s with pipe := pipe, handlers := outer } where
  distinct := by
    have hdistinct := h.distinct
    rw [htop, List.map_cons, List.nodup_cons] at hdistinct
    exact hdistinct.2
  known := h.known
  running := fun h' hh' => h.running h' (htop ▸ .tail _ hh')
  recording := fun h' hh' => h.recording h' (htop ▸ .tail _ hh')
  recorded := by
    intro hne
    obtain hsome | ⟨h', hh', hsig, hne'⟩ := h.recorded hne
    · exact .inl hsome
    rw [htop] at hh'
    rcases List.mem_cons.mp hh' with rfl | hh'
    · exact absurd hstage hne'
    · exact .inr ⟨h', hh', hsig, hne'⟩
  noticed := by
    intro hlooked _
    refine .inr (.inl (hpipe fun hleft => ?_))
    simp [hleft, LoopStage.looked] at hlooked
  collected := by
    intro hcollected _
    refine .inr (.inl (hpipe fun hleft => ?_))
    simp [hleft, LoopStage.collected] at hcollected

theorem Inv.handle (h : s.Inv) (hcap : 0 < capacity) {top : Handler} {outer : List Handler}
    (htop : s.handlers = top :: outer) : Inv (s.handle capacity top outer) := by
  unfold Wakeup.handle
  cases hstage : top.stage with
  | entered =>
    simp only
    split
    next signum hsig hfirst =>
      exact h.looks htop (fun i hi => by rw [hsig, HandlerStage.recording.inj hi])
        fun hw => by contradiction
    next hother =>
      refine h.looks htop (fun i hi => by contradiction) fun _ hsig => ?_
      cases hsignum : top.signum with
      | sigchld => exact absurd hsignum hsig
      | interrupt signum =>
        cases hfirst : s.firstInterrupt with
        | none => exact absurd hfirst (hother signum hsignum)
        | some i => rfl
  | recording signum => exact h.records htop hstage
  | writing =>
    apply h.returns htop hstage
    intro hleft
    simp only [hleft, ne_eq, not_false_eq_true, true_and]
    split <;> omega

/-- A step of the loop that changes neither signals nor handlers. -/
theorem Inv.moved (h : s.Inv) {stage : LoopStage}
    {terminating internal : Bool} {unreaped pipe : ℕ}
    (hnoticed : stage.looked = true → s.firstInterrupt.isSome → terminating = true ∨ 0 < pipe)
    (hcollected : stage.collected = true → 0 < unreaped → internal = true ∨ 0 < pipe ∨
      .sigchld ∈ s.pending) :
    Inv { s with
      stage := stage, terminating := terminating, internal := internal
      unreaped := unreaped, pipe := pipe } where
  distinct := h.distinct
  known := h.known
  running := h.running
  recording := h.recording
  recorded := h.recorded
  noticed := fun hstage hfirst => (hnoticed hstage hfirst).imp_right .inl
  collected := fun hstage hpos => (hcollected hstage hpos).imp_right fun hlater =>
    hlater.imp_right .inl

theorem Inv.advance (h : s.Inv) (hquiet : s.handlers = []) {e : Event}
    (hs : s.advance e = some s') : s'.Inv := by
  have hnoticed : s.stage.looked = true → s.firstInterrupt.isSome →
      s.terminating = true ∨ 0 < s.pipe := by
    intro hstage hfirst
    obtain hterm | hpipe | ⟨h', hh', -⟩ := h.noticed hstage hfirst
    · exact .inl hterm
    · exact .inr hpipe
    · simp [hquiet] at hh'
  have hcollected : s.stage.collected = true → 0 < s.unreaped →
      s.internal = true ∨ 0 < s.pipe ∨ .sigchld ∈ s.pending := by
    intro hstage hpos
    obtain hint | hpipe | hpending | ⟨h', hh', -⟩ := h.collected hstage hpos
    · exact .inl hint
    · exact .inr (.inl hpipe)
    · exact .inr (.inr hpending)
    · simp [hquiet] at hh'
  cases e with
  | reap =>
    simp only [Wakeup.advance] at hs
    split_ifs at hs with hcond
    obtain rfl := Option.some.inj hs
    exact h.moved (by simp [hcond.1, LoopStage.looked]) (by simp [hcond.1, LoopStage.collected])
  | noneReady =>
    simp only [Wakeup.advance] at hs
    split_ifs at hs with hcond
    obtain rfl := Option.some.inj hs
    exact h.moved (by simp [LoopStage.looked]) (fun _ hpos => by omega)
  | noChildren =>
    simp only [Wakeup.advance] at hs
    split_ifs at hs with hcond
    obtain rfl := Option.some.inj hs
    exact h.moved (by simp [LoopStage.looked]) (by simp [LoopStage.collected])
  | waitFails =>
    simp only [Wakeup.advance] at hs
    split_ifs at hs with hcond
    obtain rfl := Option.some.inj hs
    exact h.moved (by simp [LoopStage.looked]) (fun _ _ => .inl rfl)
  | check failed due =>
    simp only [Wakeup.advance] at hs
    split_ifs at hs with hcond
    obtain rfl := Option.some.inj hs
    refine h.moved (fun _ hfirst => .inl (by simp [hfirst])) fun _ hpos => ?_
    exact (hcollected (by simp [hcond, LoopStage.collected]) hpos).imp_left fun hint => by
      simp [hint]
  | giveUp =>
    simp only [Wakeup.advance] at hs
    split_ifs at hs with hcond
    obtain rfl := Option.some.inj hs
    exact h.moved (by simp [LoopStage.looked]) (by simp [LoopStage.collected])
  | pause directDone =>
    simp only [Wakeup.advance, Option.ite_none_right_eq_some] at hs
    obtain ⟨hcond, hs⟩ := hs
    obtain rfl := Option.some.inj hs
    exact h.moved (fun _ => hnoticed (by simp [hcond, LoopStage.looked]))
      fun _ => hcollected (by simp [hcond, LoopStage.collected])
  | pollReturns outcome =>
    cases outcome with
    | ready | nothing | failed =>
      simp only [Wakeup.advance] at hs
      split_ifs at hs with hcond
      obtain rfl := Option.some.inj hs
      exact h.moved (by simp [LoopStage.looked]) (by simp [LoopStage.collected])
  | drain =>
    simp only [Wakeup.advance] at hs
    split_ifs at hs with hcond hempty
    · obtain rfl := Option.some.inj hs
      exact h.moved (by simp [LoopStage.looked]) (by simp [LoopStage.collected])
    · obtain rfl := Option.some.inj hs
      exact h.moved (by simp [hcond, LoopStage.looked]) (by simp [hcond, LoopStage.collected])
  | wakes =>
    simp only [Wakeup.advance] at hs
    split_ifs at hs with hcond
    obtain rfl := Option.some.inj hs
    exact h.moved (by simp [LoopStage.looked]) (by simp [LoopStage.collected])
  | arrives | childEnds | enter | handle => contradiction

theorem Inv.step (h : s.Inv) (hcap : 0 < capacity) {e : Event}
    (hs : s.step capacity e = some s') : s'.Inv := by
  unfold Wakeup.step at hs
  split at hs
  next signum =>
    obtain rfl := Option.some.inj hs
    exact h.sent (.interrupt signum) 0 (by simp)
  next =>
    obtain rfl := Option.some.inj hs
    exact h.sent .sigchld 1 fun _ => rfl
  next signum =>
    split_ifs at hs with hcond
    obtain rfl := Option.some.inj hs
    exact h.enter hcond.2
  next =>
    split at hs
    · contradiction
    next top outer htop =>
      obtain rfl := Option.some.inj hs
      exact h.handle hcap htop
  next =>
    split_ifs at hs with hquiet
    exact h.advance hquiet hs

theorem exec_induction {motive : Wakeup → Prop}
    (hstep : ∀ s e s', motive s → s.step capacity e = some s' → motive s') {events : List Event}
    (hs : exec capacity events s = some s') (h : motive s) : motive s' := by
  induction events generalizing s with
  | nil =>
    obtain rfl := Option.some.inj hs
    exact h
  | cons e events ih =>
    rw [exec, List.foldlM_cons] at hs
    obtain ⟨t, ht, hrest⟩ := Option.bind_eq_some_iff.mp hs
    exact ih hrest (hstep s e t h ht)

theorem initial_exec (hcap : 0 < capacity) {events : List Event}
    (hs : exec capacity events initial = some s) : s.Inv :=
  exec_induction (fun _ _ _ h hstep => h.step hcap hstep) hs initial_inv

end Steps

/-- The loop touches neither what is recorded nor the handlers. -/
theorem advance_same {s s' : Wakeup} {e : Event} (hs : s.advance e = some s') :
    s'.firstInterrupt = s.firstInterrupt ∧ s'.handlers = s.handlers := by
  unfold advance at hs
  split at hs
  all_goals first
    | contradiction
    | (split_ifs at hs <;> obtain rfl := Option.some.inj hs <;> exact ⟨rfl, rfl⟩)

/-- An interrupt is recorded, and no call of the handler is about to record another. -/
def Keeps (i : Interrupt) (s : Wakeup) : Prop :=
  s.firstInterrupt = some i ∧ ∀ h ∈ s.handlers, ∀ j, h.stage ≠ .recording j

theorem Keeps.step {capacity : ℕ} {i : Interrupt} {s s' : Wakeup} {e : Event} (h : Keeps i s)
    (hs : s.step capacity e = some s') : Keeps i s' := by
  unfold Wakeup.step at hs
  split at hs
  next signum =>
    obtain rfl := Option.some.inj hs
    exact h
  next =>
    obtain rfl := Option.some.inj hs
    exact h
  next signum =>
    split_ifs at hs with hcond
    obtain rfl := Option.some.inj hs
    refine ⟨h.1, fun h' hh' => ?_⟩
    rcases List.mem_cons.mp hh' with rfl | hh'
    · exact fun j => HandlerStage.noConfusion
    · exact h.2 h' hh'
  next =>
    split at hs
    · contradiction
    next top outer htop =>
      obtain rfl := Option.some.inj hs
      have houter : ∀ h' ∈ outer, ∀ j, h'.stage ≠ .recording j :=
        fun h' hh' => h.2 h' (htop ▸ .tail _ hh')
      unfold Wakeup.handle
      cases hstage : top.stage with
      | entered =>
        simp only
        split
        next signum _ hnone => simp [h.1] at hnone
        next =>
          refine ⟨h.1, fun h' hh' => ?_⟩
          rcases List.mem_cons.mp hh' with rfl | hh'
          · exact fun j => HandlerStage.noConfusion
          · exact houter h' hh'
      | recording signum => exact absurd hstage (h.2 top (htop ▸ List.mem_cons_self) signum)
      | writing => exact ⟨h.1, houter⟩
  next =>
    split_ifs at hs with hquiet
    obtain ⟨hfirst, hhandlers⟩ := advance_same hs
    rw [Keeps, hfirst, hhandlers]
    exact h

/-- Whatever interrupts the loop and the handler, and when: at most four calls of the handler
are under way; when `poll` has nothing to return for, every interrupt was looked at and every
ended child was collected, but for a failure that was noted; between calls of the handler, what
is recorded is what calls one after the other would have recorded in some order of the same
interrupts, and from then on it never changes. -/
theorem wake_exact {capacity : ℕ} (hcap : 0 < capacity) (events : List Event) (s : Wakeup)
    (hs : exec capacity events initial = some s) :
    s.handlers.length ≤ 4 ∧
      (s.Waits → (s.delivered = [] ∨ s.terminating = true) ∧
        (s.unreaped = 0 ∨ s.internal = true)) ∧
      (s.handlers = [] →
        (∃ order : List Interrupt,
          order.Perm s.delivered ∧ s.firstInterrupt = order.foldl wakeHandler none) ∧
        ∀ i, s.firstInterrupt = some i → ∀ events' s', exec capacity events' s = some s' →
          s'.firstInterrupt = some i) := by
  have hinv := initial_exec hcap hs
  have hrecorded : s.handlers = [] → s.delivered ≠ [] → s.firstInterrupt.isSome := by
    intro hquiet hne
    have hrecorded := hinv.recorded hne
    simpa [hquiet] using hrecorded
  refine ⟨?_, fun ⟨hstage, hpipe, hpending, hhandlers⟩ => ⟨?_, ?_⟩, fun hquiet => ⟨?_, ?_⟩⟩
  · have hall : ∀ c : Caught, c ∈ [.sigchld, .interrupt .hangup, .interrupt .int,
        .interrupt .term] := by
      intro c
      cases c with
      | sigchld => simp
      | interrupt signum => cases signum <;> simp
    have hle := (List.subperm_of_subset hinv.distinct fun c _ => hall c).length_le
    simpa using hle
  · by_cases hempty : s.delivered = []
    · exact .inl hempty
    · right
      have hnoticed := hinv.noticed (by simp [hstage, LoopStage.looked])
        (hrecorded hhandlers hempty)
      simpa [hpipe, hhandlers] using hnoticed
  · by_cases hzero : s.unreaped = 0
    · exact .inl hzero
    · right
      have hcollected := hinv.collected (by simp [hstage, LoopStage.collected])
        (Nat.pos_of_ne_zero hzero)
      simpa [hpipe, hpending, hhandlers] using hcollected
  · cases hfirst : s.firstInterrupt with
    | none =>
      have hnone : s.delivered = [] := by
        by_contra hne
        simpa [hfirst] using hrecorded hquiet hne
      exact ⟨[], by rw [hnone], rfl⟩
    | some i =>
      refine ⟨i :: s.delivered.erase i, (List.perm_cons_erase (hinv.known i hfirst)).symm, ?_⟩
      rw [wakeHandler_foldl]
      rfl
  · intro i hi events' s' hs'
    have hkeeps : Keeps i s := ⟨hi, by simp [hquiet]⟩
    exact (exec_induction (fun _ _ _ h hstep => h.step hstep) hs' hkeeps).1

/-- A child ends behind the `waitpid` loop, and `SIGTERM` comes between the two looks of the
handler for `SIGINT`; the bytes of the three handlers end the next `poll`. -/
def nestedInterrupts : List Event :=
  [.noneReady, .childEnds, .check false false, .arrives .int, .enter (.interrupt .int), .handle,
    .arrives .term, .enter (.interrupt .term), .handle, .handle, .handle, .handle, .handle,
    .pause false, .enter .sigchld, .handle, .handle, .pollReturns .ready, .drain, .drain,
    .reap, .noneReady, .check false false, .pause false]

theorem wake_exact_nested : ∃ s, exec 65536 nestedInterrupts initial = some s ∧ s.Waits ∧
    s.delivered = [.int, .term] ∧ s.firstInterrupt = some .int ∧ s.handlers.length ≤ 4 ∧
    (s.delivered = [] ∨ s.terminating = true) ∧ (s.unreaped = 0 ∨ s.internal = true) ∧
    ∃ order : List Interrupt,
      order.Perm s.delivered ∧ s.firstInterrupt = order.foldl wakeHandler none := by
  have hs : exec 65536 nestedInterrupts initial = some
      ⟨.polling, true, false, 0, 0, some .int, [], [], [.int, .term]⟩ := by decide
  have hwaits : Waits ⟨.polling, true, false, 0, 0, some .int, [], [], [.int, .term]⟩ :=
    ⟨rfl, rfl, rfl, rfl⟩
  obtain ⟨hlen, hslept, hquiet⟩ := wake_exact (by decide) nestedInterrupts _ hs
  exact ⟨_, hs, hwaits, rfl, rfl, hlen, (hslept hwaits).1, (hslept hwaits).2, (hquiet rfl).1⟩

end Wakeup

end Agentwatch
