import Mathlib.Data.List.Nodup
import Mathlib.Tactic

/-! Tables of processes: forks, exits, groups, sessions, adoption by subreapers, reaping and the
reuse of numbers. Some processes are marked, and a fork passes the mark on. -/
namespace ProcessTable

/-- A process. A zombie has ended and is still to be reaped. -/
structure Task where
  pid : ℕ
  ppid : ℕ
  pgid : ℕ
  sid : ℕ
  start : ℕ
  subreaper : Bool
  zombie : Bool
  marked : Bool
  deriving DecidableEq, Repr

/-- The process that a process forks. -/
def Task.forked (p : Task) (pid ticks : ℕ) : Task :=
  { p with pid := pid, ppid := p.pid, start := ticks, subreaper := false, zombie := false }

/-- The processes, and the clock that gives them their start times. -/
structure Table where
  tasks : List Task
  ticks : ℕ
  deriving DecidableEq

inductive Move where
  | tick
  | fork (parent pid : ℕ)
  | exit (pid : ℕ)
  | setpgid (pid pgid : ℕ)
  | setsid (pid : ℕ)
  | subreaper (pid : ℕ) (enabled : Bool)
  | reap (parent pid : ℕ)
  deriving DecidableEq

/-- The process that a move is made by, or for. -/
def Move.actor : Move → Option ℕ
  | tick => none
  | fork parent _ => some parent
  | exit pid => some pid
  | setpgid pid _ => some pid
  | setsid pid => some pid
  | subreaper pid _ => some pid
  | reap parent _ => some parent

/-- The parent and the number of a new process. -/
def Move.forks : Move → Option (ℕ × ℕ)
  | fork parent pid => some (parent, pid)
  | _ => none

namespace Table
variable (T : Table)

def find (pid : ℕ) : Option Task := T.tasks.find? (·.pid = pid)

/-- Whether a process is marked. -/
def marks (pid : ℕ) : Bool := (T.find pid).any Task.marked

def Live (pid : ℕ) : Prop := ∃ t ∈ T.tasks, t.pid = pid ∧ t.zombie = false

instance (pid : ℕ) : Decidable (T.Live pid) := by
  unfold Live
  infer_instance

/-- The nearest live subreaper from a process upwards, other than the one that exits. -/
def reaperOf (exiting : ℕ) : ℕ → ℕ → ℕ
  | 0, _ => 1
  | fuel + 1, pid =>
    match T.find pid with
    | none => 1
    | some t =>
      if t.subreaper ∧ t.zombie = false ∧ t.pid ≠ exiting then t.pid
      else reaperOf exiting fuel t.ppid

/-- The process that adopts the children of one that exits. -/
def adopter (pid : ℕ) : ℕ :=
  match T.find pid with
  | none => 1
  | some t => T.reaperOf pid T.tasks.length t.ppid

def update (pid : ℕ) (f : Task → Task) : Table :=
  { T with tasks := T.tasks.map fun t => if t.pid = pid then f t else t }

/-- What a move needs. The number of a process, of a group or of a session is not given to a
new process; a session leader stays in its group, and a group stays in its session. -/
def Allows : Move → Prop
  | .tick => True
  | .fork parent pid => T.Live parent ∧ pid ≠ 0 ∧
      ∀ t ∈ T.tasks, t.pid ≠ pid ∧ t.pgid ≠ pid ∧ t.sid ≠ pid
  | .exit pid => pid ≠ 1 ∧ T.Live pid
  | .setpgid pid pgid => ∃ t ∈ T.tasks, t.pid = pid ∧ t.zombie = false ∧ t.sid ≠ pid ∧
      (pgid = pid ∨ ∃ q ∈ T.tasks, q.pgid = pgid ∧ q.sid = t.sid)
  | .setsid pid => T.Live pid ∧ ∀ t ∈ T.tasks, t.pgid ≠ pid
  | .subreaper pid _ => T.Live pid
  | .reap parent pid => ∃ t ∈ T.tasks, t.pid = pid ∧ t.ppid = parent ∧ t.zombie = true

instance (m : Move) : Decidable (T.Allows m) := by
  cases m <;> unfold Allows <;> infer_instance

def apply : Move → Table
  | .tick => { T with ticks := T.ticks + 1 }
  | .fork parent pid =>
    { T with tasks := T.tasks ++ ((T.find parent).map (·.forked pid T.ticks)).toList }
  | .exit pid =>
    { T with tasks := T.tasks.map fun t =>
        { t with
          zombie := t.zombie || t.pid = pid
          ppid := if t.ppid = pid then T.adopter pid else t.ppid } }
  | .setpgid pid pgid => T.update pid ({ · with pgid := pgid })
  | .setsid pid => T.update pid ({ · with pgid := pid, sid := pid })
  | .subreaper pid enabled => T.update pid ({ · with subreaper := enabled })
  | .reap _ pid => { T with tasks := T.tasks.filter (·.pid ≠ pid) }

def move (m : Move) : Option Table := if T.Allows m then some (T.apply m) else none

/-- A process gets the mark. -/
def mark (pid : ℕ) : Table := T.update pid ({ · with marked := true })

/-- What the moves keep: numbers are unique, the first process stays, every process has a live
parent or none, and the mark was passed on from parent to child. -/
structure Lawful : Prop where
  nodup : (T.tasks.map Task.pid).Nodup
  pid_ne : ∀ t ∈ T.tasks, t.pid ≠ 0
  first : T.Live 1
  first_unmarked : ∀ t ∈ T.tasks, t.pid = 1 → t.marked = false
  parent : ∀ t ∈ T.tasks, t.ppid = 0 ∨ T.Live t.ppid
  inherits : ∀ t ∈ T.tasks, ∀ q ∈ T.tasks, q.pid = t.ppid → q.marked = true → t.marked = true

/-- A number stands only for marked processes: as that of a process, and as that of a group. -/
def Owns (g : ℕ) : Prop := ∀ t ∈ T.tasks, t.pid = g ∨ t.pgid = g → t.marked = true

/-- A move neither gives the number to an unmarked process nor puts one into its group. -/
def Avoids (g : ℕ) : Move → Prop
  | .fork parent pid => T.marks parent = false → pid ≠ g
  | .setpgid pid pgid => T.marks pid = false → pgid ≠ g
  | _ => True

instance (g : ℕ) (m : Move) : Decidable (T.Avoids g m) := by
  cases m <;> unfold Avoids <;> infer_instance

variable {T} {T' : Table} {m : Move} {t t' : Task} {pid g : ℕ}

theorem of_move (h : T.move m = some T') : T.Allows m ∧ T' = T.apply m := by
  unfold move at h
  split at h
  next hallows => exact ⟨hallows, (Option.some.inj h).symm⟩
  next => contradiction

theorem mem_of_find (h : T.find pid = some t) : t ∈ T.tasks ∧ t.pid = pid :=
  ⟨List.mem_of_find?_eq_some h, by simpa using List.find?_some h⟩

theorem Lawful.eq_of_pid (h : T.Lawful) (ht : t ∈ T.tasks) (ht' : t' ∈ T.tasks)
    (hpid : t.pid = t'.pid) : t = t' :=
  List.inj_on_of_nodup_map h.nodup ht ht' hpid

theorem Lawful.find_eq (h : T.Lawful) (ht : t ∈ T.tasks) : T.find t.pid = some t := by
  cases hfind : T.find t.pid with
  | none => simpa using List.find?_eq_none.mp hfind t ht
  | some t' =>
    obtain ⟨ht', hpid⟩ := mem_of_find hfind
    rw [h.eq_of_pid ht' ht hpid]

theorem Lawful.marks_eq (h : T.Lawful) (ht : t ∈ T.tasks) : T.marks t.pid = t.marked := by
  rw [marks, h.find_eq ht]
  rfl

theorem mem_fork {parent : ℕ} : t ∈ (T.apply (.fork parent pid)).tasks ↔
    t ∈ T.tasks ∨ ∃ p, T.find parent = some p ∧ t = p.forked pid T.ticks := by
  simp [apply, eq_comm]

theorem mem_update {f : Task → Task} (h : t ∈ (T.update pid f).tasks) :
    (∃ s ∈ T.tasks, s.pid = pid ∧ t = f s) ∨ t ∈ T.tasks := by
  obtain ⟨s, hs, rfl⟩ := List.mem_map.mp h
  split
  next hpid => exact .inl ⟨s, hs, hpid, rfl⟩
  next => exact .inr hs

theorem Owns.mark (pid : ℕ) (h : ∀ t ∈ T.tasks, t.pid = g ∨ t.pgid = g → t.pid = pid) :
    (T.mark pid).Owns g := by
  intro t ht hg
  obtain ⟨s, hs, rfl⟩ := List.mem_map.mp ht
  dsimp only at hg ⊢
  split
  next => rfl
  next hpid =>
    rw [if_neg hpid] at hg
    exact absurd (h s hs hg) hpid

/-- The processes after a move: each was there before, with its number, its start time and its
mark, or it is the one that was forked. -/
theorem mem_apply (h : t ∈ (T.apply m).tasks) :
    (∃ s ∈ T.tasks, s.pid = t.pid ∧ s.start = t.start ∧ s.marked = t.marked) ∨
      ∃ parent p, m = .fork parent t.pid ∧ T.find parent = some p ∧
        t = p.forked t.pid T.ticks := by
  have hupdate : ∀ pid f, t ∈ (T.update pid f).tasks → (∀ s : Task, s.pid = (f s).pid ∧
      s.start = (f s).start ∧ s.marked = (f s).marked) →
        ∃ s ∈ T.tasks, s.pid = t.pid ∧ s.start = t.start ∧ s.marked = t.marked := by
    intro pid f ht hf
    rcases mem_update ht with ⟨s, hs, -, rfl⟩ | ht
    · exact ⟨s, hs, hf s⟩
    · exact ⟨t, ht, rfl, rfl, rfl⟩
  cases m with
  | tick => exact .inl ⟨t, h, rfl, rfl, rfl⟩
  | fork parent pid =>
    rcases mem_fork.mp h with h | ⟨p, hp, rfl⟩
    · exact .inl ⟨t, h, rfl, rfl, rfl⟩
    · exact .inr ⟨parent, p, rfl, hp, rfl⟩
  | exit pid =>
    obtain ⟨s, hs, rfl⟩ := List.mem_map.mp h
    exact .inl ⟨s, hs, rfl, rfl, rfl⟩
  | setpgid pid pgid => exact .inl (hupdate _ _ h fun s => ⟨rfl, rfl, rfl⟩)
  | setsid pid => exact .inl (hupdate _ _ h fun s => ⟨rfl, rfl, rfl⟩)
  | subreaper pid enabled => exact .inl (hupdate _ _ h fun s => ⟨rfl, rfl, rfl⟩)
  | reap parent pid => exact .inl ⟨t, (List.mem_filter.mp h).1, rfl, rfl, rfl⟩

/-- A number that a move avoids stays with the marked processes. -/
theorem Owns.apply (hT : T.Lawful) (h : T.Owns g) (hm : T.Avoids g m) : (T.apply m).Owns g := by
  intro t ht hg
  cases m with
  | tick => exact h t ht hg
  | fork parent pid =>
    rcases mem_fork.mp ht with ht | ⟨p, hp, rfl⟩
    · exact h t ht hg
    · obtain ⟨hmem, rfl⟩ := mem_of_find hp
      by_contra hmarked
      have hunmarked : T.marks p.pid = false := by
        rw [hT.marks_eq hmem]
        exact Bool.eq_false_iff.mpr hmarked
      rcases hg with hpid | hpgid
      · exact hm hunmarked hpid
      · exact hmarked (h p hmem (.inr hpgid))
  | exit pid =>
    obtain ⟨s, hs, rfl⟩ := List.mem_map.mp ht
    exact h s hs hg
  | setpgid pid pgid =>
    rcases mem_update ht with ⟨s, hs, rfl, rfl⟩ | ht
    · by_contra hmarked
      rcases hg with hg | hg
      · exact hmarked (h s hs (.inl hg))
      · refine hm ?_ hg
        rw [hT.marks_eq hs]
        exact Bool.eq_false_iff.mpr hmarked
    · exact h t ht hg
  | setsid pid =>
    rcases mem_update ht with ⟨s, hs, rfl, rfl⟩ | ht
    · rcases hg with hg | hg
      · exact h s hs (.inl hg)
      · exact h s hs (.inl hg)
    · exact h t ht hg
  | subreaper pid enabled =>
    rcases mem_update ht with ⟨s, hs, -, rfl⟩ | ht
    · exact h s hs hg
    · exact h t ht hg
  | reap parent pid => exact h t (List.mem_filter.mp ht).1 hg

namespace Lawful

/-- The adopter is a live process other than the one that exits. -/
theorem reaperOf_live (h : T.Lawful) {exiting : ℕ} (hexiting : exiting ≠ 1) (fuel pid : ℕ) :
    T.Live (T.reaperOf exiting fuel pid) ∧ T.reaperOf exiting fuel pid ≠ exiting := by
  induction fuel generalizing pid with
  | zero => exact ⟨h.first, hexiting.symm⟩
  | succ fuel ih =>
    unfold reaperOf
    split
    · exact ⟨h.first, hexiting.symm⟩
    next t hfind =>
      split
      next hreaper => exact ⟨⟨t, (mem_of_find hfind).1, rfl, hreaper.2.1⟩, hreaper.2.2⟩
      next => exact ih t.ppid

/-- Above an unmarked process, no adopter is marked. -/
theorem reaperOf_unmarked (h : T.Lawful) {exiting : ℕ} (fuel : ℕ)
    (hpid : ∀ q ∈ T.tasks, q.pid = pid → q.marked = false) :
    ∀ q ∈ T.tasks, q.pid = T.reaperOf exiting fuel pid → q.marked = false := by
  induction fuel generalizing pid with
  | zero => exact h.first_unmarked
  | succ fuel ih =>
    unfold reaperOf
    split
    · exact h.first_unmarked
    next t hfind =>
      obtain ⟨ht, htpid⟩ := mem_of_find hfind
      split
      · exact htpid ▸ hpid
      · refine ih fun q hq hq' => ?_
        by_contra hmarked
        have := h.inherits t ht q hq hq' (by simpa using hmarked)
        rw [hpid t ht htpid] at this
        contradiction

theorem adopter_live (h : T.Lawful) (hpid : pid ≠ 1) :
    T.Live (T.adopter pid) ∧ T.adopter pid ≠ pid := by
  unfold adopter
  split
  · exact ⟨h.first, hpid.symm⟩
  · exact h.reaperOf_live hpid _ _

theorem adopter_unmarked (h : T.Lawful) (ht : t ∈ T.tasks) (hmarked : t.marked = false) :
    ∀ q ∈ T.tasks, q.pid = T.adopter t.pid → q.marked = false := by
  unfold adopter
  rw [h.find_eq ht]
  refine h.reaperOf_unmarked _ fun q hq hpid => ?_
  by_contra hq'
  have := h.inherits t ht q hq hpid (by simpa using hq')
  rw [hmarked] at this
  contradiction

/-- A change that leaves the parents and the zombies alone, and marks nobody's parent only. -/
theorem update (h : T.Lawful) (pid : ℕ) {f : Task → Task} (hf : ∀ t, (f t).pid = t.pid ∧
    (f t).ppid = t.ppid ∧ (f t).zombie = t.zombie ∧ (t.marked = true → (f t).marked = true))
    (hmarks : (∀ t, (f t).marked = t.marked) ∨ pid ≠ 1 ∧ ∀ t ∈ T.tasks, t.ppid ≠ pid) :
    (T.update pid f).Lawful := by
  have hsame : ∀ t : Task, (if t.pid = pid then f t else t).pid = t.pid ∧
      (if t.pid = pid then f t else t).ppid = t.ppid ∧
      (if t.pid = pid then f t else t).zombie = t.zombie ∧
      (t.marked = true → (if t.pid = pid then f t else t).marked = true) := by
    intro t
    split
    · exact hf t
    · exact ⟨rfl, rfl, rfl, id⟩
  have hmarked : ∀ t : Task, (if t.pid = pid then f t else t).marked = true →
      t.marked = true ∨ t.pid ≠ 1 ∧ ∀ s ∈ T.tasks, s.ppid ≠ t.pid := by
    intro t ht
    split at ht
    next hpid =>
      subst hpid
      exact hmarks.imp_left fun hsame => (hsame t).symm.trans ht
    next => exact .inl ht
  have hlive : ∀ n, T.Live n → (T.update pid f).Live n := by
    intro n hn
    obtain ⟨t, ht, htpid, hzombie⟩ := hn
    exact ⟨_, List.mem_map_of_mem ht, (hsame t).1.trans htpid, (hsame t).2.2.1.trans hzombie⟩
  constructor
  · have hpids : (T.update pid f).tasks.map Task.pid = T.tasks.map Task.pid := by
      simp only [Table.update, List.map_map]
      exact List.map_congr_left fun t _ => (hsame t).1
    rw [hpids]
    exact h.nodup
  · intro t ht
    obtain ⟨s, hs, rfl⟩ := List.mem_map.mp ht
    rw [(hsame s).1]
    exact h.pid_ne s hs
  · exact hlive 1 h.first
  · intro t ht ht1
    obtain ⟨s, hs, rfl⟩ := List.mem_map.mp ht
    rw [(hsame s).1] at ht1
    rw [← Bool.not_eq_true]
    intro htrue
    rcases hmarked s htrue with hs' | ⟨hne, -⟩
    · rw [h.first_unmarked s hs ht1] at hs'
      contradiction
    · exact hne ht1
  · intro t ht
    obtain ⟨s, hs, rfl⟩ := List.mem_map.mp ht
    rw [(hsame s).2.1]
    exact (h.parent s hs).imp_right (hlive _)
  · intro t ht q hq hparent htrue
    obtain ⟨s, hs, rfl⟩ := List.mem_map.mp ht
    obtain ⟨r, hr, rfl⟩ := List.mem_map.mp hq
    rw [(hsame r).1, (hsame s).2.1] at hparent
    rcases hmarked r htrue with hr' | ⟨-, horphan⟩
    · exact (hsame s).2.2.2 (h.inherits s hs r hr hparent hr')
    · exact absurd hparent.symm (horphan s hs)

/-- A number that is free is nobody's parent. -/
theorem ppid_ne (h : T.Lawful) (hpid : pid ≠ 0) (hfresh : ∀ t ∈ T.tasks, t.pid ≠ pid) :
    ∀ t ∈ T.tasks, t.ppid ≠ pid := by
  intro t ht heq
  rcases h.parent t ht with hzero | ⟨q, hq, hqpid, -⟩
  · exact hpid (heq.symm.trans hzero)
  · exact hfresh q hq (hqpid.trans heq)

theorem fork (h : T.Lawful) {parent : ℕ} (hallows : T.Allows (.fork parent pid)) :
    (T.apply (.fork parent pid)).Lawful := by
  obtain ⟨⟨p, hp, rfl, hlive⟩, hpid, hfresh⟩ := hallows
  have hmem : ∀ {t}, t ∈ (T.apply (.fork p.pid pid)).tasks ↔
      t ∈ T.tasks ∨ t = p.forked pid T.ticks := by
    intro t
    rw [mem_fork, h.find_eq hp]
    simp
  have hkeeps : ∀ n, T.Live n → (T.apply (.fork p.pid pid)).Live n := by
    intro n hn
    obtain ⟨t, ht, hn⟩ := hn
    exact ⟨t, hmem.mpr (.inl ht), hn⟩
  have horphan := h.ppid_ne hpid fun t ht => (hfresh t ht).1
  constructor
  · have hpids : (T.apply (.fork p.pid pid)).tasks.map Task.pid =
        T.tasks.map Task.pid ++ [pid] := by
      simp [apply, h.find_eq hp, Task.forked]
    rw [hpids]
    refine List.nodup_append'.mpr ⟨h.nodup, List.nodup_singleton pid, ?_⟩
    rw [List.disjoint_singleton]
    intro hin
    obtain ⟨t, ht, htpid⟩ := List.mem_map.mp hin
    exact (hfresh t ht).1 htpid
  · intro t ht
    rcases hmem.mp ht with ht | rfl
    · exact h.pid_ne t ht
    · exact hpid
  · exact hkeeps 1 h.first
  · intro t ht ht1
    rcases hmem.mp ht with ht | rfl
    · exact h.first_unmarked t ht ht1
    · obtain ⟨q, hq, hq1, -⟩ := h.first
      exact absurd (hq1.trans ht1.symm) (hfresh q hq).1
  · intro t ht
    rcases hmem.mp ht with ht | rfl
    · exact (h.parent t ht).imp_right (hkeeps _)
    · exact .inr (hkeeps _ ⟨p, hp, rfl, hlive⟩)
  · intro t ht q hq hparent hmarked
    rcases hmem.mp ht with ht | rfl
    · rcases hmem.mp hq with hq | rfl
      · exact h.inherits t ht q hq hparent hmarked
      · exact absurd hparent.symm (horphan t ht)
    · rcases hmem.mp hq with hq | rfl
      · rw [h.eq_of_pid hq hp hparent] at hmarked
        exact hmarked
      · exact hmarked

theorem exit (h : T.Lawful) (hallows : T.Allows (.exit pid)) : (T.apply (.exit pid)).Lawful := by
  obtain ⟨hpid, p, hp, rfl, -⟩ := hallows
  obtain ⟨hadopter, hother⟩ := h.adopter_live hpid
  have hkeeps : ∀ n, T.Live n → n ≠ p.pid → (T.apply (.exit p.pid)).Live n := by
    intro n hn hne
    obtain ⟨t, ht, rfl, hzombie⟩ := hn
    exact ⟨_, List.mem_map_of_mem ht, rfl, by simp [hzombie, hne]⟩
  constructor
  · have hpids : (T.apply (.exit p.pid)).tasks.map Task.pid = T.tasks.map Task.pid := by
      simp [apply, Function.comp_def]
    rw [hpids]
    exact h.nodup
  · intro t ht
    obtain ⟨s, hs, rfl⟩ := List.mem_map.mp ht
    exact h.pid_ne s hs
  · exact hkeeps 1 h.first hpid.symm
  · intro t ht ht1
    obtain ⟨s, hs, rfl⟩ := List.mem_map.mp ht
    exact h.first_unmarked s hs ht1
  · intro t ht
    obtain ⟨s, hs, rfl⟩ := List.mem_map.mp ht
    dsimp only
    split
    · exact .inr (hkeeps _ hadopter hother)
    next hppid => exact (h.parent s hs).imp_right fun hlive => hkeeps _ hlive hppid
  · intro t ht q hq hparent hmarked
    obtain ⟨s, hs, rfl⟩ := List.mem_map.mp ht
    obtain ⟨r, hr, rfl⟩ := List.mem_map.mp hq
    dsimp only at hparent hmarked ⊢
    split at hparent
    next hppid =>
      -- the process that exits was above the adopted one, and below the adopter
      by_contra hs'
      have hp' : p.marked = false := by
        by_contra hp'
        exact hs' (h.inherits s hs p hp hppid.symm (by simpa using hp'))
      rw [h.adopter_unmarked hp hp' r hr hparent] at hmarked
      contradiction
    next => exact h.inherits s hs r hr hparent hmarked

theorem reap (h : T.Lawful) {parent : ℕ} (hallows : T.Allows (.reap parent pid)) :
    (T.apply (.reap parent pid)).Lawful := by
  obtain ⟨z, hz, rfl, -, hzombie⟩ := hallows
  have hsub : ∀ t ∈ (T.apply (.reap parent z.pid)).tasks, t ∈ T.tasks :=
    fun t ht => (List.mem_filter.mp ht).1
  have hkeeps : ∀ n, T.Live n → (T.apply (.reap parent z.pid)).Live n := by
    intro n hn
    obtain ⟨t, ht, rfl, hlive⟩ := hn
    refine ⟨t, List.mem_filter.mpr ⟨ht, ?_⟩, rfl, hlive⟩
    rw [decide_eq_true_eq]
    intro heq
    rw [h.eq_of_pid ht hz heq, hzombie] at hlive
    contradiction
  constructor
  · exact h.nodup.sublist (List.filter_sublist.map _)
  · exact fun t ht => h.pid_ne t (hsub t ht)
  · exact hkeeps 1 h.first
  · exact fun t ht => h.first_unmarked t (hsub t ht)
  · exact fun t ht => (h.parent t (hsub t ht)).imp_right (hkeeps _)
  · exact fun t ht q hq => h.inherits t (hsub t ht) q (hsub q hq)

/-- Every move keeps the table lawful. -/
theorem move (h : T.Lawful) (hm : T.move m = some T') : T'.Lawful := by
  obtain ⟨hallows, rfl⟩ := of_move hm
  cases m with
  | tick => exact ⟨h.nodup, h.pid_ne, h.first, h.first_unmarked, h.parent, h.inherits⟩
  | fork parent pid => exact h.fork hallows
  | exit pid => exact h.exit hallows
  | setpgid pid pgid => exact h.update pid (fun _ => ⟨rfl, rfl, rfl, id⟩) (.inl fun _ => rfl)
  | setsid pid => exact h.update pid (fun _ => ⟨rfl, rfl, rfl, id⟩) (.inl fun _ => rfl)
  | subreaper pid enabled => exact h.update pid (fun _ => ⟨rfl, rfl, rfl, id⟩) (.inl fun _ => rfl)
  | reap parent pid => exact h.reap hallows

/-- A process that was just forked can be marked. Its number is then its own. -/
theorem launch (h : T.Lawful) {parent : ℕ} (hallows : T.Allows (.fork parent pid)) :
    ((T.apply (.fork parent pid)).mark pid).Lawful ∧
      ((T.apply (.fork parent pid)).mark pid).Owns pid := by
  have hfork := h.fork hallows
  obtain ⟨⟨p, hp, rfl, hlive⟩, hpid, hfresh⟩ := hallows
  have hmem : ∀ t ∈ (T.apply (.fork p.pid pid)).tasks, t ∈ T.tasks ∨ t = p.forked pid T.ticks := by
    intro t ht
    refine (mem_fork.mp ht).imp_right fun hforked => ?_
    obtain ⟨q, hq, rfl⟩ := hforked
    rw [h.find_eq hp] at hq
    rw [Option.some.inj hq]
  constructor
  · refine hfork.update pid (fun t => ⟨rfl, rfl, rfl, fun _ => rfl⟩) (.inr ⟨?_, ?_⟩)
    · rintro rfl
      obtain ⟨q, hq, hq1, -⟩ := h.first
      exact (hfresh q hq).1 hq1
    · intro t ht
      rcases hmem t ht with ht | rfl
      · exact h.ppid_ne hpid (fun t ht => (hfresh t ht).1) t ht
      · exact (hfresh p hp).1
  · apply Owns.mark
    intro t ht hg
    rcases hmem t ht with ht | rfl
    · exact absurd hg (not_or.mpr ⟨(hfresh t ht).1, (hfresh t ht).2.1⟩)
    · rfl

end Lawful

end Table

end ProcessTable
