import LinuxUtilities.Treehash.Decoding
import LinuxUtilities.Treehash.Watching

/-! Failures of the calls of a run, as an observer beside the system sees them. -/
namespace Treehash
open CString

/-- What an observer of the calls remembers. A failure is passed over when the code treats it
as if there were no `.gitignore`, or no more lines in it. -/
structure Watch where
  /-- The last call opened a directory, so the next one looks up its `.gitignore`. -/
  opened : Bool
  noticed : Bool
  passedOver : Bool
  deriving DecidableEq

namespace Watch

def start : Watch := ⟨false, false, false⟩

/-- Some call failed, other than by the absence of a `.gitignore`. -/
def Failed (k : Watch) : Prop := k.noticed = true ∨ k.passedOver = true

def lstat (k : Watch) : Except Errno Stat → Watch
  | .ok _ => { k with opened := false }
  | .error err =>
    if k.opened then ⟨false, k.noticed, k.passedOver || err ≠ ENOENT⟩
    else ⟨false, true, k.passedOver⟩

def opendir (k : Watch) : Except Errno Listing → Watch
  | .ok listing => ⟨true, k.noticed || listing.error.isSome, k.passedOver⟩
  | .error _ => ⟨false, true, k.passedOver⟩

def fopen (k : Watch) : Except Errno TextStream → Watch
  | .ok stream => ⟨false, k.noticed, k.passedOver || stream.failed⟩
  | .error err => ⟨false, k.noticed || err ≠ ENOENT, k.passedOver⟩

def openRead (k : Watch) : Except Errno FileRead → Watch
  | .ok file => ⟨false, k.noticed || file.readError.isSome || file.closeError.isSome, k.passedOver⟩
  | .error _ => ⟨false, true, k.passedOver⟩

def malloc (k : Watch) (ok : Bool) : Watch := ⟨false, k.noticed || !ok, k.passedOver⟩

end Watch

variable {W : Type}

/-- A call with the observer's note of its answer. -/
def noting {α : Type} (f : W → α × W) (note : Watch → α → Watch) (v : W × Watch) :
    α × (W × Watch) :=
  ((f v.1).1, (f v.1).2, note v.2 (f v.1).1)

/-- The same system with an observer of its calls. -/
def watched (sys : Sys W) : Sys (W × Watch) where
  lstat p := noting (sys.lstat p) Watch.lstat
  opendir p := noting (sys.opendir p) Watch.opendir
  fopen p := noting (sys.fopen p) Watch.fopen
  openRead p := noting (sys.openRead p) Watch.openRead
  malloc := noting sys.malloc Watch.malloc
  fnmatch := sys.fnmatch
  printf := noting sys.printf fun k _ => k
  fflush := noting sys.fflush fun k _ => k
  strerror := sys.strerror

theorem watched_refines (sys : Sys W) : Refines Prod.fst (watched sys) sys where
  lstat _ _ := rfl
  opendir _ _ := rfl
  fopen _ _ := rfl
  openRead _ _ := rfl
  malloc _ := rfl
  printf _ := rfl
  fflush _ := rfl
  fnmatch := rfl
  strerror := rfl

/-- The code notices every failure but those it passes over. -/
theorem noticed_alarm (sys : Sys W) :
    Alarm (watched sys) (fun v => v.2.opened = true) (fun v => v.2.noticed = true) where
  lstat p v h := by
    cases hr : (sys.lstat p v.1).1 with
    | ok st =>
      simp only [watched, noting, hr, Watch.lstat] at h
      exact .inl h
    | error err => exact .inr ⟨err, hr⟩
  probe p v ho h := by
    simp only [watched, noting, Watch.lstat] at h
    split at h
    · exact h
    · rwa [if_pos ho] at h
  opendir p v h := by
    cases hr : (sys.opendir p v.1).1 with
    | ok listing =>
      simp only [watched, noting, hr, Watch.opendir, Bool.or_eq_true] at h
      rcases h with h | h
      · exact .inl h
      · exact .inr (.inr ⟨listing, hr, Option.isSome_iff_ne_none.mp h⟩)
    | error err => exact .inr (.inl ⟨err, hr⟩)
  opened p v listing h := by
    have hr : (sys.opendir p v.1).1 = .ok listing := h
    simp only [watched, noting, hr, Watch.opendir]
  fopen p v h := by
    cases hr : (sys.fopen p v.1).1 with
    | ok stream =>
      simp only [watched, noting, hr, Watch.fopen] at h
      exact .inl h
    | error err =>
      simp only [watched, noting, hr, Watch.fopen, Bool.or_eq_true, decide_eq_true_eq] at h
      rcases h with h | h
      · exact .inl h
      · exact .inr ⟨err, hr, h⟩
  openRead p v h := by
    cases hr : (sys.openRead p v.1).1 with
    | ok file =>
      simp only [watched, noting, hr, Watch.openRead, Bool.or_eq_true] at h
      rcases h with (h | h) | h
      · exact .inl h
      · exact .inr (.inr ⟨file, hr, .inl (Option.isSome_iff_ne_none.mp h)⟩)
      · exact .inr (.inr ⟨file, hr, .inr (Option.isSome_iff_ne_none.mp h)⟩)
    | error err => exact .inr (.inl ⟨err, hr⟩)
  malloc v h := by
    simp only [watched, noting, Watch.malloc, Bool.or_eq_true, Bool.not_eq_true'] at h
    exact h
  printf v h := h
  fflush v h := h

/-- What was passed over stays so. -/
theorem passedOver_alarm (sys : Sys W) :
    Alarm (watched sys) (fun _ => True) (fun v => v.2.passedOver = false) where
  lstat p v h := by
    refine .inl ?_
    simp only [watched, noting, Watch.lstat] at h
    split at h
    · exact h
    · split at h
      · exact (Bool.or_eq_false_iff.mp h).1
      · exact h
  probe p v _ h := by
    simp only [watched, noting, Watch.lstat] at h
    split at h
    · exact h
    · split at h
      · exact (Bool.or_eq_false_iff.mp h).1
      · exact h
  opendir p v h := by
    refine .inl ?_
    simp only [watched, noting, Watch.opendir] at h
    split at h <;> exact h
  opened _ _ _ _ := trivial
  fopen p v h := by
    refine .inl ?_
    simp only [watched, noting, Watch.fopen] at h
    split at h
    · exact (Bool.or_eq_false_iff.mp h).1
    · exact h
  openRead p v h := by
    refine .inl ?_
    simp only [watched, noting, Watch.openRead] at h
    split at h <;> exact h
  malloc v h := .inl h
  printf v h := h
  fflush v h := h

/-- What the observer of a run remembers at its end. -/
def observed (sys : Sys W) (S : StreamHash) (q : QSort compareFileEntries)
    (rawOperand normDir : CStr) (w : W) : Watch :=
  (hashTree (watched sys) S q rawOperand normDir (w, .start)).2.world.2

/-- The run ended with status 2 and printed nothing. -/
def Closed (r : ℕ × Context W) : Prop := r.1 = 2 ∧ r.2.stdout = []

/-- The observer does not change the run. -/
theorem closed_watched (sys : Sys W) (S : StreamHash) (q : QSort compareFileEntries)
    (rawOperand normDir : CStr) (v : W × Watch) :
    Closed (hashTree sys S q rawOperand normDir v.1) ↔
      Closed (hashTree (watched sys) S q rawOperand normDir v) := by
  rw [hashTree_seen (watched_refines sys)]
  rfl

/-- A failure that is not passed over closes the run. -/
theorem closed_of_noticed (sys : Sys W) (S : StreamHash) (q : QSort compareFileEntries)
    (rawOperand normDir : CStr) (w : W)
    (h : (observed sys S q rawOperand normDir w).noticed = true) :
    Closed (hashTree sys S q rawOperand normDir w) := by
  rw [closed_watched sys S q rawOperand normDir (w, .start)]
  exact (hashTree_keeps (noticed_alarm sys) rfl).2 (by simp [Watch.start]) h

/-- A run is closed by every failure as long as it passes over none; and a run that printed
something, or did not end with status 2, is so only if it passed over none. -/
theorem failClosed_iff (sys : Sys W) (S : StreamHash) (q : QSort compareFileEntries)
    (rawOperand normDir : CStr) (w : W) :
    ((observed sys S q rawOperand normDir w).passedOver = false →
      (observed sys S q rawOperand normDir w).Failed →
        Closed (hashTree sys S q rawOperand normDir w)) ∧
    ((hashTree sys S q rawOperand normDir w).1 ≠ 2 ∨
        (hashTree sys S q rawOperand normDir w).2.stdout ≠ [] →
      (((observed sys S q rawOperand normDir w).Failed →
          Closed (hashTree sys S q rawOperand normDir w)) ↔
        (observed sys S q rawOperand normDir w).passedOver = false)) := by
  have hclosed := closed_of_noticed sys S q rawOperand normDir w
  have hwhen (hpass : (observed sys S q rawOperand normDir w).passedOver = false)
      (hfail : (observed sys S q rawOperand normDir w).Failed) :
      Closed (hashTree sys S q rawOperand normDir w) := by
    rcases hfail with hnoticed | hover
    · exact hclosed hnoticed
    · rw [hpass] at hover
      contradiction
  refine ⟨hwhen, fun hopen => ⟨fun h => ?_, hwhen⟩⟩
  by_contra hpass
  obtain ⟨hstatus, hout⟩ := h (.inr (Bool.eq_true_of_not_eq_false hpass))
  rcases hopen with hne | hne
  · exact hne hstatus
  · exact hne hout

namespace Sample

/-- A root with one file and a `.gitignore` that opens, but whose lines cannot be read. -/
def unreadableSys : Sys Unit where
  lstat := fun path u => (.ok (if path = root then ⟨.directory, 1, 1⟩ else ⟨.regular, 1, 2⟩), u)
  opendir := fun _ u => (.ok ⟨[gitignoreName, skip], none⟩, u)
  fopen := fun _ u => (.ok ⟨[], true⟩, u)
  openRead := fun _ u => (.ok ⟨[], none, none⟩, u)
  malloc := fun u => (true, u)
  fnmatch := sameName
  printf := fun u => (true, u)
  fflush := fun u => (true, u)
  strerror := fun _ => []

theorem unreadable_walk : walkDir (watched unreadableSys) sha256Stream maxDepth root ∅
    (((Context.init ((), Watch.start)).call ((watched unreadableSys).lstat root)).2.call
      (watched unreadableSys).malloc).2 =
    (0, { Context.init ((), ⟨false, false, true⟩) with
      entries := ⟨[emptyFile gitignoreName, emptyFile skip], 64⟩ }) := by
  rfl

end Sample

/-- A read error in a `.gitignore` is taken for its end: the run goes on without the rules and
ends well. -/
theorem failClosed_not : ¬ ∀ (W : Type) (sys : Sys W) (q : QSort compareFileEntries)
    (rawOperand normDir : CStr) (w : W),
    (observed sys sha256Stream q rawOperand normDir w).Failed →
      Closed (hashTree sys sha256Stream q rawOperand normDir w) := by
  intro h
  obtain ⟨c', hrun, hprint⟩ := hashTree_of_walk Sample.sortEntries
    Sample.root (fun _ => rfl) (fun _ => rfl) (fun _ => rfl) rfl rfl
    Sample.unreadable_walk (by decide)
  have hover : c'.world.2.passedOver = true := by
    apply Bool.eq_true_of_not_eq_false
    intro hbad
    have hclosed := (printTree_keeps (passedOver_alarm _) hprint).2.2 (by decide) hbad
    exact absurd hclosed.1 (by decide)
  have hclosed := h Unit Sample.unreadableSys Sample.sortEntries Sample.root Sample.root ()
    (.inr (by rw [observed, hrun, hover]))
  rw [closed_watched _ _ _ _ _ ((), Watch.start), hrun] at hclosed
  exact absurd hclosed.1 (show (0 : ℕ) ≠ 2 by decide)

end Treehash
