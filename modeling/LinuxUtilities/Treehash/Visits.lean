import LinuxUtilities.Treehash.Watching

/-! The calls of `walk_dir` in a walk, each with the context at its entry and at its return. -/
namespace Treehash
open CString

/-- A call of `walk_dir`, by the levels that are left below `TREEHASH_MAX_DEPTH`. -/
structure Visit (W : Type) where
  levels : ℕ
  diskDir : CStr
  relDir : CStr
  entry : Context W
  status : ℤ
  exit : Context W

/-- The argument `depth` of a call. -/
def Visit.depth {W : Type} (v : Visit W) : ℕ := maxDepth - v.levels

/-- The state of the system with the calls that have returned. -/
abbrev Traced (W : Type) := W × List (Visit W)

variable {W : Type}

/-- A call of the system, which is none of `walk_dir`. -/
def beside {α : Type} (f : W → α × W) (t : Traced W) : α × Traced W :=
  ((f t.1).1, (f t.1).2, t.2)

/-- The same system with the calls that have returned. -/
def tracing (sys : Sys W) : Sys (Traced W) where
  lstat p := beside (sys.lstat p)
  opendir p := beside (sys.opendir p)
  fopen p := beside (sys.fopen p)
  openRead p := beside (sys.openRead p)
  malloc := beside sys.malloc
  fnmatch := sys.fnmatch
  printf := beside sys.printf
  fflush := beside sys.fflush
  strerror := sys.strerror

theorem tracing_refines (sys : Sys W) : Refines Prod.fst (tracing sys) sys where
  lstat _ _ := rfl
  opendir _ _ := rfl
  fopen _ _ := rfl
  openRead _ _ := rfl
  malloc _ := rfl
  printf _ := rfl
  fflush _ := rfl
  fnmatch := rfl
  strerror := rfl

/-- What no call of `walk_dir` happens in leaves the list as it is. -/
theorem refines_tracing (sys : Sys W) (visits : List (Visit W)) :
    Refines (fun w => (w, visits)) sys (tracing sys) where
  lstat _ _ := rfl
  opendir _ _ := rfl
  fopen _ _ := rfl
  openRead _ _ := rfl
  malloc _ := rfl
  printf _ := rfl
  fflush _ := rfl
  fnmatch := rfl
  strerror := rfl

/-- A call is written down when it returns. -/
def noteVisit (levels : ℕ) (diskDir relDir : CStr) (c : Context (Traced W))
    (r : ℤ × Context (Traced W)) : ℤ × Context (Traced W) :=
  let visit : Visit W :=
    ⟨levels, diskDir, relDir, c.seen Prod.fst, r.1, r.2.seen Prod.fst⟩
  (r.1, { r.2 with world := (r.2.world.1, r.2.world.2 ++ [visit]) })

/-- `walk_dir` with a list of its calls. -/
def walkDirTraced (sys : Sys W) (S : StreamHash) :
    ℕ → CStr → CStr → Context (Traced W) → ℤ × Context (Traced W)
  | 0, diskDir, relDir, c =>
    noteVisit 0 diskDir relDir c (walkDir (tracing sys) S 0 diskDir relDir c)
  | levels + 1, diskDir, relDir, c =>
    noteVisit (levels + 1) diskDir relDir c
      (walkBody (tracing sys) S (walkDirTraced sys S levels) levels diskDir relDir c)

/-- But for the list, it is `walk_dir`. -/
theorem walkDirTraced_seen (sys : Sys W) (S : StreamHash) (levels : ℕ) (disk rel : CStr)
    (c : Context (Traced W)) :
    walkDir sys S levels disk rel (c.seen Prod.fst) =
      seen Prod.fst (walkDirTraced sys S levels disk rel c) := by
  induction levels generalizing disk rel c with
  | zero => rfl
  | succ levels ih =>
    rw [walkDir_succ]
    exact walkBody_seen (tracing_refines sys) ih levels disk rel c

/-- The calls of `walk_dir` in the walk that `main` begins. -/
def visits (sys : Sys W) (S : StreamHash) (normDir : CStr) (w : W) : List (Visit W) :=
  (walkDirTraced sys S maxDepth normDir ∅ (.init (w, []))).2.world.2

end Treehash
