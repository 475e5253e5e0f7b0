import LinuxUtilities.Treehash.Operand

/-! `main` with its argument loop: which command lines are refused, and which reach the
walk. -/
namespace Treehash
open CString

/-- How the argument loop of `main` ends: in one of its returns, or with `raw_operand`. -/
inductive Arguments where
  | usage | version
  | refused (text : List UInt8)
  | operand (raw : CStr)
  deriving DecidableEq

def usageText : List UInt8 := ascii <|
  "Usage: treehash [OPTIONS] [WORKSPACE_DIR]\n" ++
  "\n" ++
  "Compute deterministic SHA-256 Merkle tree root hash and pin manifest.\n" ++
  "\n" ++
  "Options:\n" ++
  "  --help     Display this help and exit\n" ++
  "  --version  Output version information and exit\n"

def versionText : List UInt8 := ascii "treehash 0.1.0\n"

def combinedHelp : List UInt8 :=
  ascii "treehash: cannot combine '--help' with operands or other options\n"

def combinedVersion : List UInt8 :=
  ascii "treehash: cannot combine '--version' with operands or other options\n"

def tooManyArguments : List UInt8 :=
  ascii "treehash: too many arguments; expected at most one workspace directory\n"

/-- The loop of `main` over `argv`, with `raw_operand` so far. -/
def argumentLoop (argc : ℕ) : Option CStr → List CStr → Arguments
  | raw, [] => .operand (raw.getD (.lit "."))
  | raw, arg :: args =>
    if arg = .lit "--help" then
      if argc = 2 then .usage else .refused combinedHelp
    else if arg = .lit "--version" then
      if argc = 2 then .version else .refused combinedVersion
    else if arg.bytes.head? = some 45 then
      .refused (printDiagPath "treehash: unknown option '" arg "'\n")
    else
      match raw with
      | none => argumentLoop argc (some arg) args
      | some _ => .refused tooManyArguments

/-- The arguments after the program name. -/
def readArguments (args : List CStr) : Arguments := argumentLoop (args.length + 1) none args

/-- `main`, on the arguments after the program name. -/
def main {W : Type} (sys : Sys W) (S : StreamHash) (q : QSort compareFileEntries)
    (args : List CStr) (w : W) : ℕ × Context W :=
  match readArguments args with
  | .usage => (0, (printStdout sys usageText (.init w)).2)
  | .version => (0, (printStdout sys versionText (.init w)).2)
  | .refused text => (2, (Context.init w).fputs text)
  | .operand raw => hashOperand sys S q raw w

/-- An argument that the loop takes as the workspace directory. -/
def IsOperand (arg : CStr) : Prop := arg.bytes.head? ≠ some 45

theorem IsOperand.ne_help {arg : CStr} (h : IsOperand arg) : arg ≠ .lit "--help" := by
  rintro rfl
  exact h (by decide)

theorem IsOperand.ne_version {arg : CStr} (h : IsOperand arg) : arg ≠ .lit "--version" := by
  rintro rfl
  exact h (by decide)

theorem argumentLoop_operand {argc : ℕ} {arg : CStr} (h : IsOperand arg) (raw : Option CStr)
    (args : List CStr) : argumentLoop argc raw (arg :: args) =
      match raw with
      | none => argumentLoop argc (some arg) args
      | some _ => .refused tooManyArguments := by
  simp only [argumentLoop, h.ne_help, h.ne_version, ↓reduceIte]
  exact if_neg h

/-- After an operand the loop only ends well at the end of the arguments. -/
theorem argumentLoop_some {argc : ℕ} (hargc : argc ≠ 2) (raw : CStr) (args : List CStr) :
    args ≠ [] → ∃ text, argumentLoop argc (some raw) args = .refused text := by
  intro hne
  cases args with
  | nil => contradiction
  | cons arg args =>
    simp only [argumentLoop, hargc, ↓reduceIte]
    split_ifs
    · exact ⟨_, rfl⟩
    · exact ⟨_, rfl⟩
    · exact ⟨_, rfl⟩
    · exact ⟨_, rfl⟩

/-- A command line is taken in four ways: the working directory, a named directory, and
each of the two options on its own; every other one is refused. -/
theorem readArguments_cases (args : List CStr) :
    args = [] ∧ readArguments args = .operand (.lit ".") ∨
    (∃ arg, args = [arg] ∧ IsOperand arg ∧ readArguments args = .operand arg) ∨
    args = [.lit "--help"] ∧ readArguments args = .usage ∨
    args = [.lit "--version"] ∧ readArguments args = .version ∨
    ∃ text, readArguments args = .refused text := by
  match args with
  | [] => exact .inl ⟨rfl, rfl⟩
  | [arg] =>
    by_cases hhelp : arg = .lit "--help"
    · subst hhelp
      exact .inr (.inr (.inl ⟨rfl, by decide⟩))
    by_cases hversion : arg = .lit "--version"
    · subst hversion
      exact .inr (.inr (.inr (.inl ⟨rfl, by decide⟩)))
    by_cases hop : arg.bytes.head? = some 45
    · refine .inr (.inr (.inr (.inr ⟨printDiagPath "treehash: unknown option '" arg "'\n", ?_⟩)))
      simp only [readArguments, argumentLoop, hhelp, hversion, hop, ↓reduceIte]
    · refine .inr (.inl ⟨arg, rfl, hop, ?_⟩)
      rw [readArguments, argumentLoop_operand hop]
      rfl
  | arg :: arg' :: args =>
    have hargc : (arg :: arg' :: args).length + 1 ≠ 2 := by simp
    refine .inr (.inr (.inr (.inr ?_)))
    by_cases hop : IsOperand arg
    · rw [readArguments, argumentLoop_operand hop]
      exact argumentLoop_some hargc arg (arg' :: args) (List.cons_ne_nil _ _)
    · have hdash : arg.bytes.head? = some 45 := not_not.mp hop
      unfold readArguments
      simp only [argumentLoop, hargc, hdash, ↓reduceIte]
      split_ifs
      · exact ⟨_, rfl⟩
      · exact ⟨_, rfl⟩
      · exact ⟨_, rfl⟩

end Treehash
