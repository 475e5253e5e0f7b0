import LinuxUtilities.Foundation.Attempt
import LinuxUtilities.Foundation.Bytes
import Mathlib.Data.List.DropRight

/-! What `pathaudit` asks of the system, its output streams, and the text it writes. -/
namespace Pathaudit
open CString

abbrev Errno := ℕ

def ENOENT : Errno := 2
def ENOMEM : Errno := 12
def EACCES : Errno := 13
def ENOTDIR : Errno := 20
def ELOOP : Errno := 40

inductive FileKind where
  | regular | directory | symlink | other
  deriving DecidableEq, Repr

/-- The fields of `struct stat` that `pathaudit` reads. -/
structure Stat where
  kind : FileKind
  mode : ℕ
  uid : ℕ
  deriving DecidableEq, Repr

/-- One pass of `readdir` over a directory: the names, then the end or an error. -/
structure Listing where
  names : List CStr
  error : Option Errno

/-- The path of an entry of a directory, as `build_command_candidate` joins it. -/
def childPath (dir name : CStr) : CStr :=
  if dir.bytes.getLast? ≠ some 47 then dir ++ .lit "/" ++ name else dir ++ name

/-- What ends in a slash ends where a name after it begins. -/
theorem rdropWhile_append_name {init name : List UInt8} (hinit : init.getLast? = some 47)
    (hslash : 47 ∉ name) : (init ++ name).rdropWhile (· ≠ 47) = init := by
  induction name using List.reverseRecOn with
  | nil =>
    rw [List.append_nil, List.rdropWhile_eq_self_iff]
    intro hne
    rw [List.getLast?_eq_some_getLast hne] at hinit
    simp [Option.some.inj hinit]
  | append_singleton name b ih =>
    rw [List.mem_append, not_or] at hslash
    rw [← List.append_assoc, List.rdropWhile_concat_pos _ _ _ (by
      rw [decide_eq_true_eq]
      rintro rfl
      exact hslash.2 List.mem_cons_self)]
    exact ih hslash.1

theorem rtakeWhile_append_name {init name : List UInt8} (hinit : init.getLast? = some 47)
    (hslash : 47 ∉ name) : (init ++ name).rtakeWhile (· ≠ 47) = name := by
  have happ : (init ++ name).rdropWhile (· ≠ 47) ++ (init ++ name).rtakeWhile (· ≠ 47) =
      init ++ name := List.rdropWhile_append_rtakeWhile
  rw [rdropWhile_append_name hinit hslash] at happ
  exact List.append_cancel_left happ

/-- A path gives back the name it ends in, and the directory but for its last slash. -/
theorem childPath_parts (dir : CStr) {name : CStr} (hslash : 47 ∉ name.bytes) :
    (childPath dir name).bytes.rtakeWhile (· ≠ 47) = name.bytes ∧
      (dir ≠ ∅ → dir.bytes = (childPath dir name).bytes.rdropWhile (· ≠ 47) ∨
        dir.bytes = ((childPath dir name).bytes.rdropWhile (· ≠ 47)).dropLast) := by
  unfold childPath
  split
  · have hlast : (dir ++ CStr.lit "/").bytes.getLast? = some 47 := by
      rw [CStr.append_bytes]
      exact List.getLast?_concat
    refine ⟨rtakeWhile_append_name hlast hslash, fun _ => .inr ?_⟩
    rw [CStr.append_bytes (dir ++ CStr.lit "/"), rdropWhile_append_name hlast hslash]
    exact (List.dropLast_concat).symm
  next hend =>
    rw [not_not] at hend
    refine ⟨rtakeWhile_append_name hend hslash, fun _ => .inl ?_⟩
    rw [CStr.append_bytes, rdropWhile_append_name hend hslash]

/-- A file system that does not change during a run. What lies below a path is found only
through a directory, and so is the path of a directory with a dot after it. -/
structure FileSystem where
  stat : CStr → Except Errno Stat
  lstat : CStr → Except Errno Stat
  readlink : CStr → Except Errno CStr
  /-- `access` with `X_OK`. -/
  access : CStr → Bool
  /-- `open` for reading, and the `read` of four bytes after it. -/
  openRead : CStr → Except Errno (Except Errno (List UInt8))
  realpath : CStr → Except Errno CStr
  opendir : CStr → Except Errno Listing
  getuid : ℕ
  stat_child : ∀ dir name st, dir ≠ ∅ → name ≠ ∅ → 47 ∉ name.bytes →
    stat (childPath dir name) = .ok st → ∃ dst, stat dir = .ok dst ∧ dst.kind = .directory
  stat_dots : ∀ dir name st, dir ≠ ∅ → name = .lit "." ∨ name = .lit ".." →
    stat (childPath dir name) = .ok st → st.kind = .directory

/-- The system of one run: its files, and resources whose supply is a state `W`. `malloc`
stands for every allocation and the size guards before it, `output` for every `fputc`,
`fputs` and `fprintf` on stdout, `flush` for `fflush` with `ferror`. -/
structure Sys (W : Type) where
  fs : FileSystem
  malloc : W → Bool × W
  output : W → Bool × W
  flush : W → Bool × W
  signal : W → Bool × W

/-- The system denies nothing. -/
structure Sys.Granted {W : Type} (sys : Sys W) : Prop where
  malloc : ∀ w, (sys.malloc w).1 = true
  output : ∀ w, (sys.output w).1 = true
  flush : ∀ w, (sys.flush w).1 = true
  signal : ∀ w, (sys.signal w).1 = true

/-- The process around a run. -/
structure Proc (W : Type) where
  world : W
  stdout : List UInt8
  stderr : List UInt8

/-- A part of the program; giving up is its status 2. -/
abbrev Run (W α : Type) := Attempt (Proc W) α

/-- An uppercase hexadecimal digit, as `%02X` prints it. -/
def hexDigit (n : ℕ) : UInt8 := (if n < 10 then 48 + n else 55 + n).toUInt8

/-- The output of one byte in `put_escaped_quoted`. -/
def escapedByte (ch : UInt8) : List UInt8 :=
  if ch = 34 then [92, 34]
  else if ch = 92 then [92, 92]
  else if 0x20 ≤ ch ∧ ch ≤ 0x7e then [ch]
  else [92, 120, hexDigit (ch.toNat / 16), hexDigit (ch.toNat % 16)]

/-- The pieces that `put_escaped_quoted` writes. -/
def escapedQuoted (text : CStr) : List (List UInt8) :=
  [[34]] ++ text.bytes.map escapedByte ++ [[34]]

section
variable {W : Type}

/-- `emit_diag_reason`. -/
def emitDiagReason (reason : String) (p : Proc W) : Proc W :=
  { p with stderr := p.stderr ++ ascii "pathaudit: " ++ ascii reason ++ ascii "\n" }

/-- `emit_diag_reason_root`. -/
def emitDiagReasonRoot (reason : String) (root : CStr) (p : Proc W) : Proc W :=
  { p with
    stderr := p.stderr ++ ascii "pathaudit: " ++ ascii reason ++ ascii ": " ++
      (escapedQuoted root).flatten ++ ascii "\n" }

def usageText : List UInt8 :=
  ascii "usage: pathaudit [--] ROOT...\n" ++ ascii "   or: pathaudit --path\n" ++
    ascii "   or: pathaudit --command NAME\n"

/-- `emit_usage_diag`. -/
def emitUsageDiag (reason : String) (p : Proc W) : Proc W :=
  { emitDiagReason reason p with stderr := (emitDiagReason reason p).stderr ++ usageText }

def outOfMemory {α : Type} : Run W α := Attempt.fail (emitDiagReason "OUT_OF_MEMORY")

/-- `emit_inspection_error_on_path`: its reason names the errno. -/
def inspectionError {α : Type} (err : Errno) (path : CStr) : Run W α :=
  Attempt.fail (emitDiagReasonRoot ("INSPECTION_ERROR_" ++ toString err) path)

variable (sys : Sys W)

/-- An allocation, with `OUT_OF_MEMORY` reported when there is no memory. -/
def alloc : Run W Unit :=
  Attempt.require (fun p => ((sys.malloc p.world).1, { p with world := (sys.malloc p.world).2 }))
    (emitDiagReason "OUT_OF_MEMORY")

/-- One piece of output; `emit_stdout_write_error` reports that it failed. -/
def put (piece : List UInt8) : Run W Unit :=
  Attempt.require
    (fun p => ((sys.output p.world).1, { p with
      world := (sys.output p.world).2
      stdout := if (sys.output p.world).1 then p.stdout ++ piece else p.stdout }))
    (emitDiagReason "STDOUT_WRITE")

def putAll : List (List UInt8) → Run W Unit
  | [] => pure ()
  | piece :: pieces => do
    put sys piece
    putAll pieces

/-- `complete_stdout`. -/
def completeStdout (status : ℕ) : Run W ℕ := do
  Attempt.require (fun p => ((sys.flush p.world).1, { p with world := (sys.flush p.world).2 }))
    (emitDiagReason "STDOUT_WRITE")
  pure status

end

/-- Without a promise of resources, a triple says what a result is when there is one. -/
theorem Sys.promiseNothing {W : Type} (sys : Sys W) : False → sys.Granted := False.elim

section Output
open Attempt
variable {W : Type} {sys : Sys W}

theorem alloc_meets (sys : Sys W) {granted : Prop} (hg : granted → sys.Granted) :
    Meets Proc.stdout granted (alloc sys) False fun _ => True :=
  Meets.require (fun _ => rfl) (fun _ => rfl) fun h _ => (hg h).malloc _

/-- Output that is complete is all there. -/
theorem putAll_some {pieces : List (List UInt8)} {p p' : Proc W}
    (h : putAll sys pieces p = (some (), p')) : p'.stdout = p.stdout ++ pieces.flatten := by
  induction pieces generalizing p with
  | nil =>
    obtain rfl := (Prod.mk.inj h).2
    simp
  | cons piece pieces ih =>
    obtain ⟨_, p₁, hput, hrest⟩ := bind_eq_some.mp h
    obtain ⟨hok, rfl⟩ := require_eq_some.mp hput
    rw [ih hrest, if_pos hok, List.flatten_cons, List.append_assoc]

theorem putAll_granted (hg : sys.Granted) (pieces : List (List UInt8)) (p : Proc W) :
    ∃ p', putAll sys pieces p = (some (), p') := by
  induction pieces generalizing p with
  | nil => exact ⟨p, rfl⟩
  | cons piece pieces ih =>
    obtain ⟨p', h⟩ := ih (put sys piece p).2
    have hput : put sys piece p = (some (), (put sys piece p).2) :=
      require_eq_some.mpr ⟨hg.output _, by simp [put, Attempt.require, hg.output]⟩
    exact ⟨p', bind_eq_some.mpr ⟨(), _, hput, h⟩⟩

theorem completeStdout_some {status status' : ℕ} {p p' : Proc W}
    (h : completeStdout sys status p = (some status', p')) :
    status' = status ∧ p'.stdout = p.stdout := by
  obtain ⟨_, p₁, hflush, hpure⟩ := bind_eq_some.mp h
  obtain ⟨hstatus, rfl⟩ := Prod.mk.inj hpure
  obtain ⟨-, rfl⟩ := require_eq_some.mp hflush
  exact ⟨(Option.some.inj hstatus).symm, rfl⟩

theorem completeStdout_granted (hg : sys.Granted) (status : ℕ) (p : Proc W) :
    ∃ p', completeStdout sys status p = (some status, p') :=
  ⟨_, bind_eq_some.mpr ⟨(), _, require_eq_some.mpr ⟨hg.flush _, rfl⟩, rfl⟩⟩

end Output

end Pathaudit
