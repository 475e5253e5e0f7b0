import LinuxUtilities.Foundation.Bytes
import Mathlib.Data.List.DropRight

/-! The data of one `treehash` run: what the operating system answers, the
process state, and the context that `walk_dir` carries. -/
namespace Treehash
open CString

abbrev Errno := ℕ

inductive FileKind where
  | regular | directory | symlink | other
  deriving DecidableEq, Repr

/-- The fields of `struct stat` that `treehash` reads. -/
structure Stat where
  kind : FileKind
  dev : ℕ
  ino : ℕ
  deriving DecidableEq, Repr

/-- One pass of `readdir` over a directory: the names it returns, then the end of
the directory or an error. -/
structure Listing where
  names : List CStr
  error : Option Errno

/-- What reading one opened file to its end gives: the `read` results, then end of
file or an error, and the result of `close`. Interrupted reads are retried. -/
structure FileRead where
  chunks : List (List UInt8)
  readError : Option Errno
  closeError : Option Errno

/-- What `getline` can take from a stream: its bytes, and whether they ended in an
error rather than at end of file. The code does not ask which. -/
structure TextStream where
  bytes : List UInt8
  failed : Bool

/-- The operating system and libc, with a state `W` that any call may change.
`malloc` stands for every allocation, the size guards before it included. -/
structure Sys (W : Type) where
  lstat : CStr → W → Except Errno Stat × W
  opendir : CStr → W → Except Errno Listing × W
  fopen : CStr → W → Except Errno TextStream × W
  openRead : CStr → W → Except Errno FileRead × W
  malloc : W → Bool × W
  /-- `fnmatch` returning 0; the flag is `FNM_PATHNAME`. -/
  fnmatch : CStr → CStr → Bool → Bool
  printf : W → Bool × W
  fflush : W → Bool × W
  strerror : Errno → List UInt8

/-- 64 lowercase hexadecimal digits. -/
abbrev Hex := { h : List UInt8 // h.length = 64 ∧ ∀ b ∈ h, 48 ≤ b ∧ b ≤ 57 ∨ 97 ≤ b ∧ b ≤ 102 }

structure FileEntry where
  relPath : CStr
  hex : Hex
  deriving DecidableEq

structure IgnoreRule where
  pattern : CStr
  dirRel : CStr
  depth : ℕ
  isNegated : Bool
  isDirOnly : Bool
  isAnchored : Bool
  deriving DecidableEq

/-- A growable array: its items, and the slots that `realloc` gave it. -/
structure GrowArray (α : Type) where
  items : List α
  capacity : ℕ

namespace GrowArray

def empty {α : Type} : GrowArray α := ⟨[], 0⟩

@[simp] theorem empty_items {α : Type} : (empty : GrowArray α).items = [] := rfl

end GrowArray

/-- `struct TreehashContext` with the process around it. -/
structure Context (W : Type) where
  entries : GrowArray FileEntry
  rules : GrowArray IgnoreRule
  ancestors : List (ℕ × ℕ)
  world : W
  stdout : List UInt8
  stderr : List UInt8

namespace Context
variable {W : Type}

def init (w : W) : Context W := ⟨.empty, .empty, [], w, [], []⟩

def fputs (c : Context W) (text : List UInt8) : Context W :=
  { c with stderr := c.stderr ++ text }

/-- Ask the operating system. -/
def call {β : Type} (c : Context W) (f : W → β × W) : β × Context W :=
  ((f c.world).1, { c with world := (f c.world).2 })

@[simp] theorem call_fst {β : Type} (c : Context W) (f : W → β × W) :
    (c.call f).1 = (f c.world).1 := rfl

@[simp] theorem call_snd {β : Type} (c : Context W) (f : W → β × W) :
    (c.call f).2 = { c with world := (f c.world).2 } := rfl

end Context

/-- One byte of `print_sanitized`. -/
def sanitizedByte (b : UInt8) : List UInt8 :=
  if b < 0x20 ∨ b > 0x7E ∨ b = 92 ∨ b = 34 then
    let digit (n : ℕ) : UInt8 := (if n < 10 then 48 + n else 55 + n).toUInt8
    [92, 120, digit (b.toNat / 16), digit (b.toNat % 16)]
  else [b]

def printSanitized (s : CStr) : List UInt8 := s.bytes.flatMap sanitizedByte

/-- `print_diag_path`. -/
def printDiagPath (head : String) (path : CStr) (tail : String) : List UInt8 :=
  ascii head ++ printSanitized path ++ ascii tail

/-- `print_diag_path` with the text of `errno` and a newline after it. -/
def printDiagErrno {W : Type} (sys : Sys W) (head : String) (path : CStr) (err : Errno) :
    List UInt8 :=
  printDiagPath head path "': " ++ sys.strerror err ++ ascii "\n"

/-- The room for one more item: `realloc` to `first` or twice the capacity when the
array is full. -/
def reserve {W α : Type} (sys : Sys W) (first : ℕ) (arr : GrowArray α) (c : Context W) :
    Option (GrowArray α) × Context W :=
  if arr.items.length ≥ arr.capacity then
    let newCap := if arr.capacity = 0 then first else arr.capacity * 2
    let r := c.call sys.malloc
    (if r.1 then some { arr with capacity := newCap } else none, r.2)
  else (some arr, c)

/-- `add_file_entry`; `false` is its `-1`. -/
def addFileEntry {W : Type} (sys : Sys W) (relPath : CStr) (hex : Hex) (c : Context W) :
    Bool × Context W :=
  match reserve sys 64 c.entries c with
  | (none, c) => (false, c)
  | (some arr, c) =>
    let c := { c with entries := arr }
    let p := c.call sys.malloc
    if p.1 then (true, { p.2 with entries.items := arr.items ++ [⟨relPath, hex⟩] })
    else (false, p.2)

/-- `add_ignore_rule`; `false` is its `-1`. -/
def addIgnoreRule {W : Type} (sys : Sys W) (rule : IgnoreRule) (c : Context W) :
    Bool × Context W :=
  match reserve sys 32 c.rules c with
  | (none, c) => (false, c)
  | (some arr, c) =>
    let c := { c with rules := arr }
    let p := c.call sys.malloc
    if p.1 then
      let d := p.2.call sys.malloc
      if d.1 then (true, { d.2 with rules.items := arr.items ++ [rule] }) else (false, d.2)
    else (false, p.2)

/-- `pop_rules`: drop the rules of this depth from the end of the stack. -/
def popRules {W : Type} (depth : ℕ) (c : Context W) : Context W :=
  { c with rules.items := c.rules.items.rdropWhile (fun r => r.depth = depth) }

end Treehash
