import LinuxUtilities.Foundation.Bytes
import LinuxUtilities.Foundation.LinearProbing

/-! The winner and shadow tables of `pathaudit`: growable item buffers with an
open-addressing index beside them, and `record_executable_hit` over both. -/
namespace Pathaudit
open CString LinearProbing

def sizeMax : ℕ := 2 ^ 64 - 1

/-- `cmp_unsigned_bytes`; the loop is that of `strcmp`. -/
def cmpUnsignedBytes (left right : CStr) : ℤ := strcmp left.bytes right.bytes

@[ext] structure WinnerEntry where
  command : CStr
  path : CStr
  deriving DecidableEq

@[ext] structure ShadowRecord where
  command : CStr
  winner : CStr
  shadow : CStr
  shadowIndex : ℕ
  deriving DecidableEq

/-- `struct WinnerBuffer` and `struct ShadowBuffer`: items, their capacity, and the
index slots, whose number is `index_cap` (a null pointer is no slots). -/
structure Buffer (α : Type) where
  items : List α
  cap : ℕ
  indexSlots : Slots

namespace Buffer

def empty {α : Type} : Buffer α := ⟨[], 0, []⟩

def indexCap {α : Type} (b : Buffer α) : ℕ := b.indexSlots.length

/-- The hash of the item at a position. -/
def hashAt {α : Type} (hash : α → ℕ) (items : List α) (i : ℕ) : ℕ := (items[i]?).elim 0 hash

end Buffer

/-- FNV-1a over the bytes of a string, in 64-bit arithmetic. -/
def hashBytesFrom (start : ℕ) (text : CStr) : ℕ :=
  text.bytes.foldl (fun hash b => (hash ^^^ b.toNat) * 1099511628211 % 2 ^ 64) start

/-- The two key hashes of the tables, as parameters. -/
structure Hashes where
  commandBytes : CStr → ℕ
  commandShadowPair : CStr → CStr → ℕ

/-- `hash_command_bytes` and `hash_command_shadow_pair` on a 64-bit build. -/
def fnvHashes : Hashes where
  commandBytes := hashBytesFrom 14695981039346656037
  commandShadowPair := fun command shadow =>
    let hash := hashBytesFrom 14695981039346656037 command
    hashBytesFrom ((hash ^^^ 0x1f) * 1099511628211 % 2 ^ 64) shadow

/-- The allocations of one append: the item array and the index slots. -/
structure AppendAllocs where
  items : Bool
  slots : Bool

section Index
variable {α : Type} (hash : α → ℕ)

/-- `winners_index_rehash` and `shadows_index_rehash`. The outer `none` of this and
the next functions is a probe loop that never ends. -/
def indexRehash (b : Buffer α) (newCap : ℕ) (slotsOk : Bool) : Option (Bool × Buffer α) :=
  if newCap = 0 ∨ newCap &&& (newCap - 1) ≠ 0 ∨ newCap > sizeMax / 8 then some (false, b)
  else if !slotsOk then some (false, b)
  else (build (Buffer.hashAt hash b.items) newCap b.items.length).map fun slots =>
    (true, { b with indexSlots := slots })

/-- `while (new_cap / 2 < len)`: a 64-bit capacity doubles at most 64 times. -/
def growCap (len : ℕ) : ℕ → ℕ → Option ℕ
  | 0, _ => none
  | fuel + 1, newCap =>
    if newCap / 2 < len then
      if newCap > sizeMax / 2 then none else growCap len fuel (newCap * 2)
    else some newCap

/-- `winners_index_insert_tail` and `shadows_index_insert_tail`. -/
def indexInsertTail (b : Buffer α) (slotsOk : Bool) : Option (Bool × Buffer α) :=
  if b.items.length = 0 then some (false, b)
  else
    let itemIndex := b.items.length - 1
    if b.indexCap = 0 ∨ b.items.length > b.indexCap / 2 then
      if b.indexCap > sizeMax / 2 then some (false, b)
      else
        match growCap b.items.length 64 (if b.indexCap = 0 then 16 else b.indexCap * 2) with
        | none => some (false, b)
        | some newCap => indexRehash hash b newCap slotsOk
    else (insert b.indexSlots (Buffer.hashAt hash b.items itemIndex) itemIndex).map fun slots =>
      (true, { b with indexSlots := slots })

/-- `winners_append` and `shadows_append`; `itemSize` is the size of one item. -/
def bufferAppend (itemSize : ℕ) (b : Buffer α) (item : α) (allocs : AppendAllocs) :
    Option (Bool × Buffer α) :=
  let newCap := if b.cap = 0 then 16 else b.cap * 2 % 2 ^ 64
  if b.items.length = b.cap ∧
      (newCap ≤ b.cap ∨ newCap > sizeMax / itemSize ∨ allocs.items = false) then
    some (false, b)
  else
    let grown := { b with cap := if b.items.length = b.cap then newCap else b.cap }
    (indexInsertTail hash { grown with items := b.items ++ [item] } allocs.slots).map fun r =>
      if r.1 then r else (false, { r.2 with items := b.items })

end Index

variable (h : Hashes)

def winnersAppend (b : Buffer WinnerEntry) (command path : CStr) (allocs : AppendAllocs) :
    Option (Bool × Buffer WinnerEntry) :=
  bufferAppend (fun e => h.commandBytes e.command) 16 b ⟨command, path⟩ allocs

def shadowsAppend (b : Buffer ShadowRecord) (command winner shadow : CStr) (shadowIndex : ℕ)
    (allocs : AppendAllocs) : Option (Bool × Buffer ShadowRecord) :=
  bufferAppend (fun r => h.commandShadowPair r.command r.shadow) 32 b
    ⟨command, winner, shadow, shadowIndex⟩ allocs

/-- `winners_find`. -/
def winnersFind (b : Buffer WinnerEntry) (command : CStr) : Option (Option WinnerEntry) :=
  if b.indexCap = 0 then some none
  else
    let isMatch := fun i => (b.items[i]?).any fun e => cmpUnsignedBytes e.command command = 0
    (find isMatch b.indexSlots (h.commandBytes command)).map fun r => r.bind fun i => b.items[i]?

/-- `shadow_tuple_recorded`. -/
def shadowTupleRecorded (b : Buffer ShadowRecord) (command winner shadow : CStr) :
    Option Bool :=
  if b.indexCap = 0 then some false
  else
    let isMatch := fun i => (b.items[i]?).any fun r =>
      cmpUnsignedBytes r.command command = 0 && cmpUnsignedBytes r.shadow shadow = 0 &&
        cmpUnsignedBytes r.winner winner = 0
    (find isMatch b.indexSlots (h.commandShadowPair command shadow)).map Option.isSome

/-- One executable found under a PATH component. -/
structure Hit where
  command : CStr
  path : CStr
  pathIndex : ℕ
  deriving DecidableEq

/-- The allocations of one `record_executable_hit`. -/
structure HitAllocs where
  commandCopy : Bool
  winnerCopy : Bool
  append : AppendAllocs

def HitAllocs.granted : HitAllocs := ⟨true, true, ⟨true, true⟩⟩

structure Tables where
  winners : Buffer WinnerEntry
  shadows : Buffer ShadowRecord

def Tables.empty : Tables := ⟨.empty, .empty⟩

/-- `record_executable_hit`: its status, 0 or 2, and the tables after it. -/
def recordExecutableHit (hit : Hit) (allocs : HitAllocs) (t : Tables) : Option (ℕ × Tables) := do
  match ← winnersFind h t.winners hit.command with
  | some winner =>
    if cmpUnsignedBytes winner.path hit.path = 0 then some (0, t)
    else if ← shadowTupleRecorded h t.shadows hit.command winner.path hit.path then some (0, t)
    else if !allocs.commandCopy || !allocs.winnerCopy then some (2, t)
    else
      let r ← shadowsAppend h t.shadows hit.command winner.path hit.path hit.pathIndex
        allocs.append
      some (if r.1 then 0 else 2, { t with shadows := r.2 })
  | none =>
    if !allocs.commandCopy then some (2, t)
    else
      let r ← winnersAppend h t.winners hit.command hit.path allocs.append
      some (if r.1 then 0 else 2, { t with winners := r.2 })

/-- The calls of one scan: they stop at the first status other than 0. -/
def recordHits : List (Hit × HitAllocs) → Tables → Option (ℕ × Tables)
  | [], t => some (0, t)
  | (hit, allocs) :: rest, t => do
    let r ← recordExecutableHit h hit allocs t
    if r.1 = 0 then recordHits rest r.2 else some r

end Pathaudit
