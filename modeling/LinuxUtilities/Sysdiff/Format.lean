import LinuxUtilities.Foundation.Lines
import LinuxUtilities.Sysdiff.Snapshot

/-! Snapshot format 1: which byte streams are snapshots, and which entries they hold. -/
namespace Sysdiff
open CString

/-- The syntax of keys. -/
structure ValidKey (key : List UInt8) : Prop where
  bytes : ∀ ch ∈ key, isKeyByte ch
  dot : 46 ∈ key
  noDoubleDot : key.IsChain fun a b => ¬ (a = 46 ∧ b = 46)
  noSlashFirst : key.head? ≠ some 47
  noDotLast : key.getLast? ≠ some 46

def Blank (line : List UInt8) : Prop := ∀ ch ∈ line, isHorizontalSpace ch

def Comment (line : List UInt8) : Prop := ∃ space text, line = space ++ 35 :: text ∧ Blank space

theorem keyLoop_iff {previous : Option UInt8} {sawDot : Bool} {key : List UInt8} :
    keyLoop previous sawDot key = true ↔ (∀ ch ∈ key, isKeyByte ch) ∧ (sawDot ∨ 46 ∈ key) ∧
      (previous.toList ++ key).IsChain fun a b => ¬ (a = 46 ∧ b = 46) := by
  fun_induction keyLoop previous sawDot key with
  | case1 previous sawDot => cases previous <;> simp
  | case2 previous sawDot ch rest hch =>
    simp only [Bool.not_eq_eq_eq_not, Bool.not_true] at hch
    simp [hch]
  | case3 sawDot rest hch => simp
  | case4 previous sawDot rest hch hprev ih =>
    rw [ih]
    cases previous with
    | none => simp_all
    | some b =>
      have hb : b ≠ 46 := fun h => hch (by rw [h])
      simp_all
  | case5 previous sawDot ch rest hch hdot ih =>
    rw [ih]
    have hdot' : 46 ≠ ch := Ne.symm hdot
    cases previous with
    | none => simp_all only [Option.toList, List.mem_cons, List.nil_append, List.singleton_append,
        Bool.not_eq_eq_eq_not, Bool.not_true, Bool.not_eq_false, forall_eq_or_imp, true_and,
        false_or]
    | some b => simp_all only [Option.toList, List.mem_cons, List.singleton_append,
        List.isChain_cons_cons, Bool.not_eq_eq_eq_not, Bool.not_true, Bool.not_eq_false,
        forall_eq_or_imp, true_and, false_or, and_false, not_false_eq_true]

theorem isValidKey_iff {key : List UInt8} : isValidKey key = true ↔ ValidKey key := by
  unfold isValidKey
  split
  next h =>
    simp only [Bool.false_eq_true, false_iff]
    intro hvalid
    obtain rfl | h | h := h
    · exact absurd hvalid.dot (by simp)
    · exact hvalid.noSlashFirst h
    · exact hvalid.noDotLast h
  next h =>
    simp only [not_or] at h
    rw [keyLoop_iff]
    constructor
    · rintro ⟨hbytes, hdot, hchain⟩
      exact ⟨hbytes, by simpa using hdot, hchain, h.2.1, h.2.2⟩
    · intro hvalid
      exact ⟨hvalid.bytes, .inr hvalid.dot, hvalid.noDoubleDot⟩

instance (key : List UInt8) : Decidable (ValidKey key) := decidable_of_iff _ isValidKey_iff

theorem isBlankLine_iff {line : List UInt8} : isBlankLine line = true ↔ Blank line := by
  simp [isBlankLine, Blank]

theorem isCommentLine_iff {line : List UInt8} : isCommentLine line = true ↔ Comment line := by
  rw [isCommentLine, decide_eq_true_eq, List.head?_eq_some_iff]
  constructor
  · rintro ⟨text, h⟩
    refine ⟨line.takeWhile isHorizontalSpace, text, ?_, fun ch hch => List.mem_takeWhile_imp hch⟩
    rw [← h, List.takeWhile_append_dropWhile]
  · rintro ⟨space, text, rfl, hspace⟩
    refine ⟨text, ?_⟩
    rw [List.dropWhile_append_of_pos hspace]
    rfl

instance (line : List UInt8) : Decidable (Blank line) := decidable_of_iff _ isBlankLine_iff

instance (line : List UInt8) : Decidable (Comment line) := decidable_of_iff _ isCommentLine_iff

/-- The record in a line: the key before the first `=`, and the bytes after it. -/
def recordOf (line : List UInt8) : Option Entry :=
  if 61 ∈ line ∧ ValidKey (line.take (line.idxOf 61)) then
    some ⟨.ofBytes (line.take (line.idxOf 61)), .ofBytes (line.drop (line.idxOf 61 + 1))⟩
  else none

/-- A line of format 1. -/
def LineKind (line : List UInt8) : Prop :=
  Blank line ∨ Comment line ∨ (recordOf line).isSome

instance (line : List UInt8) : Decidable (LineKind line) := by unfold LineKind; infer_instance

/-- A line without the CR before its LF. -/
def dropCr (line : List UInt8) : List UInt8 :=
  if line.getLast? = some 13 then line.dropLast else line

/-- The contents of terminated lines and of a last line without LF. -/
def contents (lines : List (List UInt8)) (last : List UInt8) : List (List UInt8) :=
  lines.map dropCr ++ if last = [] then [] else [last]

def snapshotLines (bytes : List UInt8) : List (List UInt8) :=
  contents (Lines.split 10 bytes).1 (Lines.split 10 bytes).2

def records (bytes : List UInt8) : List Entry := (snapshotLines bytes).filterMap recordOf

/-- The byte streams that are snapshots in format 1. -/
structure Format1 (bytes : List UInt8) : Prop where
  size : bytes.length ≤ maxSnapshotBytes
  nulFree : (0 : UInt8) ∉ bytes
  lineLength : ∀ line ∈ snapshotLines bytes, line.length ≤ maxLineBytes
  lineKind : ∀ line ∈ snapshotLines bytes, LineKind line
  count : (records bytes).length ≤ maxSnapshotEntries
  unique : ((records bytes).map Entry.key).Nodup

/-- No blank or comment line reads as a record. -/
theorem recordOf_eq_none {line : List UInt8} (h : Blank line ∨ Comment line) :
    recordOf line = none := by
  rw [recordOf, if_neg]
  rintro ⟨-, hkey⟩
  -- a key begins the line, with a byte that begins no blank or comment line
  have hne : line.take (line.idxOf 61) ≠ [] := List.ne_nil_of_mem hkey.dot
  cases line with
  | nil => simp at hne
  | cons ch rest =>
    have hfirst : isKeyByte ch = true := by
      apply hkey.bytes
      cases hn : (ch :: rest).idxOf 61 with
      | zero => simp [hn] at hne
      | succ n => simp
    have hother : isHorizontalSpace ch = true ∨ ch = 35 := by
      obtain hblank | ⟨space, text, heq, hspace⟩ := h
      · exact .inl (hblank ch (by simp))
      · cases space with
        | nil => exact .inr (List.cons.inj heq).1
        | cons s space =>
          left
          rw [(List.cons.inj heq).1]
          exact hspace s (by simp)
    simp only [isHorizontalSpace, decide_eq_true_eq] at hother
    obtain (rfl | rfl) | rfl := hother <;> exact absurd hfirst (by decide)

/-- A record is a valid key, `=` and the value. -/
theorem recordOf_eq_some {line : List UInt8} (hnul : (0 : UInt8) ∉ line) {e : Entry} :
    recordOf line = some e ↔ ValidKey e.key.bytes ∧ line = e.key.bytes ++ 61 :: e.value.bytes := by
  constructor
  · intro h
    rw [recordOf] at h
    split at h
    next hc =>
      obtain rfl := Option.some.inj h
      have hlt := List.idxOf_lt_length_iff.mpr hc.1
      rw [CStr.ofBytes_bytes fun hm => hnul (List.mem_of_mem_take hm),
        CStr.ofBytes_bytes fun hm => hnul (List.mem_of_mem_drop hm)]
      refine ⟨hc.2, ?_⟩
      have hdrop := List.drop_eq_getElem_cons hlt
      rw [List.getElem_idxOf hlt] at hdrop
      rw [← hdrop, List.take_append_drop]
    next => contradiction
  · rintro ⟨hkey, rfl⟩
    have hno : (61 : UInt8) ∉ e.key.bytes := fun hm => absurd (hkey.bytes 61 hm) (by decide)
    have hidx : (e.key.bytes ++ 61 :: e.value.bytes).idxOf 61 = e.key.bytes.length := by
      rw [List.idxOf_append_of_notMem hno, List.idxOf_cons_self, Nat.add_zero]
    have htake : (e.key.bytes ++ 61 :: e.value.bytes).take e.key.bytes.length = e.key.bytes :=
      List.take_left
    have hdrop : (e.key.bytes ++ 61 :: e.value.bytes).drop (e.key.bytes.length + 1) =
        e.value.bytes := by
      rw [← List.drop_drop, List.drop_left, List.drop_one, List.tail_cons]
    rw [recordOf, hidx, htake, hdrop, if_pos ⟨by simp, hkey⟩]
    exact congrArg some (by
      rw [Entry.mk.injEq]
      exact ⟨CStr.ext (CStr.ofBytes_bytes e.key.nulFree),
        CStr.ext (CStr.ofBytes_bytes e.value.nulFree)⟩)

theorem mem_of_mem_dropCr {line : List UInt8} {ch : UInt8} (h : ch ∈ dropCr line) : ch ∈ line := by
  unfold dropCr at h
  split at h
  · exact List.mem_of_mem_dropLast h
  · exact h

/-- The lines hold bytes of the stream only. -/
theorem mem_of_mem_snapshotLines {bytes line : List UInt8} {ch : UInt8}
    (hline : line ∈ snapshotLines bytes) (hch : ch ∈ line) : ch ∈ bytes := by
  rw [← Lines.join_split 10 bytes, Lines.join, List.mem_append, List.mem_flatMap]
  rw [snapshotLines, contents, List.mem_append, List.mem_map] at hline
  obtain ⟨l, hl, rfl⟩ | hlast := hline
  · exact .inl ⟨l, hl, List.mem_append_left _ (mem_of_mem_dropCr hch)⟩
  · right
    split at hlast
    · simp at hlast
    · rwa [List.mem_singleton.mp hlast] at hch

/-- The map of a stream: the pairs of a key and a value that a line of it holds. -/
def snapshotMap (bytes : List UInt8) : Set (CStr × CStr) :=
  {pair | ∃ line ∈ snapshotLines bytes,
    ValidKey pair.1.bytes ∧ line = pair.1.bytes ++ 61 :: pair.2.bytes}

theorem mem_records {bytes : List UInt8} (hnul : (0 : UInt8) ∉ bytes) {e : Entry} :
    e ∈ records bytes ↔ (e.key, e.value) ∈ snapshotMap bytes := by
  rw [records, List.mem_filterMap]
  apply exists_congr
  intro line
  apply and_congr_right
  intro hline
  exact recordOf_eq_some fun hm => hnul (mem_of_mem_snapshotLines hline hm)

end Sysdiff
