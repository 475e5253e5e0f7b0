import LinuxUtilities.Foundation.Bytes

/-! C strings packed one after the other into one buffer, and neighbours joined or parted
by one write to the byte between them. -/
namespace CString

/-- The strings one after the other, each with its terminator. -/
def packed (texts : List CStr) : List UInt8 := texts.flatMap fun t => t.bytes ++ [0]

/-- The C string at an offset of a buffer. -/
def cstrAt (buffer : List UInt8) (offset : ℕ) : CStr := .ofBytes (buffer.drop offset)

/-- The strings with a separator between neighbours, as one string. -/
def joined (sep first : CStr) (rest : List CStr) : CStr :=
  rest.foldl (fun text next => text ++ sep ++ next) first

section Packed
variable {texts rest : List CStr}

@[simp] theorem packed_nil : packed [] = [] := rfl

@[simp] theorem packed_cons (text : CStr) (texts : List CStr) :
    packed (text :: texts) = text.bytes ++ 0 :: packed texts := by
  simp [packed]

@[simp] theorem packed_append (texts rest : List CStr) :
    packed (texts ++ rest) = packed texts ++ packed rest := by
  simp [packed]

theorem ofBytes_nul (text : CStr) (after : List UInt8) :
    CStr.ofBytes (text.bytes ++ 0 :: after) = text := by
  ext1
  have hall : ∀ b ∈ text.bytes, decide (b ≠ 0) = true := by
    intro b hb
    simpa using CStr.ne_zero_of_mem hb
  simp only [CStr.ofBytes]
  rw [List.takeWhile_append_of_pos hall]
  simp

/-- Where a packed string starts, it is the C string there. -/
theorem cstrAt_packed (texts : List CStr) (text : CStr) (rest : List CStr) :
    cstrAt (packed (texts ++ text :: rest)) (packed texts).length = text := by
  rw [cstrAt, packed_append, List.drop_left, packed_cons, ofBytes_nul]

theorem length_packed_append (texts : List CStr) (text : CStr) :
    (packed (texts ++ [text])).length = (packed texts).length + text.length + 1 := by
  simp [CStr.length, Nat.add_assoc]

/-- A write to the byte after a packed string. -/
theorem set_after (texts : List CStr) (text : CStr) (after : List UInt8) (old new : UInt8) :
    (packed texts ++ (text.bytes ++ old :: after)).set ((packed texts).length + text.length) new =
      packed texts ++ (text.bytes ++ new :: after) := by
  rw [← List.append_assoc, ← List.append_assoc, CStr.length, ← List.length_append,
    List.set_append_right _ _ (Nat.le_refl _), Nat.sub_self, List.set_cons_zero]

theorem length_packed (texts : List CStr) :
    (packed texts).length = (texts.map fun t => t.length + 1).sum := by
  simp [packed, List.length_flatMap, CStr.length]

variable {sep : CStr} {b : UInt8}

/-- The separator over the terminator joins two neighbours. -/
theorem packed_join (hsep : sep.bytes = [b]) (texts : List CStr) (text next : CStr)
    (rest : List CStr) :
    (packed (texts ++ text :: next :: rest)).set ((packed texts).length + text.length) b =
      packed (texts ++ (text ++ sep ++ next) :: rest) := by
  rw [packed_append, packed_cons, set_after]
  simp [hsep]

/-- A terminator over the separator parts them again. -/
theorem packed_part (hsep : sep.bytes = [b]) (texts : List CStr) (text next : CStr)
    (rest : List CStr) :
    (packed (texts ++ (text ++ sep ++ next) :: rest)).set ((packed texts).length + text.length) 0 =
      packed (texts ++ text :: next :: rest) := by
  have hbytes : (text ++ sep ++ next).bytes ++ 0 :: packed rest =
      text.bytes ++ b :: (next.bytes ++ 0 :: packed rest) := by simp [hsep]
  rw [packed_append, packed_cons, hbytes, set_after]
  simp

end Packed

section Split
variable {b : UInt8} {bytes part : List UInt8}

theorem mem_splitOn (h : part ∈ bytes.splitOn b) : ∀ x ∈ part, x ∈ bytes ∧ x ≠ b := by
  induction bytes generalizing part with
  | nil =>
    obtain rfl : part = [] := by simpa using h
    simp
  | cons a bytes ih =>
    have hmem {part : List UInt8} (hpart : part ∈ bytes.splitOn b) (x : UInt8) (hx : x ∈ part) :
        x ∈ a :: bytes ∧ x ≠ b :=
      ⟨List.mem_cons_of_mem a (ih hpart x hx).1, (ih hpart x hx).2⟩
    rw [List.splitOn_cons_eq_if_modifyHead] at h
    split at h
    · rcases List.mem_cons.mp h with rfl | h
      · simp
      · exact hmem h
    next hne =>
      obtain ⟨head, tail, hsplit⟩ := List.exists_cons_of_ne_nil (List.splitOn_ne_nil b bytes)
      rw [hsplit, List.modifyHead_cons, List.mem_cons] at h
      rcases h with rfl | h
      · intro x hx
        rcases List.mem_cons.mp hx with rfl | hx
        · exact ⟨List.mem_cons_self, by simpa using hne⟩
        · exact hmem (by rw [hsplit]; exact List.mem_cons_self) x hx
      · exact hmem (by rw [hsplit]; exact List.mem_cons_of_mem head h)

theorem length_splitOn (b : UInt8) (bytes : List UInt8) :
    (bytes.splitOn b).length = 1 + bytes.count b := by
  induction bytes with
  | nil => rfl
  | cons a bytes ih =>
    rw [List.splitOn_cons_eq_if_modifyHead, List.count_cons]
    split
    · simp [ih, Nat.add_assoc]
    · simp [ih]

theorem sum_splitOn (b : UInt8) (bytes : List UInt8) :
    ((bytes.splitOn b).map fun part => part.length + 1).sum = bytes.length + 1 := by
  induction bytes with
  | nil => rfl
  | cons a bytes ih =>
    rw [List.splitOn_cons_eq_if_modifyHead, List.length_cons]
    split
    · simp [ih, Nat.add_comm]
    · obtain ⟨head, tail, hsplit⟩ := List.exists_cons_of_ne_nil (List.splitOn_ne_nil b bytes)
      rw [hsplit] at ih ⊢
      simp only [List.modifyHead_cons, List.map_cons, List.sum_cons, List.length_cons] at ih ⊢
      omega

end Split

section Joined
variable (sep : CStr)

@[simp] theorem joined_nil (first : CStr) : joined sep first [] = first := rfl

theorem joined_cons (first next : CStr) (rest : List CStr) :
    joined sep first (next :: rest) = joined sep (first ++ sep ++ next) rest := rfl

/-- The first string apart from the others. -/
theorem joined_head (first next : CStr) (rest : List CStr) :
    joined sep (first ++ sep ++ next) rest = first ++ sep ++ joined sep next rest := by
  induction rest generalizing next with
  | nil => rfl
  | cons text rest ih => rw [joined_cons, joined_cons, ← ih, ← CStr.append_assoc,
      ← CStr.append_assoc]

theorem joined_bytes (first : CStr) (rest : List CStr) :
    (joined sep first rest).bytes =
      List.intercalate sep.bytes (first.bytes :: rest.map CStr.bytes) := by
  induction rest generalizing first with
  | nil => simp [List.intercalate]
  | cons next rest ih =>
    rw [joined_cons, joined_head, CStr.append_bytes, CStr.append_bytes, ih, List.map_cons,
      List.intercalate_cons_cons]

theorem intercalate_append {α : Type} (sep : List α) {left right : List (List α)}
    (hleft : left ≠ []) (hright : right ≠ []) :
    sep.intercalate (left ++ right) = sep.intercalate left ++ sep ++ sep.intercalate right := by
  induction left with
  | nil => contradiction
  | cons part left ih =>
    cases left with
    | nil =>
      rw [List.singleton_append, List.intercalate_cons_of_ne_nil hright,
        List.intercalate_singleton]
    | cons next left =>
      rw [List.cons_append, List.cons_append, List.intercalate_cons_cons,
        List.intercalate_cons_cons, ← List.cons_append, ih (by simp)]
      simp only [List.append_assoc]

end Joined

end CString
