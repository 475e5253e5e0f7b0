import LinuxUtilities.Openunlink.Text

/-! `escape_append`: what it stores in its buffer, and where. A hexadecimal escape is printed with
a terminator, so that it needs one byte more than it has. -/
namespace Openunlink
open CString

section Store
variable {dst bytes more beyond : List UInt8} {pos room : ℕ}

theorem length_store : (store dst pos bytes).length = dst.length := by
  induction bytes generalizing dst pos with
  | nil => rfl
  | cons b bytes ih => rw [store, ih, List.length_set]

theorem store_append :
    store dst pos (bytes ++ more) = store (store dst pos bytes) (pos + bytes.length) more := by
  induction bytes generalizing dst pos with
  | nil => rfl
  | cons b bytes ih =>
    rw [List.cons_append, store, ih, store, List.length_cons, Nat.add_right_comm, Nat.add_assoc]

/-- What lies before the position stays. -/
theorem take_store : (store dst pos bytes).take pos = dst.take pos := by
  induction bytes generalizing dst pos with
  | nil => rfl
  | cons b bytes ih =>
    have hrest : (store (dst.set pos b) (pos + 1) bytes).take (pos + 1) = _ := ih
    have hbefore := congrArg (List.take pos) hrest
    simpa [store, List.take_take, List.take_set_of_le] using hbefore

theorem take_store_length (h : pos + bytes.length ≤ dst.length) :
    (store dst pos bytes).take (pos + bytes.length) = dst.take pos ++ bytes := by
  induction bytes generalizing dst pos with
  | nil => simp [store]
  | cons b bytes ih =>
    rw [List.length_cons] at h ⊢
    have hrest : (store (dst.set pos b) (pos + 1) bytes).take (pos + 1 + bytes.length) = _ :=
      ih (by rw [List.length_set]; omega)
    have hset : (dst.set pos b).take (pos + 1) = dst.take pos ++ [b] := by
      rw [List.take_add_one, List.take_set_of_le le_rfl]
      simp [List.getElem?_set_self (show pos < dst.length by omega)]
    rw [show pos + (bytes.length + 1) = pos + 1 + bytes.length by omega, store, hrest, hset,
      List.append_assoc, List.singleton_append]

/-- What is stored later stays out of what was stored before. -/
theorem take_store_append (h : pos + bytes.length ≤ dst.length) :
    (store dst pos (bytes ++ more)).take (pos + bytes.length) = dst.take pos ++ bytes := by
  rw [store_append, take_store, take_store_length h]

theorem store_frame (h : pos + bytes.length ≤ dst.length) :
    store (dst ++ beyond) pos bytes = store dst pos bytes ++ beyond := by
  induction bytes generalizing dst pos with
  | nil => rfl
  | cons b bytes ih =>
    rw [List.length_cons] at h
    rw [store, store, List.set_append_left pos b (by omega)]
    exact ih (by rw [List.length_set]; omega)

/-- `snprintf` stays within the room that it is given. -/
theorem snprintf_frame (text : List UInt8) (h : pos + room ≤ dst.length) :
    snprintf (dst ++ beyond) pos room text =
      ((snprintf dst pos room text).1 ++ beyond, (snprintf dst pos room text).2) := by
  unfold snprintf
  split
  · rfl
  next hroom =>
    rw [store_frame]
    simp only [List.length_append, List.length_take, List.length_singleton]
    omega

theorem length_snprintf (text : List UInt8) :
    (snprintf dst pos room text).1.length = dst.length := by
  unfold snprintf
  split
  · rfl
  · exact length_store

end Store

theorem length_hexEscape (ch : UInt8) : (hexEscape ch).length = 4 := rfl

/-- A text that leaves room for the terminator is stored whole. -/
theorem snprintf_fits {dst text : List UInt8} {pos room : ℕ} (h : text.length < room) :
    snprintf dst pos room text = (store dst pos (text ++ [0]), text.length) := by
  unfold snprintf
  rw [if_neg (by omega), List.take_of_length_le (by omega)]

theorem length_escapedByte_le (ch : UInt8) : (escapedByte ch).length ≤ 4 := by
  unfold escapedByte
  split
  · simp
  split
  · simp
  · exact (length_hexEscape ch).le

theorem length_escaped_le (target : List UInt8) :
    (target.flatMap escapedByte).length ≤ 4 * target.length := by
  induction target with
  | nil => simp
  | cons ch target ih =>
    have hch := length_escapedByte_le ch
    rw [List.flatMap_cons, List.length_append, List.length_cons]
    omega

section Escape
variable {cap used pos : ℕ} {src dst beyond : List UInt8} {ch : UInt8}

/-- The bytes whose escapes are printed. -/
def Hexed (ch : UInt8) : Prop := ¬ (ch = 34 ∨ ch = 92) ∧ ¬ (0x20 ≤ ch ∧ ch ≤ 0x7e)

instance : DecidablePred Hexed := fun _ => inferInstanceAs (Decidable (_ ∧ _))

theorem escapedByte_of_hexed (h : Hexed ch) : escapedByte ch = hexEscape ch := by
  rw [escapedByte, if_neg h.1, if_neg h.2]

theorem length_escapedByte_pos (ch : UInt8) : 0 < (escapedByte ch).length := by
  unfold escapedByte
  split
  · simp
  split
  · simp
  · simp [length_hexEscape]

/-- The buffer after the escape of one byte. -/
def stored (cap : ℕ) (dst : List UInt8) (pos : ℕ) (ch : UInt8) : List UInt8 :=
  if Hexed ch then (snprintf dst pos (cap - pos) (hexEscape ch)).1
  else store dst pos (escapedByte ch)

/-- One byte: its escape is stored if it fits. -/
theorem escapeAppend_cons (h : pos ≤ cap) :
    escapeAppend cap (ch :: src) dst pos =
      if pos + (escapedByte ch).length ≤ cap then
        escapeAppend cap src (stored cap dst pos ch) (pos + (escapedByte ch).length)
      else (false, dst, pos) := by
  rw [escapeAppend, stored]
  by_cases hquote : ch = 34 ∨ ch = 92
  · have hbyte : escapedByte ch = [92, ch] := by simp [escapedByte, hquote]
    have hhexed : ¬ Hexed ch := fun hch => hch.1 hquote
    have hroom : (cap < pos ∨ cap - pos < 2) ↔ ¬ pos + 2 ≤ cap := by omega
    simp only [if_pos hquote, hbyte, if_neg hhexed, hroom, ite_not, List.length_cons,
      List.length_nil, Nat.zero_add, Nat.reduceAdd]
  by_cases hprint : 0x20 ≤ ch ∧ ch ≤ 0x7e
  · have hbyte : escapedByte ch = [ch] := by simp [escapedByte, hquote, hprint]
    have hhexed : ¬ Hexed ch := fun hch => hch.2 hprint
    have hroom : (cap < pos ∨ cap - pos < 1) ↔ ¬ pos + 1 ≤ cap := by omega
    simp only [if_neg hquote, if_pos hprint, hbyte, if_neg hhexed, hroom, ite_not,
      List.length_cons, List.length_nil, Nat.zero_add]
  · have hhexed : Hexed ch := ⟨hquote, hprint⟩
    have hroom : (cap < pos ∨ cap - pos < 4) ↔ ¬ pos + 4 ≤ cap := by omega
    have hcount : (snprintf dst pos (cap - pos) (hexEscape ch)).2 = 4 := rfl
    simp only [if_neg hquote, if_neg hprint, escapedByte_of_hexed hhexed, length_hexEscape,
      if_pos hhexed, hroom, ite_not, hcount, ne_eq, not_true_eq_false, if_false]

/-- What is stored for one byte lies between the position and the capacity. -/
theorem stored_frame (hcap : cap ≤ dst.length) (h : pos + (escapedByte ch).length ≤ cap) :
    stored cap (dst ++ beyond) pos ch = stored cap dst pos ch ++ beyond ∧
      (stored cap dst pos ch).length = dst.length := by
  unfold stored
  split
  · rw [snprintf_frame (hexEscape ch) (by omega)]
    exact ⟨rfl, length_snprintf (hexEscape ch)⟩
  · exact ⟨store_frame (by omega), length_store⟩

/-- A byte that is not printed needs only the room of its escape. -/
theorem take_stored (hcap : cap ≤ dst.length) (h : pos + (escapedByte ch).length ≤ cap)
    (hroom : pos + (escapedByte ch).length = cap → ¬ Hexed ch) :
    (stored cap dst pos ch).take (pos + (escapedByte ch).length) =
      dst.take pos ++ escapedByte ch := by
  unfold stored
  split
  next hhexed =>
    have hlt : pos + (hexEscape ch).length < cap := by
      have hne := mt hroom (not_not_intro hhexed)
      rw [escapedByte_of_hexed hhexed] at h hne
      omega
    rw [escapedByte_of_hexed hhexed, snprintf_fits (by omega)]
    exact take_store_append (by omega)
  · exact take_store_length (by omega)

theorem hexDigit_ne_zero (ch : UInt8) : hexDigit (ch % 16) ≠ 0 := by
  have hlt : (ch % 16).toNat < 16 := by
    rw [UInt8.toNat_mod]
    exact Nat.mod_lt _ (by decide)
  intro hzero
  have hnat := congrArg UInt8.toNat hzero
  unfold hexDigit at hnat
  split at hnat
  · have hdigit : (48 + (ch % 16).toNat) % 256 = 0 := by simpa using hnat
    omega
  · have hdigit : (55 + (ch % 16).toNat) % 256 = 0 := by simpa using hnat
    omega

/-- With no byte to spare, the last digit of a printed escape gives way to the terminator. -/
theorem take_stored_full (hcap : cap ≤ dst.length) (h : pos + (escapedByte ch).length = cap)
    (hhexed : Hexed ch) :
    (stored cap dst pos ch).take cap = dst.take pos ++ ((hexEscape ch).take 3 ++ [0]) := by
  rw [escapedByte_of_hexed hhexed, length_hexEscape] at h
  have hroom : cap - pos = 4 := by omega
  have hlength : ((hexEscape ch).take 3 ++ [0]).length = 4 := rfl
  have htake := @take_store_length dst ((hexEscape ch).take 3 ++ [0]) pos (by omega)
  rw [hlength, h] at htake
  rw [stored, if_pos hhexed, hroom]
  exact htake

/-- `escape_append` stays within its buffer. -/
theorem escapeAppend_frame (src : List UInt8) (hused : used ≤ cap) (hcap : cap ≤ dst.length) :
    escapeAppend cap src (dst ++ beyond) used =
        ((escapeAppend cap src dst used).1, (escapeAppend cap src dst used).2.1 ++ beyond,
          (escapeAppend cap src dst used).2.2) ∧
      (escapeAppend cap src dst used).2.1.length = dst.length := by
  induction src generalizing dst used with
  | nil => exact ⟨rfl, rfl⟩
  | cons ch src ih =>
    rw [escapeAppend_cons hused, escapeAppend_cons hused]
    split
    next hfits =>
      obtain ⟨hframe, hlength⟩ := @stored_frame cap used dst beyond ch hcap hfits
      obtain ⟨hrun, hrest⟩ := ih hfits (hlength ▸ hcap)
      rw [hframe]
      exact ⟨hrun, hrest.trans hlength⟩
    · exact ⟨rfl, rfl⟩

/-- It succeeds if the whole escaped text fits. -/
theorem escapeAppend_ok (src dst : List UInt8) (hused : used ≤ cap) :
    (escapeAppend cap src dst used).1 = true ↔
      used + (src.flatMap escapedByte).length ≤ cap := by
  induction src generalizing dst used with
  | nil => simpa [escapeAppend] using hused
  | cons ch src ih =>
    rw [escapeAppend_cons hused, List.flatMap_cons, List.length_append, ← Nat.add_assoc]
    split
    next hfits => exact ih _ hfits
    next hfull =>
      have hlong : ¬ used + (escapedByte ch).length + (src.flatMap escapedByte).length ≤ cap := by
        omega
      exact iff_of_false Bool.false_ne_true hlong

/-- With a byte to spare, the escaped text is appended. -/
theorem escapeAppend_fits (h : used + (src.flatMap escapedByte).length < cap)
    (hcap : cap ≤ dst.length) :
    ∃ dst', escapeAppend cap src dst used =
        (true, dst', used + (src.flatMap escapedByte).length) ∧ dst'.length = dst.length ∧
      dst'.take (used + (src.flatMap escapedByte).length) =
        dst.take used ++ src.flatMap escapedByte := by
  induction src generalizing dst used with
  | nil => exact ⟨dst, rfl, rfl, by simp⟩
  | cons ch src ih =>
    rw [List.flatMap_cons, List.length_append, ← Nat.add_assoc] at h ⊢
    have hfits : used + (escapedByte ch).length ≤ cap := by omega
    have hlength := (@stored_frame cap used dst [] ch hcap hfits).2
    have htake := take_stored hcap hfits fun heq => by omega
    obtain ⟨dst', hrun, hlength', htake'⟩ := ih h (hlength ▸ hcap)
    rw [escapeAppend_cons (by omega), if_pos hfits]
    refine ⟨dst', hrun, hlength'.trans hlength, ?_⟩
    rw [htake', htake, List.append_assoc]

/-- Where one text has been appended, the next one follows. -/
theorem escapeAppend_append {s t dst' : List UInt8} {used' : ℕ} (hused : used ≤ cap)
    (h : escapeAppend cap s dst used = (true, dst', used')) :
    escapeAppend cap (s ++ t) dst used = escapeAppend cap t dst' used' := by
  induction s generalizing dst used with
  | nil =>
    obtain ⟨-, rfl, rfl⟩ : true = true ∧ dst = dst' ∧ used = used' := by
      simpa [escapeAppend] using h
    rfl
  | cons ch s ih =>
    rw [escapeAppend_cons hused] at h
    rw [List.cons_append, escapeAppend_cons hused]
    split at h
    next hfits =>
      rw [if_pos hfits]
      exact ih hfits h
    · simp at h

/-- The last byte finds the escapes of the others before it. -/
theorem escapeAppend_concat (h : used + ((src ++ [ch]).flatMap escapedByte).length ≤ cap)
    (hcap : cap ≤ dst.length) :
    ∃ dst', escapeAppend cap (src ++ [ch]) dst used =
        (true, stored cap dst' (used + (src.flatMap escapedByte).length) ch,
          used + ((src ++ [ch]).flatMap escapedByte).length) ∧
      dst'.length = dst.length ∧
      dst'.take (used + (src.flatMap escapedByte).length) =
        dst.take used ++ src.flatMap escapedByte := by
  have hpos := length_escapedByte_pos ch
  simp only [List.flatMap_append, List.flatMap_singleton, List.length_append,
    ← Nat.add_assoc] at h ⊢
  obtain ⟨dst', hrun, hlength, htake⟩ := @escapeAppend_fits cap used src dst (by omega) hcap
  refine ⟨dst', ?_, hlength, htake⟩
  rw [escapeAppend_append (by omega) hrun, escapeAppend_cons (by omega), if_pos h]
  rfl

/-- What `escape_append` is to do with a buffer of `cap` bytes and the memory after it. -/
structure Appends (cap used : ℕ) (src dst beyond : List UInt8) : Prop where
  success : (escapeAppend cap src (dst ++ beyond) used).1 = true ↔
    used + (src.flatMap escapedByte).length ≤ cap
  text : (escapeAppend cap src (dst ++ beyond) used).1 = true →
    (escapeAppend cap src (dst ++ beyond) used).2.2 = used + (src.flatMap escapedByte).length ∧
      (escapeAppend cap src (dst ++ beyond) used).2.1.take
          (used + (src.flatMap escapedByte).length) =
        dst.take used ++ src.flatMap escapedByte
  within : ∃ dst', (escapeAppend cap src (dst ++ beyond) used).2.1 = dst' ++ beyond ∧
    dst'.length = dst.length

/-- What is left of an escaped text that fits, up to its end. -/
theorem take_escapeAppend (hcap : dst.length = cap)
    (h : used + (src.flatMap escapedByte).length ≤ cap) :
    (escapeAppend cap src dst used).2.2 = used + (src.flatMap escapedByte).length ∧
      ((escapeAppend cap src dst used).2.1.take (used + (src.flatMap escapedByte).length) =
          dst.take used ++ src.flatMap escapedByte ↔
        (used + (src.flatMap escapedByte).length = cap → ∀ ch ∈ src.getLast?, ¬ Hexed ch)) := by
  rcases List.eq_nil_or_concat' src with rfl | ⟨init, ch, rfl⟩
  · simp [escapeAppend]
  obtain ⟨dst', hrun, hlength, htake⟩ := escapeAppend_concat h hcap.ge
  have htext : (init ++ [ch]).flatMap escapedByte = init.flatMap escapedByte ++ escapedByte ch := by
    simp
  rw [hrun]
  refine ⟨rfl, ?_⟩
  rw [htext, List.length_append, ← Nat.add_assoc] at h ⊢
  rw [List.getLast?_concat]
  constructor
  · intro heq hfull last hlast
    obtain rfl := Option.some.inj hlast
    intro hhexed
    have hstored := take_stored_full (hlength.trans hcap).ge hfull hhexed
    rw [hfull, hstored, htake, List.append_assoc, escapedByte_of_hexed hhexed] at heq
    have hbytes := List.append_cancel_left (List.append_cancel_left heq)
    have hdigit : 0 = hexDigit (ch % 16) := by simpa [hexEscape] using hbytes
    exact hexDigit_ne_zero ch hdigit.symm
  · intro hlast
    rw [take_stored (hlength.trans hcap).ge h fun hfull => hlast hfull ch rfl, htake,
      List.append_assoc]

/-- `escape_append` does what it is to do, unless the escaped text fills the buffer and ends in a
printed escape. -/
theorem escapeAppend_exact_iff (src beyond : List UInt8) (hused : used ≤ cap)
    (hdst : dst.length = cap) :
    Appends cap used src dst beyond ↔
      (used + (src.flatMap escapedByte).length = cap → ∀ ch ∈ src.getLast?, ¬ Hexed ch) := by
  obtain ⟨hframe, hlength⟩ := @escapeAppend_frame cap used dst beyond src hused hdst.ge
  have hok := escapeAppend_ok src dst hused
  have htake : ∀ n ≤ cap, ((escapeAppend cap src dst used).2.1 ++ beyond).take n =
      (escapeAppend cap src dst used).2.1.take n := by
    intro n hn
    exact List.take_append_of_le_length (by omega)
  constructor
  · intro h hfull
    have hfits : used + (src.flatMap escapedByte).length ≤ cap := hfull.le
    have htext := (h.text (h.success.mpr hfits)).2
    rw [hframe, htake _ hfits] at htext
    exact (take_escapeAppend hdst hfits).2.mp htext hfull
  · intro hlast
    refine ⟨by rw [hframe]; exact hok, ?_, ⟨_, by rw [hframe], hlength⟩⟩
    rw [hframe]
    intro hsuccess
    have hfits := hok.mp hsuccess
    obtain ⟨hend, htext⟩ := take_escapeAppend hdst hfits
    exact ⟨hend, (htake _ hfits).trans (htext.mpr hlast)⟩

/-- A letter may fill the buffer. -/
theorem escapeAppend_exact_letter : Appends 4 3 [65] [7, 7, 7, 7] [9] ↔
    (3 + (List.flatMap escapedByte [65]).length = 4 → ∀ ch ∈ [65].getLast?, ¬ Hexed ch) :=
  escapeAppend_exact_iff [65] [9] (by decide) (by decide)

/-- The escape of a newline does not end in its last digit when it fills the buffer. -/
theorem escapeAppend_cuts_digit : ¬ ∀ (cap used : ℕ) (src dst beyond : List UInt8), used ≤ cap →
    dst.length = cap → Appends cap used src dst beyond := by
  intro h
  have htext := ((h 4 0 [10] [7, 7, 7, 7] [9] (by decide) (by decide)).text (by decide)).2
  revert htext
  decide

end Escape

end Openunlink
