import LinuxUtilities.Foundation.EscapedText
import LinuxUtilities.Foundation.Separator
import LinuxUtilities.Sysdiff.Difference

/-! What `put_escaped_value` and the lines of a comparison tell: values, lines and differences
are read back from the text. -/
namespace Sysdiff
open CString MapDifference EscapedText

/-- No byte but the backslash itself is escaped with a backslash. -/
def plain (_ : UInt8) : Bool := false

/-- The three bytes that are shielded in a value. -/
def arrow : List UInt8 := [32, 45, 62]

/-- The rendering of the bytes of a value. -/
def renderBytes (bytes : List UInt8) : List UInt8 := (escapedValue bytes).flatten

theorem hexUpper_eq {n : ℕ} (h : n < 16) : hexUpper n.toUInt8 = EscapedText.hexDigit n := by
  interval_cases n <;> decide

theorem escapedByte_eq (ch : UInt8) : escapedByte ch = escape plain ch := by
  have hlt : ch.toNat < 256 := ch.toNat_lt
  have hhigh : hexUpper (ch / 16) = EscapedText.hexDigit (ch.toNat / 16) := by
    rw [← hexUpper_eq (by omega)]
    congr 1
    exact UInt8.toNat_inj.mp (by simp [UInt8.toNat_div]; omega)
  have hlow : hexUpper (ch % 16) = EscapedText.hexDigit (ch.toNat % 16) := by
    rw [← hexUpper_eq (by omega)]
    congr 1
    exact UInt8.toNat_inj.mp (by simp [UInt8.toNat_mod]; omega)
  unfold escapedByte escape
  by_cases hslash : ch = 92
  · rw [if_pos hslash, if_pos (.inr hslash), hslash]
    rfl
  · simp only [hslash, plain, Bool.false_eq_true, or_self, if_false, hhigh, hlow]
    rfl

theorem renderBytes_nil : renderBytes [] = [] := rfl

/-- The shielded bytes are rendered together. -/
theorem renderBytes_arrow (rest : List UInt8) :
    renderBytes (arrow ++ rest) = 32 :: 45 :: (hexEscape 62 ++ renderBytes rest) := by
  have hpiece : ascii " -\\x3E" = 32 :: 45 :: hexEscape 62 := by decide
  simp [renderBytes, arrow, escapedValue, hpiece]

/-- Other bytes are rendered one by one. -/
theorem renderBytes_cons {a : UInt8} {rest : List UInt8} (h : ¬ arrow <+: a :: rest) :
    renderBytes (a :: rest) = escape plain a ++ renderBytes rest := by
  have hcons : escapedValue (a :: rest) = escapedByte a :: escapedValue rest := by
    conv_lhs => unfold escapedValue
    split
    · contradiction
    next b c tail heq =>
      obtain ⟨rfl, rfl⟩ := List.cons.inj heq
      rw [if_neg]
      rintro ⟨rfl, rfl, rfl⟩
      exact h ⟨tail, rfl⟩
    next heq =>
      obtain ⟨rfl, rfl⟩ := List.cons.inj heq
      rfl
  simp [renderBytes, hcons, escapedByte_eq]

/-- Induction over a value as it is rendered. -/
theorem renderBytes_induction {motive : List UInt8 → Prop} (nil : motive [])
    (shielded : ∀ rest, motive rest → motive (arrow ++ rest))
    (single : ∀ a rest, ¬ arrow <+: a :: rest → motive rest → motive (a :: rest))
    (bytes : List UInt8) : motive bytes := by
  have hlength : ∀ n, ∀ bytes : List UInt8, bytes.length ≤ n → motive bytes := by
    intro n
    induction n with
    | zero =>
      intro bytes hle
      obtain rfl := List.length_eq_zero_iff.mp (Nat.le_zero.mp hle)
      exact nil
    | succ n ih =>
      intro bytes hle
      cases bytes with
      | nil => exact nil
      | cons a rest =>
        have hrest : rest.length ≤ n := by simpa using hle
        by_cases hpre : arrow <+: a :: rest
        · obtain ⟨tail, htail⟩ := hpre
          have hlen := congrArg List.length htail
          simp only [arrow, List.length_append, List.length_cons, List.length_nil] at hlen
          rw [← htail]
          exact shielded tail (ih tail (by omega))
        · exact single a rest hpre (ih rest hrest)
  exact hlength bytes.length bytes le_rfl

/-- A rendered value spells the value. -/
theorem renderBytes_spells (bytes : List UInt8) :
    PrefixCode.Spells (unescape plain) (renderBytes bytes) bytes := by
  induction bytes using renderBytes_induction with
  | nil => exact .nil
  | shielded rest ih =>
    have hspace : PrefixCode.Word (unescape plain) [32] 32 := word_plain (by decide)
    have hdash : PrefixCode.Word (unescape plain) [45] 45 := word_plain (by decide)
    rw [renderBytes_arrow]
    exact .cons hspace (.cons hdash (.cons (word_hexEscape plain 62) ih))
  | single a rest h ih =>
    rw [renderBytes_cons h]
    exact .cons (escape_decodes rfl a) ih

theorem printable_of_mem_renderBytes {bytes : List UInt8} {b : UInt8}
    (h : b ∈ renderBytes bytes) : Printable b := by
  have hplain : ∀ b, plain b = true → Printable b := fun _ hb => Bool.noConfusion hb
  induction bytes using renderBytes_induction with
  | nil => simp [renderBytes_nil] at h
  | shielded rest ih =>
    rw [renderBytes_arrow] at h
    simp only [List.mem_cons, List.mem_append] at h
    rcases h with rfl | rfl | h | h
    · decide
    · decide
    · exact printable_of_mem_hexEscape h
    · exact ih h
  | single a rest hno ih =>
    rw [renderBytes_cons hno, List.mem_append] at h
    rcases h with h | h
    · exact printable_of_mem_escape hplain h
    · exact ih h

/-- A raw byte other than the space at the front of a rendering is the first byte of the value
or comes after it. -/
theorem renderBytes_front {bytes after text : List UInt8} {x : UInt8} (hspace : x ≠ 32)
    (hslash : x ≠ 92) (h : renderBytes bytes ++ after = x :: text) :
    (bytes = [] ∧ after = x :: text) ∨
      ∃ rest, bytes = x :: rest ∧ renderBytes rest ++ after = text := by
  cases bytes with
  | nil => exact .inl ⟨rfl, h⟩
  | cons a rest =>
    right
    by_cases hpre : arrow <+: a :: rest
    · obtain ⟨tail, htail⟩ := hpre
      rw [← htail, renderBytes_arrow] at h
      exact absurd (List.cons.inj h).1.symm hspace
    · rw [renderBytes_cons hpre, List.append_assoc] at h
      unfold escape at h
      split at h
      · exact absurd (List.cons.inj h).1.symm hslash
      split at h
      · obtain ⟨rfl, hrest⟩ := List.cons.inj h
        exact ⟨rest, rfl, hrest⟩
      · exact absurd (List.cons.inj h).1.symm hslash

/-- The bytes after which a rendering cannot go on to a separator. -/
def Inert (after : List UInt8) : Prop := ∀ x ∈ after.head?, x ≠ 45 ∧ x ≠ 62

theorem Inert.front {after : List UInt8} {x : UInt8} {text : List UInt8} (h : Inert after)
    (hx : x = 45 ∨ x = 62) : after ≠ x :: text := by
  rintro rfl
  have hne := h x rfl
  exact hx.elim hne.1 hne.2

/-- No separator begins in a rendered value, whatever follows it other than a dash or an
angle. -/
theorem clear_renderBytes (bytes : List UInt8) {after : List UInt8} (hafter : Inert after) :
    Separator.Clear arrow (renderBytes bytes) after := by
  induction bytes using renderBytes_induction with
  | nil => exact trivial
  | shielded rest ih =>
    have hpiece : Separator.Clear arrow (45 :: hexEscape 62) (renderBytes rest ++ after) :=
      Separator.clear_of_notMem (by decide)
    have hclear := Separator.clear_append.mpr ⟨hpiece, ih⟩
    rw [renderBytes_arrow]
    refine ⟨?_, hclear⟩
    rintro ⟨t, ht⟩
    simp [arrow, hexEscape] at ht
  | single a rest h ih =>
    rw [renderBytes_cons h]
    refine Separator.clear_append.mpr ⟨?_, ih⟩
    by_cases hspace : a = 32
    · subst hspace
      refine ⟨?_, trivial⟩
      rintro ⟨t, ht⟩
      -- a dash and an angle after the space are the next two bytes of the value
      have hdash : renderBytes rest ++ after = 45 :: 62 :: t := by simpa [arrow] using ht.symm
      rcases renderBytes_front (by decide) (by decide) hdash with ⟨-, heq⟩ | ⟨rest', rfl, hangle⟩
      · exact hafter.front (.inl rfl) heq
      · rcases renderBytes_front (by decide) (by decide) hangle with ⟨-, heq⟩ | ⟨tail, rfl, -⟩
        · exact hafter.front (.inr rfl) heq
        · exact h ⟨tail, rfl⟩
    · have hnot : 32 ∉ escape plain a := by
        unfold escape
        split
        next ha =>
          obtain rfl : a = 92 := by simpa [plain] using ha
          decide
        split
        · simpa using Ne.symm hspace
        · intro hmem
          have hlt : a.toNat < 256 := a.toNat_lt
          have hne : ∀ n < 16, (32 : UInt8) ≠ EscapedText.hexDigit n := by
            intro n hn
            interval_cases n <;> decide
          simp only [hexEscape, List.mem_cons, List.mem_nil_iff, or_false] at hmem
          rcases hmem with hmem | hmem | hmem | hmem
          · exact absurd hmem (by decide)
          · exact absurd hmem (by decide)
          · exact hne _ (by omega) hmem
          · exact hne _ (by omega) hmem
      exact Separator.clear_of_notMem hnot

theorem renderValue_injective : Function.Injective renderValue := by
  intro v w h
  have hend : unescape plain [] = none := rfl
  have hread : ∀ value : CStr, PrefixCode.decode (unescape plain) (renderValue value) =
      (value.bytes, []) := by
    intro value
    have hbytes := (renderBytes_spells value.bytes).decode hend hend
    rw [List.append_nil] at hbytes
    exact hbytes
  have hv := hread v
  rw [h, hread w] at hv
  exact CStr.ext (Prod.mk.inj hv).1.symm

theorem notMem_renderBytes {bytes : List UInt8} {b : UInt8} (h : ¬ Printable b) :
    b ∉ renderBytes bytes :=
  fun hmem => h (printable_of_mem_renderBytes hmem)

/-- The separator of a changed line. -/
def separator : List UInt8 := ascii " -> "

theorem separator_eq : separator = arrow ++ [32] := by decide

theorem arrow_prefix_separator : arrow <+: separator := ⟨[32], separator_eq.symm⟩

theorem inert_separator (text : List UInt8) : Inert (separator ++ text) := by
  intro x hx
  obtain rfl : 32 = x := by simpa [separator_eq, arrow] using hx
  decide

theorem inert_newline (text : List UInt8) : Inert (ascii "\n" ++ text) := by
  intro x hx
  obtain rfl : 10 = x := by simpa [ascii] using hx
  decide

/-- What follows the key in a changed line is taken apart at its first separator. -/
theorem splitFirst_values (old new : CStr) (text : List UInt8) :
    Separator.splitFirst separator (renderValue old ++ (separator ++ (renderValue new ++ text))) =
      some (renderValue old, renderValue new ++ text) :=
  Separator.Clear.splitFirst (by decide)
    ((clear_renderBytes old.bytes (inert_separator _)).mono arrow_prefix_separator)

theorem colon_notMem_key {key : CStr} (h : ValidKey key.bytes) : 58 ∉ key.bytes := by
  intro hmem
  exact absurd (h.bytes _ hmem) (by decide)

/-- The line of a delta without its newline. -/
def deltaText : Delta CStr CStr → List UInt8
  | .added key value => 43 :: 32 :: (key.bytes ++ 61 :: renderValue value)
  | .removed key value => 45 :: 32 :: (key.bytes ++ 61 :: renderValue value)
  | .changed key old new =>
    126 :: 32 :: (key.bytes ++ 58 :: 32 :: (renderValue old ++ (separator ++ renderValue new)))

theorem renderDelta_eq (d : Delta CStr CStr) : renderDelta d = deltaText d ++ [10] := by
  have hadded : ascii "+ " = [43, 32] := by decide
  have hremoved : ascii "- " = [45, 32] := by decide
  have hchanged : ascii "~ " = [126, 32] := by decide
  have hequals : ascii "=" = [61] := by decide
  have hcolon : ascii ": " = [58, 32] := by decide
  have hnewline : ascii "\n" = [10] := by decide
  cases d with
  | added key value => simp [renderDelta, deltaText, hadded, hequals, hnewline]
  | removed key value => simp [renderDelta, deltaText, hremoved, hequals, hnewline]
  | changed key old new =>
    simp [renderDelta, deltaText, separator, hchanged, hcolon, hnewline]

theorem key_byte_ne {key : CStr} (h : ValidKey key.bytes) {b : UInt8} (hb : isKeyByte b = false) :
    b ∉ key.bytes := by
  intro hmem
  have hkey := h.bytes b hmem
  rw [hb] at hkey
  exact Bool.noConfusion hkey

theorem newline_notMem_deltaText {d : Delta CStr CStr} (h : ValidKey d.key.bytes) :
    10 ∉ deltaText d := by
  have hkey : 10 ∉ d.key.bytes := key_byte_ne h (by decide)
  have hvalue : ∀ value : CStr, 10 ∉ renderValue value := by
    intro value
    have hbytes : 10 ∉ renderBytes value.bytes := notMem_renderBytes (by decide)
    exact hbytes
  have hseparator : 10 ∉ separator := by decide
  cases d with
  | added key value => simpa [deltaText, hvalue] using hkey
  | removed key value => simpa [deltaText, hvalue] using hkey
  | changed key old new => simpa [deltaText, hvalue, hseparator] using hkey

/-- The line of a delta tells the delta. -/
theorem deltaText_injOn {d e : Delta CStr CStr} (hd : ValidKey d.key.bytes)
    (he : ValidKey e.key.bytes) (h : deltaText d = deltaText e) : d = e := by
  have hequals : ∀ {key : CStr}, ValidKey key.bytes → 61 ∉ key.bytes :=
    fun hkey => key_byte_ne hkey (by decide)
  have hsplit : ∀ {key key' : CStr} {s t : List UInt8} {sep : UInt8}, sep ∉ key.bytes →
      sep ∉ key'.bytes → key.bytes ++ sep :: s = key'.bytes ++ sep :: t → key = key' ∧ s = t := by
    intro key key' s t sep hkey hkey' heq
    obtain ⟨hkeys, hst⟩ := PrefixCode.separated_inj hkey hkey' heq
    exact ⟨CStr.ext hkeys, hst⟩
  cases d with
  | added key value =>
    cases e with
    | added key' value' =>
      have hkeys : 61 ∉ key.bytes ∧ 61 ∉ key'.bytes := ⟨hequals hd, hequals he⟩
      obtain ⟨hkey, hvalue⟩ := hsplit hkeys.1 hkeys.2 (List.cons.inj (List.cons.inj h).2).2
      rw [hkey, renderValue_injective hvalue]
    | removed key' value' => exact absurd (List.cons.inj h).1 (by decide)
    | changed key' old new => exact absurd (List.cons.inj h).1 (by decide)
  | removed key value =>
    cases e with
    | added key' value' => exact absurd (List.cons.inj h).1 (by decide)
    | removed key' value' =>
      have hkeys : 61 ∉ key.bytes ∧ 61 ∉ key'.bytes := ⟨hequals hd, hequals he⟩
      obtain ⟨hkey, hvalue⟩ := hsplit hkeys.1 hkeys.2 (List.cons.inj (List.cons.inj h).2).2
      rw [hkey, renderValue_injective hvalue]
    | changed key' old new => exact absurd (List.cons.inj h).1 (by decide)
  | changed key old new =>
    cases e with
    | added key' value' => exact absurd (List.cons.inj h).1 (by decide)
    | removed key' value' => exact absurd (List.cons.inj h).1 (by decide)
    | changed key' old' new' =>
      have hkeys : 58 ∉ key.bytes ∧ 58 ∉ key'.bytes := ⟨colon_notMem_key hd, colon_notMem_key he⟩
      obtain ⟨hkey, hcolon⟩ := hsplit hkeys.1 hkeys.2 (List.cons.inj (List.cons.inj h).2).2
      have hvalues := (List.cons.inj hcolon).2
      have hsep := splitFirst_values old new []
      have hsep' := splitFirst_values old' new' []
      rw [List.append_nil] at hsep hsep'
      rw [hvalues, hsep'] at hsep
      obtain ⟨hold, hnew⟩ := Prod.mk.inj (Option.some.inj hsep)
      rw [hkey, renderValue_injective hold.symm, renderValue_injective hnew.symm]

/-- A list of deltas is known from its lines. -/
theorem flatMap_renderDelta_injOn {ds es : List (Delta CStr CStr)}
    (hds : ∀ d ∈ ds, ValidKey d.key.bytes) (hes : ∀ e ∈ es, ValidKey e.key.bytes)
    (h : ds.flatMap renderDelta = es.flatMap renderDelta) : ds = es := by
  induction ds generalizing es with
  | nil =>
    cases es with
    | nil => rfl
    | cons e es => simp [renderDelta_eq] at h
  | cons d ds ih =>
    cases es with
    | nil => simp [renderDelta_eq] at h
    | cons e es =>
      simp only [List.flatMap_cons, renderDelta_eq, List.append_assoc,
        List.singleton_append] at h
      obtain ⟨htext, hrest⟩ := PrefixCode.separated_inj
        (newline_notMem_deltaText (hds d List.mem_cons_self))
        (newline_notMem_deltaText (hes e List.mem_cons_self)) h
      obtain rfl := deltaText_injOn (hds d List.mem_cons_self) (hes e List.mem_cons_self) htext
      rw [ih (fun x hx => hds x (List.mem_cons_of_mem _ hx))
        (fun x hx => hes x (List.mem_cons_of_mem _ hx))
        (by simpa only [renderDelta_eq] using hrest)]

/-- The output of a comparison tells the difference. -/
theorem compareOutput_injOn {ds es : List (Delta CStr CStr)}
    (hds : ∀ d ∈ ds, ValidKey d.key.bytes) (hes : ∀ e ∈ es, ValidKey e.key.bytes)
    (h : compareOutput ds = compareOutput es) : ds = es := by
  -- no line of a delta begins like the text of an empty difference
  have hfirst : ∀ d : Delta CStr CStr, ∀ ds, (d :: ds).flatMap renderDelta ≠
      ascii "no changes\n" := by
    intro d ds heq
    have hn : ascii "no changes\n" = 110 :: ascii "o changes\n" := by decide
    rw [List.flatMap_cons, renderDelta_eq, hn] at heq
    cases d with
    | added key value => exact absurd (List.cons.inj heq).1 (by decide)
    | removed key value => exact absurd (List.cons.inj heq).1 (by decide)
    | changed key old new => exact absurd (List.cons.inj heq).1 (by decide)
  unfold compareOutput at h
  cases ds with
  | nil =>
    cases es with
    | nil => rfl
    | cons e es => exact absurd h.symm (hfirst e es)
  | cons d ds =>
    cases es with
    | nil => exact absurd h (hfirst d ds)
    | cons e es => exact flatMap_renderDelta_injOn hds hes h

theorem validKey_of_mem_snapshotMap {bytes : List UInt8} {pair : CStr × CStr}
    (h : pair ∈ snapshotMap bytes) : ValidKey pair.1.bytes := by
  obtain ⟨line, -, hkey, -⟩ := h
  exact hkey

theorem validKey_of_isDifference {before after : List UInt8} {ds : List (Delta CStr CStr)}
    (h : IsDifference (snapshotMap before) (snapshotMap after) ds) :
    ∀ d ∈ ds, ValidKey d.key.bytes := by
  intro d hd
  obtain ⟨value, hmem⟩ := ((h.mem_iff d).mp hd).key_mem
  rcases hmem with hmem | hmem
  · exact validKey_of_mem_snapshotMap hmem
  · exact validKey_of_mem_snapshotMap hmem

/-- The output of a comparison of two streams. -/
def comparison (q : QSort compareEntriesByKey) (before after : List UInt8) (p : Proc) :
    List UInt8 :=
  (compareSnapshots q (.lit "before") (.lit "after") (.ok ⟨before, false, none⟩)
    (.ok ⟨after, false, none⟩) p).2.stdout

/-- The difference of the maps of two streams. -/
def mapDifference (before after : List UInt8) : Set (Delta CStr CStr) :=
  {d | d.Holds (snapshotMap before) (snapshotMap after)}

theorem comparison_eq (q : QSort compareEntriesByKey) {before after : List UInt8}
    (hb : Format1 before) (ha : Format1 after) {p : Proc} (hp : p.Healthy) :
    ∃ ds, comparison q before after p = p.stdout ++ compareOutput ds ∧
      (∀ d ∈ ds, ValidKey d.key.bytes) ∧ ∀ d, d ∈ ds ↔ d ∈ mapDifference before after := by
  obtain ⟨out, hstdout, hcompared⟩ :=
    compareSnapshots_compared q (.lit "before") (.lit "after") before after hp
  obtain ⟨ds, hds, -, rfl⟩ := hcompared.valid hb ha
  exact ⟨ds, hstdout, validKey_of_isDifference hds, hds.mem_iff⟩

/-- Values, changed lines and whole comparisons are read back from what is printed. -/
theorem rendering_invertible :
    (∀ value : CStr, Puts (putEscapedValue value) (renderValue value) ∧
      (∀ b ∈ renderValue value, Printable b) ∧ ¬ ascii " ->" <:+: renderValue value ∧
        PrefixCode.decode (unescape plain) (renderValue value) = (value.bytes, [])) ∧
      (∀ key old new : CStr, isValidKey key.bytes = true →
        ∃ line rest, Puts (emitChanged key old new) (line ++ ascii "\n") ∧
          Separator.splitFirst (ascii ": ") line = some (ascii "~ " ++ key.bytes, rest) ∧
            Separator.splitFirst (ascii " -> ") rest = some (renderValue old, renderValue new)) ∧
      ∀ (q q' : QSort compareEntriesByKey) (before after before' after' : List UInt8)
        (p p' : Proc), p.Healthy → p'.Healthy → p.stdout = p'.stdout →
        Format1 before → Format1 after → Format1 before' → Format1 after' →
        mapDifference before after ≠ mapDifference before' after' →
        comparison q before after p ≠ comparison q' before' after' p' := by
  refine ⟨?_, ?_, ?_⟩
  · intro value
    have hend : unescape plain [] = none := rfl
    have hinert : Inert [] := fun x hx => by simp at hx
    have hclear : Separator.Clear arrow (renderValue value) [] :=
      clear_renderBytes value.bytes hinert
    have hdecode := (renderBytes_spells value.bytes).decode hend hend
    rw [List.append_nil] at hdecode
    have harrow : ascii " ->" = arrow := by decide
    refine ⟨putEscapedValue_puts value, fun b hb => printable_of_mem_renderBytes hb, ?_, hdecode⟩
    rw [harrow]
    exact hclear.not_infix (by decide)
  · intro key old new hvalid
    have hkey := isValidKey_iff.mp hvalid
    have hline := renderDelta_eq (.changed key old new)
    have hnewline : ascii "\n" = [10] := by decide
    refine ⟨deltaText (.changed key old new),
      renderValue old ++ (separator ++ renderValue new), ?_, ?_, ?_⟩
    · rw [hnewline, ← hline]
      exact emitChanged_puts key old new
    · have hsep : ascii ": " = [58, 32] := by decide
      have hnot : 58 ∉ 126 :: 32 :: key.bytes := by
        simpa using colon_notMem_key hkey
      have hclear : Separator.Clear [58, 32] (126 :: 32 :: key.bytes)
          ([58, 32] ++ (renderValue old ++ (separator ++ renderValue new))) :=
        Separator.clear_of_notMem hnot
      have hsplit := hclear.splitFirst (by decide)
      have htilde : ascii "~ " = [126, 32] := by decide
      rw [hsep, htilde]
      simpa [deltaText] using hsplit
    · have hsplit := splitFirst_values old new []
      rw [List.append_nil] at hsplit
      exact hsplit
  · intro q q' before after before' after' p p' hp hp' hstart hb ha hb' ha' hne heq
    obtain ⟨ds, hout, hvalid, hmem⟩ := comparison_eq q hb ha hp
    obtain ⟨ds', hout', hvalid', hmem'⟩ := comparison_eq q' hb' ha' hp'
    rw [hout, hout', hstart] at heq
    obtain rfl := compareOutput_injOn hvalid hvalid' (List.append_cancel_left heq)
    exact hne (Set.ext fun d => (hmem d).symm.trans (hmem' d))

/-- A value `->` is told apart in a changed line, and two comparisons differ. -/
theorem rendering_invertible_sample :
    (∃ line rest, Puts (emitChanged (.lit "a.b") (.lit "->") (.lit "x -> y")) (line ++ ascii "\n") ∧
      Separator.splitFirst (ascii ": ") line = some (ascii "~ " ++ (CStr.lit "a.b").bytes, rest) ∧
        Separator.splitFirst (ascii " -> ") rest =
          some (renderValue (.lit "->"), renderValue (.lit "x -> y"))) ∧
      comparison mergeSortEntries (ascii "a.x=1\n") (ascii "a.x=1\n")
          ⟨[], [], [], [], fun _ => []⟩ ≠
        comparison mergeSortEntries (ascii "a.x=1\n") (ascii "a.x=2\n")
          ⟨[], [], [], [], fun _ => []⟩ := by
  refine ⟨rendering_invertible.2.1 _ _ _ (by decide +kernel), ?_⟩
  have hp : (⟨[], [], [], [], fun _ => []⟩ : Proc).Healthy := ⟨by simp [Granted], by simp⟩
  have hone : Format1 (ascii "a.x=1\n") :=
    ⟨by decide, by decide, by decide, by decide, by decide, by decide⟩
  have htwo : Format1 (ascii "a.x=2\n") :=
    ⟨by decide, by decide, by decide, by decide, by decide, by decide⟩
  have hkey : ValidKey (CStr.lit "a.x").bytes := isValidKey_iff.mp (by decide)
  have hmem : (CStr.lit "a.x", CStr.lit "1") ∈ snapshotMap (ascii "a.x=1\n") :=
    ⟨ascii "a.x=1", by decide, hkey, by decide⟩
  have hmem' : (CStr.lit "a.x", CStr.lit "2") ∈ snapshotMap (ascii "a.x=2\n") :=
    ⟨ascii "a.x=2", by decide, hkey, by decide⟩
  refine rendering_invertible.2.2 _ _ _ _ _ _ _ _ hp hp rfl hone hone hone htwo ?_
  intro heq
  have hchanged : Delta.changed (CStr.lit "a.x") (CStr.lit "1") (CStr.lit "2") ∈
      mapDifference (ascii "a.x=1\n") (ascii "a.x=2\n") := ⟨hmem, hmem', by decide⟩
  rw [← heq] at hchanged
  obtain ⟨line, hline, -, htext⟩ := hchanged.2.1
  have hlines : snapshotLines (ascii "a.x=1\n") = [ascii "a.x=1"] := by decide
  rw [hlines, List.mem_singleton] at hline
  exact absurd (hline.symm.trans htext) (by decide)

/-- The four bytes of the separator are found in front of a rendered value when it begins with
an arrow and goes on, or ends, with a space. -/
theorem separator_prefix_iff (value : CStr) {after : List UInt8} (hafter : Inert after) :
    separator <+: 32 :: (renderValue value ++ after) ↔
      ascii "-> " <+: value.bytes ∨ (value.bytes = ascii "->" ∧ after.head? = some 32) := by
  have hsep : separator = [32, 45, 62, 32] := by decide
  have hlong : ascii "-> " = [45, 62, 32] := by decide
  have hshort : ascii "->" = [45, 62] := by decide
  have harrow : ∀ rest, renderBytes (45 :: 62 :: rest) = 45 :: 62 :: renderBytes rest := by
    intro rest
    have hdash : ¬ arrow <+: 45 :: 62 :: rest := by
      rintro ⟨t, ht⟩
      simp [arrow] at ht
    have hangle : ¬ arrow <+: 62 :: rest := by
      rintro ⟨t, ht⟩
      simp [arrow] at ht
    have hescape : escape plain 45 = [45] ∧ escape plain 62 = [62] := by decide
    rw [renderBytes_cons hdash, renderBytes_cons hangle, hescape.1, hescape.2]
    rfl
  rw [hsep, hlong, hshort]
  constructor
  · rintro ⟨t, ht⟩
    have hdash : renderBytes value.bytes ++ after = 45 :: 62 :: 32 :: t :=
      (List.cons.inj ht).2.symm
    rcases renderBytes_front (by decide) (by decide) hdash with ⟨-, heq⟩ | ⟨rest, hrest, hangle⟩
    · exact absurd heq (hafter.front (.inl rfl))
    rcases renderBytes_front (by decide) (by decide) hangle with ⟨-, heq⟩ | ⟨tail, rfl, hspace⟩
    · exact absurd heq (hafter.front (.inr rfl))
    cases tail with
    | nil =>
      right
      rw [renderBytes_nil, List.nil_append] at hspace
      exact ⟨hrest, by rw [hspace]; rfl⟩
    | cons b tail =>
      left
      have hb : b = 32 := by
        by_cases hpre : arrow <+: b :: tail
        · obtain ⟨u, hu⟩ := hpre
          exact (List.cons.inj hu).1.symm
        · rw [renderBytes_cons hpre, List.append_assoc] at hspace
          unfold escape at hspace
          split at hspace
          · exact absurd (List.cons.inj hspace).1 (by decide)
          split at hspace
          · exact (List.cons.inj hspace).1
          · exact absurd (List.cons.inj hspace).1 (by decide)
      rw [hrest, hb]
      exact ⟨tail, rfl⟩
  · rintro (⟨tail, htail⟩ | ⟨hvalue, hhead⟩)
    · have hbytes : value.bytes = 45 :: 62 :: 32 :: tail := htail.symm
      have hspace : ∃ t, renderBytes (32 :: tail) = 32 :: t := by
        by_cases hpre : arrow <+: 32 :: tail
        · obtain ⟨u, hu⟩ := hpre
          rw [← hu, renderBytes_arrow]
          exact ⟨_, rfl⟩
        · have hescape : escape plain 32 = [32] := by decide
          rw [renderBytes_cons hpre, hescape]
          exact ⟨_, rfl⟩
      obtain ⟨t, ht⟩ := hspace
      have hrender : renderValue value = 45 :: 62 :: 32 :: t := by
        rw [← ht, ← harrow, ← hbytes]
        rfl
      rw [hrender]
      exact ⟨t ++ after, rfl⟩
    · obtain ⟨t, rfl⟩ : ∃ t, after = 32 :: t := by
        cases after with
        | nil => contradiction
        | cons b t => exact ⟨t, by rw [Option.some.inj hhead]⟩
      have hrender : renderValue value = [45, 62] := by
        unfold renderValue
        rw [hvalue]
        exact harrow []
      rw [hrender]
      exact ⟨t, rfl⟩

/-- How often the separator occurs in a changed line. -/
theorem occurrences_changed {key : CStr} (h : ValidKey key.bytes) (old new : CStr) :
    Separator.occurrences separator (renderDelta (.changed key old new)) =
      1 + (if ascii "-> " <+: old.bytes ∨ old.bytes = ascii "->" then 1 else 0) +
        (if ascii "-> " <+: new.bytes then 1 else 0) := by
  have hnewline : ascii "\n" = [10] := by decide
  have hline : renderDelta (.changed key old new) = (126 :: 32 :: (key.bytes ++ [58])) ++
      32 :: (renderValue old ++ (separator ++ (renderValue new ++ ascii "\n"))) := by
    rw [renderDelta_eq]
    simp [deltaText, hnewline]
  -- no separator begins before the space after the colon
  have hhead : ∀ after : List UInt8,
      Separator.Clear separator (126 :: 32 :: (key.bytes ++ [58])) after := by
    intro after
    have hspace : 32 ∉ key.bytes ++ [58] := by
      rw [List.mem_append, not_or]
      exact ⟨key_byte_ne h (by decide), by decide⟩
    have hkey : Separator.Clear separator (key.bytes ++ [58]) after :=
      Separator.clear_of_notMem hspace
    have hangle : 62 ∉ key.bytes := key_byte_ne h (by decide)
    refine ⟨?_, ?_, hkey⟩
    · rintro ⟨t, ht⟩
      exact absurd (List.cons.inj ht).1 (by decide)
    · rintro ⟨t, ht⟩
      rw [separator_eq] at ht
      have hrest : key.bytes ++ 58 :: after = 45 :: 62 :: 32 :: t := by
        simpa using (List.cons.inj ht).2.symm
      cases hbytes : key.bytes with
      | nil =>
        rw [hbytes] at hrest
        exact absurd (List.cons.inj hrest).1 (by decide)
      | cons b rest =>
        rw [hbytes] at hrest hangle
        cases rest with
        | nil => exact absurd (List.cons.inj (List.cons.inj hrest).2).1 (by decide)
        | cons c rest =>
          obtain rfl := (List.cons.inj (List.cons.inj hrest).2).1
          exact hangle (by simp)
  have hold : Separator.Clear separator (renderValue old)
      (separator ++ (renderValue new ++ ascii "\n")) :=
    (clear_renderBytes old.bytes (inert_separator _)).mono arrow_prefix_separator
  have hinert : Inert (ascii "\n") := by
    have hinert := inert_newline []
    rwa [List.append_nil] at hinert
  have hnew : Separator.Clear separator (renderValue new) (ascii "\n") :=
    (clear_renderBytes new.bytes hinert).mono arrow_prefix_separator
  -- the separator itself, and what begins with its last space
  have hseparator : Separator.occurrences separator
      (separator ++ (renderValue new ++ ascii "\n")) =
        1 + Separator.occurrences separator (32 :: (renderValue new ++ ascii "\n")) := by
    simp [separator_eq, arrow, Separator.occurrences]
  have hend : Separator.occurrences separator (ascii "\n") = 0 := by decide
  have hfirst := separator_prefix_iff old (inert_separator (renderValue new ++ ascii "\n"))
  have hsecond := separator_prefix_iff new hinert
  have hspace : (separator ++ (renderValue new ++ ascii "\n")).head? = some 32 := rfl
  have hnospace : ¬ (ascii "\n").head? = some 32 := by decide
  simp only [hspace, and_true] at hfirst
  simp only [hnospace, and_false, or_false] at hsecond
  rw [hline, (hhead _).occurrences, Separator.occurrences, hold.occurrences, hseparator,
    Separator.occurrences, hnew.occurrences, hend]
  simp only [hfirst, hsecond]
  omega

/-- A changed line has one separator if and only if the old value is no arrow and neither value
begins with an arrow and a space. -/
theorem changed_separator_iff (key old new : CStr) (h : isValidKey key.bytes = true) :
    ∃ line, Puts (emitChanged key old new) line ∧
      (Separator.occurrences (ascii " -> ") line = 1 ↔
        ¬ (ascii "-> " <+: old.bytes ∨ old.bytes = ascii "->" ∨ ascii "-> " <+: new.bytes)) := by
  refine ⟨_, emitChanged_puts key old new, ?_⟩
  have hcount := occurrences_changed (isValidKey_iff.mp h) old new
  unfold separator at hcount
  rw [hcount]
  split
  next hold =>
    split
    next hnew => simp [hnew]
    next hnew =>
      simp only [← or_assoc, hold, true_or, not_true_eq_false, iff_false]
      omega
  next hold =>
    rw [not_or] at hold
    split
    next hnew => simp [hnew]
    next hnew => simp [hnew, hold.1, hold.2]

theorem changed_separator_iff_sample :
    ∃ line, Puts (emitChanged (.lit "a.b") (.lit "x") (.lit "->y")) line ∧
      (Separator.occurrences (ascii " -> ") line = 1 ↔
        ¬ (ascii "-> " <+: (CStr.lit "x").bytes ∨ (CStr.lit "x").bytes = ascii "->" ∨
          ascii "-> " <+: (CStr.lit "->y").bytes)) :=
  changed_separator_iff _ _ _ (by decide)

/-- A new value that begins with an arrow and a space repeats the separator. -/
theorem changed_separator_repeated :
    ¬ ∀ key old new : CStr, isValidKey key.bytes = true → old ≠ new →
      ∃ line, Puts (emitChanged key old new) line ∧
        Separator.occurrences (ascii " -> ") line = 1 := by
  intro h
  obtain ⟨line, hputs, hone⟩ := h (.lit "a.b") (.lit "x") (.lit "-> y") (by decide) (by decide)
  have hp : (⟨[], [], [], [], fun _ => []⟩ : Proc).Healthy := ⟨by simp [Granted], by simp⟩
  obtain ⟨p, heq, hw⟩ := hputs _ hp
  obtain ⟨p', heq', hw'⟩ := emitChanged_puts (.lit "a.b") (.lit "x") (.lit "-> y") _ hp
  obtain rfl := Except.ok.inj (heq.symm.trans heq')
  have hline : line = renderDelta (.changed (.lit "a.b") (.lit "x") (.lit "-> y")) :=
    List.append_cancel_left (hw.stdout.symm.trans hw'.stdout)
  have hrender : renderDelta (.changed (.lit "a.b") (.lit "x") (.lit "-> y")) =
      ascii "~ a.b: x -> -> y\n" := by decide
  rw [hline, hrender] at hone
  exact absurd hone (by decide)

end Sysdiff
