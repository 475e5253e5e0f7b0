import LinuxUtilities.Foundation.EscapedText
import LinuxUtilities.Foundation.Numerals
import LinuxUtilities.Foundation.PrefixCode

/-! Readers that take one value off the front of a text, and what they still read off a text
that was cut short. -/
namespace PrefixCode
variable {α β γ : Type*} {next : List β → Option (α × List β)} {encode : α → List β}

/-- What a reader reads does not depend on what follows it. -/
def Extends (next : List β → Option (α × List β)) : Prop :=
  ∀ ⦃text rest : List β⦄ ⦃a : α⦄, next text = some (a, rest) →
    ∀ tail, next (text ++ tail) = some (a, rest ++ tail)

theorem Extends.decodeFor_truncated (hext : Extends next) (hnil : next [] = none)
    {text cut : List β} {symbols : List α} (h : Spells next text symbols) (hcut : cut <+: text)
    (fuel : ℕ) : (PrefixCode.decodeFor next fuel cut).1 <+: symbols := by
  induction h generalizing cut fuel with
  | nil =>
    obtain rfl := List.prefix_nil.mp hcut
    cases fuel <;> simp [PrefixCode.decodeFor, hnil]
  | @cons w text a symbols hword _ ih =>
    cases fuel with
    | zero => exact List.nil_prefix
    | succ fuel =>
      unfold PrefixCode.decodeFor
      cases hnext : next cut with
      | none => exact List.nil_prefix
      | some r =>
        -- what is read off the part is what is read off the whole
        obtain ⟨tail, htail⟩ := hcut
        have hwhole := hext hnext tail
        rw [htail, hword text] at hwhole
        obtain ⟨rfl, hrest⟩ := Prod.mk.inj (Option.some.inj hwhole)
        exact List.cons_prefix_cons.mpr ⟨rfl, ih ⟨tail, hrest.symm⟩ fuel⟩

/-- Off a text that was cut short, only symbols of the whole text are read. -/
theorem Extends.decode_truncated (hext : Extends next) (hnil : next [] = none) {text cut : List β}
    {symbols : List α} (h : Spells next text symbols) (hcut : cut <+: text) :
    (PrefixCode.decode next cut).1 <+: symbols :=
  hext.decodeFor_truncated hnil h hcut _

section Tagged
variable [DecidableEq β]

/-- A reader of what follows a fixed text. -/
def tagged (tag : List β) (next : List β → Option (α × List β)) (text : List β) :
    Option (α × List β) :=
  if tag <+: text then next (text.drop tag.length) else none

theorem Decodes.tagged (h : Decodes next encode) (tag : List β) :
    Decodes (tagged tag next) fun a => tag ++ encode a := by
  intro a rest
  have hprefix : tag <+: tag ++ encode a ++ rest := ⟨encode a ++ rest, by simp⟩
  rw [PrefixCode.tagged, if_pos hprefix, List.append_assoc, List.drop_left]
  exact h a rest

theorem Extends.tagged (h : Extends next) (tag : List β) : Extends (tagged tag next) := by
  intro text rest a hread tail
  unfold PrefixCode.tagged at hread ⊢
  split at hread
  next hprefix =>
    obtain ⟨body, rfl⟩ := hprefix
    rw [List.drop_left] at hread
    rw [if_pos ⟨body ++ tail, by simp⟩, List.append_assoc, List.drop_left]
    exact h hread tail
  · contradiction

end Tagged

section Pair
variable {f : List β → Option (α × List β)} {g : List β → Option (γ × List β)}
  {encode' : γ → List β}

/-- One value after the other. -/
def pair (f : List β → Option (α × List β)) (g : List β → Option (γ × List β)) (text : List β) :
    Option ((α × γ) × List β) :=
  (f text).bind fun r => (g r.2).map fun r' => ((r.1, r'.1), r'.2)

theorem Decodes.pair (hf : Decodes f encode) (hg : Decodes g encode') :
    Decodes (pair f g) fun p => encode p.1 ++ encode' p.2 := by
  intro p rest
  rw [PrefixCode.pair, List.append_assoc, hf p.1, Option.bind_some, hg p.2]
  rfl

theorem Extends.pair (hf : Extends f) (hg : Extends g) : Extends (pair f g) := by
  intro text rest p hread tail
  obtain ⟨r, hr, hread⟩ := Option.bind_eq_some_iff.mp hread
  obtain ⟨r', hr', heq⟩ := Option.map_eq_some_iff.mp hread
  obtain ⟨rfl, rfl⟩ := Prod.mk.inj heq
  rw [PrefixCode.pair, hf hr tail, Option.bind_some, hg hr' tail]
  rfl

end Pair

section Bound
variable {f : List β → Option (α × List β)} {k : α → List β → Option (γ × List β)}

/-- A value that tells how to read what follows it. -/
def bound (f : List β → Option (α × List β)) (k : α → List β → Option (γ × List β))
    (text : List β) : Option (γ × List β) :=
  (f text).bind fun r => k r.1 r.2

theorem Decodes.bound {tagOf : γ → α} {body : γ → List β} (hf : Decodes f encode)
    (hk : ∀ c, Word (k (tagOf c)) (body c) c) :
    Decodes (bound f k) fun c => encode (tagOf c) ++ body c := by
  intro c rest
  rw [PrefixCode.bound, List.append_assoc, hf (tagOf c), Option.bind_some]
  exact hk c rest

theorem Extends.bound (hf : Extends f) (hk : ∀ a, Extends (k a)) : Extends (bound f k) := by
  intro text rest c hread tail
  obtain ⟨r, hr, hread⟩ := Option.bind_eq_some_iff.mp hread
  rw [PrefixCode.bound, hf hr tail, Option.bind_some]
  exact hk r.1 hread tail

end Bound

section Mapped
variable {f : α → γ} {g : γ → α}

/-- A reader of what the values stand for. -/
def mapped (f : α → γ) (next : List β → Option (α × List β)) (text : List β) :
    Option (γ × List β) :=
  (next text).map fun r => (f r.1, r.2)

theorem Decodes.mapped (h : Decodes next encode) (hgf : ∀ c, f (g c) = c) :
    Decodes (mapped f next) fun c => encode (g c) := by
  intro c rest
  rw [PrefixCode.mapped, h (g c), Option.map_some, hgf]

theorem Extends.mapped (h : Extends next) (f : α → γ) : Extends (mapped f next) := by
  intro text rest c hread tail
  obtain ⟨r, hr, heq⟩ := Option.map_eq_some_iff.mp hread
  obtain ⟨rfl, rfl⟩ := Prod.mk.inj heq
  rw [PrefixCode.mapped, h hr tail]
  rfl

end Mapped

section OneOf
variable [DecidableEq β]

/-- A reader of one of finitely many fixed texts. -/
def oneOf (symbols : List α) (encode : α → List β) (text : List β) : Option (α × List β) :=
  (symbols.find? fun a => encode a <+: text).map fun a => (a, text.drop (encode a).length)

theorem oneOf_eq (h : PrefixFree encode) {symbols : List α} {a : α} (ha : a ∈ symbols)
    (rest : List β) : oneOf symbols encode (encode a ++ rest) = some (a, rest) := by
  have hsome : (symbols.find? fun b => encode b <+: encode a ++ rest).isSome := by
    rw [List.find?_isSome]
    exact ⟨a, ha, by simp⟩
  obtain ⟨b, hb⟩ := Option.isSome_iff_exists.mp hsome
  have hstart : encode b <+: encode a ++ rest := by simpa using List.find?_some hb
  obtain ⟨tail, htail⟩ := hstart
  obtain ⟨rfl, -⟩ := h htail
  rw [oneOf, hb, Option.map_some, List.drop_left]

theorem Decodes.oneOf (h : PrefixFree encode) {symbols : List α} (hall : ∀ a, a ∈ symbols) :
    Decodes (oneOf symbols encode) encode :=
  fun a rest => oneOf_eq h (hall a) rest

theorem Extends.oneOf (h : PrefixFree encode) (symbols : List α) :
    Extends (oneOf symbols encode) := by
  intro text rest a hread tail
  obtain ⟨b, hb, heq⟩ := Option.map_eq_some_iff.mp hread
  obtain ⟨rfl, rfl⟩ := Prod.mk.inj heq
  have hstart : encode b <+: text := by simpa using List.find?_some hb
  obtain ⟨body, rfl⟩ := hstart
  rw [List.drop_left, List.append_assoc]
  exact oneOf_eq h (List.mem_of_find?_eq_some hb) (body ++ tail)

end OneOf

end PrefixCode

namespace CString
open PrefixCode

/-- A decimal number up to a tab. -/
def readNumber (text : List UInt8) : Option (ℕ × List UInt8) :=
  match text.dropWhile isDigit with
  | 9 :: rest => some (digitsValue (text.takeWhile isDigit), rest)
  | _ => none

theorem readNumber_span {digits rest : List UInt8} (h : ∀ b ∈ digits, isDigit b = true) :
    readNumber (digits ++ 9 :: rest) = some (digitsValue digits, rest) := by
  have htab : ∀ b ∈ (9 :: rest : List UInt8).head?, isDigit b = false := by
    intro b hb
    obtain rfl := Option.some.inj hb
    decide
  obtain ⟨htake, hdrop⟩ := span_append h htab
  simp only [readNumber, hdrop, htake]

theorem readNumber_decodes : Decodes readNumber fun n => decimal n ++ [9] := by
  intro n rest
  have hread := @readNumber_span (decimal n) rest fun b hb => isDigit_of_mem_decimal hb
  have hvalue : digitsValue (decimal n) = n := digitsValue_decimal n
  rwa [hvalue, ← List.singleton_append, ← List.append_assoc] at hread

theorem readNumber_extends : Extends readNumber := by
  intro text rest n hread tail
  unfold readNumber at hread
  split at hread
  next rest' hdrop =>
    obtain ⟨rfl, rfl⟩ := Prod.mk.inj (Option.some.inj hread)
    have htext : text = text.takeWhile isDigit ++ 9 :: rest' := by
      rw [← hdrop, List.takeWhile_append_dropWhile]
    have hspan := @readNumber_span (text.takeWhile isDigit) (rest' ++ tail)
      fun b hb => List.mem_takeWhile_imp hb
    rw [← hspan]
    congr 1
    nth_rewrite 1 [htext]
    simp
  · contradiction

end CString

namespace EscapedText
open PrefixCode

theorem closingQuote_append {text body rest : List UInt8}
    (h : closingQuote text = some (body, rest)) (tail : List UInt8) :
    closingQuote (text ++ tail) = some (body, rest ++ tail) := by
  induction text using closingQuote.induct generalizing body with
  | case1 => contradiction
  | case2 text =>
    obtain ⟨rfl, rfl⟩ := Prod.mk.inj (Option.some.inj h)
    rfl
  | case3 b text ih =>
    unfold closingQuote at h
    obtain ⟨r, hr, heq⟩ := Option.map_eq_some_iff.mp h
    obtain ⟨rfl, rfl⟩ := Prod.mk.inj heq
    show (closingQuote (text ++ tail)).map _ = _
    rw [ih hr]
    rfl
  | case4 b text hquote hslash ih =>
    have hplain : b ≠ 92 := by
      rintro rfl
      cases text with
      | nil => simp [closingQuote] at h
      | cons c text => exact hslash c text rfl rfl
    rw [closingQuote_plain hquote hplain] at h
    obtain ⟨r, hr, heq⟩ := Option.map_eq_some_iff.mp h
    obtain ⟨rfl, rfl⟩ := Prod.mk.inj heq
    rw [List.cons_append, closingQuote_plain hquote hplain, ih hr]
    rfl

/-- A quoted text and the byte after it. -/
def readQuoted (stop : UInt8) (text : List UInt8) : Option (List UInt8 × List UInt8) :=
  match text with
  | 34 :: text =>
    match closingQuote text with
    | some (body, b :: rest) =>
      if b = stop then some ((decode (unescape isQuote) body).1, rest) else none
    | _ => none
  | _ => none

theorem readQuoted_decodes (stop : UInt8) :
    Decodes (readQuoted stop) fun text => quoted text ++ [stop] := by
  intro text rest
  have hclose := closingQuote_quoted text (stop :: rest)
  have htext : quoted text ++ [stop] ++ rest =
      34 :: (text.flatMap (escape isQuote) ++ 34 :: stop :: rest) := by
    simp [quoted]
  rw [htext]
  simp only [readQuoted, hclose, decode_quoted, if_true]

theorem readQuoted_extends (stop : UInt8) : Extends (readQuoted stop) := by
  intro text rest a hread tail
  unfold readQuoted at hread
  split at hread
  next text =>
    split at hread
    next body b rest' hclose =>
      split_ifs at hread with hstop
      obtain ⟨rfl, rfl⟩ := Prod.mk.inj (Option.some.inj hread)
      have hlong := closingQuote_append hclose tail
      simp only [List.cons_append, readQuoted, hlong, hstop, if_true]
    · contradiction
  · contradiction

end EscapedText
