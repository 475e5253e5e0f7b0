import Mathlib.Data.List.Basic
import Mathlib.Tactic

/-! Prefix-free encodings: a text that begins with the word of a symbol tells the symbol and
what follows it. -/
namespace PrefixCode
variable {α β γ : Type*}

def PrefixFree (encode : α → List β) : Prop :=
  ∀ ⦃a b : α⦄ ⦃s t : List β⦄, encode a ++ s = encode b ++ t → a = b ∧ s = t

/-- A decoder reads one symbol off the front of a text. -/
def Decodes (next : List β → Option (α × List β)) (encode : α → List β) : Prop :=
  ∀ a rest, next (encode a ++ rest) = some (a, rest)

theorem Decodes.prefixFree {next : List β → Option (α × List β)} {encode : α → List β}
    (h : Decodes next encode) : PrefixFree encode := by
  intro a b s t heq
  have hs := h a s
  rw [heq, h b t] at hs
  exact (Prod.mk.inj (Option.some.inj hs)).imp Eq.symm Eq.symm

/-- The symbols that are read off a text one after the other, and what is left of it. The text
gets shorter with each, so that its length is fuel enough. -/
def decodeFor (next : List β → Option (α × List β)) : ℕ → List β → List α × List β
  | 0, text => ([], text)
  | fuel + 1, text =>
    match next text with
    | none => ([], text)
    | some (a, rest) => (a :: (decodeFor next fuel rest).1, (decodeFor next fuel rest).2)

def decode (next : List β → Option (α × List β)) (text : List β) : List α × List β :=
  decodeFor next text.length text

/-- A word of a symbol, in whatever code it was chosen from. -/
def Word (next : List β → Option (α × List β)) (w : List β) (a : α) : Prop :=
  ∀ rest, next (w ++ rest) = some (a, rest)

/-- A text made of words, and the symbols that they stand for. -/
inductive Spells (next : List β → Option (α × List β)) : List β → List α → Prop where
  | nil : Spells next [] []
  | cons {w text : List β} {a : α} {symbols : List α} : Word next w a → Spells next text symbols →
      Spells next (w ++ text) (a :: symbols)

variable {next : List β → Option (α × List β)} {encode : α → List β}

theorem Word.ne_nil {w : List β} {a : α} (hnil : next [] = none) (h : Word next w a) : w ≠ [] := by
  rintro rfl
  have hsome := h []
  rw [List.append_nil, hnil] at hsome
  contradiction

theorem Spells.length_le {text : List β} {symbols : List α} (hnil : next [] = none)
    (h : Spells next text symbols) : symbols.length ≤ text.length := by
  induction h with
  | nil => exact Nat.le_refl 0
  | cons hword _ ih =>
    have hpos := List.length_pos_iff.mpr (hword.ne_nil hnil)
    simp only [List.length_cons, List.length_append]
    omega

theorem Spells.append {s t : List β} {as bs : List α} (h : Spells next s as)
    (h' : Spells next t bs) : Spells next (s ++ t) (as ++ bs) := by
  induction h with
  | nil => exact h'
  | cons hword _ ih =>
    rw [List.append_assoc]
    exact .cons hword ih

theorem Spells.decodeFor {text tail : List β} {symbols : List α} {fuel : ℕ}
    (h : Spells next text symbols) (htail : next tail = none) (hfuel : symbols.length ≤ fuel) :
    decodeFor next fuel (text ++ tail) = (symbols, tail) := by
  induction h generalizing fuel with
  | nil =>
    cases fuel with
    | zero => rfl
    | succ fuel => simp [PrefixCode.decodeFor, htail]
  | cons hword _ ih =>
    cases fuel with
    | zero => simp at hfuel
    | succ fuel =>
      have hrest := ih (Nat.le_of_succ_le_succ hfuel)
      rw [List.append_assoc]
      simp [PrefixCode.decodeFor, hword _, hrest]

/-- The symbols of a text are read back up to where no symbol begins. -/
theorem Spells.decode {text tail : List β} {symbols : List α} (hnil : next [] = none)
    (h : Spells next text symbols) (htail : next tail = none) :
    decode next (text ++ tail) = (symbols, tail) := by
  refine h.decodeFor htail ((h.length_le hnil).trans ?_)
  simp

/-- Encoded symbols are a text of words. -/
theorem Decodes.spells (h : Decodes next encode) (symbols : List α) :
    Spells next (symbols.flatMap encode) symbols := by
  induction symbols with
  | nil => exact .nil
  | cons a symbols ih =>
    rw [List.flatMap_cons]
    exact .cons (h a) ih

/-- A list of symbols is prefix-free before an end that no word begins with. -/
theorem PrefixFree.terminated (h : PrefixFree encode) {stop : List β}
    (hstop : ∀ a s t, encode a ++ s ≠ stop ++ t) :
    PrefixFree fun symbols : List α => symbols.flatMap encode ++ stop := by
  intro l m s t heq
  induction l generalizing m with
  | nil =>
    cases m with
    | nil => exact ⟨rfl, List.append_cancel_left heq⟩
    | cons b m =>
      simp only [List.flatMap_nil, List.nil_append, List.flatMap_cons, List.append_assoc] at heq
      exact absurd heq.symm (hstop b _ s)
  | cons a l ih =>
    cases m with
    | nil =>
      simp only [List.flatMap_nil, List.nil_append, List.flatMap_cons, List.append_assoc] at heq
      exact absurd heq (hstop a _ t)
    | cons b m =>
      simp only [List.flatMap_cons, List.append_assoc] at heq
      obtain ⟨rfl, hrest⟩ := h heq
      obtain ⟨rfl, rfl⟩ := ih (m := m) (by simpa using hrest)
      exact ⟨rfl, rfl⟩

/-- A text made of words is read in one way. -/
theorem PrefixFree.flatMap_injective (h : PrefixFree encode) (hne : ∀ a, encode a ≠ []) :
    Function.Injective fun symbols : List α => symbols.flatMap encode := by
  intro l m heq
  have hstop : ∀ (a : α) (s : List β), encode a ++ s ≠ [] := by
    intro a s hnil
    exact hne a (List.append_eq_nil_iff.mp hnil).1
  induction l generalizing m with
  | nil =>
    cases m with
    | nil => rfl
    | cons b m => exact absurd heq.symm (by simpa using fun hb => absurd hb (hne b))
  | cons a l ih =>
    cases m with
    | nil => exact absurd heq (by simpa using fun ha => absurd ha (hne a))
    | cons b m =>
      obtain ⟨rfl, hrest⟩ := h (by simpa using heq)
      rw [ih hrest]

/-- A pair is prefix-free when its parts are. -/
theorem PrefixFree.pair {f : α → List β} {g : γ → List β} (hf : PrefixFree f)
    (hg : PrefixFree g) : PrefixFree fun p : α × γ => f p.1 ++ g p.2 := by
  intro p q s t heq
  simp only [List.append_assoc] at heq
  obtain ⟨h₁, hrest⟩ := hf heq
  obtain ⟨h₂, rfl⟩ := hg hrest
  exact ⟨Prod.ext h₁ h₂, rfl⟩

/-- Fixed text before a word changes nothing. -/
theorem PrefixFree.tagged (h : PrefixFree encode) (tag : List β) :
    PrefixFree fun a => tag ++ encode a := by
  intro a b s t heq
  simp only [List.append_assoc] at heq
  exact h (List.append_cancel_left heq)

theorem separated_inj {sep : β} {v w s t : List β} (hv : sep ∉ v) (hw : sep ∉ w)
    (h : v ++ sep :: s = w ++ sep :: t) : v = w ∧ s = t := by
  induction v generalizing w with
  | nil =>
    cases w with
    | nil => exact ⟨rfl, (List.cons.inj h).2⟩
    | cons b w =>
      obtain ⟨rfl, -⟩ := List.cons.inj h
      exact absurd List.mem_cons_self hw
  | cons a v ih =>
    cases w with
    | nil =>
      obtain ⟨rfl, -⟩ := List.cons.inj h
      exact absurd List.mem_cons_self hv
    | cons b w =>
      obtain ⟨rfl, hrest⟩ := List.cons.inj h
      rw [List.mem_cons, not_or] at hv hw
      obtain ⟨rfl, hst⟩ := ih hv.2 hw.2 hrest
      exact ⟨rfl, hst⟩

/-- Text up to the first separator is prefix-free. -/
theorem prefixFree_separated (sep : β) :
    PrefixFree fun w : { w : List β // sep ∉ w } => w.1 ++ [sep] := by
  intro v w s t heq
  simp only [List.append_assoc, List.singleton_append] at heq
  obtain ⟨hvw, hst⟩ := separated_inj v.2 w.2 heq
  exact ⟨Subtype.ext hvw, hst⟩

theorem PrefixFree.comap {f : γ → α} (h : PrefixFree encode) (hf : Function.Injective f) :
    PrefixFree (encode ∘ f) := by
  intro a b s t heq
  obtain ⟨hab, rfl⟩ := h heq
  exact ⟨hf hab, rfl⟩

end PrefixCode
