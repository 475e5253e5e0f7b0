import Mathlib.Data.Fintype.Card
import Mathlib.Data.Nat.Bitwise
import Mathlib.Tactic

/-! Positional open-addressing indexes: a power-of-two array of slots that name the
positions of items kept elsewhere, searched by linear probing. -/
namespace LinearProbing

/-- The slot numbers of a table whose capacity is a power of two. -/
def wrap (cap n : ℕ) : ℕ := n &&& (cap - 1)

theorem wrap_eq_mod {cap k : ℕ} (h : cap = 2 ^ k) (n : ℕ) : wrap cap n = n % cap := by
  rw [wrap, h, Nat.and_two_pow_sub_one_eq_mod]

abbrev Slots := List (Option ℕ)

def slot (slots : Slots) (s : ℕ) : Option ℕ := slots.getD s none

/-- Step through the slots from `s` to the first one whose content satisfies `stop`;
`none` when the fuel runs out first. -/
def probe (stop : Option ℕ → Bool) (slots : Slots) : ℕ → ℕ → Option ℕ
  | 0, _ => none
  | fuel + 1, s =>
    if stop (slot slots s) then some s
    else probe stop slots fuel (wrap slots.length (s + 1))

/-- The first empty slot of the probe sequence of a hash. -/
def freeSlot (slots : Slots) (h : ℕ) : Option ℕ :=
  probe Option.isNone slots slots.length (wrap slots.length h)

/-- Store a position in the first empty slot of its probe sequence. -/
def insert (slots : Slots) (h position : ℕ) : Option Slots :=
  (freeSlot slots h).map fun s => slots.set s (some position)

/-- Store the positions `0, ..., n - 1` one after the other in an empty table. -/
def build (hash : ℕ → ℕ) (cap : ℕ) : ℕ → Option Slots
  | 0 => some (List.replicate cap none)
  | n + 1 => (build hash cap n).bind fun slots => insert slots (hash n) n

/-- The position a lookup stops at: one that matches, or none at an empty slot. The
outer `none` is a lookup that never stops. -/
def find (isMatch : ℕ → Bool) (slots : Slots) (h : ℕ) : Option (Option ℕ) :=
  (probe (fun c => c.elim true isMatch) slots slots.length (wrap slots.length h)).map (slot slots)

/-- An index of the positions below `n`: at most half full, every position stored in
exactly one slot, behind occupied slots only. -/
structure Index (hash : ℕ → ℕ) (n : ℕ) (slots : Slots) : Prop where
  pow : ∃ k, slots.length = 2 ^ k
  load : 2 * n ≤ slots.length
  bound : ∀ s i, slot slots s = some i → i < n
  unique : ∀ s t i, s < slots.length → t < slots.length → slot slots s = some i →
    slot slots t = some i → s = t
  stored : ∀ i < n, ∃ d, slot slots ((hash i + d) % slots.length) = some i ∧
    ∀ e < d, slot slots ((hash i + e) % slots.length) ≠ none

section Probing
variable {slots : Slots} {stop : Option ℕ → Bool}

theorem slot_set {s t i : ℕ} (hs : s < slots.length) :
    slot (slots.set s (some i)) t = if s = t then some i else slot slots t := by
  simp only [slot, List.getD_eq_getElem?_getD, List.getElem?_set, hs, if_true]
  split <;> rfl

theorem probe_eq {k fuel h d : ℕ} (hk : slots.length = 2 ^ k)
    (hbefore : ∀ e < d, stop (slot slots ((h + e) % slots.length)) = false)
    (hat : stop (slot slots ((h + d) % slots.length)) = true) (hfuel : d < fuel) :
    probe stop slots fuel (h % slots.length) = some ((h + d) % slots.length) := by
  induction d generalizing h fuel with
  | zero =>
    obtain ⟨fuel, rfl⟩ := Nat.exists_eq_add_of_lt hfuel
    simp only [Nat.zero_add, Nat.add_zero] at hat ⊢
    rw [probe, if_pos hat]
  | succ d ih =>
    obtain ⟨fuel, rfl⟩ : ∃ m, fuel = m + 1 := ⟨fuel - 1, by omega⟩
    have h0 := hbefore 0 (by omega)
    rw [Nat.add_zero] at h0
    have hshift (e : ℕ) : h + 1 + e = h + (e + 1) := by omega
    rw [probe, if_neg (by rw [h0]; exact Bool.false_ne_true), wrap_eq_mod hk, Nat.mod_add_mod,
      ih (fun e he => by rw [hshift]; exact hbefore _ (by omega)) (by rwa [hshift]) (by omega),
      hshift]

/-- A stop within one round of the table ends the probe at the nearest stop. -/
theorem probe_nearest (stop : Option ℕ → Bool) {k h d : ℕ} (hk : slots.length = 2 ^ k)
    (hd : d < slots.length)
    (hat : stop (slot slots ((h + d) % slots.length)) = true) :
    ∃ d' ≤ d, probe stop slots slots.length (wrap slots.length h) =
        some ((h + d') % slots.length) ∧
      stop (slot slots ((h + d') % slots.length)) = true ∧
      ∀ e < d', stop (slot slots ((h + e) % slots.length)) = false := by
  classical
  have hex : ∃ d, stop (slot slots ((h + d) % slots.length)) = true := ⟨d, hat⟩
  have hmin := Nat.find_min' hex hat
  have hbefore (e : ℕ) (he : e < Nat.find hex) :
      stop (slot slots ((h + e) % slots.length)) = false := by
    simpa using Nat.find_min hex he
  refine ⟨Nat.find hex, hmin, ?_, Nat.find_spec hex, hbefore⟩
  rw [wrap_eq_mod hk]
  exact probe_eq hk hbefore (Nat.find_spec hex) (by omega)

end Probing

namespace Index
variable {hash : ℕ → ℕ} {n : ℕ} {slots : Slots}

theorem length_pos (hI : Index hash n slots) : 0 < slots.length := by
  obtain ⟨k, hk⟩ := hI.pow
  rw [hk]
  positivity

/-- Fewer positions than slots leave an empty slot. -/
theorem exists_empty (hI : Index hash n slots) :
    ∃ s < slots.length, slot slots s = none := by
  by_contra hall
  push Not at hall
  have hsome (s : Fin slots.length) : ∃ i, slot slots s = some i :=
    Option.ne_none_iff_exists'.mp (hall s s.isLt)
  choose f hf using hsome
  have hinj : Function.Injective fun s => (⟨f s, hI.bound s _ (hf s)⟩ : Fin n) := by
    intro s t hst
    have he : f s = f t := congrArg Fin.val hst
    exact Fin.ext (hI.unique s t _ s.isLt t.isLt (hf s) (by rw [he]; exact hf t))
  have hcard := Fintype.card_le_of_injective _ hinj
  simp only [Fintype.card_fin] at hcard
  have hload := hI.load
  have hpos := hI.length_pos
  omega

/-- Every probe sequence meets an empty slot within one round. -/
theorem exists_empty_from (hI : Index hash n slots) (h : ℕ) :
    ∃ d < slots.length, slot slots ((h + d) % slots.length) = none := by
  obtain ⟨s, hs, he⟩ := hI.exists_empty
  have hpos := hI.length_pos
  have hm := Nat.mod_lt h hpos
  refine ⟨(s + slots.length - h % slots.length) % slots.length, Nat.mod_lt _ hpos, ?_⟩
  have hmod : (h + (s + slots.length - h % slots.length) % slots.length) % slots.length = s := by
    rw [Nat.add_mod_mod, ← Nat.mod_add_mod, ← Nat.add_sub_assoc (by omega),
      Nat.add_sub_cancel_left, Nat.add_mod_right, Nat.mod_eq_of_lt hs]
  rw [hmod, he]

/-- The empty table. -/
theorem nil {cap k : ℕ} (hk : cap = 2 ^ k) :
    Index hash 0 (List.replicate cap none) := by
  have hnone (s : ℕ) : slot (List.replicate cap none) s = none := by
    simp only [slot, List.getD_eq_getElem?_getD, List.getElem?_replicate]
    split <;> rfl
  refine ⟨⟨k, by simpa using hk⟩, by omega, ?_, ?_, fun i hi => absurd hi (by omega)⟩
  · intro s i hs
    rw [hnone] at hs
    contradiction
  · intro s t i _ _ hs
    rw [hnone] at hs
    contradiction

/-- Storing the next position keeps the invariant, while the load allows it. -/
theorem insert_next (hI : Index hash n slots) (hload : 2 * (n + 1) ≤ slots.length) :
    ∃ slots', insert slots (hash n) n = some slots' ∧ slots'.length = slots.length ∧
      Index hash (n + 1) slots' := by
  obtain ⟨k, hk⟩ := hI.pow
  have hpos := hI.length_pos
  obtain ⟨d, hd, hempty⟩ := hI.exists_empty_from (hash n)
  obtain ⟨d', -, hprobe, hstop, hbefore⟩ :=
    probe_nearest Option.isNone hk hd (by rw [hempty]; rfl)
  set s := (hash n + d') % slots.length with hs
  have hlt : s < slots.length := Nat.mod_lt _ hpos
  have hfree : slot slots s = none := Option.isNone_iff_eq_none.mp hstop
  have hlen : (slots.set s (some n)).length = slots.length := List.length_set
  refine ⟨slots.set s (some n), by rw [insert, freeSlot, hprobe]; rfl, hlen, ?_⟩
  refine ⟨⟨k, by rw [hlen, hk]⟩, by rw [hlen]; exact hload, ?_, ?_, ?_⟩
  · intro t i ht
    rw [slot_set hlt] at ht
    split at ht
    · obtain rfl := Option.some.inj ht
      omega
    · have := hI.bound t i ht
      omega
  · intro t u i htl hul ht hu
    rw [hlen] at htl hul
    rw [slot_set hlt] at ht hu
    split at ht <;> split at hu
    next h1 h2 => exact h1.symm.trans h2
    next h1 h2 =>
      obtain rfl := Option.some.inj ht
      have := hI.bound u _ hu
      omega
    next h1 h2 =>
      obtain rfl := Option.some.inj hu
      have := hI.bound t _ ht
      omega
    next h1 h2 => exact hI.unique t u i htl hul ht hu
  · intro i hi
    rw [hlen]
    rcases Nat.lt_succ_iff_lt_or_eq.mp hi with hi | rfl
    · -- an older position keeps its slot: the new one went into an empty slot
      obtain ⟨e, he, hocc⟩ := hI.stored i hi
      refine ⟨e, ?_, fun e' he' => ?_⟩
      · rw [slot_set hlt, if_neg]
        · exact he
        · intro heq
          rw [← heq, hfree] at he
          contradiction
      · rw [slot_set hlt]
        split
        · simp
        · exact hocc e' he'
    · refine ⟨d', ?_, fun e he => ?_⟩
      · rw [slot_set hlt, if_pos hs]
      · rw [slot_set hlt]
        split
        · simp
        · exact Option.isSome_iff_ne_none.mp (by simpa using hbefore e he)

/-- A rebuild into a table with room stores every position. -/
theorem build_index (hash : ℕ → ℕ) {cap k : ℕ} (hk : cap = 2 ^ k) (hload : 2 * n ≤ cap) :
    ∃ slots, build hash cap n = some slots ∧ slots.length = cap ∧ Index hash n slots := by
  induction n with
  | zero => exact ⟨_, rfl, List.length_replicate, nil hk⟩
  | succ n ih =>
    obtain ⟨slots, hb, hlen, hI⟩ := ih (by omega)
    obtain ⟨slots', hins, hlen', hI'⟩ := hI.insert_next (by rw [hlen]; exact hload)
    exact ⟨slots', by rw [build, hb, Option.bind_some, hins], hlen'.trans hlen, hI'⟩

/-- A lookup stops, at a matching position if there is one. Matching positions hash
to the key that is looked up. -/
theorem find_spec (hI : Index hash n slots) (isMatch : ℕ → Bool) (h : ℕ)
    (hhash : ∀ i < n, isMatch i = true → hash i = h) :
    (find isMatch slots h = some none ∧ ∀ i < n, isMatch i = false) ∨
      ∃ i < n, find isMatch slots h = some (some i) ∧ isMatch i = true := by
  obtain ⟨k, hk⟩ := hI.pow
  obtain ⟨d, hd, hempty⟩ := hI.exists_empty_from h
  obtain ⟨d', -, hprobe, hstop, hbefore⟩ :=
    probe_nearest (fun c => c.elim true isMatch) hk hd (by rw [hempty]; rfl)
  have hfind : find isMatch slots h = some (slot slots ((h + d') % slots.length)) := by
    rw [find, hprobe, Option.map_some]
  cases hc : slot slots ((h + d') % slots.length) with
  | none =>
    refine .inl ⟨by rw [hfind, hc], fun i hi => ?_⟩
    by_contra hm
    have hm : isMatch i = true := by simpa using hm
    obtain ⟨e, he, hocc⟩ := hI.stored i hi
    rw [hhash i hi hm] at he hocc
    -- the match would sit before the empty slot, where the probe must have stopped
    rcases lt_trichotomy e d' with hlt | rfl | hgt
    · have := hbefore e hlt
      rw [he, Option.elim_some, hm] at this
      contradiction
    · rw [hc] at he
      contradiction
    · exact hocc d' hgt hc
  | some i =>
    rw [hc, Option.elim_some] at hstop
    exact .inr ⟨i, hI.bound _ _ hc, by rw [hfind, hc], hstop⟩

/-- Positions that agree on their hashes can be stored under the other hash. -/
theorem congr_hash {hash' : ℕ → ℕ} (hI : Index hash n slots)
    (h : ∀ i < n, hash i = hash' i) : Index hash' n slots where
  pow := hI.pow
  load := hI.load
  bound := hI.bound
  unique := hI.unique
  stored i hi := by
    rw [← h i hi]
    exact hI.stored i hi

end Index

end LinearProbing
