import LinuxUtilities.Foundation.GreedyPartition
import LinuxUtilities.Snslice.Stream

/-! The records of an input and the chunks they belong in, without blocks, files or
counters. -/
namespace Snslice
open CString GreedyPartition

abbrev Record := List UInt8

/-- An input as far as it is cut: the complete records, the bytes after the last of
them, and the state of the record automaton. -/
structure Cut where
  records : List Record
  tail : Record
  state : CsvState

namespace Cut

def init : Cut := ⟨[], [], .start⟩

def step (format : FormatType) (p : Cut) (c : UInt8) : Option Cut :=
  (recordStep format p.state c).map fun next =>
    if next.2 then ⟨p.records ++ [p.tail ++ [c]], [], next.1⟩
    else ⟨p.records, p.tail ++ [c], next.1⟩

/-- The records of an input that ends here. -/
def all (p : Cut) : List Record := if p.tail = [] then p.records else p.records ++ [p.tail]

theorem step_eq_some {format : FormatType} {p q : Cut} {c : UInt8} (h : p.step format c = some q) :
    ∃ s boundary, recordStep format p.state c = some (s, boundary) ∧
      q = if boundary then ⟨p.records ++ [p.tail ++ [c]], [], s⟩
        else ⟨p.records, p.tail ++ [c], s⟩ := by
  obtain ⟨⟨s, boundary⟩, hstep, rfl⟩ := Option.map_eq_some_iff.mp h
  exact ⟨s, boundary, hstep, rfl⟩

end Cut

/-- Cut an input at its record boundaries; `none` when the automaton rejects a byte. -/
def cutInput (format : FormatType) (p : Cut) (input : List UInt8) : Option Cut :=
  input.foldlM (Cut.step format) p

@[simp] theorem cutInput_nil (format : FormatType) (p : Cut) : cutInput format p [] = some p := rfl

theorem cutInput_cons {format : FormatType} {p q : Cut} {c : UInt8} {rest : List UInt8}
    (h : cutInput format p (c :: rest) = some q) :
    ∃ p', p.step format c = some p' ∧ cutInput format p' rest = some q := by
  rw [cutInput, List.foldlM_cons] at h
  exact Option.bind_eq_some_iff.mp h

theorem cutInput_append {format : FormatType} {p q : Cut} {l m : List UInt8}
    (h : cutInput format p (l ++ m) = some q) :
    ∃ p', cutInput format p l = some p' ∧ cutInput format p' m = some q := by
  rw [cutInput, List.foldlM_append] at h
  exact Option.bind_eq_some_iff.mp h

/-- What one step keeps, the whole cut keeps. -/
theorem cutInput_induction {format : FormatType} {motive : Cut → Prop}
    (hstep : ∀ p c q, motive p → p.step format c = some q → motive q) {p q : Cut}
    {input : List UInt8} (hp : motive p) (h : cutInput format p input = some q) : motive q := by
  induction input generalizing p with
  | nil =>
    obtain rfl := Option.some.inj h
    exact hp
  | cons c rest ih =>
    obtain ⟨p', hc, hrest⟩ := cutInput_cons h
    exact ih (hstep p c p' hp hc) hrest

theorem cutInput_flatten {format : FormatType} {p q : Cut} {input : List UInt8}
    (h : cutInput format p input = some q) :
    q.records.flatten ++ q.tail = p.records.flatten ++ p.tail ++ input := by
  induction input generalizing p with
  | nil =>
    obtain rfl := Option.some.inj h
    simp
  | cons c rest ih =>
    obtain ⟨p', hc, hrest⟩ := cutInput_cons h
    obtain ⟨s, boundary, -, rfl⟩ := Cut.step_eq_some hc
    rw [ih hrest]
    cases boundary <;> simp

theorem Cut.all_flatten (p : Cut) : p.all.flatten = p.records.flatten ++ p.tail := by
  unfold Cut.all
  split
  next h => simp [h]
  next => simp

/-- No record is empty. -/
theorem cutInput_ne_nil {format : FormatType} {p q : Cut} {input : List UInt8}
    (hp : ∀ r ∈ p.records, r ≠ []) (h : cutInput format p input = some q) :
    ∀ r ∈ q.records, r ≠ [] := by
  apply cutInput_induction (motive := fun p => ∀ r ∈ p.records, r ≠ []) _ hp h
  intro p c q hp hc
  obtain ⟨s, boundary, -, rfl⟩ := Cut.step_eq_some hc
  cases boundary with
  | false => exact hp
  | true =>
    intro r hr
    obtain hold | rfl := by simpa using hr
    · exact hp r hold
    · simp

/-- Every record is at most `n` bytes long, the unterminated one included. -/
def Cut.Within (n : ℕ) (p : Cut) : Prop := (∀ r ∈ p.records, r.length ≤ n) ∧ p.tail.length ≤ n

instance (n : ℕ) (p : Cut) : Decidable (p.Within n) := by unfold Cut.Within; infer_instance

/-- A bound on the records bounds what was collected of them on the way. -/
theorem Cut.Within.of_step {format : FormatType} {n : ℕ} {p q : Cut} {c : UInt8}
    (hc : p.step format c = some q) (h : q.Within n) : p.Within n ∧ p.tail.length < n := by
  obtain ⟨s, boundary, -, rfl⟩ := Cut.step_eq_some hc
  cases boundary with
  | false =>
    obtain ⟨hrec, htail⟩ := h
    simp only [Bool.false_eq_true, ↓reduceIte, List.length_append, List.length_singleton]
      at hrec htail
    exact ⟨⟨hrec, by omega⟩, by omega⟩
  | true =>
    obtain ⟨hrec, -⟩ := h
    simp only [↓reduceIte, List.mem_append, List.mem_singleton] at hrec
    have hlast := hrec _ (Or.inr rfl)
    simp only [List.length_append, List.length_singleton] at hlast
    exact ⟨⟨fun r hr => hrec r (Or.inl hr), by omega⟩, by omega⟩

theorem Cut.Within.of_cutInput {format : FormatType} {n : ℕ} {p q : Cut} {input : List UInt8}
    (h : cutInput format p input = some q) (hq : q.Within n) : p.Within n := by
  induction input generalizing p with
  | nil =>
    obtain rfl := Option.some.inj h
    exact hq
  | cons c rest ih =>
    obtain ⟨p', hc, hrest⟩ := cutInput_cons h
    exact (Cut.Within.of_step hc (ih hrest)).1

/-- The ends of input that the format allows. -/
def Cut.Terminated (format : FormatType) (p : Cut) : Prop :=
  match format with
  | .ndjson => p.tail = []
  | .csv => p.state ≠ .quoted

/-- An input that `stream_slice` is to accept, with its cut: no NUL, no record over the
limit, and an end that the format allows. -/
structure Accepted (format : FormatType) (input : List UInt8) (p : Cut) : Prop where
  cut : cutInput format .init input = some p
  nulFree : (0 : UInt8) ∉ input
  within : p.Within maxRecordBytes
  terminated : p.Terminated format

/-- When the limits close a chunk. -/
def reachesLimit (cfg : SnSliceConfig) (chunk : List Record) : Bool :=
  decide (0 < cfg.limitBytes ∧ cfg.limitBytes ≤ chunk.flatten.length) ||
    decide (0 < cfg.limitRecords ∧ cfg.limitRecords ≤ chunk.length)

/-- The chunks of the complete records. -/
def Cut.filling (cfg : SnSliceConfig) (p : Cut) : Filling Record :=
  fill (reachesLimit cfg) p.records

/-- The chunks of an input that ends here. -/
def Cut.chunks (cfg : SnSliceConfig) (p : Cut) : List (List Record) :=
  (fill (reachesLimit cfg) p.all).chunks

/-- The bytes of the chunk that is open: its complete records and what follows them. -/
def Cut.content (cfg : SnSliceConfig) (p : Cut) : List UInt8 :=
  (p.filling cfg).current.flatten ++ p.tail

theorem Cut.chunks_of_tail {cfg : SnSliceConfig} {p : Cut} (h : p.tail ≠ []) :
    p.chunks cfg = (p.filling cfg).closed ++ [(p.filling cfg).current ++ [p.tail]] := by
  rw [Cut.chunks, Cut.all, if_neg h, chunks_concat, Cut.filling]

theorem Cut.chunks_of_nil {cfg : SnSliceConfig} {p : Cut} (h : p.tail = []) :
    p.chunks cfg = (p.filling cfg).chunks := by
  rw [Cut.chunks, Cut.all, if_pos h, Cut.filling]

/-- The last chunk holds the content of the open one, if there is any. -/
theorem Cut.chunks_content {cfg : SnSliceConfig} {p : Cut} (hne : ∀ r ∈ p.records, r ≠ []) :
    (p.chunks cfg).map List.flatten = (p.filling cfg).closed.map List.flatten ++
      if p.content cfg = [] then [] else [p.content cfg] := by
  by_cases htail : p.tail = []
  · rw [Cut.chunks_of_nil htail, Cut.content, htail, List.append_nil, Filling.chunks]
    by_cases hcur : (p.filling cfg).current = []
    · simp [hcur]
    · have hflat : (p.filling cfg).current.flatten ≠ [] := by
        obtain ⟨r, hr⟩ := List.exists_mem_of_ne_nil _ hcur
        have hmem : r ∈ p.records := mem_of_mem_current hr
        intro hnil
        exact hne r hmem (List.flatten_eq_nil_iff.mp hnil r hr)
      simp [hcur, hflat]
  · rw [Cut.chunks_of_tail htail]
    simp [Cut.content, htail]

/-- The number of chunks only grows as more of the input is read. -/
theorem Cut.length_chunks_step {cfg : SnSliceConfig} {p q : Cut} {c : UInt8}
    (hc : p.step cfg.format c = some q) :
    (p.filling cfg).closed.length < (q.chunks cfg).length ∧
      (p.chunks cfg).length ≤ (q.chunks cfg).length := by
  obtain ⟨s, boundary, -, rfl⟩ := Cut.step_eq_some hc
  have hq : ((if boundary then ⟨p.records ++ [p.tail ++ [c]], [], s⟩
      else ⟨p.records, p.tail ++ [c], s⟩ : Cut).chunks cfg).length =
        (p.filling cfg).closed.length + 1 := by
    cases boundary <;> simp [Cut.chunks, Cut.all, Cut.filling, chunks_concat]
  have hp : (p.chunks cfg).length ≤ (p.filling cfg).closed.length + 1 := by
    by_cases htail : p.tail = []
    · rw [Cut.chunks_of_nil htail]
      exact Filling.length_chunks_le _
    · simp [Cut.chunks_of_tail htail]
  omega

theorem Cut.length_chunks_mono {cfg : SnSliceConfig} {p q : Cut} {input : List UInt8}
    (h : cutInput cfg.format p input = some q) :
    (p.chunks cfg).length ≤ (q.chunks cfg).length := by
  apply cutInput_induction (motive := fun q => (p.chunks cfg).length ≤ (q.chunks cfg).length)
    _ le_rfl h
  intro q c q' hq hc
  exact hq.trans (Cut.length_chunks_step hc).2

/-- An open chunk with content counts among the chunks. -/
theorem Cut.closed_lt_chunks {cfg : SnSliceConfig} {p : Cut} (h : p.content cfg ≠ []) :
    (p.filling cfg).closed.length < (p.chunks cfg).length := by
  by_cases htail : p.tail = []
  · rw [Cut.chunks_of_nil htail]
    apply Filling.length_closed_lt_chunks
    intro hcur
    exact h (by simp [Cut.content, hcur, htail])
  · simp [Cut.chunks_of_tail htail]

end Snslice
