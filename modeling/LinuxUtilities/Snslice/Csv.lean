import LinuxUtilities.Snslice.Partition

/-! CSV documents as RFC 4180 writes them, and where the automaton cuts their bytes. -/
namespace Snslice
open CString GreedyPartition

/-- A field as it is written: bare, or between quotes with every quote doubled. -/
inductive CsvField where
  | bare (bytes : List UInt8) (plain : ∀ b ∈ bytes, b ≠ 34 ∧ b ≠ 44 ∧ b ≠ 13 ∧ b ≠ 10 ∧ b ≠ 0)
  | quoted (bytes : List UInt8) (nulFree : (0 : UInt8) ∉ bytes)

/-- A record: at least one field. -/
structure CsvRecord where
  first : CsvField
  others : List CsvField

inductive Terminator where
  | lf | crlf

/-- The records that have their terminator, and one more that may lack it. -/
structure CsvDocument where
  body : List (CsvRecord × Terminator)
  last : Option CsvRecord

def doubled (b : UInt8) : List UInt8 := if b = 34 then [34, 34] else [b]

def CsvField.encode : CsvField → List UInt8
  | .bare bytes _ => bytes
  | .quoted bytes _ => 34 :: (bytes.flatMap doubled ++ [34])

def encodeFields (first : CsvField) : List CsvField → List UInt8
  | [] => first.encode
  | f :: fields => first.encode ++ 44 :: encodeFields f fields

def CsvRecord.encode (r : CsvRecord) : List UInt8 := encodeFields r.first r.others

def Terminator.encode : Terminator → List UInt8
  | .lf => [10]
  | .crlf => [13, 10]

/-- A record with its terminator. -/
def encodeLine (line : CsvRecord × Terminator) : List UInt8 := line.1.encode ++ line.2.encode

namespace CsvDocument

def lines (doc : CsvDocument) : List (List UInt8) := doc.body.map encodeLine

/-- The record without a terminator, if there is one. -/
def lastBytes (doc : CsvDocument) : List UInt8 :=
  match doc.last with
  | none => []
  | some r => r.encode

def encode (doc : CsvDocument) : List UInt8 := doc.lines.flatten ++ doc.lastBytes

end CsvDocument

/-- The automaton reads these bytes from one state to another without a boundary. -/
def Scans (s : CsvState) (l : List UInt8) (t : CsvState) : Prop :=
  ∀ records tail, cutInput .csv ⟨records, tail, s⟩ l = some ⟨records, tail ++ l, t⟩

theorem cutInput_of_append {format : FormatType} {p p' : Cut} {l : List UInt8}
    (h : cutInput format p l = some p') (m : List UInt8) :
    cutInput format p (l ++ m) = cutInput format p' m := by
  rw [cutInput, List.foldlM_append]
  change cutInput format p l >>= _ = _
  rw [h]
  rfl

namespace Scans
variable {s t u : CsvState} {l m : List UInt8}

theorem nil (s : CsvState) : Scans s [] s := by
  intro records tail
  simp

theorem append (h : Scans s l t) (h' : Scans t m u) : Scans s (l ++ m) u := by
  intro records tail
  rw [cutInput_of_append (h records tail), h', List.append_assoc]

theorem byte {c : UInt8} (h : csvStep s c = some (t, false)) : Scans s [c] t := by
  intro records tail
  simp [cutInput, Cut.step, recordStep, h]

theorem cons {c : UInt8} (h : csvStep s c = some (t, false)) (h' : Scans t l u) :
    Scans s (c :: l) u :=
  (byte h).append h'

end Scans

theorem unquoted_scans {bytes : List UInt8}
    (h : ∀ b ∈ bytes, b ≠ 34 ∧ b ≠ 44 ∧ b ≠ 13 ∧ b ≠ 10 ∧ b ≠ 0) :
    Scans .unquoted bytes .unquoted := by
  induction bytes with
  | nil => exact .nil _
  | cons b bytes ih =>
    obtain ⟨-, hcomma, -, hlf, -⟩ := h b List.mem_cons_self
    exact .cons (by simp [csvStep, hcomma, hlf]) (ih fun x hx => h x (List.mem_cons_of_mem b hx))

theorem quoted_scans (bytes : List UInt8) : Scans .quoted (bytes.flatMap doubled) .quoted := by
  induction bytes with
  | nil => exact .nil _
  | cons b bytes ih =>
    rw [List.flatMap_cons, doubled]
    split
    next hquote =>
      -- the first quote looks like the closing one, the second takes it back
      exact .append (.cons (t := .escapedQuote) (by simp [csvStep]) (.byte (by simp [csvStep]))) ih
    next hquote => exact .append (.byte (by simp [csvStep, hquote])) ih

/-- After a field the automaton is outside quotes. -/
theorem field_scans (f : CsvField) : ∃ t, t ≠ .quoted ∧ Scans .start f.encode t := by
  cases f with
  | bare bytes plain =>
    cases bytes with
    | nil => exact ⟨.start, by decide, .nil _⟩
    | cons b bytes =>
      obtain ⟨hquote, hcomma, hcr, hlf, -⟩ := plain b List.mem_cons_self
      refine ⟨.unquoted, by decide, .cons (t := .unquoted) ?_ ?_⟩
      · simp [csvStep, hquote, hcomma, hcr, hlf]
      · exact unquoted_scans fun x hx => plain x (List.mem_cons_of_mem b hx)
  | quoted bytes nulFree =>
    refine ⟨.escapedQuote, by decide, .cons (t := .quoted) (by simp [csvStep]) ?_⟩
    exact (quoted_scans bytes).append (.byte (by simp [csvStep]))

theorem fields_scans (first : CsvField) (fields : List CsvField) :
    ∃ t, t ≠ .quoted ∧ Scans .start (encodeFields first fields) t := by
  induction fields generalizing first with
  | nil => exact field_scans first
  | cons f fields ih =>
    obtain ⟨s, hs, hfirst⟩ := field_scans first
    obtain ⟨t, ht, hrest⟩ := ih f
    refine ⟨t, ht, hfirst.append (.cons ?_ hrest)⟩
    cases s with
    | quoted => exact absurd rfl hs
    | start | unquoted | escapedQuote => simp [csvStep]

/-- A terminated record is cut right after its line feed. -/
theorem line_cut (line : CsvRecord × Terminator) (records : List Record) :
    cutInput .csv ⟨records, [], .start⟩ (encodeLine line) =
      some ⟨records ++ [encodeLine line], [], .start⟩ := by
  obtain ⟨r, terminator⟩ := line
  obtain ⟨s, hs, hscan⟩ := fields_scans r.first r.others
  have hlf (tail : Record) : cutInput .csv ⟨records, tail, s⟩ [10] =
      some ⟨records ++ [tail ++ [10]], [], .start⟩ := by
    cases s with
    | quoted => exact absurd rfl hs
    | start | unquoted | escapedQuote => simp [cutInput, Cut.step, recordStep, csvStep]
  have hcr : Scans s [13] s := by
    cases s with
    | quoted => exact absurd rfl hs
    | start | unquoted | escapedQuote => exact .byte (by simp [csvStep])
  have hrecord := hscan records []
  rw [List.nil_append] at hrecord
  rw [encodeLine, CsvRecord.encode, cutInput_of_append hrecord]
  cases terminator with
  | lf => exact hlf _
  | crlf =>
    rw [Terminator.encode, ← List.singleton_append, cutInput_of_append (hcr _ _), hlf]
    simp

theorem lines_cut (body : List (CsvRecord × Terminator)) (records : List Record) :
    cutInput .csv ⟨records, [], .start⟩ (body.map encodeLine).flatten =
      some ⟨records ++ body.map encodeLine, [], .start⟩ := by
  induction body generalizing records with
  | nil => simp
  | cons line body ih =>
    rw [List.map_cons, List.flatten_cons, cutInput_of_append (line_cut line records), ih]
    simp

/-- A document is cut into its terminated records and what is left of the last one. -/
theorem document_cut (doc : CsvDocument) : ∃ s, s ≠ .quoted ∧
    cutInput .csv .init doc.encode = some ⟨doc.lines, doc.lastBytes, s⟩ := by
  have hlines := lines_cut doc.body []
  rw [List.nil_append] at hlines
  rw [CsvDocument.encode, CsvDocument.lines, Cut.init, cutInput_of_append hlines]
  cases hlast : doc.last with
  | none =>
    rw [CsvDocument.lastBytes, hlast]
    exact ⟨.start, by decide, rfl⟩
  | some r =>
    obtain ⟨s, hs, hscan⟩ := fields_scans r.first r.others
    rw [CsvDocument.lastBytes, hlast]
    exact ⟨s, hs, hscan _ _⟩

theorem field_nulFree (f : CsvField) : (0 : UInt8) ∉ f.encode := by
  cases f with
  | bare bytes plain => exact fun hmem => (plain 0 hmem).2.2.2.2 rfl
  | quoted bytes nulFree =>
    simp only [CsvField.encode, List.mem_cons, List.mem_append, List.not_mem_nil, or_false,
      List.mem_flatMap, doubled]
    rintro (h | ⟨b, hb, h⟩ | h)
    · exact absurd h (by decide)
    · split at h
      · exact absurd h (by decide)
      · rw [List.mem_singleton] at h
        exact nulFree (h ▸ hb)
    · exact absurd h (by decide)

theorem fields_nulFree (first : CsvField) (fields : List CsvField) :
    (0 : UInt8) ∉ encodeFields first fields := by
  induction fields generalizing first with
  | nil => exact field_nulFree first
  | cons f fields ih =>
    intro hmem
    rcases List.mem_append.mp hmem with h | h
    · exact field_nulFree first h
    · rcases List.mem_cons.mp h with h | h
      · exact absurd h (by decide)
      · exact ih f h

theorem document_nulFree (doc : CsvDocument) : (0 : UInt8) ∉ doc.encode := by
  intro hmem
  rcases List.mem_append.mp hmem with h | h
  · obtain ⟨l, hl, h⟩ := List.mem_flatten.mp h
    obtain ⟨⟨r, terminator⟩, -, rfl⟩ := List.mem_map.mp hl
    rcases List.mem_append.mp h with h | h
    · exact fields_nulFree _ _ h
    · cases terminator <;> simp [Terminator.encode] at h
  · revert h
    rw [CsvDocument.lastBytes]
    cases doc.last with
    | none => simp
    | some r => exact fields_nulFree _ _

/-- At this position of an input the automaton finds the end of a record. -/
def IsBoundary (format : FormatType) (input : List UInt8) (i : ℕ) : Prop :=
  ∃ (h : i < input.length) (p : Cut) (s : CsvState),
    cutInput format .init (input.take i) = some p ∧
      recordStep format p.state input[i] = some (s, true)

/-- A byte more adds at most the position of that byte. -/
theorem isBoundary_concat {format : FormatType} {l : List UInt8} {c : UInt8} {p : Cut}
    {s : CsvState} {boundary : Bool} (hl : cutInput format .init l = some p)
    (hstep : recordStep format p.state c = some (s, boundary)) (i : ℕ) :
    IsBoundary format (l ++ [c]) i ↔ IsBoundary format l i ∨ i = l.length ∧ boundary = true := by
  have htake (hi : i ≤ l.length) : (l ++ [c]).take i = l.take i :=
    List.take_append_of_le_length hi
  constructor
  · rintro ⟨hi, p', s', hcut, hauto⟩
    rw [List.length_append, List.length_singleton] at hi
    by_cases hlt : i < l.length
    · rw [htake hlt.le] at hcut
      rw [List.getElem_append_left hlt] at hauto
      exact .inl ⟨hlt, p', s', hcut, hauto⟩
    · obtain rfl : i = l.length := by omega
      rw [htake le_rfl, List.take_length] at hcut
      obtain rfl := Option.some.inj (hl.symm.trans hcut)
      rw [List.getElem_concat_length rfl, hstep] at hauto
      obtain ⟨-, rfl⟩ := Prod.mk.inj (Option.some.inj hauto)
      exact .inr ⟨rfl, rfl⟩
  · rintro (⟨hi, p', s', hcut, hauto⟩ | ⟨rfl, rfl⟩)
    · refine ⟨by rw [List.length_append]; omega, p', s', by rwa [htake hi.le], ?_⟩
      rwa [List.getElem_append_left hi]
    · refine ⟨by simp, p, s, by rwa [htake le_rfl, List.take_length], ?_⟩
      rw [List.getElem_concat_length rfl, hstep]

/-- The boundaries of an input are the ends of the records it is cut into. -/
theorem isBoundary_iff {format : FormatType} {input : List UInt8} {q : Cut}
    (h : cutInput format .init input = some q) (i : ℕ) :
    IsBoundary format input i ↔
      ∃ k < q.records.length, i + 1 = (q.records.take (k + 1)).flatten.length := by
  induction input using List.reverseRecOn generalizing q with
  | nil =>
    obtain rfl := Option.some.inj h
    constructor
    · rintro ⟨hi, -⟩
      simp at hi
    · rintro ⟨k, hk, -⟩
      simp [Cut.init] at hk
  | append_singleton l c ih =>
    obtain ⟨p, hl, hc⟩ := cutInput_append h
    have hlen := congrArg List.length (cutInput_flatten hl)
    simp only [Cut.init, List.flatten_nil, List.append_nil, List.nil_append,
      List.length_append] at hlen
    obtain ⟨p', hstep, hq⟩ := cutInput_cons hc
    obtain rfl := Option.some.inj hq
    obtain ⟨s, boundary, hauto, rfl⟩ := Cut.step_eq_some hstep
    rw [isBoundary_concat hl hauto, ih hl]
    cases boundary with
    | false => simp
    | true =>
      have htotal : (p.records ++ [p.tail ++ [c]]).flatten.length = l.length + 1 := by
        rw [List.flatten_append, List.length_append, List.flatten_singleton, List.length_append,
          List.length_singleton]
        omega
      simp only [and_true, ↓reduceIte, List.length_append, List.length_singleton]
      constructor
      · rintro (⟨k, hk, hi⟩ | rfl)
        · exact ⟨k, by omega, by rw [List.take_append_of_le_length (by omega), hi]⟩
        · refine ⟨p.records.length, by omega, ?_⟩
          rw [List.take_of_length_le (by simp), htotal]
      · rintro ⟨k, hk, hi⟩
        by_cases hold : k < p.records.length
        · rw [List.take_append_of_le_length (by omega)] at hi
          exact .inl ⟨k, hold, hi⟩
        · rw [List.take_of_length_le (by simp; omega), htotal] at hi
          exact .inr (Nat.succ.inj hi)

/-- The last byte of a terminated record is a line feed. -/
theorem getElem_end {doc : CsvDocument} {before after : List (CsvRecord × Terminator)}
    {line : CsvRecord × Terminator} {i : ℕ} (hbody : doc.body = before ++ line :: after)
    (hi : i + 1 = ((before ++ [line]).map encodeLine).flatten.length) :
    doc.encode[i]? = some 10 := by
  obtain ⟨l, hl⟩ : ∃ l, encodeLine line = l ++ [10] := by
    obtain ⟨r, terminator⟩ := line
    cases terminator with
    | lf => exact ⟨_, rfl⟩
    | crlf => exact ⟨r.encode ++ [13], by simp [encodeLine, Terminator.encode]⟩
  have hencode : doc.encode = (before.map encodeLine).flatten ++ l ++
      10 :: ((after.map encodeLine).flatten ++ doc.lastBytes) := by
    simp [CsvDocument.encode, CsvDocument.lines, hbody, hl]
  have hpos : i = ((before.map encodeLine).flatten ++ l).length := by
    rw [List.map_append, List.flatten_append, List.map_singleton, List.flatten_singleton, hl,
      ← List.append_assoc, List.length_append, List.length_singleton] at hi
    exact Nat.succ.inj hi
  rw [hencode, hpos, List.getElem?_append_right le_rfl, Nat.sub_self, List.getElem?_cons_zero]

/-- The bytes of a document are accepted, and cut exactly at the line feeds that end a record
and, if a last record without a terminator has any bytes, at the end of the input. -/
theorem csv_boundaries (doc : CsvDocument)
    (hlen : ∀ r ∈ doc.lines ++ [doc.lastBytes], r.length ≤ maxRecordBytes) :
    ∃ p, Accepted .csv doc.encode p ∧
      p.all = doc.lines ++ (if doc.lastBytes = [] then [] else [doc.lastBytes]) ∧
      (∀ i, IsBoundary .csv doc.encode i ↔ doc.encode[i]? = some 10 ∧
        ∃ before line after, doc.body = before ++ line :: after ∧
          i + 1 = ((before ++ [line]).map encodeLine).flatten.length) ∧
      ∀ (cfg : SnSliceConfig) (w : World) (inputFd : ℕ) (closeInputFd : Bool),
        cfg.format = .csv → Delivers w.reads doc.encode → w.Healthy → Room cfg w p →
          ∃ r, streamSlice cfg ⟨.init inputFd closeInputFd, w⟩ = .ok r ∧
            ChunkFiles cfg w.files r.world.files ((p.chunks cfg).map List.flatten) := by
  obtain ⟨s, hs, hcut⟩ := document_cut doc
  have haccepted : Accepted .csv doc.encode ⟨doc.lines, doc.lastBytes, s⟩ := by
    refine ⟨hcut, document_nulFree doc, ⟨fun r hr => ?_, ?_⟩, hs⟩
    · exact hlen r (List.mem_append_left _ hr)
    · exact hlen _ (List.mem_append_right _ List.mem_cons_self)
  refine ⟨_, haccepted, ?_, fun i => ?_,
    fun cfg w inputFd closeInputFd hcsv hreads hsys hroom => ?_⟩
  · unfold Cut.all
    split <;> simp
  · rw [isBoundary_iff hcut]
    constructor
    · rintro ⟨k, hk, hi⟩
      have hk' : k < doc.body.length := by simpa [CsvDocument.lines] using hk
      have hsplit := (List.take_append_drop k doc.body).symm
      rw [List.drop_eq_getElem_cons hk'] at hsplit
      have hend : i + 1 = ((doc.body.take k ++ [doc.body[k]]).map encodeLine).flatten.length := by
        rw [← List.take_succ_eq_append_getElem hk', List.map_take]
        exact hi
      exact ⟨getElem_end hsplit hend, _, _, _, hsplit, hend⟩
    · rintro ⟨-, before, line, after, hbody, hend⟩
      refine ⟨before.length, by simp [CsvDocument.lines, hbody], ?_⟩
      rw [hend, CsvDocument.lines, ← List.map_take, hbody]
      simp
  · obtain ⟨r, hrun, hfiles⟩ := readLoop_spec (Scanned.init cfg w hsys inputFd closeInputFd) hreads
      (hcsv ▸ haccepted.cut) haccepted.nulFree haccepted.within hroom (by simp [Cut.init])
      (hcsv ▸ haccepted.terminated)
    exact ⟨r, hrun, hfiles⟩

/-- A quoted field with a quote and a line feed in it, then a record without a terminator. -/
def quotedDoc : CsvDocument where
  body := [(⟨.bare (ascii "a") (by simp [ascii]), [.quoted (ascii "b\"\n") (by decide)]⟩, .crlf)]
  last := some ⟨.bare (ascii "c") (by simp [ascii]), []⟩

theorem csv_boundaries_quoted : ∃ p, Accepted .csv (ascii "a,\"b\"\"\n\"\r\nc") p ∧
    p.all = [ascii "a,\"b\"\"\n\"\r\n", ascii "c"] := by
  obtain ⟨p, haccepted, hall, -, -⟩ := csv_boundaries quotedDoc (by decide)
  exact ⟨p, haccepted, hall⟩

end Snslice
