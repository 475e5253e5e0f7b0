import LinuxUtilities.Snslice.Csv
import LinuxUtilities.Snslice.Failures

/-! Which CSV inputs `stream_slice` rejects: its automaton does not see carriage returns, so
an input is rejected when what is left of it without them has a malformed field. -/
namespace Snslice
open CString

/-- What ends a field before the end of the input. -/
def IsSeparator (sep : List UInt8) : Prop := sep = [44] ∨ sep = [10] ∨ sep = [13, 10]

/-- Reading fields from the left, one that begins with a quote is not closed, or something
else than a separator or the end of the input follows its closing quote. -/
inductive Malformed : List UInt8 → Prop
  | unclosed (content : List UInt8) : Malformed (34 :: content.flatMap doubled)
  | followed (content : List UInt8) {c : UInt8} {rest : List UInt8} (hc : c ≠ 34)
    (hrest : ¬ ∃ sep rest', IsSeparator sep ∧ c :: rest = sep ++ rest') :
    Malformed (34 :: (content.flatMap doubled ++ 34 :: c :: rest))
  | afterQuoted (content : List UInt8) {sep rest : List UInt8} (hsep : IsSeparator sep)
    (hrest : Malformed rest) : Malformed (34 :: (content.flatMap doubled ++ 34 :: (sep ++ rest)))
  | afterBare {field rest : List UInt8} {sep : UInt8} (hfirst : field.head? ≠ some 34)
    (hfield : 44 ∉ field ∧ 10 ∉ field) (hsep : sep = 44 ∨ sep = 10) (hrest : Malformed rest) :
    Malformed (field ++ sep :: rest)

/-- The input without its carriage returns. -/
def withoutCr (input : List UInt8) : List UInt8 := input.filter (· ≠ 13)

/-- The states of the automaton over an input, without the boundaries. -/
def csvRun (s : CsvState) (input : List UInt8) : Option CsvState :=
  input.foldlM (fun s c => (csvStep s c).map Prod.fst) s

/-- The automaton stops, or the input ends between quotes. -/
def Rejects (s : CsvState) (input : List UInt8) : Prop :=
  csvRun s input = none ∨ csvRun s input = some .quoted

section Automaton
variable {s t : CsvState} {input rest content : List UInt8} {c : UInt8}

theorem csvRun_cons (s : CsvState) (c : UInt8) (rest : List UInt8) :
    csvRun s (c :: rest) = ((csvStep s c).map Prod.fst).bind fun t => csvRun t rest := rfl

theorem csvRun_step (h : (csvStep s c).map Prod.fst = some t) :
    csvRun s (c :: rest) = csvRun t rest := by
  rw [csvRun_cons, h, Option.bind_some]

theorem csvRun_append (s : CsvState) (input rest : List UInt8) :
    csvRun s (input ++ rest) = (csvRun s input).bind fun t => csvRun t rest := by
  rw [csvRun, List.foldlM_append]
  rfl

/-- No state sees a carriage return. -/
theorem csvStep_cr (s : CsvState) : csvStep s 13 = some (s, false) := by
  cases s <;> simp [csvStep]

theorem csvRun_withoutCr (s : CsvState) (input : List UInt8) :
    csvRun s (withoutCr input) = csvRun s input := by
  induction input generalizing s with
  | nil => rfl
  | cons c rest ih =>
    by_cases hc : c = 13
    · subst hc
      rw [csvRun_step (congrArg (Option.map Prod.fst) (csvStep_cr s)), ← ih]
      rfl
    · have hkeep : withoutCr (c :: rest) = c :: withoutCr rest := by simp [withoutCr, hc]
      rw [hkeep, csvRun_cons, csvRun_cons]
      simp only [ih]

/-- The content of a quoted field leaves the automaton between quotes. -/
theorem csvRun_quoted (content rest : List UInt8) :
    csvRun .quoted (content.flatMap doubled ++ rest) = csvRun .quoted rest := by
  induction content with
  | nil => rfl
  | cons b content ih =>
    rw [List.flatMap_cons, List.append_assoc, doubled]
    split
    next hb =>
      rw [List.cons_append, csvRun_step (t := .escapedQuote) (by simp [csvStep]),
        List.cons_append, csvRun_step (t := .quoted) (by simp [csvStep])]
      exact ih
    next hb =>
      rw [List.cons_append, csvRun_step (t := .quoted) (by simp [csvStep, hb])]
      exact ih

/-- A bare field leaves the automaton outside quotes. -/
theorem csvRun_unquoted {field : List UInt8} (hfield : 44 ∉ field ∧ 10 ∉ field) :
    csvRun .unquoted field = some .unquoted := by
  induction field with
  | nil => rfl
  | cons b field ih =>
    simp only [List.mem_cons, not_or] at hfield
    rw [csvRun_step (t := .unquoted)
      (by simp [csvStep, Ne.symm hfield.1.1, Ne.symm hfield.2.1])]
    exact ih ⟨hfield.1.2, hfield.2.2⟩

theorem csvRun_bare {field : List UInt8} (hfirst : field.head? ≠ some 34)
    (hfield : 44 ∉ field ∧ 10 ∉ field) (hcr : 13 ∉ field) :
    csvRun .start field = some .start ∨ csvRun .start field = some .unquoted := by
  cases field with
  | nil => exact .inl rfl
  | cons b field =>
    have hquote : b ≠ 34 := by simpa using hfirst
    simp only [List.mem_cons, not_or] at hfield hcr
    rw [csvRun_step (t := .unquoted)
      (by simp [csvStep, hquote, Ne.symm hfield.1.1, Ne.symm hfield.2.1, Ne.symm hcr.1])]
    exact .inr (csvRun_unquoted ⟨hfield.1.2, hfield.2.2⟩)

/-- A separator outside quotes starts a field. -/
theorem csvRun_separator {sep : UInt8} (hsep : sep = 44 ∨ sep = 10) (hs : s ≠ .quoted)
    (rest : List UInt8) : csvRun s (sep :: rest) = csvRun .start rest := by
  apply csvRun_step
  cases s with
  | quoted => exact absurd rfl hs
  | start | unquoted | escapedQuote => rcases hsep with rfl | rfl <;> simp [csvStep]

/-- A bare field with its separator. -/
theorem csvRun_field {field : List UInt8} {sep : UInt8} (hfirst : field.head? ≠ some 34)
    (hfield : 44 ∉ field ∧ 10 ∉ field) (hcr : 13 ∉ field) (hsep : sep = 44 ∨ sep = 10) :
    csvRun .start (field ++ sep :: rest) = csvRun .start rest := by
  rw [csvRun_append]
  rcases csvRun_bare hfirst hfield hcr with hrun | hrun
  · rw [hrun, Option.bind_some, csvRun_separator hsep (by decide)]
  · rw [hrun, Option.bind_some, csvRun_separator hsep (by decide)]

theorem csvRun_open (rest : List UInt8) : csvRun .start (34 :: rest) = csvRun .quoted rest :=
  csvRun_step (by simp [csvStep])

theorem csvRun_close (rest : List UInt8) :
    csvRun .quoted (34 :: rest) = csvRun .escapedQuote rest :=
  csvRun_step (by simp [csvStep])

/-- What follows an opening quote: content, up to the closing quote if there is one. -/
inductive QuotedBody : List UInt8 → Prop
  | unclosed (content : List UInt8) : QuotedBody (content.flatMap doubled)
  | closed (content : List UInt8) {after : List UInt8} (h : after.head? ≠ some 34) :
    QuotedBody (content.flatMap doubled ++ 34 :: after)

theorem QuotedBody.cons {body : List UInt8} (b : UInt8) (h : QuotedBody body) :
    QuotedBody (doubled b ++ body) := by
  cases h with
  | unclosed content => exact .unclosed (b :: content)
  | closed content h =>
    rw [← List.append_assoc, ← List.flatMap_cons]
    exact .closed (b :: content) h

theorem quotedBody (body : List UInt8) : QuotedBody body := by
  induction hn : body.length using Nat.strong_induction_on generalizing body with
  | _ n ih =>
    cases body with
    | nil => exact .unclosed []
    | cons b body =>
      rw [List.length_cons] at hn
      by_cases hb : b = 34
      · subst hb
        by_cases hquote : body.head? = some 34
        · obtain ⟨body', rfl⟩ := List.head?_eq_some_iff.mp hquote
          rw [List.length_cons] at hn
          exact (ih body'.length (by omega) body' rfl).cons 34
        · exact .closed [] hquote
      · have hrest := (ih body.length (by omega) body rfl).cons b
        rwa [doubled, if_neg hb] at hrest

/-- What is not between quotes: a field, up to a separator if there is one. -/
inductive BareBody : List UInt8 → Prop
  | last {field : List UInt8} (hfield : 44 ∉ field ∧ 10 ∉ field) : BareBody field
  | more {field rest : List UInt8} {sep : UInt8} (hfield : 44 ∉ field ∧ 10 ∉ field)
    (hsep : sep = 44 ∨ sep = 10) : BareBody (field ++ sep :: rest)

theorem bareBody (input : List UInt8) : BareBody input := by
  induction input with
  | nil => exact .last (by simp)
  | cons b input ih =>
    by_cases hb : b = 44 ∨ b = 10
    · have hmore : BareBody ([] ++ b :: input) := .more (by simp) hb
      exact hmore
    rw [not_or] at hb
    cases ih with
    | last hfield =>
      refine .last ?_
      simp only [List.mem_cons, not_or]
      exact ⟨⟨Ne.symm hb.1, hfield.1⟩, Ne.symm hb.2, hfield.2⟩
    | more hfield hsep =>
      rw [← List.cons_append]
      refine .more ?_ hsep
      simp only [List.mem_cons, not_or]
      exact ⟨⟨Ne.symm hb.1, hfield.1⟩, Ne.symm hb.2, hfield.2⟩

/-- What the automaton rejects has a malformed field, if it has no carriage returns. -/
theorem malformed_of_rejects {input : List UInt8} (hcr : 13 ∉ input) (h : Rejects .start input) :
    Malformed input := by
  induction hn : input.length using Nat.strong_induction_on generalizing input with
  | _ n ih =>
    by_cases hquote : input.head? = some 34
    · obtain ⟨body, rfl⟩ := List.head?_eq_some_iff.mp hquote
      rw [Rejects, csvRun_open] at h
      cases quotedBody body with
      | unclosed content => exact .unclosed content
      | @closed content after hafter =>
        rw [csvRun_quoted, csvRun_close] at h
        cases after with
        | nil => simp [csvRun] at h
        | cons c rest =>
          have hc : c ≠ 34 := by simpa using hafter
          have hrest : 13 ∉ c :: rest := fun hmem =>
            hcr (List.mem_cons_of_mem _ (List.mem_append_right _ (List.mem_cons_of_mem _ hmem)))
          have hne : c ≠ 13 ∧ 13 ∉ rest := by
            simp only [List.mem_cons, not_or] at hrest
            exact ⟨Ne.symm hrest.1, hrest.2⟩
          by_cases hsep : c = 44 ∨ c = 10
          · rw [csvRun_separator hsep (by decide)] at h
            have hsep' : IsSeparator [c] := by
              rcases hsep with rfl | rfl
              · exact .inl rfl
              · exact .inr (.inl rfl)
            refine .afterQuoted content hsep' (ih rest.length ?_ hne.2 h rfl)
            rw [← hn]
            simp only [List.length_cons, List.length_append]
            omega
          · refine .followed content hc ?_
            rw [not_or] at hsep
            rintro ⟨sep, rest', rfl | rfl | rfl, heq⟩
            · exact hsep.1 (List.cons_eq_cons.mp heq).1
            · exact hsep.2 (List.cons_eq_cons.mp heq).1
            · exact hne.1 (List.cons_eq_cons.mp heq).1
    · cases bareBody input with
      | last hfield =>
        rcases csvRun_bare hquote hfield hcr with hrun | hrun
        · simp [Rejects, hrun] at h
        · simp [Rejects, hrun] at h
      | @more field rest sep hfield hsep =>
        rw [List.mem_append, List.mem_cons, not_or, not_or] at hcr
        have hfirst : field.head? ≠ some 34 := by
          cases field with
          | nil => simp
          | cons b field => simpa using hquote
        refine .afterBare hfirst hfield hsep (ih rest.length ?_ hcr.2.2 ?_ rfl)
        · rw [← hn]
          simp only [List.length_append, List.length_cons]
          omega
        · rwa [Rejects, csvRun_field hfirst hfield hcr.1 hsep] at h

/-- A malformed field is rejected, if there are no carriage returns. -/
theorem Malformed.rejects {input : List UInt8} (h : Malformed input) (hcr : 13 ∉ input) :
    Rejects .start input := by
  induction h with
  | unclosed content =>
    have hrun := csvRun_quoted content []
    rw [List.append_nil] at hrun
    exact .inr ((csvRun_open _).trans hrun)
  | @followed content c rest hc hrest =>
    have hsep : c ≠ 44 ∧ c ≠ 10 := by
      constructor
      · rintro rfl
        exact hrest ⟨[44], rest, .inl rfl, rfl⟩
      · rintro rfl
        exact hrest ⟨[10], rest, .inr (.inl rfl), rfl⟩
    have hne : c ≠ 13 := by
      rintro rfl
      simp at hcr
    have hstop : csvStep .escapedQuote c = none := by simp [csvStep, hc, hsep, hne]
    rw [Rejects, csvRun_open, csvRun_quoted, csvRun_close, csvRun_cons, hstop]
    exact .inl rfl
  | @afterQuoted content sep rest hsep hrest ih =>
    have hbyte : ∃ c, sep = [c] ∧ (c = 44 ∨ c = 10) := by
      rcases hsep with rfl | rfl | rfl
      · exact ⟨44, rfl, .inl rfl⟩
      · exact ⟨10, rfl, .inr rfl⟩
      · simp at hcr
    obtain ⟨c, rfl, hc⟩ := hbyte
    rw [Rejects, csvRun_open, csvRun_quoted, csvRun_close, List.singleton_append,
      csvRun_separator hc (by decide)]
    exact ih fun hmem => hcr (by simp [hmem])
  | afterBare hfirst hfield hsep hrest ih =>
    rw [List.mem_append, List.mem_cons, not_or, not_or] at hcr
    rw [Rejects, csvRun_field hfirst hfield hcr.1 hsep]
    exact ih hcr.2.2

/-- The automaton rejects the inputs that are malformed without their carriage returns. -/
theorem rejects_iff (input : List UInt8) :
    Rejects .start input ↔ Malformed (withoutCr input) := by
  have hcr : 13 ∉ withoutCr input := by simp [withoutCr]
  have hrun : Rejects .start (withoutCr input) ↔ Rejects .start input := by
    rw [Rejects, Rejects, csvRun_withoutCr]
  rw [← hrun]
  exact ⟨malformed_of_rejects hcr, fun h => h.rejects hcr⟩

end Automaton

end Snslice
