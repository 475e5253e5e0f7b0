import LinuxUtilities.Foundation.PythonValues

/-! `validate_codex_cli_telemetry_payload` and `parse_codex_cli_telemetry`: what a usage payload
must hold, and the record that is made of it. -/
namespace CodexTelemetry
open CodePoints Python

section Names

def promptTokens : Text := lit "prompt_tokens"

def completionTokens : Text := lit "completion_tokens"

def totalTokens : Text := lit "total_tokens"

def cachedTokens : Text := lit "cached_tokens"

def modelKey : Text := lit "model"

def wallClockSeconds : Text := lit "wall_clock_seconds"

/-- The required fields in sorted order. -/
def requiredKeys : List Text :=
  [completionTokens, modelKey, promptTokens, totalTokens, wallClockSeconds]

end Names

section Complaints

/-- What a `ValueError` complains of. -/
inductive Complaint where
  | notMapping
  | missing (fields : List Text)
  | badCount (field : Text) (value : Json)
  | wrongTotal (total prompt completion : ℤ)
  | emptyModel
  | badDuration (value : Json)

/-- The message of a complaint; `repr` writes a value. -/
def Complaint.text (repr : Json → Text) : Complaint → Text
  | .notMapping => lit "Usage telemetry payload must be a mapping"
  | .missing fields =>
    lit "Usage telemetry payload is missing required fields: " ++ repr (.arr (fields.map .str))
  | .badCount field value => field ++ lit " must be a non-negative integer, got " ++ repr value
  | .wrongTotal total prompt completion =>
    lit "total_tokens (" ++ repr (.int total) ++ lit ") must equal prompt_tokens (" ++
      repr (.int prompt) ++ lit ") + completion_tokens (" ++ repr (.int completion) ++ lit ")"
  | .emptyModel => lit "model must be a non-empty string"
  | .badDuration value =>
    lit "wall_clock_seconds must be a positive finite float, got " ++ repr value

/-- A corrupted artifact, or a payload that does not follow the schema. -/
inductive UsageTelemetryError where
  | corruptedArtifact
  | invalidArtifact (e : Complaint)
  | invalidStdout (e : Complaint)

/-- The `ValueError`s of the module: the plain ones, and the subclass that callers expect. -/
inductive Failure where
  | valueError (e : Complaint)
  | usageTelemetryError (e : UsageTelemetryError)

end Complaints

section Validate

abbrev Result := Except (Raised Failure)

def complain {α : Type} (e : Complaint) : Result α := .error (.raised (.valueError e))

/-- An integer that is no boolean and not negative. -/
def requireCount (field : Text) (value : Json) : Result ℤ :=
  match value with
  | .int n => if n < 0 then complain (.badCount field value) else .ok n
  | _ => complain (.badCount field value)

def requireModel (value : Json) : Result Unit :=
  match value with
  | .str s => if strip s = [] then complain .emptyModel else .ok ()
  | _ => complain .emptyModel

/-- A number above zero that `math.isfinite` accepts; it raises on an integer that no double
can hold. -/
def requireDuration (value : Json) : Result Unit :=
  match value with
  | .int n =>
    if n ≤ 0 then complain (.badDuration value)
    else (Double.ofInt n).elim (.error .overflowError) fun _ => .ok ()
  | .float x =>
    if x.nonpositive ∨ x.isFinite = false then complain (.badDuration value) else .ok ()
  | _ => complain (.badDuration value)

def validateCodexCliTelemetryPayload (payload : Json) : Result Fields :=
  match payload with
  | .obj fields => do
    let missing := requiredKeys.filter fun key => (fields.lookup key).isNone
    if missing ≠ [] then complain (.missing missing)
    let prompt ← getKey fields promptTokens
    let completion ← getKey fields completionTokens
    let total ← getKey fields totalTokens
    let model ← getKey fields modelKey
    let duration ← getKey fields wallClockSeconds
    let promptCount ← requireCount promptTokens prompt
    let completionCount ← requireCount completionTokens completion
    let totalCount ← requireCount totalTokens total
    if totalCount ≠ promptCount + completionCount then
      complain (.wrongTotal totalCount promptCount completionCount)
    requireModel model
    requireDuration duration
    let _ ← requireCount cachedTokens ((fields.lookup cachedTokens).getD (.int 0))
    return fields
  | _ => complain .notMapping

structure CodexCLITelemetry where
  promptTokens : Json
  completionTokens : Json
  totalTokens : Json
  model : Text
  wallClockSeconds : Double
  cachedTokens : Json

def parseCodexCliTelemetry (payload : Json) : Result CodexCLITelemetry := do
  let validated ← validateCodexCliTelemetryPayload payload
  return {
    promptTokens := ← getKey validated promptTokens
    completionTokens := ← getKey validated completionTokens
    totalTokens := ← getKey validated totalTokens
    model := ← (← getKey validated modelKey).strip
    wallClockSeconds := ← (← getKey validated wallClockSeconds).toDouble
    cachedTokens := (validated.lookup cachedTokens).getD (.int 0) }

end Validate

section Spec

/-- Counts that are not negative and add up, and a positive finite duration. -/
def CodexCLITelemetry.WellFormed (t : CodexCLITelemetry) : Prop :=
  ∃ prompt completion cached : ℕ, t.promptTokens = .int prompt ∧
    t.completionTokens = .int completion ∧ t.totalTokens = .int (prompt + completion) ∧
      t.cachedTokens = .int cached ∧ t.wallClockSeconds.PositiveFinite

/-- Values that are accepted up to the duration, an integer that no double can hold. -/
def DurationOverflows (prompt completion total model duration : Option Json) : Prop :=
  ∃ (p c : ℕ) (m : Text) (d : ℤ), prompt = some (.int p) ∧ completion = some (.int c) ∧
    total = some (.int (p + c)) ∧ model = some (.str m) ∧ strip m ≠ [] ∧
      duration = some (.int d) ∧ Double.overflowBound ≤ d

theorem requireCount_cases (field : Text) (value : Json) :
    (∃ e, requireCount field value = complain e) ∨
      ∃ n : ℕ, value = .int n ∧ requireCount field value = .ok n := by
  cases value with
  | int n =>
    rcases lt_or_ge n 0 with hneg | hnonneg
    · exact .inl ⟨_, if_pos hneg⟩
    · obtain ⟨m, rfl⟩ := Int.eq_ofNat_of_zero_le hnonneg
      have hnot : ¬ (m : ℤ) < 0 := by omega
      exact .inr ⟨m, rfl, by simp only [requireCount, if_neg hnot]⟩
  | _ => exact .inl ⟨_, rfl⟩

theorem requireModel_cases (value : Json) :
    (∃ e, requireModel value = complain e) ∨
      ∃ m, value = .str m ∧ strip m ≠ [] ∧ requireModel value = .ok () := by
  cases value with
  | str s =>
    by_cases hempty : strip s = []
    · exact .inl ⟨_, if_pos hempty⟩
    · exact .inr ⟨s, rfl, hempty, if_neg hempty⟩
  | _ => exact .inl ⟨_, rfl⟩

theorem requireDuration_cases (value : Json) :
    (∃ e, requireDuration value = complain e) ∨
      (∃ d : ℤ, value = .int d ∧ Double.overflowBound ≤ d ∧
        requireDuration value = .error .overflowError) ∨
      ∃ x, value.toDouble = (.ok x : Result Double) ∧ x.PositiveFinite ∧
        requireDuration value = .ok () := by
  cases value with
  | int n =>
    rcases lt_or_ge 0 n with hpos | hle
    · have hnot : ¬ n ≤ 0 := by omega
      cases hdouble : Double.ofInt n with
      | some x =>
        refine .inr (.inr ⟨x, ?_, Double.ofInt_positiveFinite hpos hdouble, ?_⟩)
        · simp only [Json.toDouble, hdouble, Option.elim_some]
        · simp only [requireDuration, if_neg hnot, hdouble, Option.elim_some]
      | none =>
        refine .inr (.inl ⟨n, rfl, (Double.ofInt_eq_none_of_pos hpos).mp hdouble, ?_⟩)
        simp only [requireDuration, if_neg hnot, hdouble, Option.elim_none]
    · exact .inl ⟨_, if_pos hle⟩
  | float x =>
    by_cases hbad : x.nonpositive ∨ x.isFinite = false
    · exact .inl ⟨_, if_pos hbad⟩
    · obtain ⟨hpos, hfinite⟩ := not_or.mp hbad
      refine .inr (.inr ⟨x, rfl, ?_, if_neg hbad⟩)
      exact Double.positiveFinite_of_checks (by simpa using hpos) (by simpa using hfinite)
  | _ => exact .inl ⟨_, rfl⟩

/-- Fields that are accepted up to the duration. -/
def FieldsOverflow (fields : Fields) : Prop :=
  DurationOverflows (fields.lookup promptTokens) (fields.lookup completionTokens)
    (fields.lookup totalTokens) (fields.lookup modelKey) (fields.lookup wallClockSeconds)

/-- What validation lets through. -/
structure Validated (fields : Fields) : Prop where
  counts : ∃ prompt completion : ℕ, fields.lookup promptTokens = some (.int prompt) ∧
    fields.lookup completionTokens = some (.int completion) ∧
      fields.lookup totalTokens = some (.int (prompt + completion))
  model : ∃ m, fields.lookup modelKey = some (.str m)
  duration : ∃ value x, fields.lookup wallClockSeconds = some value ∧
    value.toDouble = (.ok x : Result Double) ∧ x.PositiveFinite
  cached : ∃ cached : ℕ, (fields.lookup cachedTokens).getD (.int 0) = .int cached

variable {fields : Fields} {prompt completion total model duration : Json}

/-- With every required field there, the checks are made in turn. -/
theorem validate_of_lookups (hprompt : fields.lookup promptTokens = some prompt)
    (hcompletion : fields.lookup completionTokens = some completion)
    (htotal : fields.lookup totalTokens = some total)
    (hmodel : fields.lookup modelKey = some model)
    (hduration : fields.lookup wallClockSeconds = some duration) :
    validateCodexCliTelemetryPayload (.obj fields) = (do
      let promptCount ← requireCount promptTokens prompt
      let completionCount ← requireCount completionTokens completion
      let totalCount ← requireCount totalTokens total
      if totalCount ≠ promptCount + completionCount then
        complain (.wrongTotal totalCount promptCount completionCount)
      requireModel model
      requireDuration duration
      let _ ← requireCount cachedTokens ((fields.lookup cachedTokens).getD (.int 0))
      return fields) := by
  have hpresent : requiredKeys.filter (fun key => (fields.lookup key).isNone) = [] := by
    simp [requiredKeys, hprompt, hcompletion, htotal, hmodel, hduration]
  simp only [validateCodexCliTelemetryPayload, hpresent, getKey, hprompt, hcompletion, htotal,
    hmodel, hduration]
  rfl

theorem validate_of_missing
    (h : requiredKeys.filter (fun key => (fields.lookup key).isNone) ≠ []) :
    ∃ e, validateCodexCliTelemetryPayload (.obj fields) = complain e := by
  refine ⟨.missing (requiredKeys.filter fun key => (fields.lookup key).isNone), ?_⟩
  simp only [validateCodexCliTelemetryPayload, if_pos h]
  rfl

/-- Validation complains, overflows on an integer duration, or lets a valid payload through. -/
theorem validate_cases (fields : Fields) :
    (∃ e, validateCodexCliTelemetryPayload (.obj fields) = complain e) ∨
      (validateCodexCliTelemetryPayload (.obj fields) = .error .overflowError ∧
        FieldsOverflow fields) ∨
      (validateCodexCliTelemetryPayload (.obj fields) = .ok fields ∧ Validated fields) := by
  by_cases hmissing : requiredKeys.filter (fun key => (fields.lookup key).isNone) = []
  · simp only [requiredKeys, List.filter_eq_nil_iff, List.forall_mem_cons,
      Option.isNone_iff_eq_none, ← ne_eq, Option.ne_none_iff_exists'] at hmissing
    obtain ⟨⟨completion, hcompletion⟩, ⟨model, hmodel⟩, ⟨prompt, hprompt⟩, ⟨total, htotal⟩,
      ⟨duration, hduration⟩, -⟩ := hmissing
    rw [validate_of_lookups hprompt hcompletion htotal hmodel hduration]
    rcases requireCount_cases promptTokens prompt with ⟨e, he⟩ | ⟨p, rfl, hp⟩
    · exact .inl ⟨e, by rw [he]; rfl⟩
    rcases requireCount_cases completionTokens completion with ⟨e, he⟩ | ⟨c, rfl, hc⟩
    · exact .inl ⟨e, by rw [hp, he]; rfl⟩
    rcases requireCount_cases totalTokens total with ⟨e, he⟩ | ⟨t, rfl, ht⟩
    · exact .inl ⟨e, by rw [hp, hc, he]; rfl⟩
    simp only [hp, hc, ht, bind, Except.bind]
    by_cases hsum : (t : ℤ) ≠ p + c
    · exact .inl ⟨.wrongTotal t p c, by rw [if_pos hsum]; rfl⟩
    rw [if_neg hsum]
    rw [not_not.mp hsum] at htotal
    rcases requireModel_cases model with ⟨e, he⟩ | ⟨m, rfl, hm, hok⟩
    · exact .inl ⟨e, by rw [he]; rfl⟩
    rcases requireDuration_cases duration with ⟨e, he⟩ | ⟨d, rfl, hd, he⟩ | ⟨x, hx, hpos, hfine⟩
    · exact .inl ⟨e, by rw [hok, he]; rfl⟩
    · exact .inr (.inl ⟨by rw [hok, he],
        p, c, m, d, hprompt, hcompletion, htotal, hmodel, hm, hduration, hd⟩)
    rcases requireCount_cases cachedTokens ((fields.lookup cachedTokens).getD (.int 0)) with
      ⟨e, he⟩ | ⟨k, hk, hcached⟩
    · exact .inl ⟨e, by rw [hok, hfine, he]; rfl⟩
    · exact .inr (.inr ⟨by rw [hok, hfine, hcached]; rfl,
        ⟨p, c, hprompt, hcompletion, htotal⟩, ⟨m, hmodel⟩, ⟨_, x, hduration, hx, hpos⟩, k, hk⟩)
  · exact .inl (validate_of_missing hmissing)

/-- An integer duration that no double can hold escapes all the checks before it. -/
theorem validate_of_overflow (h : FieldsOverflow fields) :
    validateCodexCliTelemetryPayload (.obj fields) = .error .overflowError := by
  obtain ⟨p, c, m, d, hprompt, hcompletion, htotal, hmodel, hm, hduration, hd⟩ := h
  have hcount : ∀ (field : Text) (n : ℕ), requireCount field (.int n) = .ok (n : ℤ) := by
    intro field n
    have hnot : ¬ (n : ℤ) < 0 := by omega
    simp only [requireCount, if_neg hnot]
  have hbound : 0 < d := Double.overflowBound_pos.trans_le hd
  have hdouble : Double.ofInt d = none := (Double.ofInt_eq_none_of_pos hbound).mpr hd
  have hnot : ¬ d ≤ 0 := by omega
  have htime : requireDuration (.int d) = .error .overflowError := by
    simp only [requireDuration, if_neg hnot, hdouble, Option.elim_none]
  have hname : requireModel (.str m) = .ok () := if_neg hm
  have hadd : requireCount totalTokens (.int (p + c)) = .ok ((p : ℤ) + c) := by
    exact_mod_cast hcount totalTokens (p + c)
  rw [validate_of_lookups hprompt hcompletion htotal hmodel hduration, hcount, hcount, hadd, hname,
    htime]
  simp [bind, Except.bind]

end Spec

section Parse
variable {fields : Fields}

/-- A payload that is no mapping is complained of. -/
theorem parse_of_not_obj {payload : Json} (h : ∀ fields, payload ≠ .obj fields) :
    parseCodexCliTelemetry payload = complain .notMapping := by
  cases payload with
  | obj fields => exact absurd rfl (h fields)
  | _ => rfl

theorem parse_of_validated (hok : validateCodexCliTelemetryPayload (.obj fields) = .ok fields)
    (h : Validated fields) :
    ∃ t, parseCodexCliTelemetry (.obj fields) = .ok t ∧ t.WellFormed := by
  obtain ⟨⟨p, c, hprompt, hcompletion, htotal⟩, ⟨m, hmodel⟩, ⟨value, x, hduration, hx, hpos⟩,
    k, hk⟩ := h
  refine ⟨⟨.int p, .int c, .int (p + c), strip m, x, .int k⟩, ?_, p, c, k, rfl, rfl, rfl, rfl,
    hpos⟩
  simp [parseCodexCliTelemetry, hok, getKey, hprompt, hcompletion, htotal, hmodel, hduration, hx,
    hk, Json.strip, bind, Except.bind, pure, Except.pure]

/-- A mapping is complained of, overflows, or makes a well-formed record. -/
theorem parse_cases (fields : Fields) :
    (∃ e, parseCodexCliTelemetry (.obj fields) = complain e) ∨
      (parseCodexCliTelemetry (.obj fields) = .error .overflowError ∧ FieldsOverflow fields) ∨
      ∃ t, parseCodexCliTelemetry (.obj fields) = .ok t ∧ t.WellFormed := by
  rcases validate_cases fields with ⟨e, he⟩ | ⟨he, hover⟩ | ⟨hok, hvalid⟩
  · exact .inl ⟨e, by rw [parseCodexCliTelemetry, he]; rfl⟩
  · exact .inr (.inl ⟨by rw [parseCodexCliTelemetry, he]; rfl, hover⟩)
  · exact .inr (.inr (parse_of_validated hok hvalid))

theorem parse_of_overflow (h : FieldsOverflow fields) :
    parseCodexCliTelemetry (.obj fields) = .error .overflowError := by
  rw [parseCodexCliTelemetry, validate_of_overflow h]
  rfl

end Parse

end CodexTelemetry
