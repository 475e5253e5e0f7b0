import LinuxUtilities.CodexTelemetry.Payload

/-! `extract_codex_cli_telemetry_from_output`: telemetry from a usage file or the worker's output,
and when nothing but `UsageTelemetryError` is raised on the way. -/
namespace CodexTelemetry
open CodePoints Python

section Extract

def inputTokens : Text := lit "input_tokens"

def outputTokens : Text := lit "output_tokens"

def usageKey : Text := lit "usage"

def durationKey : Text := lit "duration"

/-- A value under another name is taken for a key that is not there. -/
def takeAlias (other key : Text) (data : Json) : Result Json := do
  if ← data.contains other then
    if ← data.contains key then return data
    data.setItem key (← data.item other)
  else return data

def takeDefault (key : Text) (value data : Json) : Result Json := do
  if ← data.contains key then return data
  data.setItem key value

/-- The names and defaults of a payload before it is parsed. -/
def normalize (model duration data : Json) : Result Json := do
  let data ← takeAlias inputTokens promptTokens data
  let data ← takeAlias outputTokens completionTokens data
  let data ← takeDefault modelKey model data
  takeDefault wallClockSeconds duration data

/-- `except ValueError`; an `OverflowError` is none. -/
def catchValueError {α : Type} (wrap : Complaint → UsageTelemetryError) (result : Result α) :
    Result α :=
  match result with
  | .error (.raised (.valueError e)) => .error (.raised (.usageTelemetryError (wrap e)))
  | answer => answer

/-- The usage file: no regular file, one that cannot be read or parsed, or the value in it. -/
inductive UsageFile where
  | absent
  | corrupted
  | holds (data : Json)

/-- The event of a line with its usage, where both are mappings; `loads` reads a line. -/
def usageEvent (loads : Text → Option Json) (line : Text) : Option (Fields × Fields) :=
  if (lit "\x7b").isPrefixOf (strip line) then
    match loads (strip line) with
    | some (.obj evt) =>
      match evt.lookup usageKey with
      | some (.obj usage) => some (evt, usage)
      | _ => none
    | _ => none
  else none

def eventModel (defaultModel : Text) (evt : Fields) : Json :=
  (evt.lookup modelKey).getD (.str defaultModel)

def eventDuration (evt : Fields) : Json := (evt.lookup durationKey).getD (.float (.finite 1))

/-- The lines from the last one on; the first usage decides. -/
def scanStdout (loads : Text → Option Json) (defaultModel : Text) :
    List Text → Result (Option CodexCLITelemetry)
  | [] => .ok none
  | line :: lines =>
    match usageEvent loads line with
    | none => scanStdout loads defaultModel lines
    | some (evt, usage) => do
      let payload ← normalize (eventModel defaultModel evt) (eventDuration evt) (.obj usage)
      return some (← catchValueError .invalidStdout (parseCodexCliTelemetry payload))

def extractCodexCliTelemetryFromOutput (loads : Text → Option Json) (stdout : Text)
    (usageFile : UsageFile) (defaultModel : Text) : Result (Option CodexCLITelemetry) :=
  match usageFile with
  | .corrupted => .error (.raised (.usageTelemetryError .corruptedArtifact))
  | .holds data => do
    let data ← normalize (.str defaultModel) (.float (.finite 1)) data
    return some (← catchValueError .invalidArtifact (parseCodexCliTelemetry data))
  | .absent =>
    if stdout = [] then .ok none
    else scanStdout loads defaultModel (splitlines stdout).reverse

/-- No telemetry, a well-formed record, or the error that callers expect. -/
def FailsClosed (result : Result (Option CodexCLITelemetry)) : Prop :=
  match result with
  | .ok none => True
  | .ok (some t) => t.WellFormed
  | .error (.raised (.usageTelemetryError _)) => True
  | .error _ => False

end Extract

section Conditions

/-- A mapping whose own values, or those under the other names and the defaults, are accepted up
to the duration. -/
def UsageOverflows (model duration : Json) (usage : Fields) : Prop :=
  DurationOverflows ((usage.lookup promptTokens).or (usage.lookup inputTokens))
    ((usage.lookup completionTokens).or (usage.lookup outputTokens)) (usage.lookup totalTokens)
    (some ((usage.lookup modelKey).getD model))
    (some ((usage.lookup wallClockSeconds).getD duration))

/-- `key in data` -/
def Has (data : Json) (key : Text) : Prop := data.contains key = (.ok true : Result Bool)

/-- A value in which nothing is to be renamed or filled in. -/
structure Complete (data : Json) : Prop where
  model : Has data modelKey
  duration : Has data wallClockSeconds
  prompt : Has data inputTokens → Has data promptTokens
  completion : Has data outputTokens → Has data completionTokens

/-- The last event of the output with a usage. -/
def lastUsage (loads : Text → Option Json) (stdout : Text) : Option (Fields × Fields) :=
  ((splitlines stdout).filterMap (usageEvent loads)).getLast?

def SafeInput (loads : Text → Option Json) (stdout : Text) (usageFile : UsageFile)
    (defaultModel : Text) : Prop :=
  match usageFile with
  | .corrupted => True
  | .holds (.obj fields) =>
    ¬ UsageOverflows (.str defaultModel) (.float (.finite 1)) fields
  | .holds data => Complete data
  | .absent => ∀ event ∈ lastUsage loads stdout,
    ¬ UsageOverflows (eventModel defaultModel event.1) (eventDuration event.1) event.2

end Conditions

section Mapping
variable {fields : Fields} {key other : Text} {model duration : Json}

theorem takeAlias_obj (other key : Text) (fields : Fields) :
    ∃ filled, takeAlias other key (.obj fields) = .ok (.obj filled) ∧ ∀ k, filled.lookup k =
      if k = key then (fields.lookup key).or (fields.lookup other) else fields.lookup k := by
  cases hother : fields.lookup other with
  | none =>
    refine ⟨fields, ?_, fun k => ?_⟩
    · simp [takeAlias, Json.contains, hother, bind, Except.bind, pure, Except.pure]
    · split
      next heq => simp [heq]
      next => rfl
  | some value =>
    cases hkey : fields.lookup key with
    | some present =>
      refine ⟨fields, ?_, fun k => ?_⟩
      · simp [takeAlias, Json.contains, hother, hkey, bind, Except.bind, pure, Except.pure]
      · split
        next heq => simp [heq, hkey]
        next => rfl
    | none =>
      refine ⟨setKey key value fields, ?_, fun k => ?_⟩
      · simp [takeAlias, Json.contains, Json.item, Json.setItem, getKey, hother, hkey, bind,
          Except.bind]
      · rw [lookup_setKey, Option.none_or]

theorem takeDefault_obj (key : Text) (value : Json) (fields : Fields) :
    ∃ filled, takeDefault key value (.obj fields) = .ok (.obj filled) ∧ ∀ k, filled.lookup k =
      if k = key then some ((fields.lookup key).getD value) else fields.lookup k := by
  cases hkey : fields.lookup key with
  | some present =>
    refine ⟨fields, ?_, fun k => ?_⟩
    · simp [takeDefault, Json.contains, hkey, bind, Except.bind, pure, Except.pure]
    · split
      next heq => simp [heq, hkey]
      next => rfl
  | none =>
    refine ⟨setKey key value fields, ?_, fun k => ?_⟩
    · simp [takeDefault, Json.contains, Json.setItem, hkey, bind, Except.bind]
    · rw [lookup_setKey, Option.getD_none]

/-- A mapping is always normalised, and overflows as its own values say. -/
theorem normalize_obj (model duration : Json) (fields : Fields) :
    ∃ filled, normalize model duration (.obj fields) = .ok (.obj filled) ∧
      (FieldsOverflow filled ↔ UsageOverflows model duration fields) := by
  obtain ⟨first, hfirst, hfirstLookup⟩ := takeAlias_obj inputTokens promptTokens fields
  obtain ⟨second, hsecond, hsecondLookup⟩ := takeAlias_obj outputTokens completionTokens first
  obtain ⟨third, hthird, hthirdLookup⟩ := takeDefault_obj modelKey model second
  obtain ⟨filled, hfilled, hlookup⟩ := takeDefault_obj wallClockSeconds duration third
  refine ⟨filled, ?_, ?_⟩
  · simp only [normalize, hfirst, hsecond, hthird, hfilled, bind, Except.bind]
  · simp (disch := decide) only [FieldsOverflow, UsageOverflows, hlookup, hthirdLookup,
      hsecondLookup, hfirstLookup, if_neg, ↓reduceIte]

end Mapping

section Other
variable {data : Json} {holds : Text → Bool}

/-- A value that answers `in`, but can be neither indexed by a name nor assigned to. -/
structure Answers (data : Json) (holds : Text → Bool) : Prop where
  contains : ∀ key, data.contains key = (.ok (holds key) : Result Bool)
  item : ∀ key, data.item key = (.error .typeError : Result Json)
  setItem : ∀ key value, data.setItem key value = (.error .typeError : Result Json)

/-- Of the values that are no mappings, texts and lists answer `in`. -/
theorem answers_cases (h : ∀ fields, data ≠ .obj fields) :
    (∀ key, data.contains key = (.error .typeError : Result Bool)) ∨
      ∃ holds, Answers data holds := by
  cases data with
  | obj fields => exact absurd rfl (h fields)
  | str s => exact .inr ⟨_, fun _ => rfl, fun _ => rfl, fun _ _ => rfl⟩
  | arr items => exact .inr ⟨_, fun _ => rfl, fun _ => rfl, fun _ _ => rfl⟩
  | _ => exact .inl fun _ => rfl

theorem takeAlias_of_answers (h : Answers data holds) (other key : Text) :
    takeAlias other key data =
      if holds other = true → holds key = true then .ok data else .error .typeError := by
  cases hother : holds other <;> cases hkey : holds key <;>
    simp [takeAlias, h.contains, hother, hkey, h.item, bind, Except.bind, pure, Except.pure]

theorem takeDefault_of_answers (h : Answers data holds) (key : Text) (value : Json) :
    takeDefault key value data = if holds key = true then .ok data else .error .typeError := by
  cases hkey : holds key <;>
    simp [takeDefault, h.contains, hkey, h.setItem, bind, Except.bind, pure, Except.pure]

theorem complete_of_answers (h : Answers data holds) :
    Complete data ↔ (holds inputTokens = true → holds promptTokens = true) ∧
      (holds outputTokens = true → holds completionTokens = true) ∧
        holds modelKey = true ∧ holds wallClockSeconds = true := by
  have hhas : ∀ key, Has data key ↔ holds key = true := by
    intro key
    rw [Has, h.contains, Except.ok.injEq]
  constructor
  · rintro ⟨hmodel, hduration, hprompt, hcompletion⟩
    simp only [hhas] at hmodel hduration hprompt hcompletion
    exact ⟨hprompt, hcompletion, hmodel, hduration⟩
  · rintro ⟨hprompt, hcompletion, hmodel, hduration⟩
    simp only [← hhas] at hmodel hduration hprompt hcompletion
    exact ⟨hmodel, hduration, hprompt, hcompletion⟩

/-- The first thing that is to be renamed or filled in raises `TypeError`. -/
theorem normalize_of_answers (h : Answers data holds) (model duration : Json) :
    (Complete data ∧ normalize model duration data = .ok data) ∨
      (¬ Complete data ∧ normalize model duration data = .error .typeError) := by
  rw [complete_of_answers h]
  by_cases hprompt : holds inputTokens = true → holds promptTokens = true
  · by_cases hcompletion : holds outputTokens = true → holds completionTokens = true
    · by_cases hmodel : holds modelKey = true
      · by_cases hduration : holds wallClockSeconds = true
        · refine .inl ⟨⟨hprompt, hcompletion, hmodel, hduration⟩, ?_⟩
          simp only [normalize, takeAlias_of_answers h, takeDefault_of_answers h, if_pos hprompt,
            if_pos hcompletion, if_pos hmodel, if_pos hduration, bind, Except.bind]
        · refine .inr ⟨fun hall => hduration hall.2.2.2, ?_⟩
          simp only [normalize, takeAlias_of_answers h, takeDefault_of_answers h, if_pos hprompt,
            if_pos hcompletion, if_pos hmodel, if_neg hduration, bind, Except.bind]
      · refine .inr ⟨fun hall => hmodel hall.2.2.1, ?_⟩
        simp only [normalize, takeAlias_of_answers h, takeDefault_of_answers h, if_pos hprompt,
          if_pos hcompletion, if_neg hmodel, bind, Except.bind]
    · refine .inr ⟨fun hall => hcompletion hall.2.1, ?_⟩
      simp only [normalize, takeAlias_of_answers h, if_pos hprompt, if_neg hcompletion, bind,
        Except.bind]
  · refine .inr ⟨fun hall => hprompt hall.1, ?_⟩
    simp only [normalize, takeAlias_of_answers h, if_neg hprompt, bind, Except.bind]

/-- A value that is no mapping goes through unchanged, or raises `TypeError`. -/
theorem normalize_other (model duration : Json) (h : ∀ fields, data ≠ .obj fields) :
    (Complete data ∧ normalize model duration data = .ok data) ∨
      (¬ Complete data ∧ normalize model duration data = .error .typeError) := by
  rcases answers_cases h with herror | ⟨holds, hanswers⟩
  · refine .inr ⟨fun hcomplete => ?_, ?_⟩
    · exact absurd ((herror modelKey).symm.trans hcomplete.model) (by simp)
    · simp [normalize, takeAlias, herror, bind, Except.bind]
  · exact normalize_of_answers hanswers model duration

end Other

section FailClosed
variable {loads : Text → Option Json} {defaultModel : Text}

/-- A payload that is a mapping fails closed exactly when its duration does not overflow. -/
theorem parsed_failsClosed_iff (wrap : Complaint → UsageTelemetryError) (fields : Fields) :
    FailsClosed (do
      return some (← catchValueError wrap (parseCodexCliTelemetry (.obj fields)))) ↔
      ¬ FieldsOverflow fields := by
  rcases parse_cases fields with ⟨e, he⟩ | ⟨he, hover⟩ | ⟨t, ht, hgood⟩
  · refine iff_of_true ?_ fun hover => ?_
    · rw [he]
      trivial
    · exact absurd (he.symm.trans (parse_of_overflow hover)) (by simp [complain])
  · refine iff_of_false ?_ (not_not_intro hover)
    rw [he]
    exact id
  · refine iff_of_true ?_ fun hover => ?_
    · rw [ht]
      exact hgood
    · exact absurd (ht.symm.trans (parse_of_overflow hover)) (by simp)

theorem usage_failsClosed_iff (wrap : Complaint → UsageTelemetryError) (model duration : Json)
    (fields : Fields) :
    FailsClosed (do
      let payload ← normalize model duration (.obj fields)
      return some (← catchValueError wrap (parseCodexCliTelemetry payload))) ↔
      ¬ UsageOverflows model duration fields := by
  obtain ⟨filled, hfilled, hover⟩ := normalize_obj model duration fields
  rw [hfilled, ← hover]
  exact parsed_failsClosed_iff wrap filled

/-- A usage file that holds no mapping fails closed exactly when nothing is to be renamed or
filled in. -/
theorem other_failsClosed_iff (wrap : Complaint → UsageTelemetryError) (model duration : Json)
    {data : Json} (h : ∀ fields, data ≠ .obj fields) :
    FailsClosed (do
      let payload ← normalize model duration data
      return some (← catchValueError wrap (parseCodexCliTelemetry payload))) ↔ Complete data := by
  rcases normalize_other model duration h with ⟨hcomplete, hok⟩ | ⟨hcomplete, herror⟩
  · rw [hok]
    refine iff_of_true ?_ hcomplete
    show FailsClosed (do
      return some (← catchValueError wrap (parseCodexCliTelemetry data)))
    rw [parse_of_not_obj h]
    trivial
  · rw [herror]
    exact iff_of_false id hcomplete

/-- The scan from the end stops at the last usage. -/
theorem scanStdout_failsClosed_iff (lines : List Text) :
    FailsClosed (scanStdout loads defaultModel lines) ↔
      ∀ event ∈ (lines.filterMap (usageEvent loads)).head?,
        ¬ UsageOverflows (eventModel defaultModel event.1) (eventDuration event.1) event.2 := by
  induction lines with
  | nil => simp [scanStdout, FailsClosed]
  | cons line lines ih =>
    cases hevent : usageEvent loads line with
    | none => simpa only [scanStdout, hevent, List.filterMap_cons] using ih
    | some event =>
      simp only [scanStdout, hevent, List.filterMap_cons, List.head?_cons, Option.mem_some_iff,
        forall_eq']
      exact usage_failsClosed_iff .invalidStdout _ _ event.2

/-- Extraction fails closed exactly on the usage files that cannot be read, those that hold a
mapping whose duration does not overflow, and those that hold another value in which nothing is to
be renamed or filled in; without a file, when the last usage of the output does not overflow. -/
theorem extractCodexCliTelemetryFromOutput_failsClosed_iff (loads : Text → Option Json)
    (stdout : Text) (usageFile : UsageFile) (defaultModel : Text) :
    FailsClosed (extractCodexCliTelemetryFromOutput loads stdout usageFile defaultModel) ↔
      SafeInput loads stdout usageFile defaultModel := by
  cases usageFile with
  | corrupted => exact Iff.rfl
  | holds data =>
    cases data with
    | obj fields => exact usage_failsClosed_iff .invalidArtifact _ _ fields
    | _ => exact other_failsClosed_iff .invalidArtifact _ _ (fun fields => by simp)
  | absent =>
    have hscan := @scanStdout_failsClosed_iff loads defaultModel (splitlines stdout).reverse
    rw [List.filterMap_reverse, List.head?_reverse] at hscan
    show FailsClosed (if stdout = [] then .ok none else _) ↔ _
    split
    next hempty =>
      subst hempty
      refine iff_of_true trivial fun event hmem => ?_
      exact absurd hmem (by simp [lastUsage, splitlines, splitlinesFrom])
    next => exact hscan

/-- A usage file that holds an empty list raises `TypeError`, one whose duration is an integer
past the largest double raises `OverflowError`. -/
theorem extractCodexCliTelemetryFromOutput_escapes :
    ¬ FailsClosed (extractCodexCliTelemetryFromOutput (fun _ => none) [] (.holds (.arr []))
      (lit "gpt-5-codex")) ∧
    ¬ FailsClosed (extractCodexCliTelemetryFromOutput (fun _ => none) [] (.holds (.obj
      [(promptTokens, .int 1), (completionTokens, .int 1), (totalTokens, .int 2),
        (wallClockSeconds, .int Double.overflowBound)])) (lit "gpt-5-codex")) := by
  constructor
  · exact id
  · intro h
    exact (usage_failsClosed_iff .invalidArtifact _ _ _).mp h
      ⟨1, 1, lit "gpt-5-codex", Double.overflowBound, rfl, rfl, rfl, rfl, by decide, rfl, le_rfl⟩

end FailClosed

end CodexTelemetry
