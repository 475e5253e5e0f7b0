import LinuxUtilities.CodexTelemetry.Extraction

/-! `enforce_step_usage_telemetry` and `RunSpendLedger`: what the ledger of a run holds after any
steps, and what its budget check can find. -/
namespace CodexTelemetry
open CodePoints Python

section Enforce

structure StepSpendRecord where
  stepId : Text
  attempt : ℤ
  adapterId : Text
  model : Text
  promptTokens : Json
  completionTokens : Json
  totalTokens : Json
  cachedTokens : Json
  costUsd : Double
  wallClockSeconds : Double
  status : Text
  reason : Option Text

/-- What accounting for a step raises: an error of its telemetry, or `UnaccountedSpendError`. -/
inductive SpendFailure where
  | telemetry (e : Failure)
  | unaccountedSpend (message : Text)

abbrev Spend := Except (Raised SpendFailure)

def unaccountedMessage (repr : Json → Text) (stepId adapterId : Text) : Text :=
  lit "unaccounted spend: missing usage telemetry for metered worker " ++ adapterId ++
    lit " for step " ++ repr (.str stepId)

def enforceStepUsageTelemetry (repr : Json → Text) (stepId adapterId : Text)
    (telemetry : Option CodexCLITelemetry) (isMetered : Bool) : Spend StepSpendRecord :=
  if isMetered = true ∧ telemetry.isNone = true then
    .error (.raised (.unaccountedSpend (unaccountedMessage repr stepId adapterId)))
  else
    match telemetry with
    | none => .ok {
        stepId := stepId
        attempt := 1
        adapterId := adapterId
        model := lit "unmetered"
        promptTokens := .int 0
        completionTokens := .int 0
        totalTokens := .int 0
        cachedTokens := .int 0
        costUsd := .finite 0
        wallClockSeconds := .finite 0
        status := lit "measured"
        reason := none }
    | some telemetry => .ok {
        stepId := stepId
        attempt := 1
        adapterId := adapterId
        model := telemetry.model
        promptTokens := telemetry.promptTokens
        completionTokens := telemetry.completionTokens
        totalTokens := telemetry.totalTokens
        cachedTokens := telemetry.cachedTokens
        costUsd := .finite 0
        wallClockSeconds := telemetry.wallClockSeconds
        status := lit "measured"
        reason := none }

end Enforce

section Ledger

structure RunSpendLedger where
  runId : Text
  records : List StepSpendRecord
  budgetCeilingUsd : Double

def addCount (total : ℤ) : Json → Spend ℤ
  | .int n => .ok (total + n)
  | .bool b => .ok (total + b.toNat)
  | _ => .error .typeError

/-- `sum` of counts, which are integers; a float among them is not followed. -/
def sumCounts (counts : List Json) : Spend ℤ := counts.foldlM addCount 0

namespace RunSpendLedger
variable (ledger : RunSpendLedger)

def totalPromptTokens : Spend ℤ :=
  sumCounts (ledger.records.map StepSpendRecord.promptTokens)

def totalCompletionTokens : Spend ℤ :=
  sumCounts (ledger.records.map StepSpendRecord.completionTokens)

def totalTokens : Spend ℤ :=
  sumCounts (ledger.records.map StepSpendRecord.totalTokens)

def totalCachedTokens : Spend ℤ :=
  sumCounts (ledger.records.map StepSpendRecord.cachedTokens)

/-- `sumFloats` is `sum` on floats, whose rounding differs between versions of Python. -/
def cumulativeCostUsd (sumFloats : List Double → Double) : Double :=
  sumFloats (ledger.records.map StepSpendRecord.costUsd)

def isBudgetExceeded (sumFloats : List Double → Double) : Bool :=
  if ledger.budgetCeilingUsd.nonpositive then false
  else ledger.budgetCeilingUsd.less (ledger.cumulativeCostUsd sumFloats)

def addStepRecord (record : StepSpendRecord) : RunSpendLedger :=
  { ledger with records := ledger.records ++ [record] }

end RunSpendLedger

/-- A finished step of a worker: its names, what it left to extract telemetry from, and whether
it is metered. -/
structure StepOutput where
  stepId : Text
  adapterId : Text
  stdout : Text
  usageFile : UsageFile
  defaultModel : Text
  isMetered : Bool

/-- A step accounted for: its telemetry extracted, enforced and recorded. -/
def accountStep (loads : Text → Option Json) (repr : Json → Text) (ledger : RunSpendLedger)
    (step : StepOutput) : Spend RunSpendLedger := do
  let telemetry ← (extractCodexCliTelemetryFromOutput loads step.stdout step.usageFile
    step.defaultModel).mapError (Raised.map .telemetry)
  let record ← enforceStepUsageTelemetry repr step.stepId step.adapterId telemetry step.isMetered
  return ledger.addStepRecord record

/-- The steps of a run in turn; one that raises leaves the ledger as it was. -/
def accountRun (loads : Text → Option Json) (repr : Json → Text) (ledger : RunSpendLedger)
    (steps : List StepOutput) : RunSpendLedger :=
  steps.foldl (fun ledger step => (accountStep loads repr ledger step).toOption.getD ledger) ledger

end Ledger

section Usage

/-- What a worker used, as it is billed. -/
structure Usage where
  prompt : ℕ
  completion : ℕ
  cached : ℕ
  model : Text
  seconds : Double

namespace Usage

/-- The usage of a step that is not metered and reports none. -/
def unmetered : Usage := ⟨0, 0, 0, lit "unmetered", .finite 0⟩

def telemetry (u : Usage) : CodexCLITelemetry :=
  ⟨.int u.prompt, .int u.completion, .int (u.prompt + u.completion), u.model, u.seconds,
    .int u.cached⟩

def record (u : Usage) (step : StepOutput) : StepSpendRecord where
  stepId := step.stepId
  attempt := 1
  adapterId := step.adapterId
  model := u.model
  promptTokens := .int u.prompt
  completionTokens := .int u.completion
  totalTokens := .int (u.prompt + u.completion)
  cachedTokens := .int u.cached
  costUsd := .finite 0
  wallClockSeconds := u.seconds
  status := lit "measured"
  reason := none

end Usage

/-- The usage in a mapping: a count under either of its names, the model and the duration beside
the mapping where it has none. -/
structure Reports (model duration : Json) (fields : Fields) (u : Usage) : Prop where
  prompt : (fields.lookup promptTokens).or (fields.lookup inputTokens) = some (.int u.prompt)
  completion : (fields.lookup completionTokens).or (fields.lookup outputTokens) =
    some (.int u.completion)
  total : fields.lookup totalTokens = some (.int (u.prompt + u.completion))
  cached : (fields.lookup cachedTokens).getD (.int 0) = .int u.cached
  model : ∃ name, (fields.lookup modelKey).getD model = .str name ∧ strip name = u.model
  named : u.model ≠ []
  duration : ((fields.lookup wallClockSeconds).getD duration).toDouble =
    (.ok u.seconds : Result Double)
  positive : u.seconds.PositiveFinite

/-- What a step tells of its usage: the mapping in its file, else the last usage of its output;
nothing, where there is neither. -/
def Told (loads : Text → Option Json) (step : StepOutput) : Option Usage → Prop
  | some u =>
    match step.usageFile with
    | .holds (.obj fields) => Reports (.str step.defaultModel) (.float (.finite 1)) fields u
    | .absent => ∃ event ∈ lastUsage loads step.stdout,
      Reports (eventModel step.defaultModel event.1) (eventDuration event.1) event.2 u
    | _ => False
  | none =>
    match step.usageFile with
    | .absent => lastUsage loads step.stdout = none
    | _ => False

/-- The usage that a step is billed for. -/
def Owes (loads : Text → Option Json) (step : StepOutput) (u : Usage) : Prop :=
  Told loads step (some u) ∨ Told loads step none ∧ step.isMetered = false ∧ u = .unmetered

/-- The bills of a run: one for each step that owes a usage, none for another. -/
inductive Billed (loads : Text → Option Json) : List StepOutput → List (StepOutput × Usage) → Prop
  | done : Billed loads [] []
  | bill {step : StepOutput} {u : Usage} {steps : List StepOutput}
      {bills : List (StepOutput × Usage)} (owes : Owes loads step u)
      (rest : Billed loads steps bills) : Billed loads (step :: steps) ((step, u) :: bills)
  | refuse {step : StepOutput} {steps : List StepOutput} {bills : List (StepOutput × Usage)}
      (owes : ∀ u, ¬ Owes loads step u) (rest : Billed loads steps bills) :
      Billed loads (step :: steps) bills

end Usage

section Parsing
variable {fields : Fields} {u : Usage}

/-- The usage in the fields of a payload that is to be parsed as it is. -/
structure Holds (fields : Fields) (u : Usage) : Prop where
  prompt : fields.lookup promptTokens = some (.int u.prompt)
  completion : fields.lookup completionTokens = some (.int u.completion)
  total : fields.lookup totalTokens = some (.int (u.prompt + u.completion))
  cached : (fields.lookup cachedTokens).getD (.int 0) = .int u.cached
  model : ∃ name, fields.lookup modelKey = some (.str name) ∧ strip name = u.model
  named : u.model ≠ []
  duration : ∃ value, fields.lookup wallClockSeconds = some value ∧
    value.toDouble = (.ok u.seconds : Result Double)
  positive : u.seconds.PositiveFinite

theorem requireDuration_of_positive {value : Json} {x : Double}
    (h : value.toDouble = (.ok x : Result Double)) (hx : x.PositiveFinite) :
    requireDuration value = .ok () := by
  cases value with
  | int n =>
    cases hdouble : Double.ofInt n with
    | none => simp [Json.toDouble, hdouble] at h
    | some y =>
      have hy : y = x := by simpa [Json.toDouble, hdouble] using h
      have hpos : 0 < n := Double.pos_of_ofInt hdouble (hy ▸ hx)
      have hnot : ¬ n ≤ 0 := by omega
      simp only [requireDuration, if_neg hnot, hdouble, Option.elim_some]
  | float y =>
    have hy : y = x := by simpa [Json.toDouble] using h
    obtain ⟨value, rfl, hvalue⟩ := hx
    subst hy
    simp [requireDuration, Double.nonpositive, Double.isFinite, hvalue]
  | _ => simp [Json.toDouble] at h

theorem requireCount_natCast (field : Text) (n : ℕ) :
    requireCount field (.int n) = .ok (n : ℤ) := by
  have hnot : ¬ (n : ℤ) < 0 := by omega
  simp only [requireCount, if_neg hnot]

theorem Holds.validate (h : Holds fields u) :
    validateCodexCliTelemetryPayload (.obj fields) = .ok fields := by
  obtain ⟨name, hname, hmodel⟩ := h.model
  obtain ⟨value, hvalue, hdouble⟩ := h.duration
  have hnamed : strip name ≠ [] := by simpa [hmodel] using h.named
  have htotal : requireCount totalTokens (.int (u.prompt + u.completion)) =
      .ok ((u.prompt : ℤ) + u.completion) := by
    exact_mod_cast requireCount_natCast totalTokens (u.prompt + u.completion)
  have hok : requireModel (.str name) = .ok () := if_neg hnamed
  rw [validate_of_lookups h.prompt h.completion h.total hname hvalue, requireCount_natCast,
    requireCount_natCast, htotal, hok, requireDuration_of_positive hdouble h.positive, h.cached,
    requireCount_natCast]
  simp [bind, Except.bind, pure, Except.pure]

theorem Holds.parse (h : Holds fields u) :
    parseCodexCliTelemetry (.obj fields) = .ok u.telemetry := by
  obtain ⟨name, hname, hmodel⟩ := h.model
  obtain ⟨value, hvalue, hdouble⟩ := h.duration
  simp [parseCodexCliTelemetry, h.validate, getKey, h.prompt, h.completion, h.total, hname, hvalue,
    hdouble, h.cached, hmodel, Json.strip, Usage.telemetry, bind, Except.bind, pure, Except.pure]

/-- Validation lets through no payload without a usage. -/
theorem holds_of_validate (hok : validateCodexCliTelemetryPayload (.obj fields) = .ok fields)
    (h : Validated fields) : ∃ u, Holds fields u := by
  obtain ⟨⟨p, c, hprompt, hcompletion, htotal⟩, ⟨name, hname⟩, ⟨value, x, hvalue, hx, hpos⟩,
    k, hk⟩ := h
  have hnamed : strip name ≠ [] := by
    intro hempty
    have hcomplain : requireModel (.str name) = complain .emptyModel := if_pos hempty
    have hsum : requireCount totalTokens (.int (p + c)) = .ok ((p : ℤ) + c) := by
      exact_mod_cast requireCount_natCast totalTokens (p + c)
    rw [validate_of_lookups hprompt hcompletion htotal hname hvalue, requireCount_natCast,
      requireCount_natCast, hsum, hcomplain] at hok
    simp [complain, bind, Except.bind] at hok
  exact ⟨⟨p, c, k, strip name, x⟩, hprompt, hcompletion, htotal, hk, ⟨name, hname, rfl⟩, hnamed,
    ⟨value, hvalue, hx⟩, hpos⟩

/-- A payload is parsed exactly into the usage that it holds. -/
theorem parse_ok_iff {t : CodexCLITelemetry} :
    parseCodexCliTelemetry (.obj fields) = .ok t ↔ ∃ u, Holds fields u ∧ t = u.telemetry := by
  constructor
  · intro h
    rcases validate_cases fields with ⟨e, he⟩ | ⟨he, -⟩ | ⟨hok, hvalid⟩
    · rw [parseCodexCliTelemetry, he] at h
      simp [complain, bind, Except.bind] at h
    · rw [parseCodexCliTelemetry, he] at h
      simp [bind, Except.bind] at h
    · obtain ⟨u, hu⟩ := holds_of_validate hok hvalid
      exact ⟨u, hu, Except.ok.inj (h.symm.trans hu.parse)⟩
  · rintro ⟨u, hu, rfl⟩
    exact hu.parse

end Parsing

section Extracting
variable {loads : Text → Option Json}

/-- A mapping is always normalised, and then holds the usage that it reports. -/
theorem normalize_holds (model duration : Json) (fields : Fields) :
    ∃ filled, normalize model duration (.obj fields) = .ok (.obj filled) ∧
      ∀ u, Holds filled u ↔ Reports model duration fields u := by
  obtain ⟨first, hfirst, hfirstLookup⟩ := takeAlias_obj inputTokens promptTokens fields
  obtain ⟨second, hsecond, hsecondLookup⟩ := takeAlias_obj outputTokens completionTokens first
  obtain ⟨third, hthird, hthirdLookup⟩ := takeDefault_obj modelKey model second
  obtain ⟨filled, hfilled, hlookup⟩ := takeDefault_obj wallClockSeconds duration third
  refine ⟨filled, ?_, fun u => ?_⟩
  · simp only [normalize, hfirst, hsecond, hthird, hfilled, bind, Except.bind]
  · have hprompt : filled.lookup promptTokens =
        (fields.lookup promptTokens).or (fields.lookup inputTokens) := by
      simp (disch := decide) only [hlookup, hthirdLookup, hsecondLookup, hfirstLookup, if_neg,
        ↓reduceIte]
    have hcompletion : filled.lookup completionTokens =
        (fields.lookup completionTokens).or (fields.lookup outputTokens) := by
      simp (disch := decide) only [hlookup, hthirdLookup, hsecondLookup, hfirstLookup, if_neg,
        ↓reduceIte]
    have htotal : filled.lookup totalTokens = fields.lookup totalTokens := by
      simp (disch := decide) only [hlookup, hthirdLookup, hsecondLookup, hfirstLookup, if_neg]
    have hcached : filled.lookup cachedTokens = fields.lookup cachedTokens := by
      simp (disch := decide) only [hlookup, hthirdLookup, hsecondLookup, hfirstLookup, if_neg]
    have hmodel : filled.lookup modelKey = some ((fields.lookup modelKey).getD model) := by
      simp (disch := decide) only [hlookup, hthirdLookup, hsecondLookup, hfirstLookup, if_neg,
        ↓reduceIte]
    have hduration : filled.lookup wallClockSeconds =
        some ((fields.lookup wallClockSeconds).getD duration) := by
      simp (disch := decide) only [hlookup, hthirdLookup, hsecondLookup, hfirstLookup, if_neg,
        ↓reduceIte]
    constructor
    · rintro ⟨p, c, t, k, ⟨name, hname, hstrip⟩, hnamed, ⟨value, hvalue, hdouble⟩, hpos⟩
      obtain rfl := Option.some.inj (hduration.symm.trans hvalue)
      exact ⟨hprompt ▸ p, hcompletion ▸ c, htotal ▸ t, hcached ▸ k,
        ⟨name, Option.some.inj (hmodel.symm.trans hname), hstrip⟩, hnamed, hdouble, hpos⟩
    · rintro ⟨p, c, t, k, ⟨name, hname, hstrip⟩, hnamed, hdouble, hpos⟩
      exact ⟨hprompt.trans p, hcompletion.trans c, htotal.trans t, hcached ▸ k,
        ⟨name, hmodel.trans (congrArg some hname), hstrip⟩, hnamed, ⟨_, hduration, hdouble⟩, hpos⟩

/-- A payload in which names and defaults are filled in gives the telemetry of the usage that it
reports, and raises where it reports none. -/
theorem usage_ok_iff (wrap : Complaint → UsageTelemetryError) (model duration : Json)
    (fields : Fields) (answer : Option CodexCLITelemetry) :
    (do
      let payload ← normalize model duration (.obj fields)
      return some (← catchValueError wrap (parseCodexCliTelemetry payload))) =
        (.ok answer : Result (Option CodexCLITelemetry)) ↔
      ∃ u, Reports model duration fields u ∧ answer = some u.telemetry := by
  obtain ⟨filled, hfilled, hholds⟩ := normalize_holds model duration fields
  have hcatch : ∀ t, catchValueError wrap (parseCodexCliTelemetry (.obj filled)) = .ok t ↔
      parseCodexCliTelemetry (.obj filled) = .ok t := by
    intro t
    unfold catchValueError
    split <;> simp_all
  simp only [← hholds, hfilled, bind, Except.bind, pure, Except.pure]
  constructor
  · intro h
    cases hparse : catchValueError wrap (parseCodexCliTelemetry (.obj filled)) with
    | error e => simp [hparse] at h
    | ok t =>
      obtain ⟨u, hu, rfl⟩ := parse_ok_iff.mp ((hcatch t).mp hparse)
      exact ⟨u, hu, by simpa [hparse, eq_comm] using h⟩
  · rintro ⟨u, hu, rfl⟩
    rw [(hcatch _).mpr hu.parse]

/-- The scan from the end answers with the last usage. -/
theorem scanStdout_ok_iff (defaultModel : Text) (lines : List Text)
    (answer : Option CodexCLITelemetry) :
    scanStdout loads defaultModel lines = .ok answer ↔
      match (lines.filterMap (usageEvent loads)).head? with
      | none => answer = none
      | some event => ∃ u, Reports (eventModel defaultModel event.1) (eventDuration event.1)
        event.2 u ∧ answer = some u.telemetry := by
  induction lines with
  | nil => simp [scanStdout, eq_comm]
  | cons line lines ih =>
    cases hevent : usageEvent loads line with
    | none => simpa only [scanStdout, hevent, List.filterMap_cons] using ih
    | some event =>
      simp only [scanStdout, hevent, List.filterMap_cons, List.head?_cons]
      exact usage_ok_iff .invalidStdout _ _ event.2 answer

/-- A usage file that holds no mapping gives no telemetry. -/
theorem other_not_ok (wrap : Complaint → UsageTelemetryError) (model duration : Json) {data : Json}
    (h : ∀ fields, data ≠ .obj fields) (answer : Option CodexCLITelemetry) :
    (do
      let payload ← normalize model duration data
      return some (← catchValueError wrap (parseCodexCliTelemetry payload))) ≠
        (.ok answer : Result (Option CodexCLITelemetry)) := by
  rcases normalize_other model duration h with ⟨-, hok⟩ | ⟨-, herror⟩
  · simp [hok, parse_of_not_obj h, complain, catchValueError, bind, Except.bind]
  · simp [herror, bind, Except.bind]

/-- The extraction answers exactly with what a step tells of its usage. -/
theorem extract_ok_iff (step : StepOutput) (answer : Option CodexCLITelemetry) :
    extractCodexCliTelemetryFromOutput loads step.stdout step.usageFile step.defaultModel =
      .ok answer ↔ ∃ told, Told loads step told ∧ answer = told.map Usage.telemetry := by
  obtain ⟨stepId, adapterId, stdout, usageFile, defaultModel, isMetered⟩ := step
  cases usageFile with
  | corrupted => simp [extractCodexCliTelemetryFromOutput, Option.exists, Told]
  | holds data =>
    cases data with
    | obj fields =>
      simp only [extractCodexCliTelemetryFromOutput, Option.exists, Told, false_and, false_or,
        Option.map_some]
      exact usage_ok_iff .invalidArtifact _ _ fields answer
    | _ =>
      simp only [extractCodexCliTelemetryFromOutput, Option.exists, Told, false_and, exists_false,
        or_self, iff_false]
      exact other_not_ok .invalidArtifact _ _ (fun fields => by simp) answer
  | absent =>
    have hscan := @scanStdout_ok_iff loads defaultModel (splitlines stdout).reverse answer
    rw [List.filterMap_reverse, List.head?_reverse] at hscan
    simp only [extractCodexCliTelemetryFromOutput, Option.exists, Told, Option.map_none,
      Option.map_some]
    split
    next hempty =>
      have hnone : lastUsage loads stdout = none := by
        simp [hempty, lastUsage, splitlines, splitlinesFrom]
      simp [hnone, eq_comm]
    next =>
      rw [hscan, ← lastUsage]
      cases lastUsage loads stdout <;> simp

end Extracting

section Accounting
variable {loads : Text → Option Json} {repr : Json → Text} {step : StepOutput}

theorem Usage.telemetry_injective : Function.Injective Usage.telemetry := by
  rintro ⟨p, c, k, name, x⟩ ⟨p', c', k', name', x'⟩ h
  simp only [Usage.telemetry, CodexCLITelemetry.mk.injEq, Json.int.injEq, Nat.cast_inj] at h
  obtain ⟨rfl, rfl, -, rfl, rfl, rfl⟩ := h
  rfl

/-- A step tells one thing at most. -/
theorem Told.unique {told told' : Option Usage} (h : Told loads step told)
    (h' : Told loads step told') : told = told' := by
  have hok := (extract_ok_iff step _).mpr ⟨told, h, rfl⟩
  have hok' := (extract_ok_iff step _).mpr ⟨told', h', rfl⟩
  have hmap : told.map Usage.telemetry = told'.map Usage.telemetry :=
    Except.ok.inj (hok.symm.trans hok')
  exact Option.map_injective Usage.telemetry_injective hmap

theorem owes_of_told {u : Usage} (h : Told loads step (some u)) (u' : Usage) :
    Owes loads step u' ↔ u' = u := by
  constructor
  · rintro (htold | ⟨htold, -⟩)
    · exact Option.some.inj (htold.unique h)
    · exact absurd (htold.unique h) (by simp)
  · rintro rfl
    exact .inl h

theorem owes_of_silent (h : Told loads step none) (u : Usage) :
    Owes loads step u ↔ step.isMetered = false ∧ u = .unmetered := by
  constructor
  · rintro (htold | ⟨-, howes⟩)
    · exact absurd (htold.unique h) (by simp)
    · exact howes
  · exact fun howes => .inr ⟨h, howes⟩

/-- A metered step that tells of no usage raises, whatever the ledger. -/
theorem accountStep_of_silent (ledger : RunSpendLedger) (h : Told loads step none)
    (hmetered : step.isMetered = true) :
    accountStep loads repr ledger step = .error (.raised (.unaccountedSpend
      (unaccountedMessage repr step.stepId step.adapterId))) := by
  have hextract := (extract_ok_iff step none).mpr ⟨none, h, rfl⟩
  simp [accountStep, hextract, enforceStepUsageTelemetry, hmetered, Except.mapError, bind,
    Except.bind]

/-- A step is accounted for exactly with the usage that it owes. -/
theorem accountStep_ok_iff (ledger : RunSpendLedger) (step : StepOutput)
    (after : RunSpendLedger) :
    accountStep loads repr ledger step = .ok after ↔
      ∃ u, Owes loads step u ∧ after = ledger.addStepRecord (u.record step) := by
  cases hresult : extractCodexCliTelemetryFromOutput loads step.stdout step.usageFile
      step.defaultModel with
  | error e =>
    have hnone : ∀ told, ¬ Told loads step told := by
      intro told htold
      have hok := (extract_ok_iff step _).mpr ⟨told, htold, rfl⟩
      simp [hresult] at hok
    simp [accountStep, hresult, Except.mapError, bind, Except.bind, Owes, hnone]
  | ok answer =>
    obtain ⟨told, htold, rfl⟩ := (extract_ok_iff step answer).mp hresult
    cases told with
    | some u =>
      have henforce : enforceStepUsageTelemetry repr step.stepId step.adapterId
          (some u.telemetry) step.isMetered = .ok (u.record step) := by
        simp [enforceStepUsageTelemetry, Usage.telemetry, Usage.record]
      simp [accountStep, hresult, henforce, owes_of_told htold, Except.mapError, bind, Except.bind,
        pure, Except.pure, eq_comm]
    | none =>
      by_cases hmetered : step.isMetered = true
      · simp [accountStep_of_silent ledger htold hmetered, owes_of_silent htold, hmetered]
      · have hfree : step.isMetered = false := by simpa using hmetered
        have henforce : enforceStepUsageTelemetry repr step.stepId step.adapterId none false =
            .ok (Usage.unmetered.record step) := by
          simp [enforceStepUsageTelemetry, Usage.unmetered, Usage.record]
        simp [accountStep, hresult, henforce, owes_of_silent htold, hfree, Except.mapError,
          bind, Except.bind, pure, Except.pure, eq_comm]

/-- The records that a run adds are the bills of its steps. -/
theorem accountRun_billed (steps : List StepOutput) (ledger : RunSpendLedger) :
    ∃ bills, Billed loads steps bills ∧ accountRun loads repr ledger steps =
      { ledger with records := ledger.records ++ bills.map fun bill => bill.2.record bill.1 } := by
  induction steps generalizing ledger with
  | nil => exact ⟨[], .done, by simp [accountRun]⟩
  | cons step steps ih =>
    by_cases howes : ∃ u, Owes loads step u
    · obtain ⟨u, howes⟩ := howes
      have hstep := (@accountStep_ok_iff loads repr ledger step _).mpr ⟨u, howes, rfl⟩
      obtain ⟨bills, hbills, hrun⟩ := ih (ledger.addStepRecord (u.record step))
      refine ⟨(step, u) :: bills, .bill howes hbills, ?_⟩
      simp only [accountRun, List.foldl_cons, hstep, Except.toOption, Option.getD_some] at hrun ⊢
      rw [hrun]
      simp [RunSpendLedger.addStepRecord]
    · have hraise : ∀ after, accountStep loads repr ledger step ≠ .ok after := by
        intro after hok
        obtain ⟨u, hu, -⟩ := (accountStep_ok_iff ledger step after).mp hok
        exact howes ⟨u, hu⟩
      obtain ⟨bills, hbills, hrun⟩ := ih ledger
      refine ⟨bills, .refuse (not_exists.mp howes) hbills, ?_⟩
      cases hstep : accountStep loads repr ledger step with
      | ok after => exact absurd hstep (hraise after)
      | error e =>
        simpa only [accountRun, List.foldl_cons, hstep, Except.toOption, Option.getD_none]
          using hrun

end Accounting

section Totals
variable {ledger : RunSpendLedger} {bills : List (StepOutput × Usage)}

/-- A ledger whose records are those of bills, and whose totals are theirs. -/
structure Sums (ledger : RunSpendLedger) (bills : List (StepOutput × Usage)) : Prop where
  records : ledger.records = bills.map fun bill => bill.2.record bill.1
  prompt : ledger.totalPromptTokens = .ok ((bills.map fun bill => bill.2.prompt).sum : ℕ)
  completion : ledger.totalCompletionTokens =
    .ok ((bills.map fun bill => bill.2.completion).sum : ℕ)
  total : ledger.totalTokens =
    .ok ((bills.map fun bill => bill.2.prompt + bill.2.completion).sum : ℕ)
  cached : ledger.totalCachedTokens = .ok ((bills.map fun bill => bill.2.cached).sum : ℕ)

theorem sumCounts_ints (counts : List ℕ) :
    sumCounts (counts.map fun n : ℕ => Json.int n) = .ok (counts.sum : ℕ) := by
  have hfold : ∀ total : ℤ, (counts.map fun n : ℕ => Json.int n).foldlM addCount total =
      .ok (total + (counts.sum : ℕ)) := by
    induction counts with
    | nil => simp [pure, Except.pure]
    | cons n counts ih =>
      intro total
      simp [addCount, bind, Except.bind, ih, add_assoc]
  simpa [sumCounts] using hfold 0

/-- A count of the records of bills sums to the counts of the bills. -/
theorem sumCounts_bills (field : StepSpendRecord → Json) (count : Usage → ℕ)
    (hrecords : ledger.records = bills.map fun bill => bill.2.record bill.1)
    (hfield : ∀ (u : Usage) (step : StepOutput), field (u.record step) = .int (count u)) :
    sumCounts (ledger.records.map field) = .ok ((bills.map fun bill => count bill.2).sum : ℕ) := by
  rw [hrecords, ← sumCounts_ints, List.map_map, List.map_map]
  congr 1
  exact List.map_congr_left fun bill _ => hfield bill.2 bill.1

theorem sums_of_records (h : ledger.records = bills.map fun bill => bill.2.record bill.1) :
    Sums ledger bills where
  records := h
  prompt := sumCounts_bills _ Usage.prompt h fun _ _ => rfl
  completion := sumCounts_bills _ Usage.completion h fun _ _ => rfl
  total := sumCounts_bills _ (fun u => u.prompt + u.completion) h fun u _ => by
    simp [Usage.record]
  cached := sumCounts_bills _ Usage.cached h fun _ _ => rfl

variable {sumFloats : List Double → Double}

/-- Nothing that is recorded has a cost. -/
theorem Sums.no_cost (h : Sums ledger bills)
    (hsum : ∀ n, sumFloats (List.replicate n (.finite 0)) = .finite 0) :
    ledger.cumulativeCostUsd sumFloats = .finite 0 := by
  have hzeros : ledger.records.map StepSpendRecord.costUsd =
      List.replicate bills.length (.finite 0) := by
    rw [h.records, List.map_map]
    exact List.map_const
  rw [RunSpendLedger.cumulativeCostUsd, hzeros, hsum]

/-- A ledger without costs passes no ceiling. -/
theorem not_exceeded_of_no_cost (h : ledger.cumulativeCostUsd sumFloats = .finite 0) :
    ledger.isBudgetExceeded sumFloats = false := by
  unfold RunSpendLedger.isBudgetExceeded
  split
  · rfl
  next hpositive =>
    rw [h]
    exact Double.less_zero_of_not_less (by simpa using hpositive)

end Totals

section Run

/-- After any steps the ledger of a run holds one record for each step that owes a usage, in their
order, and sums what they used; a metered step that tells of no usage raises. No ceiling is ever
passed, since no record has a cost. -/
theorem run_accounts (loads : Text → Option Json) (repr : Json → Text)
    {sumFloats : List Double → Double}
    (hsum : ∀ n, sumFloats (List.replicate n (.finite 0)) = .finite 0) (runId : Text)
    (budgetCeilingUsd : Double) (steps : List StepOutput) :
    let ledger := accountRun loads repr ⟨runId, [], budgetCeilingUsd⟩ steps
    (∃ bills, Billed loads steps bills ∧ Sums ledger bills) ∧
    ledger.isBudgetExceeded sumFloats = false ∧
    ∀ step, Told loads step none → step.isMetered = true →
      accountStep loads repr ledger step = .error (.raised (.unaccountedSpend
        (unaccountedMessage repr step.stepId step.adapterId))) := by
  intro ledger
  obtain ⟨bills, hbills, hrun⟩ :=
    @accountRun_billed loads repr steps ⟨runId, [], budgetCeilingUsd⟩
  have hsums : Sums ledger bills := by
    apply sums_of_records
    show (accountRun loads repr ⟨runId, [], budgetCeilingUsd⟩ steps).records = _
    rw [hrun, List.nil_append]
  have hkept : ledger.isBudgetExceeded sumFloats = false :=
    not_exceeded_of_no_cost (hsums.no_cost hsum)
  exact ⟨⟨bills, hbills, hsums⟩, hkept, fun step htold hmetered =>
    accountStep_of_silent ledger htold hmetered⟩

/-- A sum without rounding. -/
def exactSum (costs : List Double) : Double :=
  .finite (costs.map fun cost => match cost with | .finite value => value | _ => 0).sum

/-- A line of output with a usage that names its counts the other way. -/
def sampleLine : Text :=
  lit ("\x7b\"usage\": \x7b\"input_tokens\": 7, \"output_tokens\": 5, " ++
    "\"total_tokens\": 12\x7d\x7d")

/-- `json.loads` on the lines of the sample. -/
def sampleLoads (line : Text) : Option Json :=
  if line = sampleLine then
    some (.obj [(usageKey, .obj [(inputTokens, .int 7), (outputTokens, .int 5),
      (totalTokens, .int 12)])])
  else none

/-- A step that reports a usage, a metered one that reports none, and one that is free. -/
def sampleSteps : List StepOutput :=
  [⟨lit "a", lit "codex_cli", lit "done\n" ++ sampleLine ++ lit "\n", .absent, lit "gpt-5-codex",
      true⟩,
    ⟨lit "b", lit "codex_cli", lit "done\n", .absent, lit "gpt-5-codex", true⟩,
    ⟨lit "c", lit "shell", [], .absent, lit "gpt-5-codex", false⟩]

theorem exactSum_zeros (n : ℕ) : exactSum (List.replicate n (.finite 0)) = .finite 0 := by
  simp [exactSum]

theorem run_accounts_sample :
    (accountRun sampleLoads (fun _ => lit "'b'") ⟨lit "run", [], .finite (1 / 100)⟩
      sampleSteps).isBudgetExceeded exactSum = false ∧
    (accountRun sampleLoads (fun _ => lit "'b'") ⟨lit "run", [], .finite (1 / 100)⟩
      sampleSteps).totalTokens = .ok 12 := by
  constructor
  · exact (run_accounts sampleLoads (fun _ => lit "'b'") exactSum_zeros (lit "run")
      (.finite (1 / 100)) sampleSteps).2.1
  · rfl

end Run

end CodexTelemetry
