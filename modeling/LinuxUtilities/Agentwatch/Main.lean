import LinuxUtilities.Agentwatch.Seconds
import LinuxUtilities.Agentwatch.Supervise

/-! `parse_options` and `main`: exactly which command lines start a command, and with which
options. -/
namespace Agentwatch
open CString

/-- The two options. -/
inductive OptionKind where
  | timeout | grace
  deriving DecidableEq

def OptionKind.flag : OptionKind → CStr
  | timeout => .lit "--timeout"
  | grace => .lit "--grace"

theorem parseSeconds_pos {text : CStr} {ms : ℕ} (h : parseSeconds text = some ms) : 0 < ms := by
  have hwrapped : ∀ n < 2 ^ 64, (pure (n % 2 ^ 64) : Id ℕ) = pure n := by
    intro n hn
    rw [Nat.mod_eq_of_lt hn]
  by_cases hd : ∃ d : Duration, d.text = text.bytes
  · obtain ⟨d, hd⟩ := hd
    have hresult : parseSeconds text = if 1 ≤ d.millis ∧ d.millis ≤ 86400000 then some d.millis
        else none := parseSecondsWith_duration hwrapped hd
    rw [hresult, Option.ite_none_right_eq_some] at h
    obtain rfl := Option.some.inj h.2
    exact h.1.1
  · have hnone : parseSeconds text = none :=
      parseSecondsWith_other hwrapped fun d hd' => hd ⟨d, hd'⟩
    rw [hnone] at h
    contradiction

/-- A period in milliseconds. -/
abbrev Period := { ms : ℕ // 0 < ms }

/-- `parse_seconds`, with what it promises about its result. -/
def readPeriod (text : CStr) : Option Period :=
  match h : parseSeconds text with
  | none => none
  | some ms => some ⟨ms, parseSeconds_pos h⟩

theorem readPeriod_eq_some {text : CStr} {p : Period} :
    readPeriod text = some p ↔ parseSeconds text = some p.val := by
  unfold readPeriod
  split
  next h => simp [h]
  next ms h =>
    constructor
    · intro hp
      rw [← Option.some.inj hp]
      exact h
    · intro hp
      exact congrArg some (Subtype.ext (Option.some.inj (h.symm.trans hp)))

/-- `struct options`, with all of the command. -/
structure CommandLine where
  timeoutMs : Option Period
  graceMs : Period
  command : List CStr
  deriving DecidableEq

/-- The variables of the loop of `parse_options`. -/
structure Parsing where
  timeoutMs : Option Period
  graceMs : Period
  timeoutSeen : Bool
  graceSeen : Bool
  deriving DecidableEq

namespace Parsing

def initial : Parsing := ⟨none, ⟨5000, by decide⟩, false, false⟩

def seen (s : Parsing) : OptionKind → Bool
  | .timeout => s.timeoutSeen
  | .grace => s.graceSeen

def set (s : Parsing) (ms : Period) : OptionKind → Parsing
  | .timeout => { s with timeoutMs := some ms, timeoutSeen := true }
  | .grace => { s with graceMs := ms, graceSeen := true }

end Parsing

/-- Which option an argument is. -/
def optionKind (arg : CStr) : Option OptionKind :=
  if arg = .lit "--timeout" then some .timeout
  else if arg = .lit "--grace" then some .grace
  else none

/-- The loop of `parse_options` and what follows it; `none` is its `-1`. -/
def parseLoop (s : Parsing) : List CStr → Option CommandLine
  | [] => none
  | [_] => none  -- `--` without a command, or no value for an option
  | arg :: value :: rest =>
    if arg = .lit "--" then some ⟨s.timeoutMs, s.graceMs, value :: rest⟩
    else
      match optionKind arg with
      | none => none
      | some kind =>
        if s.seen kind then none
        else
          match readPeriod value with
          | none => none
          | some ms => parseLoop (s.set ms kind) rest

/-- How `parse_options` ends: it has printed a text, the arguments are invalid, or there is a
command. -/
inductive Parsed where
  | printed (text : List UInt8)
  | invalid
  | options (c : CommandLine)
  deriving DecidableEq

def usageText : List UInt8 :=
  ascii "usage: agentwatch [--timeout SECONDS] [--grace SECONDS] -- COMMAND [ARG...]\n"

def versionText : List UInt8 := ascii "agentwatch 0.1.0\n"

/-- `parse_options`, on the arguments after the program name. -/
def parseOptions (args : List CStr) : Parsed :=
  if args = [.lit "--help"] then .printed usageText
  else if args = [.lit "--version"] then .printed versionText
  else
    match parseLoop .initial args with
    | none => .invalid
    | some c => .options c

/-- An option with its value. -/
structure OptionGroup where
  kind : OptionKind
  value : CStr
  deriving DecidableEq

def OptionGroup.args (g : OptionGroup) : List CStr := [g.kind.flag, g.value]

/-- The arguments of option groups, `--`, and a command. -/
def lineOf (groups : List OptionGroup) (command : List CStr) : List CStr :=
  groups.flatMap OptionGroup.args ++ .lit "--" :: command

/-- The value that a kind is given. -/
def given (groups : List OptionGroup) (kind : OptionKind) : Option Period :=
  (groups.find? fun g => g.kind = kind).bind fun g => readPeriod g.value

/-- No option twice, and every value a duration. -/
structure Admissible (groups : List OptionGroup) : Prop where
  nodup : (groups.map OptionGroup.kind).Nodup
  values : ∀ g ∈ groups, (readPeriod g.value).isSome

theorem flag_ne_dashes (kind : OptionKind) : kind.flag ≠ .lit "--" := by
  cases kind <;> decide

theorem optionKind_flag (kind : OptionKind) : optionKind kind.flag = some kind := by
  cases kind <;> decide

theorem flag_of_optionKind {arg : CStr} {kind : OptionKind} (h : optionKind arg = some kind) :
    arg = kind.flag := by
  unfold optionKind at h
  split at h
  next heq =>
    obtain rfl := Option.some.inj h
    exact heq
  next =>
    split at h
    next heq =>
      obtain rfl := Option.some.inj h
      exact heq
    next => contradiction

namespace Parsing

theorem seen_set (s : Parsing) (ms : Period) (kind other : OptionKind) :
    (s.set ms kind).seen other = (other = kind || s.seen other) := by
  cases kind <;> cases other <;> simp [set, seen]

/-- The result with the variables after some groups. -/
def result (s : Parsing) (groups : List OptionGroup) (command : List CStr) : CommandLine where
  timeoutMs := (given groups .timeout).or s.timeoutMs
  graceMs := (given groups .grace).getD s.graceMs
  command := command

/-- Groups that can follow those that were seen. -/
def Open (s : Parsing) (groups : List OptionGroup) : Prop := ∀ g ∈ groups, s.seen g.kind = false

theorem given_cons (g : OptionGroup) (groups : List OptionGroup) (kind : OptionKind) :
    given (g :: groups) kind = if g.kind = kind then readPeriod g.value else given groups kind := by
  unfold given
  by_cases hkind : g.kind = kind
  · rw [List.find?_cons_of_pos (by simpa using hkind), if_pos hkind]
    rfl
  · rw [List.find?_cons_of_neg (by simpa using hkind), if_neg hkind]

theorem given_none {groups : List OptionGroup} {kind : OptionKind}
    (h : kind ∉ groups.map OptionGroup.kind) : given groups kind = none := by
  have hnone : (groups.find? fun g => g.kind = kind) = none := by
    rw [List.find?_eq_none]
    intro g hg hkind
    exact h (List.mem_map.mpr ⟨g, hg, by simpa using hkind⟩)
  rw [given, hnone]
  rfl

/-- One group more at the front. -/
theorem result_set {s : Parsing} {g : OptionGroup} {groups : List OptionGroup} {ms : Period}
    (hms : readPeriod g.value = some ms) (hnew : g.kind ∉ groups.map OptionGroup.kind)
    (command : List CStr) :
    (s.set ms g.kind).result groups command = s.result (g :: groups) command := by
  have hnone := given_none hnew
  unfold result
  rw [given_cons, given_cons, hms]
  cases hkind : g.kind with
  | timeout =>
    rw [hkind] at hnone
    simp [set, hnone]
  | grace =>
    rw [hkind] at hnone
    simp [set, hnone]

/-- The loop takes admissible groups and what follows them. -/
theorem parseLoop_line {s : Parsing} {groups : List OptionGroup} {command : List CStr}
    (hopen : s.Open groups) (h : Admissible groups) (hne : command ≠ []) :
    parseLoop s (lineOf groups command) = some (s.result groups command) := by
  induction groups generalizing s with
  | nil =>
    obtain ⟨arg, rest, rfl⟩ := List.exists_cons_of_ne_nil hne
    rfl
  | cons g groups ih =>
    obtain ⟨ms, hms⟩ := Option.isSome_iff_exists.mp (h.values g List.mem_cons_self)
    obtain ⟨hnew, hnodup⟩ := List.nodup_cons.mp h.nodup
    have hline : lineOf (g :: groups) command = g.kind.flag :: g.value :: lineOf groups command := by
      simp [lineOf, OptionGroup.args]
    have hrest : (s.set ms g.kind).Open groups := by
      intro g' hg'
      have hne' : g'.kind ≠ g.kind := fun hkind => hnew (List.mem_map.mpr ⟨g', hg', hkind⟩)
      rw [seen_set, hopen g' (List.mem_cons_of_mem g hg')]
      simp [hne']
    have hseen : s.seen g.kind = false := hopen g List.mem_cons_self
    rw [hline, parseLoop, if_neg (flag_ne_dashes g.kind)]
    simp only [optionKind_flag, hseen, hms, Bool.false_eq_true, ↓reduceIte]
    rw [ih hrest ⟨hnodup, fun g' hg' => h.values g' (List.mem_cons_of_mem g hg')⟩,
      result_set hms hnew]

/-- The loop takes nothing else. -/
theorem line_of_parseLoop {s : Parsing} {args : List CStr} {c : CommandLine}
    (h : parseLoop s args = some c) :
    ∃ groups, s.Open groups ∧ Admissible groups ∧ c.command ≠ [] ∧
      args = lineOf groups c.command ∧ c = s.result groups c.command := by
  fun_induction parseLoop s args with
  | case1 s => contradiction
  | case2 s arg => contradiction
  | case3 s value rest =>
    obtain rfl := Option.some.inj h
    exact ⟨[], by simp [Open], ⟨by simp, by simp⟩, by simp, by simp [lineOf],
      by simp [result, given]⟩
  | case4 s arg value rest hdash hkind => contradiction
  | case5 s arg value rest hdash kind hkind hseen => contradiction
  | case6 s arg value rest hdash kind hkind hseen hms => contradiction
  | case7 s arg value rest hdash kind hkind hseen ms hms ih =>
    obtain ⟨groups, hopen, hadm, hne, hrest, hc⟩ := ih h
    have hnew : kind ∉ groups.map OptionGroup.kind := by
      intro hmem
      obtain ⟨g, hg, rfl⟩ := List.mem_map.mp hmem
      have hset := hopen g hg
      rw [seen_set] at hset
      simp at hset
    refine ⟨⟨kind, value⟩ :: groups, ?_, ⟨?_, ?_⟩, hne, ?_, ?_⟩
    · intro g hg
      rcases List.mem_cons.mp hg with rfl | hg
      · exact Bool.not_eq_true _ ▸ hseen
      · have hset := hopen g hg
        rw [seen_set, Bool.or_eq_false_iff] at hset
        exact hset.2
    · exact List.nodup_cons.mpr ⟨hnew, hadm.nodup⟩
    · intro g hg
      rcases List.mem_cons.mp hg with rfl | hg
      · rw [hms]
        rfl
      · exact hadm.values g hg
    · rw [hrest, flag_of_optionKind hkind]
      simp [lineOf, OptionGroup.args]
    · rw [hc]
      exact @result_set s ⟨kind, value⟩ groups ms hms hnew _

end Parsing

/-- What a run of the program comes to. -/
structure Outcome where
  status : ℕ
  stdout : List UInt8
  stderr : List UInt8
  deriving DecidableEq

/-- The part of the options that `supervise` works with. -/
def CommandLine.options (c : CommandLine) : Options where
  timeoutMs := c.timeoutMs.map Subtype.val
  graceMs := c.graceMs.val
  grace_pos := c.graceMs.property
  command := c.command.headD ∅

/-- `main`, on the arguments after the program name. -/
def main (args : List CStr) (env : Startup) (events : Events) : Outcome :=
  match parseOptions args with
  | .printed text => ⟨0, text, []⟩
  | .invalid => ⟨2, [], diagnostic "INVALID_ARGUMENTS"⟩
  | .options c => ⟨(supervise c.options env events).status, [], (supervise c.options env events).diag⟩

theorem lineOf_ne {groups : List OptionGroup} {command : List CStr} (hne : command ≠ [])
    (arg : CStr) : lineOf groups command ≠ [arg] := by
  intro h
  have hlen := congrArg List.length h
  have hpos := List.length_pos_iff.mpr hne
  rw [lineOf, List.length_append, List.length_cons, List.length_singleton] at hlen
  omega

theorem parseOptions_line {groups : List OptionGroup} {command : List CStr}
    (h : Admissible groups) (hne : command ≠ []) :
    parseOptions (lineOf groups command) = .options (Parsing.initial.result groups command) := by
  have hopen : Parsing.initial.Open groups := by
    intro g _
    cases g.kind <;> rfl
  rw [parseOptions, if_neg (lineOf_ne hne _), if_neg (lineOf_ne hne _),
    Parsing.parseLoop_line hopen h hne]

/-- The values do not depend on the order of admissible groups. -/
theorem given_perm {groups groups' : List OptionGroup} (hperm : groups.Perm groups')
    (h : (groups.map OptionGroup.kind).Nodup) (kind : OptionKind) :
    given groups kind = given groups' kind := by
  have hkinds : ∀ g ∈ groups, ∀ g' ∈ groups, g.kind = g'.kind → g = g' :=
    fun g hg g' hg' => List.inj_on_of_nodup_map h hg hg'
  have hfind {gs gs' : List OptionGroup} (hsub : gs ⊆ gs') (hsub' : gs' ⊆ groups) {g : OptionGroup}
      (hg : gs.find? (fun g => g.kind = kind) = some g) :
      gs'.find? (fun g => g.kind = kind) = some g := by
    have hmem := List.mem_of_find?_eq_some hg
    have hkind : g.kind = kind := by simpa using List.find?_some hg
    obtain ⟨g', hg'⟩ : ∃ g', gs'.find? (fun g => g.kind = kind) = some g' := by
      rw [← Option.isSome_iff_exists, List.find?_isSome]
      exact ⟨g, hsub hmem, by simpa using hkind⟩
    have hkind' : g'.kind = kind := by simpa using List.find?_some hg'
    rw [hg', hkinds g' (hsub' (List.mem_of_find?_eq_some hg')) g (hsub' (hsub hmem))
      (hkind'.trans hkind.symm)]
  unfold given
  congr 1
  cases hg : groups.find? fun g => g.kind = kind with
  | some g => exact (hfind hperm.subset hperm.symm.subset hg).symm
  | none =>
    rw [List.find?_eq_none] at hg
    rw [eq_comm, List.find?_eq_none]
    exact fun g hmem => hg g (hperm.symm.subset hmem)

/-- Exactly which command lines start a command, and what becomes of the others. A command is
supervised for the lines that are options, each at most once and with a duration of
`parse_seconds`, then `--` and a command that is not empty, taken as it stands; the options count
in any order. The two informational options only stand alone, and everything else is refused
before anything is started. -/
theorem main_exact (args : List CStr) (env : Startup) (events : Events) :
    (∀ groups command, Admissible groups → command ≠ [] → args = lineOf groups command →
      ∃ c : CommandLine, c.command = command ∧ c.timeoutMs = given groups .timeout ∧
        c.graceMs.val = ((given groups .grace).map Subtype.val).getD 5000 ∧
        main args env events = ⟨(supervise c.options env events).status, [],
          (supervise c.options env events).diag⟩ ∧
        ∀ groups', groups.Perm groups' →
          main (lineOf groups' command) env events = main args env events) ∧
    ((∀ groups command, Admissible groups → command ≠ [] → args ≠ lineOf groups command) →
      main args env events =
        if args = [.lit "--help"] then ⟨0, usageText, []⟩
        else if args = [.lit "--version"] then ⟨0, versionText, []⟩
        else ⟨2, [], diagnostic "INVALID_ARGUMENTS"⟩) := by
  constructor
  · rintro groups command hadm hne rfl
    refine ⟨Parsing.initial.result groups command, rfl, ?_, ?_, ?_, fun groups' hperm => ?_⟩
    · exact Option.or_none
    · show ((given groups .grace).getD _).val = _
      cases given groups .grace <;> rfl
    · unfold main
      rw [parseOptions_line hadm hne]
    · have hadm' : Admissible groups' :=
        ⟨(hperm.map _).nodup_iff.mp hadm.nodup, fun g hg => hadm.values g (hperm.symm.subset hg)⟩
      have hresult : Parsing.initial.result groups' command =
          Parsing.initial.result groups command := by
        unfold Parsing.result
        rw [given_perm hperm hadm.nodup, given_perm hperm hadm.nodup]
      unfold main
      rw [parseOptions_line hadm hne, parseOptions_line hadm' hne, hresult]
  · intro hother
    unfold main parseOptions
    by_cases hhelp : args = [.lit "--help"]
    · rw [if_pos hhelp, if_pos hhelp]
    by_cases hversion : args = [.lit "--version"]
    · rw [if_neg hhelp, if_pos hversion, if_neg hhelp, if_pos hversion]
    have hnone : parseLoop .initial args = none := by
      by_contra hsome
      obtain ⟨c, hc⟩ := Option.ne_none_iff_exists'.mp hsome
      obtain ⟨groups, -, hadm, hne, hargs, -⟩ := Parsing.line_of_parseLoop hc
      exact hother groups c.command hadm hne hargs
    rw [if_neg hhelp, if_neg hversion, if_neg hhelp, if_neg hversion, hnone]

/-- Nothing fails, and the command exits with status 3. -/
def quietStart : Startup := ⟨true, true, true, some 0, some 7, true, true, []⟩

def quietEnd : Events := ⟨[], [⟨7, 768⟩], []⟩

theorem main_exact_swapped :
    main [.lit "--grace", .lit "2", .lit "--timeout", .lit "1.5", .lit "--", .lit "ls"]
        quietStart quietEnd = ⟨3, [], []⟩ ∧
      main [.lit "--timeout", .lit "1.5", .lit "--grace", .lit "2", .lit "--", .lit "ls"]
        quietStart quietEnd = ⟨3, [], []⟩ := by
  have hrun : main [.lit "--grace", .lit "2", .lit "--timeout", .lit "1.5", .lit "--", .lit "ls"]
      quietStart quietEnd = ⟨3, [], []⟩ := by decide
  obtain ⟨-, -, -, -, -, hswap⟩ := (main_exact _ quietStart quietEnd).1
    [⟨.grace, .lit "2"⟩, ⟨.timeout, .lit "1.5"⟩] [.lit "ls"] ⟨by decide, by decide⟩ (by simp) rfl
  exact ⟨hrun, (hswap [⟨.timeout, .lit "1.5"⟩, ⟨.grace, .lit "2"⟩] (.swap _ _ [])).trans hrun⟩

end Agentwatch
