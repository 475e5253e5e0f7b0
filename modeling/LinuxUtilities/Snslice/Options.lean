import LinuxUtilities.Foundation.Strtol
import LinuxUtilities.Snslice.State

/-! The command line: the scan for `--help` and `--version`, the loop over the arguments and
the checks after it; what the options and `--` mean, whatever their values look like. -/
namespace Snslice
open CString

def sizeMax : ℕ := 2 ^ 64 - 1

/-- The configuration with the operand. -/
structure CommandLine extends SnSliceConfig where
  inputPath : Option CStr
  deriving DecidableEq

/-- The hazard and the details that are written before `main` returns 2. -/
structure Complaint where
  hazard : String
  details : List UInt8
  deriving DecidableEq

def usageError (details : List UInt8) : Complaint := ⟨"USAGE_ERROR", details⟩

/-- A text of the source around an argument. -/
def quoting (before : String) (arg : CStr) (after : String) : List UInt8 :=
  ascii before ++ sanitizeString arg 1024 ++ ascii after

/-- `parse_positive_size`. -/
def parsePositiveSize (str : CStr) : Option ℕ :=
  match str.bytes with
  | [] => none
  | b :: _ =>
    if ¬ isDigit b then none
    else match strtoull str.bytes with
      | none => none
      | some ⟨val, rest, range⟩ =>
        if range ∨ rest ≠ [] ∨ val = 0 ∨ sizeMax < val then none else some val

inductive OptionName where
  | bytes | records | format | outDir | namePrefix
  deriving DecidableEq, Repr

namespace OptionName

def all : List OptionName := [bytes, records, format, outDir, namePrefix]

def short : OptionName → CStr
  | bytes => .lit "-b"
  | records => .lit "-r"
  | format => .lit "-f"
  | outDir => .lit "-d"
  | namePrefix => .lit "-p"

def long : OptionName → CStr
  | bytes => .lit "--bytes"
  | records => .lit "--records"
  | format => .lit "--format"
  | outDir => .lit "--out-dir"
  | namePrefix => .lit "--prefix"

/-- The beginning of an argument with its value attached. -/
def attached (o : OptionName) : CStr := o.long ++ .lit "="

/-- What the value of an option does to the configuration, if it is valid. -/
def assign (o : OptionName) (val : CStr) (cfg : CommandLine) : Option CommandLine :=
  match o with
  | bytes => (parsePositiveSize val).map ({ cfg with limitBytes := · })
  | records => (parsePositiveSize val).map ({ cfg with limitRecords := · })
  | format =>
    if val = .lit "ndjson" then some { cfg with format := .ndjson }
    else if val = .lit "csv" then some { cfg with format := .csv }
    else none
  | outDir => some { cfg with outDir := val }
  | namePrefix => some { cfg with namePrefix := val }

/-- The complaint about a value that is not valid. -/
def invalid (o : OptionName) (val : CStr) : Complaint :=
  match o with
  | bytes => ⟨"INVALID_LIMIT", quoting "invalid bytes limit: '" val "'"⟩
  | records => ⟨"INVALID_LIMIT", quoting "invalid records limit: '" val "'"⟩
  | _ => ⟨"INVALID_FORMAT", quoting "invalid format: '" val "'"⟩

/-- Whether an argument gives an option, and the value that is attached to it. -/
def reads (o : OptionName) (arg : CStr) : Option (OptionName × Option CStr) :=
  if arg = o.short ∨ arg = o.long then some (o, none)
  else if o.attached.bytes <+: arg.bytes then
    some (o, some (.ofBytes (arg.bytes.drop o.attached.length)))
  else none

end OptionName

/-- The chain of comparisons. -/
def recognise (arg : CStr) : Option (OptionName × Option CStr) :=
  OptionName.all.findSome? (·.reads arg)

/-- `-` and something after it. -/
def looksLikeOption (arg : CStr) : Bool := arg.bytes.head? = some 45 && arg.bytes.length ≠ 1

/-- The loop over the arguments. -/
def parseLoop : List CStr → Bool → CommandLine → Except Complaint CommandLine
  | [], _, cfg => .ok cfg
  | arg :: args, stopOptions, cfg =>
    if stopOptions = false ∧ arg = .lit "--" then parseLoop args true cfg
    else if stopOptions = false ∧ looksLikeOption arg then
      match recognise arg with
      | none => .error ⟨"UNKNOWN_OPTION", quoting "unrecognized option '" arg "'"⟩
      | some (o, some val) =>
        match o.assign val cfg with
        | none => .error (o.invalid val)
        | some cfg => parseLoop args stopOptions cfg
      | some (o, none) =>
        match args with
        | [] => .error (usageError (quoting "option '" arg "' requires an argument"))
        | val :: args =>
          match o.assign val cfg with
          | none => .error (o.invalid val)
          | some cfg => parseLoop args stopOptions cfg
    else if cfg.inputPath.isSome then
      .error (usageError (quoting "unexpected positional argument '" arg "'"))
    else parseLoop args stopOptions { cfg with inputPath := some arg }

def CommandLine.defaults : CommandLine where
  format := .ndjson
  limitBytes := 0
  limitRecords := 0
  outDir := .lit "."
  namePrefix := .lit "chunk_"
  inputPath := none

/-- The checks after the loop. -/
def checkArguments (cfg : CommandLine) : Except Complaint CommandLine :=
  if cfg.namePrefix = ∅ ∨ 47 ∈ cfg.namePrefix.bytes ∨ ascii ".." <:+: cfg.namePrefix.bytes then
    .error (usageError (quoting "invalid prefix: '" cfg.namePrefix "'"))
  else if cfg.limitBytes = 0 ∧ cfg.limitRecords = 0 then
    .error (usageError
      (ascii "at least one chunk limit (--bytes or --records) must be specified"))
  else .ok cfg

def isInformational (arg : CStr) : Bool := arg = .lit "--help" || arg = .lit "--version"

/-- What `main` does with its arguments: it prints a text and returns 0, complains and
returns 2, or goes on. -/
inductive Request where
  | help
  | version
  | complain (complaint : Complaint)
  | slice (cfg : CommandLine)
  deriving DecidableEq

def Request.ofExcept : Except Complaint CommandLine → Request
  | .error complaint => .complain complaint
  | .ok cfg => .slice cfg

/-- `main` up to the use of the configuration, over the arguments after the program name. -/
def readArguments (args : List CStr) : Request :=
  match args.find? isInformational with
  | some arg =>
    if args.length = 1 then if arg = .lit "--help" then .help else .version
    else .complain (usageError (quoting "informational option '" arg
      "' cannot be combined with other arguments"))
  | none => .ofExcept (parseLoop args false .defaults >>= checkArguments)

/-- The configuration of a run, if there is one. -/
def Request.config : Request → Option CommandLine
  | slice cfg => some cfg
  | _ => none

/-- The forms `-x V`, `--long V` and `--long=V`. -/
inductive Form where
  | short | long | attached
  deriving DecidableEq, Repr

/-- An option with a valid value, in one of its forms. -/
structure OptionGroup where
  option : OptionName
  form : Form
  val : CStr
  valid : (option.assign val .defaults).isSome

namespace OptionGroup

def args (g : OptionGroup) : List CStr :=
  match g.form with
  | .short => [g.option.short, g.val]
  | .long => [g.option.long, g.val]
  | .attached => [g.option.attached ++ g.val]

/-- The configuration with the value of the group. -/
def set (cfg : CommandLine) (g : OptionGroup) : CommandLine :=
  (g.option.assign g.val cfg).getD cfg

end OptionGroup

def argsOf (groups : List OptionGroup) : List CStr := groups.flatMap OptionGroup.args

/-- The configuration that option groups stand for. -/
def configOf (groups : List OptionGroup) : CommandLine :=
  groups.foldl OptionGroup.set .defaults

/-- No argument of its own, be it a value or the operand, is `--help` or `--version`. -/
def NoneInformational (groups : List OptionGroup) (x : CStr) : Prop :=
  isInformational x = false ∧
    ∀ g ∈ groups, g.form ≠ .attached → isInformational g.val = false

section Groups
variable {o o' : OptionName} {val val' x : CStr} {cfg : CommandLine} {g : OptionGroup}
  {groups groups' : List OptionGroup} {rest : List CStr}

/-- What a valid value does. -/
def OptionName.effect (o : OptionName) (val : CStr) (cfg : CommandLine) : CommandLine :=
  match o with
  | bytes => { cfg with limitBytes := (parsePositiveSize val).getD 0 }
  | records => { cfg with limitRecords := (parsePositiveSize val).getD 0 }
  | format => { cfg with format := if val = .lit "ndjson" then .ndjson else .csv }
  | outDir => { cfg with outDir := val }
  | namePrefix => { cfg with namePrefix := val }

theorem OptionName.assign_eq {cfg' : CommandLine} (h : (o.assign val cfg').isSome) :
    o.assign val cfg = some (o.effect val cfg) := by
  cases o with
  | bytes | records =>
    obtain ⟨n, hn⟩ : ∃ n, parsePositiveSize val = some n := by
      simpa [assign, Option.isSome_iff_exists] using h
    simp [assign, effect, hn]
  | format =>
    unfold assign at h ⊢
    by_cases hndjson : val = .lit "ndjson"
    · simp [effect, hndjson]
    · by_cases hcsv : val = .lit "csv"
      · rw [if_neg hndjson, if_pos hcsv, effect, if_neg hndjson]
      · simp [hndjson, hcsv] at h
  | outDir | namePrefix => rfl

theorem OptionName.effect_comm (h : o ≠ o') :
    o.effect val (o'.effect val' cfg) = o'.effect val' (o.effect val cfg) := by
  cases o <;> cases o' <;> first | rfl | contradiction

theorem OptionGroup.set_eq (g : OptionGroup) (cfg : CommandLine) :
    g.set cfg = g.option.effect g.val cfg := by
  rw [set, OptionName.assign_eq g.valid, Option.getD_some]

/-- An option alone is recognised, and so is one with a value attached. -/
theorem recognise_alone (o : OptionName) :
    recognise o.short = some (o, none) ∧ recognise o.long = some (o, none) := by
  cases o <;> decide +kernel

theorem ofBytes_append_drop (s t : CStr) : CStr.ofBytes ((s ++ t).bytes.drop s.length) = t := by
  rw [CStr.append_bytes, CStr.length, List.drop_left, CStr.ofBytes_self]

/-- No argument with a value attached starts like another option. -/
theorem attached_apart (o o' : OptionName) : ¬ o.attached.bytes <+: o'.short.bytes ∧
    ¬ o.attached.bytes <+: o'.long.bytes ∧
      (o ≠ o' → ¬ o.attached.bytes <+: o'.attached.bytes) := by
  cases o <;> cases o' <;> decide +kernel

theorem reads_attached (o o' : OptionName) (val : CStr) :
    o'.reads (o.attached ++ val) = if o = o' then some (o, some val) else none := by
  obtain ⟨hshort, hlong, hother⟩ := attached_apart o o'
  have hbegins : o.attached.bytes <+: (o.attached ++ val).bytes := List.prefix_append _ _
  have halone : ¬ (o.attached ++ val = o'.short ∨ o.attached ++ val = o'.long) := by
    rintro (heq | heq)
    · exact hshort (heq ▸ hbegins)
    · exact hlong (heq ▸ hbegins)
  rw [OptionName.reads, if_neg halone]
  split
  next hsame =>
    split
    next heq =>
      subst heq
      rw [ofBytes_append_drop]
    next hne =>
      rcases List.prefix_or_prefix_of_prefix hbegins hsame with h | h
      · exact absurd h (hother hne)
      · exact absurd h ((attached_apart o' o).2.2 (Ne.symm hne))
  next hnot =>
    rw [if_neg]
    rintro rfl
    exact hnot hbegins

theorem recognise_attached (o : OptionName) (val : CStr) :
    recognise (o.attached ++ val) = some (o, some val) := by
  unfold recognise OptionName.all
  simp only [List.findSome?_cons, List.findSome?_nil, reads_attached]
  cases o <;> rfl

/-- The first argument of a group. -/
def OptionGroup.word (g : OptionGroup) : CStr :=
  match g.form with
  | .short => g.option.short
  | .long => g.option.long
  | .attached => g.option.attached ++ g.val

theorem OptionGroup.args_eq (g : OptionGroup) :
    g.args = g.word :: if g.form = .attached then [] else [g.val] := by
  unfold args word
  cases g.form <;> rfl

theorem OptionGroup.recognise_word (g : OptionGroup) :
    recognise g.word = some (g.option, if g.form = .attached then some g.val else none) := by
  unfold word
  cases g.form with
  | short => exact (recognise_alone g.option).1
  | long => exact (recognise_alone g.option).2
  | attached => exact recognise_attached g.option g.val

/-- The first argument of a group is an option, and neither `--` nor informational. -/
theorem OptionGroup.word_plain (g : OptionGroup) : looksLikeOption g.word = true ∧
    g.word ≠ .lit "--" ∧ isInformational g.word = false := by
  have halone : ∀ o : OptionName,
      (looksLikeOption o.short = true ∧ o.short ≠ .lit "--" ∧ isInformational o.short = false) ∧
        looksLikeOption o.long = true ∧ o.long ≠ .lit "--" ∧ isInformational o.long = false := by
    intro o
    cases o <;> decide +kernel
  have hattached : ∀ (o : OptionName) (text : CStr),
      text ∈ [.lit "--", .lit "--help", .lit "--version"] → o.attached ++ g.val ≠ text := by
    intro o text htext heq
    have hbegins : o.attached.bytes <+: text.bytes := heq ▸ List.prefix_append _ _
    have hnone : ∀ text ∈ [CStr.lit "--", .lit "--help", .lit "--version"],
        ¬ o.attached.bytes <+: text.bytes := by
      cases o <;> decide +kernel
    exact hnone text htext hbegins
  unfold word
  cases g.form with
  | short => exact (halone g.option).1
  | long => exact (halone g.option).2
  | attached =>
    refine ⟨?_, hattached _ _ (by simp), ?_⟩
    · have hlooks : ∀ o : OptionName, o.attached.bytes.head? = some 45 ∧
          2 ≤ o.attached.bytes.length := by
        intro o
        cases o <;> decide
      obtain ⟨hhead, hlength⟩ := hlooks g.option
      have hne : (g.option.attached ++ g.val).bytes.length ≠ 1 := by
        rw [CStr.append_bytes, List.length_append]
        omega
      have hhead' : (g.option.attached ++ g.val).bytes.head? = some 45 := by
        rw [CStr.append_bytes, List.head?_append, hhead]
        rfl
      simp only [looksLikeOption, hhead', decide_true, Bool.true_and, decide_eq_true_eq]
      exact hne
    · simp only [isInformational, Bool.or_eq_false_iff, decide_eq_false_iff_not]
      exact ⟨hattached _ _ (by simp), hattached _ _ (by simp)⟩

theorem parseLoop_group (g : OptionGroup) (rest : List CStr) (cfg : CommandLine) :
    parseLoop (g.args ++ rest) false cfg = parseLoop rest false (g.set cfg) := by
  obtain ⟨hlooks, hdashes, -⟩ := g.word_plain
  have hassign : g.option.assign g.val cfg = some (g.set cfg) := by
    rw [g.set_eq]
    exact OptionName.assign_eq g.valid
  rw [g.args_eq, List.cons_append, parseLoop, if_neg (by simp [hdashes]), if_pos ⟨rfl, hlooks⟩,
    g.recognise_word]
  by_cases hform : g.form = .attached
  · simp only [hform, if_true, List.nil_append, hassign]
  · simp only [hform, if_false, List.singleton_append, hassign]

theorem parseLoop_groups (groups : List OptionGroup) (rest : List CStr) (cfg : CommandLine) :
    parseLoop (argsOf groups ++ rest) false cfg =
      parseLoop rest false (groups.foldl OptionGroup.set cfg) := by
  induction groups generalizing cfg with
  | nil => rfl
  | cons g groups ih =>
    rw [argsOf, List.flatMap_cons, List.append_assoc, parseLoop_group]
    exact ih (g.set cfg)

theorem configOf_inputPath (groups : List OptionGroup) : (configOf groups).inputPath = none := by
  have hset : ∀ (g : OptionGroup) (cfg : CommandLine), (g.set cfg).inputPath = cfg.inputPath := by
    intro g cfg
    rw [g.set_eq]
    cases g.option <;> rfl
  have hfold : ∀ cfg, (groups.foldl OptionGroup.set cfg).inputPath = cfg.inputPath := by
    induction groups with
    | nil => exact fun cfg => rfl
    | cons g groups ih => exact fun cfg => (ih _).trans (hset g cfg)
  exact hfold _

/-- After `--`, the next argument is the operand. -/
theorem parseLoop_operand (h : cfg.inputPath = none) (x : CStr) :
    parseLoop [.lit "--", x] false cfg = .ok { cfg with inputPath := some x } := by
  simp [parseLoop, h]

/-- Groups of different options can be set in any order. -/
theorem foldl_set_perm (h : groups.Perm groups') (hnodup : (groups.map OptionGroup.option).Nodup)
    (cfg : CommandLine) :
    groups.foldl OptionGroup.set cfg = groups'.foldl OptionGroup.set cfg := by
  induction h generalizing cfg with
  | nil => rfl
  | cons g h ih => exact ih (List.nodup_cons.mp hnodup).2 _
  | swap g g' groups =>
    have hne : g'.option ≠ g.option := by
      intro heq
      simp [heq] at hnodup
    simp only [List.foldl_cons, OptionGroup.set_eq, OptionName.effect_comm hne]
  | trans h₁ h₂ ih₁ ih₂ =>
    exact (ih₁ hnodup cfg).trans (ih₂ ((h₁.map _).nodup_iff.mp hnodup) cfg)

/-- The scan for informational options goes over values, and the operand. -/
theorem find_informational : (argsOf groups ++ [.lit "--", x]).find? isInformational = none ↔
    NoneInformational groups x := by
  have hgroup : ∀ g : OptionGroup, (∀ a ∈ g.args, isInformational a = false) ↔
      (g.form ≠ .attached → isInformational g.val = false) := by
    intro g
    have hword := g.word_plain.2.2
    rw [g.args_eq]
    by_cases hform : g.form = .attached
    · simp [hform, hword]
    · simp [hform, hword]
  have hdashes : isInformational (.lit "--") = false := by decide
  unfold NoneInformational argsOf
  simp only [List.find?_eq_none, List.mem_append, List.mem_flatMap, List.mem_cons,
    List.not_mem_nil, or_false, Bool.not_eq_true, ← hgroup]
  constructor
  · intro h
    exact ⟨h x (.inr (.inr rfl)), fun g hg a ha => h a (.inl ⟨g, hg, ha⟩)⟩
  · rintro ⟨hx, hvalues⟩ a (⟨g, hg, ha⟩ | rfl | rfl)
    · exact hvalues g hg a ha
    · exact hdashes
    · exact hx

/-- The order of groups of different options does not change the configuration. -/
theorem readArguments_perm (h : groups'.Perm groups)
    (hnodup : (groups.map OptionGroup.option).Nodup) (rest : List CStr) :
    (readArguments (argsOf groups' ++ rest)).config =
      (readArguments (argsOf groups ++ rest)).config := by
  have hargs : (argsOf groups' ++ rest).Perm (argsOf groups ++ rest) :=
    (h.flatMap_right _).append_right rest
  have hnone : ∀ args : List CStr, args.find? isInformational ≠ none →
      (readArguments args).config = none := by
    intro args hargs
    unfold readArguments
    split
    · split
      · split <;> rfl
      · rfl
    next heq => exact absurd heq hargs
  have hfind : (argsOf groups' ++ rest).find? isInformational = none ↔
      (argsOf groups ++ rest).find? isInformational = none := by
    simp only [List.find?_eq_none, hargs.mem_iff]
  by_cases hinformational : (argsOf groups ++ rest).find? isInformational = none
  · have hsame := foldl_set_perm h ((h.map _).nodup_iff.mpr hnodup) .defaults
    simp only [readArguments, hinformational, hfind.mpr hinformational, parseLoop_groups, hsame]
  · rw [hnone _ hinformational, hnone _ (mt hfind.mp hinformational)]

/-- A complaint about an informational option is none about the configuration. -/
theorem checkArguments_ne (arg : CStr) (cfg : CommandLine) :
    Request.ofExcept (checkArguments cfg) ≠ .complain (usageError (quoting
      "informational option '" arg "' cannot be combined with other arguments")) := by
  have hstart : ∀ (before after : String) (arg' : CStr) (text : List UInt8),
      ascii before = 105 :: 110 :: 118 :: text →
        quoting before arg' after ≠ quoting "informational option '" arg
          "' cannot be combined with other arguments" := by
    intro before after arg' text hbefore heq
    have hinformational : ascii "informational option '" =
        105 :: 110 :: 102 :: (ascii "informational option '").drop 3 := by decide
    rw [quoting, quoting, hbefore, hinformational] at heq
    simp at heq
  unfold checkArguments
  split
  · intro heq
    have hdetails := congrArg Complaint.details (Request.complain.inj heq)
    exact hstart _ _ _ _ rfl hdetails
  · split
    · intro heq
      have hdetails := congrArg Complaint.details (Request.complain.inj heq)
      have hlimits : ascii "at least one chunk limit (--bytes or --records) must be specified" =
          97 ::
            (ascii "at least one chunk limit (--bytes or --records) must be specified").tail := by
        decide
      have hinformational : ascii "informational option '" =
        105 :: (ascii "informational option '").tail := by decide
      rw [usageError, usageError, quoting, hlimits, hinformational] at hdetails
      simp at hdetails
    · exact fun heq => by contradiction

/-- Option groups, `--` and an operand are read as the configuration of the groups with that
operand, whatever the order of groups of different options, exactly if the scan for
informational options finds none among the values that are arguments and the operand. -/
theorem readArguments_groups_iff (groups : List OptionGroup) (x : CStr) :
    (readArguments (argsOf groups ++ [.lit "--", x]) =
        .ofExcept (checkArguments { configOf groups with inputPath := some x }) ∧
      ∀ groups', groups'.Perm groups → (groups.map OptionGroup.option).Nodup → ∀ rest,
        (readArguments (argsOf groups' ++ rest)).config =
          (readArguments (argsOf groups ++ rest)).config) ↔
      NoneInformational groups x := by
  rw [← find_informational]
  constructor
  · rintro ⟨hread, -⟩
    cases hfind : (argsOf groups ++ [.lit "--", x]).find? isInformational with
    | none => rfl
    | some arg =>
      have hlength : (argsOf groups ++ [.lit "--", x]).length ≠ 1 := by simp
      rw [readArguments, hfind] at hread
      simp only [hlength, if_false] at hread
      exact absurd hread.symm (checkArguments_ne arg _)
  · intro hfind
    refine ⟨?_, fun groups' h hnodup rest => readArguments_perm h hnodup rest⟩
    have hparse : parseLoop (argsOf groups ++ [.lit "--", x]) false .defaults =
        .ok { configOf groups with inputPath := some x } :=
      (parseLoop_groups groups _ _).trans (parseLoop_operand (configOf_inputPath groups) x)
    rw [readArguments, hfind]
    dsimp only
    rw [hparse]
    rfl

/-- A file with the name of an informational option is not sliced. -/
theorem readArguments_operand_help :
    ¬ ∀ (groups : List OptionGroup) (x : CStr),
      readArguments (argsOf groups ++ [.lit "--", x]) =
          .ofExcept (checkArguments { configOf groups with inputPath := some x }) ∧
        ∀ groups', groups'.Perm groups → (groups.map OptionGroup.option).Nodup → ∀ rest,
          (readArguments (argsOf groups' ++ rest)).config =
            (readArguments (argsOf groups ++ rest)).config := by
  intro h
  have hread := (h [⟨.records, .short, .lit "1", by decide⟩] (.lit "--help")).1
  revert hread
  decide +kernel

end Groups

end Snslice
