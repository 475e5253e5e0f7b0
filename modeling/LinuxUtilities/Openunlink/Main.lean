import LinuxUtilities.Foundation.Readers
import LinuxUtilities.Openunlink.Contract

/-! `main`, and what can be read back off its output: nothing but what was observed, also when
the output was cut short, and all of it when nothing failed. -/
namespace Openunlink
open CString PrefixCode EscapedText

section Main

def helpText : List UInt8 := ascii <|
  "Usage: openunlink PID\n" ++
  "       openunlink --help\n" ++
  "       openunlink --version\n" ++
  "Report zero-link regular-file descriptors for one Linux process.\n"

def versionText : List UInt8 := ascii "openunlink 0.1.0\n"

/-- What the end of the process leaves of the standard output. -/
def Process.outcome (sys : System) (status : ℕ) (p : Process) : Outcome where
  status := status
  stdout := (p.stdout.push [] sys.exitDrained false).reached
  stderr := p.stderr
  events := p.events

/-- `handle_help` and `handle_version`. -/
def handleText (sys : System) (text : List UInt8) : Outcome :=
  let written := match writeStdoutBytes sys text (.init 0) with
    | (false, p) => failOp .stdoutWrite p
    | (true, p) => flushStdout sys p
  match written with
  | .error p => p.emitOperational.outcome sys 2
  | .ok p => p.outcome sys 0

/-- `emit_usage` and the status that follows it. -/
def usage : Outcome := ⟨2, [], [.operational .usage 0], []⟩

/-- `main`, on the arguments after the program name. -/
def main (sys : System) (q : QSort fdCmp) (args : List CStr) : Outcome :=
  match args with
  | [text] =>
    if text = .lit "--help" then handleText sys helpText
    else if text = .lit "--version" then handleText sys versionText
    else
      match parsePid text with
      | none => usage
      | some pid => scanProcess sys q pid
  | _ => usage

end Main

section Reading

/-- A finding, as its line says it. -/
structure Finding where
  pid : ℕ
  fd : ℕ
  size : ℕ
  target : List UInt8
  deriving DecidableEq

def Finding.line (f : Finding) : List UInt8 := findingLine f.pid f.fd f.size f.target

/-- The finding on the first line of an output. -/
def readFinding : List UInt8 → Option (Finding × List UInt8) :=
  mapped (fun r : ℕ × ℕ × ℕ × List UInt8 => ⟨r.1, r.2.1, r.2.2.1, r.2.2.2⟩)
    (tagged (ascii "OPEN_UNLINKED\tpid=") (pair readNumber
      (tagged (ascii "fd=") (pair readNumber
        (tagged (ascii "size=") (pair readNumber (tagged (ascii "target=") (readQuoted 10))))))))

theorem escapedByte_eq (ch : UInt8) : escapedByte ch = escape isQuote ch := by
  have hall : ∀ n : Fin 256, escapedByte (UInt8.ofNat n) = escape isQuote (UInt8.ofNat n) := by
    decide +kernel
  simpa using hall ⟨ch.toNat, ch.toNat_lt⟩

theorem readFinding_decodes : Decodes readFinding Finding.line := by
  have hsize := readNumber_decodes.pair ((readQuoted_decodes 10).tagged (ascii "target="))
  have hfd := readNumber_decodes.pair (hsize.tagged (ascii "size="))
  have hpid := readNumber_decodes.pair (hfd.tagged (ascii "fd="))
  have hall := (hpid.tagged (ascii "OPEN_UNLINKED\tpid=")).mapped
    (f := fun r : ℕ × ℕ × ℕ × List UInt8 => (⟨r.1, r.2.1, r.2.2.1, r.2.2.2⟩ : Finding))
    (g := fun f => (f.pid, f.fd, f.size, f.target)) fun f => rfl
  intro f rest
  have hread := hall f rest
  have htarget : f.target.flatMap escapedByte = f.target.flatMap (escape isQuote) := by
    rw [funext escapedByte_eq]
  have hline : f.line ++ rest = ascii "OPEN_UNLINKED\tpid=" ++ (decimal f.pid ++ [9] ++
      (ascii "fd=" ++ (decimal f.fd ++ [9] ++ (ascii "size=" ++ (decimal f.size ++ [9] ++
        (ascii "target=" ++ (quoted f.target ++ [10]))))))) ++ rest := by
    have hfd : ascii "\tfd=" = 9 :: ascii "fd=" := rfl
    have hsize : ascii "\tsize=" = 9 :: ascii "size=" := rfl
    have htag : ascii "\ttarget=\"" = 9 :: (ascii "target=" ++ [34]) := rfl
    simp [Finding.line, findingLine, findingHead, quoted, htarget, hfd, hsize, htag]
  rw [hline]
  exact hread

theorem readFinding_extends : Extends readFinding :=
  (((readNumber_extends.pair ((readNumber_extends.pair ((readNumber_extends.pair
    ((readQuoted_extends 10).tagged _)).tagged _)).tagged _)).tagged _).mapped _)

theorem readFinding_nil : readFinding [] = none := by decide

/-- The findings on the lines of an output, and what is left of it. -/
def readOutput (output : List UInt8) : List Finding × List UInt8 := decode readFinding output

/-- No other text begins with the line of a finding. -/
theorem readOutput_other {text output : List UInt8} (htext : text.head? ≠ some 79)
    (h : output <+: text) : readOutput output = ([], output) := by
  have hnone : readFinding output = none := by
    unfold readFinding mapped tagged
    rw [if_neg, Option.map_none]
    rintro ⟨rest, rfl⟩
    obtain ⟨tail, rfl⟩ := h
    exact htext rfl
  unfold readOutput decode
  cases output with
  | nil => rfl
  | cons b output => simp [decodeFor, hnone]

end Reading

section Observed

/-- What was observed of the descriptor of a finding: two looks at one regular file, no link
left at the second, with the size and the target that the finding names. -/
structure Finding.Observed (f : Finding) (sys : System) (pid : ℕ) : Prop where
  pid : f.pid = pid
  fd : f.fd ∈ retained sys
  looks : ∃ first target second, (sys.look (decimal f.fd)).first = .ok first ∧
    (sys.look (decimal f.fd)).link = .ok target ∧ target.val.length ≤ targetLenCap ∧
    (sys.look (decimal f.fd)).second = .ok second ∧ Unlinked first second ∧
    f.size = second.size.toUInt64.toNat ∧ f.target = target.val

/-- The finding of a descriptor, if it is one. -/
def findingAt (sys : System) (pid fd : ℕ) : Option Finding :=
  match report sys fd with
  | .finding size target => some ⟨pid, fd, size.toNat, target⟩
  | _ => none

theorem classify_unlinked {look : Look} {first second : Stat}
    {target : { b : List UInt8 // b.length ≤ targetBufSize }} (hfirst : look.first = .ok first)
    (hlink : look.link = .ok target) (hlen : target.val.length ≤ targetLenCap)
    (hsecond : look.second = .ok second) (hunlinked : Unlinked first second) :
    classify look = .finding second.size.toUInt64 target.val := by
  unfold classify
  simp only [hfirst, hunlinked.regular, not_true_eq_false, ↓reduceIte, hlink,
    Nat.not_lt.mpr hlen, hsecond, hunlinked.dev, hunlinked.ino, hunlinked.stillRegular, ne_eq,
    or_self, hunlinked.nlink, Int64.not_lt.mpr hunlinked.size]

/-- A descriptor of no interest: no regular file, or one that still has a link. -/
def Settled (look : Look) : Prop :=
  ∃ first, look.first = .ok first ∧ (first.isReg = false ∨
    ∃ second, look.second = .ok second ∧ first.dev = second.dev ∧ first.ino = second.ino ∧
      second.isReg = true ∧ second.nlink ≠ 0)

theorem settled_of_silent {look : Look} (h : classify look = .silent) : Settled look := by
  unfold classify at h
  split at h
  · exact Verdict.noConfusion h
  next first hfirst =>
    by_cases hreg : first.isReg = true
    · simp only [hreg, not_true_eq_false, ↓reduceIte] at h
      split at h
      · exact Verdict.noConfusion h
      split at h
      · exact Verdict.noConfusion h
      split at h
      · exact Verdict.noConfusion h
      next second hsecond =>
        split_ifs at h with hsame hnlink
        push Not at hsame
        exact ⟨first, hfirst, .inr ⟨second, hsecond, hsame.1, hsame.2.1, hsame.2.2, hnlink⟩⟩
    · exact ⟨first, hfirst, .inl (Bool.eq_false_of_not_eq_true hreg)⟩

variable {sys : System} {pid : ℕ}

theorem finding?_eq (fd : ℕ) :
    (report sys fd).finding? pid fd = (findingAt sys pid fd).map Finding.line := by
  unfold findingAt
  cases report sys fd with
  | finding size target => rfl
  | silent | advisory => rfl

theorem findings_eq (fds : List ℕ) :
    (findings sys pid fds).flatten = (fds.filterMap (findingAt sys pid)).flatMap Finding.line := by
  rw [findings, List.flatMap_def, List.map_filterMap]
  simp only [finding?_eq]

theorem findingAt_fd {fd : ℕ} {f : Finding} (h : findingAt sys pid fd = some f) : f.fd = fd := by
  unfold findingAt at h
  split at h
  · rw [← Option.some.inj h]
  · contradiction

/-- A descriptor has the finding that was observed of it, and no other. -/
theorem findingAt_eq_some {fd : ℕ} {f : Finding} (hfd : fd ∈ retained sys) :
    findingAt sys pid fd = some f ↔ f.fd = fd ∧ f.Observed sys pid := by
  constructor
  · intro h
    unfold findingAt at h
    split at h
    next size target hreport =>
      obtain ⟨first, link, second, hfirst, hlink, hlen, hsecond, hunlinked⟩ :=
        (classify_finding hreport).2
      have hclass := classify_unlinked hfirst hlink hlen hsecond hunlinked
      obtain ⟨rfl, rfl⟩ := Verdict.finding.inj (hreport.symm.trans hclass)
      obtain rfl := Option.some.inj h
      exact ⟨rfl, rfl, hfd, first, link, second, hfirst, hlink, hlen, hsecond, hunlinked, rfl, rfl⟩
    · contradiction
  · rintro ⟨rfl, hpid, -, first, target, second, hfirst, hlink, hlen, hsecond, hunlinked, hsize,
      htarget⟩
    have hclass : report sys f.fd = .finding second.size.toUInt64 target.val :=
      classify_unlinked hfirst hlink hlen hsecond hunlinked
    simp only [findingAt, hclass]
    rw [← hpid, ← hsize, ← htarget]

/-- The findings of descriptors in ascending order are in ascending order. -/
theorem pairwise_findingAt {fds : List ℕ} (h : fds.Pairwise (· < ·)) :
    (fds.filterMap (findingAt sys pid)).Pairwise fun f g => f.fd < g.fd := by
  rw [List.pairwise_filterMap]
  apply h.imp
  intro fd fd' hlt f hf g hg
  rwa [findingAt_fd hf, findingAt_fd hg]

end Observed

section Runs
variable {sys : System} {q : QSort fdCmp} {pid : ℕ}

/-- What is read off a run of a scan: findings in ascending order, each of them observed. -/
theorem scanProcess_reads (hpid : pid ≤ intMax) :
    (readOutput (scanProcess sys q pid).stdout).1.Pairwise (fun f g => f.fd < g.fd) ∧
      ∀ f ∈ (readOutput (scanProcess sys q pid).stdout).1, f.Observed sys pid := by
  obtain ⟨fds, -, -, hsorted, hretained, -, -, hstdout, -⟩ := (scanProcess_conforms q hpid).lines
  rw [findings_eq] at hstdout
  have hread : (readOutput (scanProcess sys q pid).stdout).1 <+:
      fds.filterMap (findingAt sys pid) :=
    readFinding_extends.decode_truncated readFinding_nil (readFinding_decodes.spells _) hstdout
  refine ⟨(pairwise_findingAt hsorted).sublist hread.sublist, fun f hf => ?_⟩
  obtain ⟨fd, hfd, hfinding⟩ := List.mem_filterMap.mp (hread.subset hf)
  exact ((findingAt_eq_some (hretained fd hfd)).mp hfinding).2

/-- A run in which nothing failed is read back whole. -/
theorem scanProcess_reads_all (hpid : pid ≤ intMax) (hstatus : (scanProcess sys q pid).status ≤ 1) :
    readOutput (scanProcess sys q pid).stdout =
        ((ascending sys).filterMap (findingAt sys pid), []) ∧
      (scanProcess sys q pid).stderr =
        countAdvisories sys pid ++ advisories sys pid (ascending sys) := by
  have hconforms := @scanProcess_conforms sys pid q hpid
  have hclean : firstFailure sys pid = none := by
    by_contra hfailed
    have htwo := hconforms.failed.mpr hfailed
    omega
  obtain ⟨-, -, hstdout, hstderr⟩ := hconforms.finished hclean
  have hspells := readFinding_decodes.spells ((ascending sys).filterMap (findingAt sys pid))
  have hread := hspells.decode readFinding_nil readFinding_nil
  rw [List.append_nil, ← findings_eq, ← hstdout] at hread
  exact ⟨hread, hstderr⟩

theorem emitOperational_stdout (p : Process) : p.emitOperational.stdout = p.stdout := by
  unfold Process.emitOperational
  split <;> rfl

theorem outcome_begins {p : Process} {text : List UInt8} (h : p.stdout.all <+: text)
    (status : ℕ) : (p.outcome sys status).stdout <+: text := by
  have hall := p.stdout.push_all [] sys.exitDrained false
  rw [List.append_nil] at hall
  have hreached : (p.outcome sys status).stdout <+: p.stdout.all := ⟨_, hall⟩
  exact hreached.trans h

/-- `--help` and `--version` print their text, or the beginning of it. -/
theorem handleText_begins (text : List UInt8) : (handleText sys text).stdout <+: text := by
  have hwritten : (writeStdoutBytes sys text (.init 0)).2.stdout.all <+: text := by
    unfold writeStdoutBytes
    split
    · exact List.nil_prefix
    · simp only [Stream.fwrite, Stream.push_all]
      exact List.take_prefix _ _
  unfold handleText
  generalize writeStdoutBytes sys text (.init 0) = written at hwritten ⊢
  obtain ⟨ok, p⟩ := written
  have hflushed : (p.stdout.fflush sys.fflush).all <+: text := by
    unfold Stream.fflush
    split
    · rwa [Stream.push_all, List.append_nil]
    · rwa [Stream.push_all, List.append_nil]
  cases ok with
  | false =>
    apply outcome_begins
    rwa [emitOperational_stdout, Process.setOp_stdout]
  | true =>
    simp only [flushStdout]
    split
    next p' herror =>
      split_ifs at herror
      · obtain rfl := Except.error.inj herror
        apply outcome_begins
        rwa [emitOperational_stdout, Process.setOp_stdout]
    next p' hok =>
      split_ifs at hok
      · contradiction
      · obtain rfl := Except.ok.inj hok
        exact outcome_begins hflushed _

end Runs

/-- Whatever the arguments, the system and its failures, the findings that are read off the
standard output are in ascending order, and each was observed of a descriptor of the process
that was asked for, also when the output was cut short. When the status is 0 or 1, nothing else
stands on the standard output, every finding is there, and each descriptor is either a finding,
or the subject of an advisory, or of no interest. -/
theorem main_reads_back (sys : System) (q : QSort fdCmp) (args : List CStr) :
    let out := main sys q args
    let read := readOutput out.stdout
    read.1.Pairwise (fun f g => f.fd < g.fd) ∧
      (∀ f ∈ read.1, ∃ text pid, args = [text] ∧ parsePid text = some pid ∧ f.Observed sys pid) ∧
      ∀ text pid, args = [text] → parsePid text = some pid → out.status ≤ 1 →
        read.2 = [] ∧ (∀ f : Finding, f.Observed sys pid → f ∈ read.1) ∧
          ∀ fd ∈ retained sys, (∃ f ∈ read.1, f.fd = fd) ∨
            (∃ code, .fdAdvisory code pid fd ∈ out.stderr) ∨ Settled (sys.look (decimal fd)) := by
  intro out read
  -- where no process is scanned, nothing that is printed begins like a finding
  have hother {output text : List UInt8} (htext : text.head? ≠ some 79) (h : output <+: text) :
      (readOutput output).1.Pairwise (fun f g => f.fd < g.fd) ∧
        ∀ f ∈ (readOutput output).1, ∃ text pid, args = [text] ∧ parsePid text = some pid ∧
          f.Observed sys pid := by
    rw [readOutput_other htext h]
    exact ⟨List.Pairwise.nil, by simp⟩
  have hscan {text : CStr} {pid : ℕ} (hargs : args = [text]) (hpid : parsePid text = some pid) :
      out = scanProcess sys q pid := by
    have hhelp : text ≠ .lit "--help" := by
      rintro rfl
      have hnone : parsePid (.lit "--help") = none := by decide
      rw [hnone] at hpid
      contradiction
    have hversion : text ≠ .lit "--version" := by
      rintro rfl
      have hnone : parsePid (.lit "--version") = none := by decide
      rw [hnone] at hpid
      contradiction
    simp only [out, main, hargs, hhelp, hversion, ↓reduceIte, hpid]
  rw [← and_assoc]
  constructor
  · by_cases hpid : ∃ text pid, args = [text] ∧ parsePid text = some pid
    · obtain ⟨text, pid, hargs, hpid⟩ := hpid
      obtain ⟨hsorted, hobserved⟩ := @scanProcess_reads sys q pid (parseCanonicalInt_le hpid)
      rw [← hscan hargs hpid] at hsorted hobserved
      exact ⟨hsorted, fun f hf => ⟨text, pid, hargs, hpid, hobserved f hf⟩⟩
    · have hprefix : out.stdout <+: helpText ∨ out.stdout <+: versionText := by
        simp only [out, main]
        split
        next text =>
          split
          · exact .inl (handleText_begins helpText)
          split
          · exact .inr (handleText_begins versionText)
          split
          · exact .inl List.nil_prefix
          next pid hpid' => exact absurd ⟨text, pid, rfl, hpid'⟩ hpid
        · exact .inl List.nil_prefix
      obtain hprefix | hprefix := hprefix
      · exact hother (by decide +kernel) hprefix
      · exact hother (by decide +kernel) hprefix
  · intro text pid hargs hpid hstatus
    rw [hscan hargs hpid] at hstatus
    obtain ⟨hread, hstderr⟩ := scanProcess_reads_all (parseCanonicalInt_le hpid) hstatus
    rw [← hscan hargs hpid] at hread hstderr
    have hfound : read = ((ascending sys).filterMap (findingAt sys pid), []) := hread
    rw [hfound, hstderr]
    refine ⟨rfl, fun f hf => ?_, fun fd hfd => ?_⟩
    · have hsome := (findingAt_eq_some hf.fd).mpr ⟨rfl, hf⟩
      exact List.mem_filterMap.mpr ⟨f.fd, mem_ascending.mpr hf.fd, hsome⟩
    · have hmem := mem_ascending.mpr hfd
      cases hreport : report sys fd with
      | finding size target =>
        have hsome : findingAt sys pid fd = some ⟨pid, fd, size.toNat, target⟩ := by
          simp only [findingAt, hreport]
        exact .inl ⟨_, List.mem_filterMap.mpr ⟨fd, hmem, hsome⟩, rfl⟩
      | advisory code =>
        have hsome : (report sys fd).advisory? pid fd = some (.fdAdvisory code pid fd) := by
          rw [hreport]
          rfl
        exact .inr (.inl ⟨code, List.mem_append_right _ (List.mem_filterMap.mpr ⟨fd, hmem, hsome⟩)⟩)
      | silent => exact .inr (.inr (settled_of_silent hreport))

theorem main_reads_back_unlinked :
    (readOutput (main oneUnlinked sortFds [.lit "7"]).stdout).2 = [] ∧
      ⟨7, 3, 5, ascii "/tmp/x (deleted)"⟩ ∈
        (readOutput (main oneUnlinked sortFds [.lit "7"]).stdout).1 := by
  have hpid : parsePid (.lit "7") = some 7 := by decide
  have hstatus : (main oneUnlinked sortFds [.lit "7"]).status ≤ 1 := by
    have hconforms := @scanProcess_conforms oneUnlinked 7 sortFds (by decide)
    have hclean : firstFailure oneUnlinked 7 = none := by decide +kernel
    have htwo : (scanProcess oneUnlinked sortFds 7).status ≠ 2 := fun h =>
      hconforms.failed.mp h hclean
    have hrange := hconforms.status
    have hhelp : CStr.lit "7" ≠ .lit "--help" := by decide
    have hversion : CStr.lit "7" ≠ .lit "--version" := by decide
    simp only [main, hhelp, hversion, ↓reduceIte, hpid]
    omega
  obtain ⟨-, -, hall⟩ := main_reads_back oneUnlinked sortFds [.lit "7"]
  obtain ⟨hrest, hfound, -⟩ := hall (.lit "7") 7 rfl hpid hstatus
  refine ⟨hrest, hfound _ ⟨rfl, by decide +kernel, _, _, _, rfl, rfl, by decide, rfl, ?_, rfl, rfl⟩⟩
  constructor <;> decide

end Openunlink
