import LinuxUtilities.Foundation.GreedyOptimal
import LinuxUtilities.Snslice.Descriptors
import LinuxUtilities.Snslice.Options

/-! `main`, from its arguments to the files, and that no way to keep the limits needs fewer
files. -/
namespace Snslice
open CString GreedyPartition

/-- What `stat` answers for a path, whether it is a directory, and what `open` of an input
does. -/
structure Host where
  stat : CStr → Except Errno Bool
  openInput : CStr → Option Errno

/-- What is left of a run. -/
structure Outcome where
  status : ℕ
  stdout : List UInt8
  world : World

def helpText : List UInt8 := ascii <|
  "Usage: snslice [OPTIONS] [INPUT_FILE]\n\n" ++
  "Partition Newline-Delimited JSON (NDJSON) or CSV streams into chunk " ++
  "files.\n\n" ++
  "Options:\n" ++
  "  -b, --bytes BYTES       Chunk size threshold in bytes\n" ++
  "  -r, --records COUNT     Chunk size threshold in record count\n" ++
  "  -f, --format FORMAT     Input format: ndjson (default) or csv\n" ++
  "  -d, --out-dir DIR       Output directory for chunk files (default: " ++
  ".)\n" ++
  "  -p, --prefix PREFIX     Output chunk filename prefix (default: " ++
  "chunk_)\n" ++
  "      --help              Display this help and exit\n" ++
  "      --version           Output version information and exit\n\n" ++
  "If INPUT_FILE is omitted or '-', snslice reads from standard input.\n"

def versionText : List UInt8 := ascii "snslice 0.1.0\n"

/-- Where `main` takes its input from. -/
def Host.source (host : Host) (cl : CommandLine) : InputSource :=
  match cl.inputPath with
  | none => .stdin
  | some path =>
    if path = .lit "-" then .stdin else .file path (host.stat path) (host.openInput path)

/-- `main` behind the checks of its arguments. -/
def runSlice (host : Host) (cl : CommandLine) (w : World) : ℕ × World :=
  let san := sanitizeString cl.outDir 1024
  match host.stat cl.outDir with
  | .error err =>
    (2, emitDiagnostic "OUTPUT_DIR_ERROR"
      (ascii "cannot access output directory '" ++ san ++ ascii "': " ++ w.strerror err) w)
  | .ok false =>
    (2, emitDiagnostic "OUTPUT_DIR_ERROR"
      (ascii "output directory is not a directory: '" ++ san ++ ascii "'") w)
  | .ok true => sliceSource cl.toSnSliceConfig (host.source cl) w

/-- `main`, on the arguments after the program name. -/
def main (host : Host) (args : List CStr) (w : World) : Outcome :=
  match readArguments args with
  | .help => ⟨0, helpText, w⟩
  | .version => ⟨0, versionText, w⟩
  | .complain complaint => ⟨2, [], emitDiagnostic complaint.hazard complaint.details w⟩
  | .slice cl => ⟨(runSlice host cl w).1, [], (runSlice host cl w).2⟩

/-- A run of the program. -/
structure Invocation where
  host : Host
  args : List CStr
  world : World

def Invocation.result (run : Invocation) : Outcome := main run.host run.args run.world

/-- The run is told to slice this input in this way, and nothing fails on it: the input
arrives in any blocks, and there is room for the chunks. -/
structure Ready (run : Invocation) (cl : CommandLine) (input : List UInt8) : Prop where
  parsed : readArguments run.args = .slice cl
  outDir : run.host.stat cl.outDir = .ok true
  source : ∀ path, cl.inputPath = some path → path = .lit "-" ∨
    (run.host.stat path = .ok false ∧ run.host.openInput path = none)
  healthy : run.world.Healthy
  reads : Delivers run.world.reads input
  room : ∀ p, Accepted cl.format input p → Room cl.toSnSliceConfig run.world p

/-- The run succeeds and leaves these chunks, with nothing printed. -/
structure Leaves (run : Invocation) (cl : CommandLine) (contents : List (List UInt8)) :
    Prop where
  status : run.result.status = 0
  stdout : run.result.stdout = []
  files : ChunkFiles cl.toSnSliceConfig run.world.files run.result.world.files contents

section Slices
variable {cfg : SnSliceConfig} {w : World} {input : List UInt8} {p : Cut}

/-- On an accepted input `main` from the open of its input on leaves the chunks of its cut. -/
theorem sliceInput_chunks (hinput : Accepted cfg.format input p) (hreads : Delivers w.reads input)
    (hsys : w.Healthy) (hroom : Room cfg w p) (inputFd : ℕ) (closeInputFd : Bool) :
    (sliceInput cfg inputFd closeInputFd w).1 = 0 ∧
      ChunkFiles cfg w.files (sliceInput cfg inputFd closeInputFd w).2.files
        ((p.chunks cfg).map List.flatten) := by
  obtain ⟨r, hrun, hfiles⟩ := readLoop_spec (Scanned.init cfg w hsys inputFd closeInputFd) hreads
    hinput.cut hinput.nulFree hinput.within hroom (by simp [Cut.init]) hinput.terminated
  have hslice : streamSlice cfg ⟨.init inputFd closeInputFd, w⟩ = .ok r := hrun
  have hkeep : (sliceInput cfg inputFd closeInputFd w).2.files = r.world.files := by
    simp only [sliceInput, hslice]
    split
    · exact World.close_files _ _
    · rfl
  exact ⟨by simp only [sliceInput, hslice], hkeep ▸ hfiles⟩

theorem sliceSource_chunks {host : Host} {cl : CommandLine}
    (hsource : ∀ path, cl.inputPath = some path → path = .lit "-" ∨
      (host.stat path = .ok false ∧ host.openInput path = none))
    (hinput : Accepted cl.format input p) (hreads : Delivers w.reads input) (hsys : w.Healthy)
    (hroom : Room cl.toSnSliceConfig w p) :
    (sliceSource cl.toSnSliceConfig (host.source cl) w).1 = 0 ∧
      ChunkFiles cl.toSnSliceConfig w.files
        (sliceSource cl.toSnSliceConfig (host.source cl) w).2.files
          ((p.chunks cl.toSnSliceConfig).map List.flatten) := by
  have hstdin := sliceInput_chunks hinput hreads hsys hroom stdinFileno false
  unfold Host.source
  cases hpath : cl.inputPath with
  | none => exact hstdin
  | some path =>
    by_cases hdash : path = .lit "-"
    · simp only [hdash, ↓reduceIte]
      exact hstdin
    · obtain ⟨hstat, hopen⟩ := (hsource path hpath).resolve_left hdash
      simp only [hdash, ↓reduceIte, sliceSource, hstat, hopen]
      -- opening the input does not touch the chunks
      exact sliceInput_chunks (w := w.openInput.2) hinput hreads
        ⟨hsys.opens, hsys.writes, hsys.closes⟩ (fun i hi => ⟨(hroom i hi).fits, (hroom i hi).fresh⟩)
        w.openInput.1 true

/-- A run that nothing fails on leaves the chunks of the cut. -/
theorem Ready.leaves {run : Invocation} {cl : CommandLine} (h : Ready run cl input)
    (hinput : Accepted cl.format input p) :
    Leaves run cl ((p.chunks cl.toSnSliceConfig).map List.flatten) := by
  obtain ⟨hstatus, hfiles⟩ := sliceSource_chunks h.source hinput h.reads h.healthy
    (h.room p hinput)
  have hrun : run.result = ⟨(sliceSource cl.toSnSliceConfig (run.host.source cl) run.world).1, [],
      (sliceSource cl.toSnSliceConfig (run.host.source cl) run.world).2⟩ := by
    simp only [Invocation.result, main, h.parsed, runSlice, h.outDir]
  refine ⟨?_, ?_, ?_⟩
  · rw [hrun]
    exact hstatus
  · rw [hrun]
  · rw [hrun]
    exact hfiles

end Slices

section Minimal
variable {cfg cfg' : SnSliceConfig}

theorem reachesLimit_append (a b : List Record) (h : reachesLimit cfg b = true) :
    reachesLimit cfg (a ++ b) = true := by
  simp only [reachesLimit, Bool.or_eq_true, decide_eq_true_eq, List.flatten_append,
    List.length_append] at h ⊢
  omega

/-- Limits that let no chunk grow further than these do. -/
structure Tighter (cfg' cfg : SnSliceConfig) : Prop where
  bytes : 0 < cfg.limitBytes → 0 < cfg'.limitBytes ∧ cfg'.limitBytes ≤ cfg.limitBytes
  records : 0 < cfg.limitRecords → 0 < cfg'.limitRecords ∧ cfg'.limitRecords ≤ cfg.limitRecords

theorem Tighter.reachesLimit (h : Tighter cfg' cfg) {a : List Record}
    (ha : reachesLimit cfg a = true) : Snslice.reachesLimit cfg' a = true := by
  have hbytes := h.bytes
  have hrecords := h.records
  simp only [Snslice.reachesLimit, Bool.or_eq_true, decide_eq_true_eq] at ha ⊢
  omega

/-- A run that nothing fails on leaves the input cut between its records, and there is no way
to keep the limits with fewer files: every list of runs of records of which none goes on past
a record at which it reaches a limit is at least as long. In particular no run under tighter
limits leaves fewer files. -/
theorem main_minimal {run : Invocation} {cl : CommandLine} {input : List UInt8} {p : Cut}
    (h : Ready run cl input) (hinput : Accepted cl.format input p) :
    ∃ contents, Leaves run cl contents ∧ contents.flatten = input ∧
      (∃ parts : List (List Record), parts.flatten = p.all ∧
        (∀ c ∈ parts, Within (reachesLimit cl.toSnSliceConfig) c) ∧
          parts.map List.flatten = contents) ∧
      (∀ parts : List (List Record), parts.flatten = p.all →
        (∀ c ∈ parts, Within (reachesLimit cl.toSnSliceConfig) c) →
          contents.length ≤ parts.length) ∧
      ∀ (run' : Invocation) (cl' : CommandLine), cl'.format = cl.format →
        Tighter cl'.toSnSliceConfig cl.toSnSliceConfig → Ready run' cl' input →
          ∃ contents', Leaves run' cl' contents' ∧ contents.length ≤ contents'.length := by
  have hgreedy := isGreedy_chunks (reachesLimit cl.toSnSliceConfig) p.all
  have hminimal : ∀ parts : List (List Record), parts.flatten = p.all →
      (∀ c ∈ parts, Within (reachesLimit cl.toSnSliceConfig) c) →
        ((p.chunks cl.toSnSliceConfig).map List.flatten).length ≤ parts.length := by
    intro parts hparts hwithin
    have hle := length_chunks_le_of_within reachesLimit_append hwithin
    rw [hparts] at hle
    rw [List.length_map]
    exact hle
  refine ⟨(p.chunks cl.toSnSliceConfig).map List.flatten, h.leaves hinput, ?_,
    ⟨p.chunks cl.toSnSliceConfig, hgreedy.flatten, fun c hc => hgreedy.within hc, rfl⟩,
    hminimal, fun run' cl' hformat htighter h' => ?_⟩
  · have hall : (p.chunks cl.toSnSliceConfig).flatten = p.all := hgreedy.flatten
    rw [← List.flatten_flatten, hall, Cut.all_flatten, cutInput_flatten hinput.cut]
    simp [Cut.init]
  · have hinput' : Accepted cl'.format input p := by
      rw [hformat]
      exact hinput
    have hgreedy' := isGreedy_chunks (reachesLimit cl'.toSnSliceConfig) p.all
    refine ⟨(p.chunks cl'.toSnSliceConfig).map List.flatten, h'.leaves hinput', ?_⟩
    have hle := hminimal _ hgreedy'.flatten fun c hc =>
      (hgreedy'.within hc).mono fun a => htighter.reachesLimit
    exact hle.trans (List.length_map List.flatten).ge

/-- Two records a chunk, from the standard input into the current directory. -/
def pairsRun : Invocation := ⟨⟨fun _ => .ok true, fun _ => none⟩, [.lit "-r", .lit "2"], pairsWorld⟩

def pairsCut : Cut := ⟨[ascii "a\n", ascii "bb\n", ascii "c\n"], [], .start⟩

theorem accepted_pairs : Accepted .ndjson (ascii "a\nbb\nc\n") pairsCut :=
  ⟨rfl, by decide, by decide, rfl⟩

theorem ready_pairs : Ready pairsRun ⟨pairsConfig, none⟩ (ascii "a\nbb\nc\n") where
  parsed := by decide
  outDir := rfl
  source := by simp
  healthy := by constructor <;> simp [pairsRun, pairsWorld]
  reads := by
    constructor
    · rw [pairsRun, pairsWorld, List.forall_mem_cons, List.forall_mem_cons, List.forall_mem_cons]
      exact ⟨.inr ⟨_, rfl, by decide⟩, .inl rfl, .inr ⟨_, rfl, by decide⟩, by simp⟩
    · rfl
  room := by
    intro p hp i hi
    obtain rfl : pairsCut = p := Option.some.inj (accepted_pairs.cut.symm.trans hp.cut)
    have hlt : i < 2 := hi
    interval_cases i
    · exact ⟨by decide, rfl⟩
    · exact ⟨by decide, rfl⟩

theorem main_minimal_pairs : ∃ contents, Leaves pairsRun ⟨pairsConfig, none⟩ contents ∧
    contents.flatten = ascii "a\nbb\nc\n" ∧ contents.length ≤ 2 := by
  obtain ⟨contents, hleaves, hflat, -, hminimal, -⟩ := main_minimal ready_pairs accepted_pairs
  refine ⟨contents, hleaves, hflat, hminimal [[ascii "a\n", ascii "bb\n"], [ascii "c\n"]] rfl ?_⟩
  intro c hc a b hab ha hb
  have hlen : c.length ≤ 2 := by
    simp only [List.mem_cons, List.not_mem_nil, or_false] at hc
    obtain rfl | rfl := hc <;> decide
  rw [hab, List.length_append] at hlen
  have hb := List.length_pos_iff.mpr hb
  have hlt : a.length < 2 := by omega
  simpa [reachesLimit, pairsConfig] using hlt

end Minimal

end Snslice
