import LinuxUtilities.Snslice.Main

/-! Slicing in stages: the chunks of a run, each sliced again, are together the chunks of one
run with the finer limits, and no chunk is cut again by its own limits. -/
namespace Snslice
open CString GreedyPartition

section Pieces
variable {format : FormatType} {p q r : Cut} {input l m : List UInt8}

theorem cutInput_trans (h : cutInput format p l = some q) (h' : cutInput format q m = some r) :
    cutInput format p (l ++ m) = some r := by
  rw [cutInput, List.foldlM_append]
  exact Option.bind_eq_some_iff.mpr ⟨q, h, h'⟩

theorem cutInput_singleton (c : UInt8) : cutInput format p [c] = p.step format c := by
  rw [cutInput, List.foldlM_cons]
  cases p.step format c <;> rfl

/-- The cut with records before its own. -/
def Cut.after (rs : List Record) (p : Cut) : Cut := ⟨rs ++ p.records, p.tail, p.state⟩

theorem Cut.step_after (rs : List Record) (p : Cut) (c : UInt8) :
    (p.after rs).step format c = (p.step format c).map (Cut.after rs) := by
  simp only [Cut.step, Cut.after]
  cases recordStep format p.state c with
  | none => rfl
  | some next => cases hboundary : next.2 <;> simp [hboundary, Cut.after]

theorem Cut.init_after (rs : List Record) : Cut.init.after rs = ⟨rs, [], .start⟩ := by
  simp [Cut.after, Cut.init]

/-- The records before a boundary do not matter for what follows it. -/
theorem cutInput_after (rs : List Record) (h : cutInput format p input = some q) :
    cutInput format (p.after rs) input = some (q.after rs) := by
  induction input generalizing p with
  | nil =>
    obtain rfl := Option.some.inj h
    rfl
  | cons c input ih =>
    obtain ⟨p', hc, hrest⟩ := cutInput_cons h
    have hstep : cutInput format (p.after rs) [c] = some (p'.after rs) := by
      rw [cutInput_singleton, Cut.step_after, hc]
      rfl
    exact cutInput_trans hstep (ih hrest)

theorem recordStep_boundary {s t : CsvState} {c : UInt8} (hs : format = .ndjson → s = .start)
    (h : recordStep format s c = some (t, true)) : t = .start := by
  cases format with
  | ndjson =>
    have ht := Option.some.inj h
    rw [← (Prod.mk.inj ht).1]
    exact hs rfl
  | csv =>
    cases s <;> simp only [recordStep, csvStep] at h <;> split_ifs at h <;> simp_all

/-- What a cut says about each of its pieces: a record alone is cut into itself, and what
follows the last of them leaves the same state. -/
structure Pieces (format : FormatType) (p : Cut) : Prop where
  records : ∀ record ∈ p.records, cutInput format .init record = some ⟨[record], [], .start⟩
  tail : cutInput format .init p.tail = some ⟨[], p.tail, p.state⟩
  ndjson : format = .ndjson → p.state = .start

theorem Pieces.step {c : UInt8} (h : Pieces format p) (hc : p.step format c = some q) :
    Pieces format q := by
  obtain ⟨s, boundary, hstep, rfl⟩ := Cut.step_eq_some hc
  have hpiece : cutInput format .init (p.tail ++ [c]) =
      some (if boundary then ⟨[p.tail ++ [c]], [], s⟩ else ⟨[], p.tail ++ [c], s⟩) := by
    apply cutInput_trans h.tail
    rw [cutInput_singleton, Cut.step, hstep]
    rfl
  cases boundary with
  | false =>
    refine ⟨h.records, hpiece, fun hformat => ?_⟩
    subst hformat
    exact (congrArg Prod.fst (Option.some.inj hstep)).symm.trans (h.ndjson rfl)
  | true =>
    have hs : s = .start := recordStep_boundary h.ndjson hstep
    subst hs
    refine ⟨fun record hrecord => ?_, rfl, fun _ => rfl⟩
    obtain hold | rfl := by simpa using hrecord
    · exact h.records record hold
    · exact hpiece

theorem pieces_of_cut (h : cutInput format .init input = some p) : Pieces format p :=
  cutInput_induction (fun _ _ _ hp hc => hp.step hc) ⟨by simp [Cut.init], rfl, fun _ => rfl⟩ h

/-- Whole records in a row are cut into themselves. -/
theorem cutInput_records {rs : List Record}
    (h : ∀ record ∈ rs, cutInput format .init record = some ⟨[record], [], .start⟩) :
    cutInput format .init rs.flatten = some ⟨rs, [], .start⟩ := by
  induction rs with
  | nil => rfl
  | cons record rs ih =>
    rw [List.forall_mem_cons] at h
    exact cutInput_trans h.1 (cutInput_after [record] (ih h.2))

/-- A run of the records of an accepted input is accepted too, with these records. -/
theorem Accepted.piece {before c after : List Record} (h : Accepted format input p)
    (hall : p.all = before ++ c ++ after) (hne : c ≠ []) :
    ∃ q, Accepted format c.flatten q ∧ q.all = c := by
  have hpieces := pieces_of_cut h.cut
  have hinput : input = p.all.flatten := by
    rw [Cut.all_flatten, cutInput_flatten h.cut]
    simp [Cut.init]
  have hnul : (0 : UInt8) ∉ c.flatten := by
    intro hmem
    apply h.nulFree
    rw [hinput, hall, List.flatten_append, List.flatten_append]
    simp [hmem]
  -- either all records of the run are complete, or its last one is what follows them
  by_cases hlast : ∃ c', c = c' ++ [p.tail] ∧ p.tail ≠ [] ∧ ∀ record ∈ c', record ∈ p.records
  · obtain ⟨c', rfl, htail, hmem⟩ := hlast
    refine ⟨⟨c', p.tail, p.state⟩, ⟨?_, hnul, ⟨?_, h.within.2⟩, ?_⟩, ?_⟩
    · have hcut := cutInput_after c' hpieces.tail
      rw [Cut.init_after] at hcut
      have hwhole := cutInput_records fun record hr => hpieces.records record (hmem record hr)
      simpa [Cut.after] using cutInput_trans hwhole hcut
    · exact fun record hr => h.within.1 record (hmem record hr)
    · exact h.terminated
    · simp [Cut.all, htail]
  · have hmem : ∀ record ∈ c, record ∈ p.records := by
      by_cases htail : p.tail = []
      · intro record hr
        have hrecords : p.records = before ++ c ++ after := by rw [← hall, Cut.all, if_pos htail]
        rw [hrecords]
        simp [hr]
      · have hrecords : p.records ++ [p.tail] = before ++ c ++ after := by
          rw [← hall, Cut.all, if_neg htail]
        obtain rfl | ⟨after', x, rfl⟩ := List.eq_nil_or_concat' after
        · obtain ⟨c', x, rfl⟩ := (List.eq_nil_or_concat' c).resolve_left hne
          rw [List.append_nil, ← List.append_assoc] at hrecords
          obtain ⟨hinit, htl⟩ := List.append_inj' hrecords rfl
          refine absurd ⟨c', ?_, htail, fun record hr => ?_⟩ hlast
          · rw [htl]
          · rw [hinit]
            simp [hr]
        · rw [← List.append_assoc] at hrecords
          intro record hr
          rw [(List.append_inj' hrecords rfl).1]
          simp [hr]
    have hwhole := cutInput_records fun record hr => hpieces.records record (hmem record hr)
    refine ⟨⟨c, [], .start⟩, ⟨hwhole, hnul,
      ⟨fun record hr => h.within.1 record (hmem record hr), by simp⟩, ?_⟩, by simp [Cut.all]⟩
    cases format <;> simp [Cut.Terminated]

end Pieces

section Limits
variable {fine coarse stage : SnSliceConfig}

structure SameLimits (cfg cfg' : SnSliceConfig) : Prop where
  bytes : cfg.limitBytes = cfg'.limitBytes
  records : cfg.limitRecords = cfg'.limitRecords

theorem SameLimits.reachesLimit (h : SameLimits fine coarse) :
    Snslice.reachesLimit fine = Snslice.reachesLimit coarse := by
  funext c
  rw [Snslice.reachesLimit, Snslice.reachesLimit, h.bytes, h.records]

/-- The finer limits end a chunk wherever the coarser ones do: they are the same, or both
only count records and one count divides the other. -/
def Divides (fine coarse : SnSliceConfig) : Prop :=
  SameLimits fine coarse ∨
    (fine.limitBytes = 0 ∧ coarse.limitBytes = 0 ∧ fine.limitRecords ∣ coarse.limitRecords)

/-- A chunk that a limit of records closed has exactly so many of them. -/
theorem length_closed {cfg : SnSliceConfig} (hbytes : cfg.limitBytes = 0) {records : List Record}
    {c : List Record} (hc : c ∈ (fill (reachesLimit cfg) records).closed) :
    c.length = cfg.limitRecords := by
  have hfilled := fill_filled (reachesLimit cfg) records
  have hclosed := hfilled.closed c hc
  simp only [reachesLimit, hbytes, lt_irrefl, false_and, decide_false, Bool.false_or,
    decide_eq_true_eq] at hclosed
  obtain ⟨c', x, rfl⟩ := (List.eq_nil_or_concat' c).resolve_left (hfilled.ne_nil c hc)
  rw [List.length_append, List.length_singleton] at hclosed ⊢
  by_cases hnil : c' = []
  · rw [hnil, List.length_nil] at hclosed ⊢
    omega
  · have hfirst := hfilled.first _ hc c' [x] rfl hnil (by simp)
    simp only [reachesLimit, hbytes, lt_irrefl, false_and, decide_false, Bool.false_or,
      decide_eq_true_eq] at hfirst
    omega

theorem Divides.boundary (h : Divides fine coarse)
    (hpos : coarse.limitBytes ≠ 0 ∨ coarse.limitRecords ≠ 0) {records c : List Record}
    (hc : c ∈ (fill (reachesLimit coarse) records).closed) :
    (fill (reachesLimit fine) c).current = [] := by
  obtain hsame | ⟨hfine, hcoarse, hdvd⟩ := h
  · have hfilled := fill_filled (reachesLimit coarse) records
    have hwithin : Within (reachesLimit coarse) c := by
      intro a b hab ha hb
      simpa using hfilled.first c hc a b hab ha hb
    rw [hsame.reachesLimit, fill_within hwithin (hfilled.ne_nil c hc), if_pos (hfilled.closed c hc)]
  · have hne : coarse.limitRecords ≠ 0 := hpos.resolve_left (by simp [hcoarse])
    have hk : 0 < fine.limitRecords := Nat.pos_of_dvd_of_pos hdvd (Nat.pos_of_ne_zero hne)
    have hcount : ∀ a, reachesLimit fine a = decide (fine.limitRecords ≤ a.length) := by
      intro a
      simp [reachesLimit, hfine, hk]
    have hlen := length_current_fill hcount hk c
    rw [length_closed hcoarse hc, Nat.mod_eq_zero_of_dvd hdvd] at hlen
    exact List.length_eq_zero_iff.mp hlen

theorem limits_of_readArguments {args : List CStr} {cl : CommandLine}
    (h : readArguments args = .slice cl) : cl.limitBytes ≠ 0 ∨ cl.limitRecords ≠ 0 := by
  unfold readArguments at h
  split at h
  · split_ifs at h
  · cases hloop : parseLoop args false .defaults with
    | error complaint =>
      rw [hloop] at h
      contradiction
    | ok cl' =>
      have hcheck : Request.ofExcept (checkArguments cl') = .slice cl := by
        rw [hloop] at h
        exact h
      unfold checkArguments at hcheck
      split_ifs at hcheck with hprefix hlimits
      · contradiction
      · contradiction
      · obtain rfl := Request.slice.inj hcheck
        rwa [not_and_or] at hlimits

end Limits

/-- Slicing in two stages is slicing once: the chunks that a run leaves, sliced by further
runs with limits that divide its own, give in their order exactly the chunks that one run with
those limits leaves of the whole input, and under its own limits a chunk stays what it is. -/
theorem main_two_stages {coarse fine : CommandLine} {input : List UInt8} {p : Cut}
    (hinput : Accepted coarse.format input p) (hformat : fine.format = coarse.format)
    (hdiv : Divides fine.toSnSliceConfig coarse.toSnSliceConfig) {run run' : Invocation}
    (h : Ready run coarse input) (h' : Ready run' fine input) :
    ∃ (contents : List (List UInt8)) (parts : List (List (List UInt8))),
      Leaves run coarse contents ∧ Leaves run' fine parts.flatten ∧
      List.Forall₂ (fun content part => part.flatten = content ∧
        (SameLimits fine.toSnSliceConfig coarse.toSnSliceConfig → part = [content]) ∧
        ∀ (stage : CommandLine) (run'' : Invocation), stage.format = fine.format →
          SameLimits stage.toSnSliceConfig fine.toSnSliceConfig → Ready run'' stage content →
            Leaves run'' stage part) contents parts := by
  have hinput' : Accepted fine.format input p := by
    rw [hformat]
    exact hinput
  have hgreedy := isGreedy_chunks (reachesLimit coarse.toSnSliceConfig) p.all
  have hrefine := @chunks_refine _ _ _ p.all fun c hc =>
    hdiv.boundary (limits_of_readArguments h.parsed) hc
  refine ⟨(p.chunks coarse.toSnSliceConfig).map List.flatten,
    (p.chunks coarse.toSnSliceConfig).map fun c =>
      (fill (reachesLimit fine.toSnSliceConfig) c).chunks.map List.flatten,
    h.leaves hinput, ?_, ?_⟩
  · have hleaves := h'.leaves hinput'
    rw [Cut.chunks, hrefine, List.map_flatMap] at hleaves
    exact hleaves
  · rw [List.forall₂_map_left_iff, List.forall₂_map_right_iff, List.forall₂_same]
    intro c hc
    refine ⟨?_, fun hsame => ?_, fun stage run'' hstage hlimits hready => ?_⟩
    · have hflat : (fill (reachesLimit fine.toSnSliceConfig) c).chunks.flatten = c :=
        (isGreedy_chunks _ c).flatten
      rw [← List.flatten_flatten, hflat]
    · rw [hsame.reachesLimit, chunks_within (hgreedy.within hc) (hgreedy.ne_nil c hc)]
      rfl
    · obtain ⟨before, after, hparts⟩ := List.append_of_mem hc
      have hall : p.all = before.flatten ++ c ++ after.flatten := by
        rw [← hgreedy.flatten]
        show (p.chunks coarse.toSnSliceConfig).flatten = _
        rw [hparts]
        simp
      obtain ⟨q, hq, hqall⟩ := hinput'.piece hall (hgreedy.ne_nil c hc)
      rw [← hstage] at hq
      have hleaves := hready.leaves hq
      rw [Cut.chunks, hqall, hlimits.reachesLimit] at hleaves
      exact hleaves

/-- One record a chunk, of the same input. -/
def singlesRun : Invocation :=
  ⟨pairsRun.host, [.lit "-r", .lit "1"], pairsWorld⟩

def singlesLine : CommandLine := ⟨{ pairsConfig with limitRecords := 1 }, none⟩

theorem ready_singles : Ready singlesRun singlesLine (ascii "a\nbb\nc\n") where
  parsed := by decide
  outDir := rfl
  source := by simp [singlesLine]
  healthy := ready_pairs.healthy
  reads := ready_pairs.reads
  room := by
    intro p hp i hi
    obtain rfl : pairsCut = p := Option.some.inj (accepted_pairs.cut.symm.trans hp.cut)
    have hlt : i < 3 := hi
    interval_cases i
    · exact ⟨by decide, rfl⟩
    · exact ⟨by decide, rfl⟩
    · exact ⟨by decide, rfl⟩

theorem main_two_stages_pairs : ∃ contents parts, Leaves pairsRun ⟨pairsConfig, none⟩ contents ∧
    Leaves singlesRun singlesLine parts.flatten ∧ List.Forall₂ (fun content part =>
      part.flatten = content) contents parts := by
  obtain ⟨contents, parts, hcoarse, hfine, hparts⟩ := @main_two_stages ⟨pairsConfig, none⟩
    singlesLine _ _ accepted_pairs rfl (.inr ⟨rfl, rfl, by decide⟩) _ _ ready_pairs ready_singles
  exact ⟨contents, parts, hcoarse, hfine, hparts.imp fun _ _ h => h.1⟩

end Snslice
