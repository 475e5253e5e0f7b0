import LinuxUtilities.Foundation.Framing
import LinuxUtilities.Treehash.Recompute

/-! Reading the entries back from a printed manifest. -/
namespace Treehash
open CString Framing

/-- The manifest part of standard output: all bytes after the first line. -/
def manifestPart (out : List UInt8) : List UInt8 := (out.dropWhile (· ≠ 10)).tail

/-- What stands before a path in a record. -/
def RecordHead (h : List UInt8) : Prop := ∃ hex : Hex, h = hex.val ++ ascii "  "

/-- A path in which a newline is followed by 64 lowercase hexadecimal digits and two
spaces, as the path of another record would be. -/
def HidesRecord (path : CStr) : Prop := Hides 10 RecordHead path.bytes

theorem recordHead_heads : Heads 10 RecordHead 66 where
  length := by
    rintro _ ⟨hex, rfl⟩
    rw [List.length_append, hex.property.1]
    rfl
  clear := by
    rintro _ ⟨hex, rfl⟩ hmem
    rcases List.mem_append.mp hmem with hmem | hmem
    · have hrange := hex.property.2 10 hmem
      revert hrange
      decide
    · revert hmem
      decide

/-- The head and the path of a record. -/
def recordParts (e : FileEntry) : List UInt8 × List UInt8 :=
  (e.hex.val ++ ascii "  ", e.relPath.bytes)

theorem leafRecord_frame (e : FileEntry) : leafRecord e = frame 10 (recordParts e) := by
  have hnl : ascii "\n" = [10] := rfl
  simp only [leafRecord, frame, recordParts, hnl, List.append_assoc]

theorem recordParts_injective : Function.Injective recordParts := by
  intro a b h
  obtain ⟨hhead, hpath⟩ := Prod.mk.inj h
  cases a; cases b
  congr 1
  · exact CStr.ext hpath
  · exact Subtype.ext (List.append_cancel_right hhead)

/-- Entries whose paths hide no record are read back from their records. -/
theorem leafRecords_injective {xs ys : List FileEntry}
    (hx : ∀ e ∈ xs, ¬ HidesRecord e.relPath) (hy : ∀ e ∈ ys, ¬ HidesRecord e.relPath)
    (h : xs.flatMap leafRecord = ys.flatMap leafRecord) : xs = ys := by
  have hplain {es : List FileEntry} (hes : ∀ e ∈ es, ¬ HidesRecord e.relPath) :
      ∀ r ∈ es.map recordParts, Plain 10 RecordHead r := by
    intro r hr
    obtain ⟨e, he, rfl⟩ := List.mem_map.mp hr
    exact ⟨⟨e.hex, rfl⟩, hes e he⟩
  have hframes (es : List FileEntry) :
      es.flatMap leafRecord = (es.map recordParts).flatMap (frame 10) := by
    rw [List.flatMap_map]
    exact List.flatMap_congr fun e _ => leafRecord_frame e
  rw [hframes, hframes] at h
  exact recordParts_injective.list_map (frames_injective recordHead_heads (hplain hx) (hplain hy) h)

theorem newline_not_mem_merkleRoot (S : StreamHash) (entries : List FileEntry) :
    (10 : UInt8) ∉ merkleRoot S entries := by
  unfold merkleRoot
  split
  · decide
  next d _ _ =>
    intro hmem
    have hrange := (hexOf d).property.2 10 hmem
    revert hrange
    decide

/-- The manifest part of a successful run is the records of its entries. -/
theorem manifestPart_manifestText (S : StreamHash) (entries : List FileEntry) :
    manifestPart (manifestText S entries) = entries.flatMap leafRecord := by
  have hline : ∀ b ∈ ascii "ROOT " ++ merkleRoot S entries, decide (b ≠ 10) = true := by
    intro b hb
    rw [decide_eq_true_eq]
    rintro rfl
    rcases List.mem_append.mp hb with hb | hb
    · revert hb
      decide
    · exact newline_not_mem_merkleRoot S entries hb
  have hnl : ascii "\n" = [10] := rfl
  rw [manifestPart, manifestText, List.append_assoc, List.dropWhile_append_of_pos hline, hnl]
  simp

namespace Sample

/-- A directory of empty files, none of them a `.gitignore`. -/
def flatSys (names : List CStr) : Sys Unit where
  lstat := fun path u =>
    (if path = root then .ok ⟨.directory, 1, 1⟩
      else if path = childDisk root gitignoreName then .error ENOENT
      else .ok ⟨.regular, 1, 2⟩, u)
  opendir := fun _ u => (.ok ⟨names, none⟩, u)
  fopen := fun _ u => (.error ENOENT, u)
  openRead := fun _ u => (.ok ⟨[], none, none⟩, u)
  malloc := fun u => (true, u)
  fnmatch := sameName
  printf := fun u => (true, u)
  fflush := fun u => (true, u)
  strerror := fun _ => []

def emptyFile (name : CStr) : FileEntry := ⟨name, hexOf (sha256Stream.final sha256Stream.init)⟩

theorem emptyFile_hex (name : CStr) : (emptyFile name).hex.val = emptyRootHex := by
  have h := sha256Stream_pieces []
  rw [List.flatten_nil] at h
  rw [emptyRootHex_sha256, ← h]
  simp only [emptyFile, hexOf, List.foldl_nil]

/-- A run over such a directory lists its files in order. -/
theorem flat_run {names : List CStr} {c : Context Unit}
    (hwalk : walkDir (flatSys names) sha256Stream maxDepth root ∅ (.init ()) = (0, c))
    (hlen : c.entries.items.length ≤ sizeMax / 32) :
    ∃ c', hashTree (flatSys names) sha256Stream sortEntries root root () = (0, c') ∧
      c'.entries.items = sortEntries.sort c.entries.items := by
  obtain ⟨c', hrun, hprint⟩ := hashTree_of_walk sortEntries root
    (fun _ => rfl) (fun _ => rfl) (fun _ => rfl) rfl rfl hwalk hlen
  exact ⟨c', hrun, (printTree_keeps (Alarm.never _) hprint).2.1⟩

/-- One file whose name goes on with the record of another. -/
def forgedName : CStr :=
  .lit "a\ne3b0c44298fc1c149afbf4c8996fb92427ae41e4649b934ca495991b7852b855  b"

theorem forged_walk : walkDir (flatSys [forgedName]) sha256Stream maxDepth root ∅ (.init ()) =
    (0, { Context.init () with entries := ⟨[emptyFile forgedName], 64⟩ }) := by
  rfl

def nameA : CStr := .lit "a"

def nameB : CStr := .lit "b"

theorem plain_walk : walkDir (flatSys [nameA, nameB]) sha256Stream maxDepth root ∅ (.init ()) =
    (0, { Context.init () with entries := ⟨[emptyFile nameA, emptyFile nameB], 64⟩ }) := by
  rfl

theorem swapped_walk : walkDir (flatSys [nameB, nameA]) sha256Stream maxDepth root ∅ (.init ()) =
    (0, { Context.init () with entries := ⟨[emptyFile nameB, emptyFile nameA], 64⟩ }) := by
  rfl

theorem forged_run : ∃ c', hashTree (flatSys [forgedName]) sha256Stream sortEntries root root () =
    (0, c') ∧ c'.entries.items = [emptyFile forgedName] := by
  obtain ⟨c', heq, hentries⟩ := flat_run forged_walk (by decide)
  exact ⟨c', heq, hentries.trans (List.perm_singleton.mp (sortEntries.perm _))⟩

theorem sort_plain :
    sortEntries.sort [emptyFile nameA, emptyFile nameB] = [emptyFile nameA, emptyFile nameB] := by
  apply List.mergeSort_of_pairwise
  rw [List.pairwise_pair, decide_eq_true_eq, ← strcmp_nonpos]
  decide

theorem plain_run : ∃ c', hashTree (flatSys [nameA, nameB]) sha256Stream sortEntries root root () =
    (0, c') ∧ c'.entries.items = [emptyFile nameA, emptyFile nameB] := by
  obtain ⟨c', heq, hentries⟩ := flat_run plain_walk (by decide)
  exact ⟨c', heq, hentries.trans sort_plain⟩

/-- The same directory, read in the other order. -/
theorem swapped_run : ∃ c', hashTree (flatSys [nameB, nameA]) sha256Stream sortEntries root
    root () = (0, c') ∧ c'.entries.items = [emptyFile nameA, emptyFile nameB] := by
  obtain ⟨c', heq, hentries⟩ := flat_run swapped_walk (by decide)
  refine ⟨c', heq, ?_⟩
  rw [hentries, ← sort_plain]
  apply QSort.sort_eq_of_perm sortEntries sortEntries (List.Perm.swap _ _ _)
  intro e he f hf hef hfe
  have hpath : e.relPath = f.relPath :=
    le_antisymm ((compareFileEntries_nonpos e f).mp hef) ((compareFileEntries_nonpos f e).mp hfe)
  simp only [List.mem_cons, List.not_mem_nil, or_false] at he hf
  rcases he with rfl | rfl <;> rcases hf with rfl | rfl
  · rfl
  · exact absurd hpath (by decide)
  · exact absurd hpath (by decide)
  · rfl

theorem plain_names : ∀ e ∈ [emptyFile nameA, emptyFile nameB], ¬ HidesRecord e.relPath := by
  rintro e he ⟨before, head, after, hhead, hpath⟩
  have hlen := congrArg List.length hpath
  have hshort : e.relPath.bytes.length = 1 := by
    simp only [List.mem_cons, List.not_mem_nil, or_false] at he
    rcases he with rfl | rfl <;> rfl
  rw [hshort, List.length_append, List.length_cons, List.length_append,
    recordHead_heads.length head hhead] at hlen
  omega

theorem forged_records : [emptyFile forgedName].flatMap leafRecord =
    [emptyFile nameA, emptyFile nameB].flatMap leafRecord := by
  simp only [List.flatMap_cons, List.flatMap_nil, leafRecord, emptyFile_hex, List.append_nil]
  decide +kernel

end Sample

/-- Two successful runs with one manifest part have one list of entries, as long as no path
of theirs hides a record. -/
theorem manifest_decodable {W V : Type} {sys : Sys W} {sys' : Sys V} {S : StreamHash}
    {q q' : QSort compareFileEntries} {operand operand' dir dir' : CStr} {w : W} {v : V}
    {c : Context W} {c' : Context V}
    (hrun : hashTree sys S q operand dir w = (0, c))
    (hrun' : hashTree sys' S q' operand' dir' v = (0, c'))
    (hplain : ∀ e ∈ c.entries.items, ¬ HidesRecord e.relPath)
    (hplain' : ∀ e ∈ c'.entries.items, ¬ HidesRecord e.relPath)
    (hpart : manifestPart c.stdout = manifestPart c'.stdout) :
    c.entries.items = c'.entries.items := by
  rw [(hashTree_keeps (Alarm.never sys) hrun).1 rfl,
    (hashTree_keeps (Alarm.never sys') hrun').1 rfl, manifestPart_manifestText,
    manifestPart_manifestText] at hpart
  exact leafRecords_injective hplain hplain' hpart

theorem manifest_decodable_swapped : ∃ c c' : Context Unit,
    hashTree (Sample.flatSys [Sample.nameA, Sample.nameB]) sha256Stream Sample.sortEntries
      Sample.root Sample.root () = (0, c) ∧
    hashTree (Sample.flatSys [Sample.nameB, Sample.nameA]) sha256Stream Sample.sortEntries
      Sample.root Sample.root () = (0, c') ∧ c.entries.items = c'.entries.items := by
  obtain ⟨c, hrun, hentries⟩ := Sample.plain_run
  obtain ⟨c', hrun', hentries'⟩ := Sample.swapped_run
  refine ⟨c, c', hrun, hrun', manifest_decodable hrun hrun' ?_ ?_ ?_⟩
  · rw [hentries]
    exact Sample.plain_names
  · rw [hentries']
    exact Sample.plain_names
  · rw [(hashTree_keeps (Alarm.never _) hrun).1 rfl, (hashTree_keeps (Alarm.never _) hrun').1 rfl,
      hentries, hentries']

/-- A name that goes on with the record of a second file makes a manifest that is also the
manifest of two files. -/
theorem manifest_not_decodable : ¬ ∀ (W V : Type) (sys : Sys W) (sys' : Sys V)
    (q q' : QSort compareFileEntries) (operand operand' dir dir' : CStr) (w : W) (v : V)
    (c : Context W) (c' : Context V),
    hashTree sys sha256Stream q operand dir w = (0, c) →
      hashTree sys' sha256Stream q' operand' dir' v = (0, c') →
        manifestPart c.stdout = manifestPart c'.stdout → c.entries.items = c'.entries.items := by
  intro h
  obtain ⟨c, hrun, hentries⟩ := Sample.forged_run
  obtain ⟨c', hrun', hentries'⟩ := Sample.plain_run
  have hpart : manifestPart c.stdout = manifestPart c'.stdout := by
    rw [(hashTree_keeps (Alarm.never _) hrun).1 rfl, (hashTree_keeps (Alarm.never _) hrun').1 rfl,
      manifestPart_manifestText, manifestPart_manifestText, hentries, hentries',
      Sample.forged_records]
  have hsame := h _ _ _ _ _ _ _ _ _ _ _ _ _ _ hrun hrun' hpart
  rw [hentries, hentries'] at hsame
  simp at hsame

end Treehash
