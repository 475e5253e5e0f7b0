import LinuxUtilities.Treehash.Failures
import LinuxUtilities.Treehash.Streaming

/-! The printed root, computed again from the printed records. -/
namespace Treehash
open CString MerkleTree Fips180

/-- The root of the records of a manifest, by the recursive definition. -/
def rootOfRecords (records : List (List UInt8)) : List UInt8 :=
  if h : records.map sha256 = [] then (sha256 []).flatMap hexByte
  else (mth (fun a b => sha256 (a ++ b)) (records.map sha256) h).flatMap hexByte

theorem sha256Stream_pieces (pieces : List (List UInt8)) :
    (sha256Stream.final (pieces.foldl sha256Stream.update sha256Stream.init)).val =
      sha256 pieces.flatten :=
  ((Holds.init blankCtx).updates pieces).final

theorem computeLeafDigest_sha256 (e : FileEntry) :
    (computeLeafDigest sha256Stream e).val = sha256 (leafRecord e) := by
  have h := sha256Stream_pieces [e.hex.val, ascii "  ", e.relPath.bytes, ascii "\n"]
  simp only [List.flatten_cons, List.flatten_nil, List.append_nil] at h
  simp only [leafRecord, List.append_assoc]
  exact h

theorem hashPair_sha256 (a b : Digest) :
    (hashPair sha256Stream a b).val = sha256 (a.val ++ b.val) := by
  have h := sha256Stream_pieces [a.val, b.val]
  simp only [List.flatten_cons, List.flatten_nil, List.append_nil] at h
  exact h

theorem emptyRootHex_sha256 : emptyRootHex = (sha256 []).flatMap hexByte := by
  have h := sha256Stream_pieces []
  rw [List.flatten_nil] at h
  rw [← h]
  decide +kernel

/-- The root that the code computes is the recursive root of the leaf records. -/
theorem merkleRoot_records (entries : List FileEntry) :
    merkleRoot sha256Stream entries = rootOfRecords (entries.map leafRecord) := by
  have hleaves : (entries.map leafRecord).map sha256 =
      (entries.map (computeLeafDigest sha256Stream)).map Subtype.val := by
    simp only [List.map_map]
    apply List.map_congr_left
    intro e _
    exact (computeLeafDigest_sha256 e).symm
  by_cases hnil : entries = []
  · rw [hnil, rootOfRecords, dif_pos (by rfl), ← emptyRootHex_sha256, merkleRoot, List.map_nil,
      reduce_of_le (by simp)]
  · have hne : entries.map (computeLeafDigest sha256Stream) ≠ [] := by simpa using hnil
    have hroot := mth_map (fun a b => sha256 (a ++ b)) hashPair_sha256 hne
    rw [merkleRoot, reduce_eq_mth _ hne, rootOfRecords, dif_neg (by simpa using hnil)]
    simp only [hleaves, ← hroot]
    rfl

/-- The level loop ends, at the recursive root of its leaves; and every root that is printed is
the recursive root of the records that are printed below it. -/
theorem root_recomputable {W : Type} (sys : Sys W) :
    (∀ (leaves : List Digest) (h : leaves ≠ []) (c : Context W),
      (∀ out c', merkleLoop sys sha256Stream leaves c = (some out, c') →
        out = [mth (hashPair sha256Stream) leaves h]) ∧
      ((∀ w, (sys.malloc w).1 = true) → leaves.length ≤ sizeMax / 32 →
        ∃ c', merkleLoop sys sha256Stream leaves c =
          (some [mth (hashPair sha256Stream) leaves h], c'))) ∧
    (∀ a b : Digest, (hashPair sha256Stream a b).val = sha256 (a.val ++ b.val)) ∧
    (∀ e : FileEntry, (computeLeafDigest sha256Stream e).val = sha256 (leafRecord e)) ∧
    ∀ (q : QSort compareFileEntries) (rawOperand normDir : CStr) (w : W) (c' : Context W),
      hashTree sys sha256Stream q rawOperand normDir w = (0, c') →
        c'.stdout = ascii "ROOT " ++ rootOfRecords (c'.entries.items.map leafRecord) ++
          ascii "\n" ++ (c'.entries.items.map leafRecord).flatten := by
  refine ⟨fun leaves h c => ⟨fun out c' heq => ?_, fun hm hlen => ?_⟩, hashPair_sha256,
    computeLeafDigest_sha256, fun q rawOperand normDir w c' heq => ?_⟩
  · rw [merkleLoop_some heq, reduce_eq_mth _ h]
  · obtain ⟨c', heq, -⟩ := merkleLoop_total (S := sha256Stream) hm leaves hlen c
    rw [reduce_eq_mth _ h] at heq
    exact ⟨c', heq⟩
  · rw [(hashTree_keeps (Alarm.never sys) heq).1 rfl, manifestText, merkleRoot_records,
      List.flatMap_def]

end Treehash
