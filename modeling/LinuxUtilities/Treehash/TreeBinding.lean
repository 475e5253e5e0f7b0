import LinuxUtilities.Treehash.Decoding
import LinuxUtilities.Treehash.Main
import LinuxUtilities.Treehash.RootBinding

/-! The printed root of a whole tree: it is the same for the same files, and different for
different files unless two of the strings that the two runs hashed collide under SHA-256. -/
namespace Treehash
open CString MerkleTree Fips180

/-- SHA-256 as the standard defines it, with its length. -/
def sha256Digest (m : List UInt8) : Digest :=
  ⟨sha256 m, by
    have h := sha256Stream_pieces [m]
    rw [List.flatten_singleton] at h
    rw [← h]
    exact (sha256Stream.final _).property⟩

/-- Two hashes that give one digest for every message, however it is cut. -/
def StreamHash.Agrees (S S' : StreamHash) : Prop :=
  ∀ pieces : List (List UInt8),
    S.final (pieces.foldl S.update S.init) = S'.final (pieces.foldl S'.update S'.init)

theorem sha256Stream_agrees : sha256Stream.Agrees (.ofFunction sha256Digest) := by
  intro pieces
  apply Subtype.ext
  show _ = sha256 (pieces.foldl (fun acc m => acc ++ m) [])
  rw [sha256Stream_pieces, foldl_append_flatten, List.nil_append]

section Agrees
variable {W : Type} {sys : Sys W} {S S' : StreamHash}

theorem hashFileSha256_agrees (h : S.Agrees S') (path : CStr) (c : Context W) :
    hashFileSha256 sys S path c = hashFileSha256 sys S' path c := by
  unfold hashFileSha256
  simp only [h _]

theorem walkChild_agrees (h : S.Agrees S')
    {descend descend' : CStr → CStr → Context W → ℤ × Context W} (hd : descend = descend') :
    walkChild sys S descend = walkChild sys S' descend' := by
  funext childDiskPath childRelPath c
  unfold walkChild walkFile
  simp only [hashFileSha256_agrees h, hd]

theorem walkEntries_agrees (h : S.Agrees S')
    {descend descend' : CStr → CStr → Context W → ℤ × Context W} (hd : descend = descend')
    (diskDir relDir : CStr) (names : List CStr) (c : Context W) :
    walkEntries sys S descend diskDir relDir names c =
      walkEntries sys S' descend' diskDir relDir names c := by
  have hentry : walkEntry sys S descend = walkEntry sys S' descend' := by
    funext diskDir relDir name c
    unfold walkEntry
    rw [walkChild_agrees h hd]
  induction names generalizing c with
  | nil => rfl
  | cons name names ih =>
    simp only [walkEntries, hentry]
    split
    · exact ih _
    · rfl

/-- The walk does not depend on which of the two hashes it runs with. -/
theorem walkDir_agrees (h : S.Agrees S') (levels : ℕ) :
    walkDir sys S levels = walkDir sys S' levels := by
  induction levels with
  | zero => rfl
  | succ levels ih =>
    have hentries := @walkEntries_agrees W sys S S' h _ _ ih
    rw [walkDir_succ, walkDir_succ]
    funext diskDir relDir c
    unfold walkBody walkOpened
    simp only [hentries]

theorem computeLeafDigest_agrees (h : S.Agrees S') :
    computeLeafDigest S = computeLeafDigest S' := by
  funext e
  exact h [e.hex.val, ascii "  ", e.relPath.bytes, ascii "\n"]

theorem hashPair_agrees (h : S.Agrees S') : hashPair S = hashPair S' := by
  funext a b
  exact h [a.val, b.val]

theorem merkleLoop_agrees (h : S.Agrees S') (current : List Digest) (c : Context W) :
    merkleLoop sys S current c = merkleLoop sys S' current c := by
  fun_induction merkleLoop sys S current c with
  | case1 current c hlt hbig =>
    rw [merkleLoop, if_pos hlt, if_pos hbig]
  | case2 current c hlt hbig m hm ih =>
    rw [ih, merkleLoop.eq_def sys S' current, if_pos hlt, if_neg hbig, if_pos hm,
      hashPair_agrees h]
  | case3 current c hlt hbig m hm =>
    rw [merkleLoop, if_pos hlt, if_neg hbig, if_neg hm]
  | case4 current c hle => rw [merkleLoop, if_neg hle]

theorem printTree_agrees (h : S.Agrees S') (q : QSort compareFileEntries) (c : Context W) :
    printTree sys S q c = printTree sys S' q c := by
  unfold printTree computeMerkleRoot
  simp only [merkleLoop_agrees h, computeLeafDigest_agrees h]

/-- Nor does the run. -/
theorem hashTree_agrees (h : S.Agrees S') (q : QSort compareFileEntries)
    (rawOperand normDir : CStr) (w : W) :
    hashTree sys S q rawOperand normDir w = hashTree sys S' q rawOperand normDir w := by
  unfold hashTree
  simp only [walkDir_agrees h, printTree_agrees h]

end Agrees

/-- A file that the manifest of a tree is to list, with its bytes. -/
def Tree.Lists (t : Tree) (fnmatch : CStr → CStr → Bool → Bool) (p : List CStr)
    (content : List UInt8) : Prop :=
  ∃ n, t.Listed fnmatch p n ∧ n.content = content

/-- The bytes at a path. -/
def Tree.contentOf (t : Tree) (p : List CStr) : List UInt8 := (t.node p).elim [] Node.content

/-- All that a run over the files `ps` of a tree hashes: contents, leaf records, nodes. -/
def Tree.messages (t : Tree) (ps : List (List CStr)) : List (List UInt8) :=
  ps.map t.contentOf ++ hashedMessages sha256Digest (ps.map (t.entryOf sha256Digest))

/-- The first line of standard output. -/
def rootLine (out : List UInt8) : List UInt8 := out.takeWhile (· ≠ 10)

section Binding
variable {t t' : Tree} {fnmatch fnmatch' : CStr → CStr → Bool → Bool}

theorem Tree.Listed.content {p : List CStr} {n : Node} (h : t.Listed fnmatch p n) :
    t.contentOf p = n.content := by
  rw [Tree.contentOf, h.node]
  rfl

theorem Tree.IsManifest.lists {ps : List (List CStr)} (h : t.IsManifest fnmatch ps)
    (p : List CStr) (content : List UInt8) :
    t.Lists fnmatch p content ↔ p ∈ ps ∧ t.contentOf p = content := by
  rw [h.mem]
  constructor
  · rintro ⟨n, hn, rfl⟩
    exact ⟨⟨n, hn⟩, hn.content⟩
  · rintro ⟨⟨n, hn⟩, rfl⟩
    exact ⟨n, hn, hn.content.symm⟩

/-- Two lists of files in order with the same files are equal. -/
theorem Tree.IsManifest.unique {ps qs : List (List CStr)} (hp : t.IsManifest fnmatch ps)
    (hq : t'.IsManifest fnmatch' qs) (h : ∀ p, p ∈ ps ↔ p ∈ qs) : ps = qs := by
  have hperm : ps.Perm qs := (List.perm_ext_iff_of_nodup hp.nodup hq.nodup).mpr h
  apply hperm.eq_of_pairwise _ hp.sorted hq.sorted
  intro p q _ _ hpq hqp
  rw [strcmp_neg] at hpq hqp
  exact absurd hpq (lt_asymm hqp)

theorem rootLine_manifestText (S : StreamHash) (entries : List FileEntry) :
    rootLine (manifestText S entries) = ascii "ROOT " ++ merkleRoot S entries := by
  have hline : ∀ b ∈ ascii "ROOT " ++ merkleRoot S entries, decide (b ≠ 10) = true := by
    intro b hb
    rw [decide_eq_true_eq]
    rintro rfl
    rcases List.mem_append.mp hb with hb | hb
    · revert hb
      decide
    · exact newline_not_mem_merkleRoot S entries hb
  have hnl : ascii "\n" = [10] := rfl
  rw [rootLine, manifestText, List.append_assoc, List.takeWhile_append_of_pos hline, hnl]
  simp

/-- Two lists of entries with one root are equal, or two of the strings that were hashed for
them collide. -/
theorem merkleRoot_binding {xs ys : List FileEntry} (hx : xs.length ≤ sizeMax / 32)
    (hy : ys.length ≤ sizeMax / 32)
    (h : merkleRoot (.ofFunction sha256Digest) xs = merkleRoot (.ofFunction sha256Digest) ys) :
    xs = ys ∨ Collision sha256Digest (hashedMessages sha256Digest xs)
      (hashedMessages sha256Digest ys) := by
  have hrun (es : List FileEntry) (hes : es.length ≤ sizeMax / 32) :=
    @computeMerkleRoot_total Unit quietSys (.ofFunction sha256Digest) (fun _ => rfl) es hes (.init ())
  have hempty : merkleRoot (.ofFunction sha256Digest) [] = (hexOf (sha256Digest [])).val := by
    rw [merkleRoot, List.map_nil, reduce_of_le (by simp)]
    exact emptyRootHex_sha256
  have hhex {a b : Digest} (h : (hexOf a).val = (hexOf b).val) : a = b :=
    hexOf_injective (Subtype.ext h)
  obtain ⟨cx, hcx, -⟩ := hrun xs hx
  obtain ⟨cy, hcy, -⟩ := hrun ys hy
  by_cases hxs : xs = [] <;> by_cases hys : ys = []
  · exact .inl (hxs.trans hys.symm)
  · obtain ⟨v, hv, hleaves, hmsgs⟩ := root_tree hcy hys
    have hnil : hashedMessages sha256Digest xs = [[]] := if_pos hxs
    rw [hxs, hempty, hv] at h
    exact .inr (by rw [hnil]; exact collision_with_empty hleaves hmsgs (hhex h))
  · obtain ⟨v, hv, hleaves, hmsgs⟩ := root_tree hcx hxs
    have hnil : hashedMessages sha256Digest ys = [[]] := if_pos hys
    rw [hys, hempty, hv] at h
    exact .inr (by rw [hnil]; exact Collision.symm (collision_with_empty hleaves hmsgs (hhex h.symm)))
  · obtain ⟨v, hv, hvl, hvm⟩ := root_tree hcx hxs
    obtain ⟨u, hu, hul, hum⟩ := root_tree hcy hys
    have hleaf {es : List FileEntry} {v : HashTree (List UInt8)}
        (hv : v.leaves = es.map leafRecord) : ∀ p ∈ v.leaves, ∀ a b, p ≠ joinDigests a b := by
      intro p hp a b
      rw [hv] at hp
      obtain ⟨e, -, rfl⟩ := List.mem_map.mp hp
      exact leafRecord_ne_join e a b
    rcases HashTree.binding joinDigests_inj (hleaf hvl) (hleaf hul)
      (hhex (hv.symm.trans (h.trans hu))) with rfl | hc
    · refine .inl (leafRecord_injective.list_map ?_)
      rw [← hvl, ← hul]
    · exact .inr (hc.mono hvm hum)

/-- Entries with the paths and digests of files, where no two contents collide, are the entries
of the same files. -/
theorem entries_binding {ps qs : List (List CStr)} (hp : t.IsManifest fnmatch ps)
    (hq : t'.IsManifest fnmatch' qs)
    (h : ps.map (t.entryOf sha256Digest) = qs.map (t'.entryOf sha256Digest)) :
    (ps = qs ∧ ∀ p ∈ ps, t.contentOf p = t'.contentOf p) ∨
      Collision sha256Digest (ps.map t.contentOf) (qs.map t'.contentOf) := by
  have hpaths : ps.map relPath = qs.map relPath := by
    have hmap := congrArg (List.map FileEntry.relPath) h
    simpa [List.map_map, Function.comp_def, Tree.entryOf] using hmap
  have hpq : ps = qs := by
    have hlen : ps.length = qs.length := by simpa using congrArg List.length hpaths
    apply List.ext_getElem hlen
    intro i hi hi'
    obtain ⟨n, hn⟩ := (hp.mem _).mp (List.getElem_mem hi)
    obtain ⟨m, hm⟩ := (hq.mem _).mp (List.getElem_mem hi')
    have hrel : relPath ps[i] = relPath qs[i] := by
      have hget := congrArg (fun l => l[i]?) hpaths
      simpa [hi, hi'] using hget
    exact relPath_injective (t.name_ne_empty hn.node) (t'.name_ne_empty hm.node) hrel
  subst hpq
  by_cases hall : ∀ p ∈ ps, t.contentOf p = t'.contentOf p
  · exact .inl ⟨rfl, hall⟩
  · push Not at hall
    obtain ⟨p, hmem, hne⟩ := hall
    have hentry : t.entryOf sha256Digest p = t'.entryOf sha256Digest p :=
      List.map_inj_left.mp h p hmem
    have hdigest := hexOf_injective (congrArg FileEntry.hex hentry)
    exact .inr ⟨_, List.mem_map_of_mem hmem, _, List.mem_map_of_mem hmem, hne, hdigest⟩

/-- A run over a presented tree prints the manifest of its files. -/
theorem hashTree_prints {W : Type} {sys : Sys W} {root : CStr}
    (hlim : WithinLimits t fnmatch root) (hsys : Presents sys t fnmatch root)
    (q : QSort compareFileEntries) (rawOperand : CStr) (w : W) :
    ∃ ps c, t.IsManifest fnmatch ps ∧ ps.length ≤ sizeMax / 32 ∧
      hashTree sys sha256Stream q rawOperand root w = (0, c) ∧
      c.stdout = manifestText (.ofFunction sha256Digest) (ps.map (t.entryOf sha256Digest)) := by
  obtain ⟨qs, hnodup, hmem, c, heq, hout⟩ :=
    hashTree_manifest (H := sha256Digest) hlim hsys q rawOperand w
  obtain ⟨ps, hps⟩ := Tree.IsManifest.of_nodup hnodup hmem
  rw [hps.sort_entries q sha256Digest hnodup hmem] at hout
  have hlen := hlim.count ps hps.nodup fun p => (hps.mem p).mp
  exact ⟨ps, c, hps, hlen, (hashTree_agrees sha256Stream_agrees q rawOperand root w).trans heq, hout⟩

/-- Two runs of `treehash` over two trees, on any two systems, both succeed. Where the trees list
the same files with the same contents, they print the same bytes; where they print the same
first line, the trees list the same files with the same contents, unless two different strings
of those that the two runs hashed have one SHA-256 digest. -/
theorem main_binds_tree {W V : Type} {sys : Sys W} {sys' : Sys V} {root root' raw raw' : CStr}
    {args args' : List CStr} (hargs : readArguments args = .operand raw)
    (hargs' : readArguments args' = .operand raw') (hroot : checkOperand raw = .ok root)
    (hroot' : checkOperand raw' = .ok root') (hlim : WithinLimits t fnmatch root)
    (hlim' : WithinLimits t' fnmatch' root') (hsys : Presents sys t fnmatch root)
    (hsys' : Presents sys' t' fnmatch' root') (q q' : QSort compareFileEntries) (w : W) (v : V) :
    ∃ c c', main sys sha256Stream q args w = (0, c) ∧ main sys' sha256Stream q' args' v = (0, c') ∧
      ((∀ p content, t.Lists fnmatch p content ↔ t'.Lists fnmatch' p content) →
        c.stdout = c'.stdout) ∧
      (rootLine c.stdout = rootLine c'.stdout →
        (∀ p content, t.Lists fnmatch p content ↔ t'.Lists fnmatch' p content) ∨
        ∃ ps ps', t.IsManifest fnmatch ps ∧ t'.IsManifest fnmatch' ps' ∧
          Collision sha256 (t.messages ps) (t'.messages ps')) := by
  obtain ⟨ps, c, hps, hlen, hrun, hout⟩ := hashTree_prints hlim hsys q raw w
  obtain ⟨ps', c', hps', hlen', hrun', hout'⟩ := hashTree_prints hlim' hsys' q' raw' v
  refine ⟨c, c', ?_, ?_, fun hsame => ?_, fun hline => ?_⟩
  · simp only [main, hargs, hashOperand, hroot, hrun]
  · simp only [main, hargs', hashOperand, hroot', hrun']
  · have hmem : ∀ p, p ∈ ps ↔ p ∈ ps' := by
      intro p
      constructor
      · intro hp
        exact ((hps'.lists p _).mp ((hsame p _).mp ((hps.lists p _).mpr ⟨hp, rfl⟩))).1
      · intro hp
        exact ((hps.lists p _).mp ((hsame p _).mpr ((hps'.lists p _).mpr ⟨hp, rfl⟩))).1
    obtain rfl := hps.unique hps' hmem
    have hentries : ps.map (t.entryOf sha256Digest) = ps.map (t'.entryOf sha256Digest) := by
      apply List.map_congr_left
      intro p hp
      have hcontent := ((hps'.lists p _).mp ((hsame p _).mp ((hps.lists p _).mpr ⟨hp, rfl⟩))).2
      unfold Tree.contentOf at hcontent
      rw [Tree.entryOf, Tree.entryOf, hcontent]
    rw [hout, hout', hentries]
  · rw [hout, hout', rootLine_manifestText, rootLine_manifestText] at hline
    have hdigest {ms ms' : List (List UInt8)} (h : Collision sha256Digest ms ms') :
        Collision sha256 ms ms' := by
      obtain ⟨m, hm, m', hm', hne, heq⟩ := h
      exact ⟨m, hm, m', hm', hne, congrArg Subtype.val heq⟩
    rcases merkleRoot_binding (by simpa using hlen) (by simpa using hlen')
      (List.append_cancel_left hline) with hentries | hc
    · rcases entries_binding hps hps' hentries with ⟨rfl, hcontent⟩ | hc
      · refine .inl fun p content => ?_
        rw [hps.lists, hps'.lists]
        constructor
        · rintro ⟨hp, rfl⟩
          exact ⟨hp, (hcontent p hp).symm⟩
        · rintro ⟨hp, rfl⟩
          exact ⟨hp, hcontent p hp⟩
      · exact .inr ⟨ps, ps', hps, hps', hdigest (hc.mono (List.subset_append_left _ _)
          (List.subset_append_left _ _))⟩
    · exact .inr ⟨ps, ps', hps, hps', hdigest (hc.mono (List.subset_append_right _ _)
        (List.subset_append_right _ _))⟩

/-- Two runs over one directory, the second with another spelling of it. -/
theorem main_binds_tree_sample : ∃ c c' : Context Unit,
    main Sample.sys sha256Stream Sample.sortEntries [.lit "/r"] () = (0, c) ∧
    main Sample.sys sha256Stream Sample.sortEntries [.lit "/r/."] () = (0, c') ∧
    c.stdout = c'.stdout := by
  have hraw : readArguments [.lit "/r"] = .operand (.lit "/r") := by decide
  have hraw' : readArguments [.lit "/r/."] = .operand (.lit "/r/.") := by decide
  obtain ⟨c, c', hrun, hrun', hsame, -⟩ := main_binds_tree hraw hraw' (by decide +kernel)
    (by decide +kernel) Sample.withinLimits Sample.withinLimits Sample.presents Sample.presents
    Sample.sortEntries Sample.sortEntries () ()
  exact ⟨c, c', hrun, hrun', hsame fun _ _ => Iff.rfl⟩

end Binding

end Treehash
