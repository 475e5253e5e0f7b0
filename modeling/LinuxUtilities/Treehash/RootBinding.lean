import LinuxUtilities.Treehash.Merkle

/-! The printed root binds the list of entries: equal roots mean equal lists, or a
collision among the byte strings that the two computations hashed. -/
namespace Treehash
open CString MerkleTree

def joinDigests (a b : Digest) : List UInt8 := a.val ++ b.val

/-- The byte strings one root computation hashes; the constant root of the empty
list stands for the hash of the empty string. -/
def hashedMessages (H : List UInt8 → Digest) (entries : List FileEntry) : List (List UInt8) :=
  if entries = [] then [[]]
  else entries.map leafRecord ++
    reduceMessages H joinDigests ((entries.map leafRecord).map H)

theorem leafRecord_length (e : FileEntry) : (leafRecord e).length = e.relPath.length + 67 := by
  have hx := e.hex.property.1
  have hsep : (ascii "  ").length = 2 := rfl
  have hnl : (ascii "\n").length = 1 := rfl
  simp only [leafRecord, List.length_append, hx, hsep, hnl, CStr.length]
  omega

/-- Leaves and inner nodes hash messages of different lengths. -/
theorem leafRecord_ne_join (e : FileEntry) (a b : Digest) : leafRecord e ≠ joinDigests a b := by
  intro h
  have hl := congrArg List.length h
  rw [leafRecord_length, joinDigests, List.length_append, a.property, b.property] at hl
  omega

theorem leafRecord_injective : Function.Injective leafRecord := by
  intro e f h
  have hx : e.hex.val.length = f.hex.val.length := e.hex.property.1.trans f.hex.property.1.symm
  simp only [leafRecord, List.append_assoc] at h
  obtain ⟨hhex, hrest⟩ := List.append_inj h hx
  have hpath : e.relPath.bytes ++ ascii "\n" = f.relPath.bytes ++ ascii "\n" :=
    List.append_cancel_left hrest
  cases e; cases f
  congr 1
  · exact CStr.ext (List.append_cancel_right hpath)
  · exact Subtype.ext hhex

theorem joinDigests_inj (a b c d : Digest) (h : joinDigests a b = joinDigests c d) :
    a = c ∧ b = d := by
  obtain ⟨hl, hr⟩ := List.append_inj h (a.property.trans c.property.symm)
  exact ⟨Subtype.ext hl, Subtype.ext hr⟩

theorem computeLeafDigest_ofFunction (H : List UInt8 → Digest) (e : FileEntry) :
    computeLeafDigest (.ofFunction H) e = H (leafRecord e) := rfl

theorem hashPair_ofFunction (H : List UInt8 → Digest) :
    hashPair (.ofFunction H) = fun a b => H (joinDigests a b) := rfl

/-- The root of a non-empty list is the digest of a tree over its leaf records. -/
theorem root_tree {W : Type} {sys : Sys W} {H : List UInt8 → Digest} {entries : List FileEntry}
    {root : List UInt8} {c c' : Context W}
    (h : computeMerkleRoot sys (.ofFunction H) entries c = (some root, c'))
    (hne : entries ≠ []) :
    ∃ t : HashTree (List UInt8), root = (hexOf (t.digest H joinDigests)).val ∧
      t.leaves = entries.map leafRecord ∧
      t.messages H joinDigests ⊆ hashedMessages H entries := by
  rcases computeMerkleRoot_some h with ⟨hnil, -⟩ | ⟨-, d, hd, hroot⟩
  · exact (hne hnil).elim
  · obtain ⟨t, ht, hleaves, hmsgs⟩ :=
      @reduce_tree _ _ H joinDigests (entries.map leafRecord) (by simpa using hne)
    have hmap : entries.map (computeLeafDigest (.ofFunction H)) =
        (entries.map leafRecord).map H := by
      simp [computeLeafDigest_ofFunction]
    rw [hmap, hashPair_ofFunction, ht] at hd
    obtain ⟨rfl, -⟩ := List.cons.inj hd
    exact ⟨t, hroot, hleaves, by rw [hashedMessages, if_neg hne]; exact hmsgs⟩

/-- A root of a non-empty list that is also the hash of the empty string. -/
theorem collision_with_empty {H : List UInt8 → Digest} {entries : List FileEntry}
    {t : HashTree (List UInt8)} (hleaves : t.leaves = entries.map leafRecord)
    (hmsgs : t.messages H joinDigests ⊆ hashedMessages H entries)
    (h : H [] = t.digest H joinDigests) :
    Collision H [[]] (hashedMessages H entries) := by
  cases t with
  | leaf p =>
    obtain ⟨e, -, rfl⟩ : ∃ e ∈ entries, leafRecord e = p :=
      List.mem_map.mp (hleaves ▸ List.mem_singleton_self p)
    refine ⟨[], List.mem_singleton_self _, _, hmsgs (List.mem_singleton_self _), ?_, h⟩
    intro he
    have hl := congrArg List.length he
    rw [leafRecord_length, List.length_nil] at hl
    omega
  | node l r =>
    refine ⟨[], List.mem_singleton_self _, _, hmsgs List.mem_cons_self, ?_, h⟩
    intro he
    have hl := congrArg List.length he
    rw [joinDigests, List.length_append, (l.digest H joinDigests).property,
      (r.digest H joinDigests).property, List.length_nil] at hl
    omega

theorem Collision.symm {H : List UInt8 → Digest} {ps qs : List (List UInt8)}
    (h : Collision H ps qs) : Collision H qs ps := by
  obtain ⟨p, hp, q, hq, hne, he⟩ := h
  exact ⟨q, hq, p, hp, hne.symm, he.symm⟩

/-- Two runs of `compute_merkle_root` with one root hashed a colliding pair, unless
their entry lists are equal. The hash is any function whose value on the empty
string is the constant that the code prints for the empty list. -/
theorem computeMerkleRoot_binding {W : Type} {sys sys' : Sys W} (H : List UInt8 → Digest)
    (hempty : (hexOf (H [])).val = emptyRootHex) {xs ys : List FileEntry} {root : List UInt8}
    {c c' d d' : Context W}
    (hx : computeMerkleRoot sys (.ofFunction H) xs c = (some root, c'))
    (hy : computeMerkleRoot sys' (.ofFunction H) ys d = (some root, d')) :
    xs = ys ∨ Collision H (hashedMessages H xs) (hashedMessages H ys) := by
  have hroot (es : List FileEntry) (sys : Sys W) (c c' : Context W)
      (h : computeMerkleRoot sys (.ofFunction H) es c = (some root, c')) (hes : es = []) :
      root = (hexOf (H [])).val := by
    rcases computeMerkleRoot_some h with ⟨-, hr⟩ | ⟨hne, -⟩
    · rw [hr, hempty]
    · exact (hne hes).elim
  have hhex {a b : Digest} (h : (hexOf a).val = (hexOf b).val) : a = b :=
    hexOf_injective (Subtype.ext h)
  by_cases hxs : xs = [] <;> by_cases hys : ys = []
  · exact .inl (hxs.trans hys.symm)
  · obtain ⟨t, ht, hleaves, hmsgs⟩ := root_tree hy hys
    refine .inr ?_
    rw [show hashedMessages H xs = [[]] from if_pos hxs]
    exact collision_with_empty hleaves hmsgs (hhex ((hroot xs sys c c' hx hxs).symm.trans ht))
  · obtain ⟨t, ht, hleaves, hmsgs⟩ := root_tree hx hxs
    refine .inr (Collision.symm ?_)
    rw [show hashedMessages H ys = [[]] from if_pos hys]
    exact collision_with_empty hleaves hmsgs (hhex ((hroot ys sys' d d' hy hys).symm.trans ht))
  · obtain ⟨t, ht, htl, htm⟩ := root_tree hx hxs
    obtain ⟨u, hu, hul, hum⟩ := root_tree hy hys
    have hleaf {es : List FileEntry} {v : HashTree (List UInt8)}
        (hv : v.leaves = es.map leafRecord) :
        ∀ p ∈ v.leaves, ∀ a b, p ≠ joinDigests a b := by
      intro p hp a b
      rw [hv] at hp
      obtain ⟨e, -, rfl⟩ := List.mem_map.mp hp
      exact leafRecord_ne_join e a b
    rcases HashTree.binding joinDigests_inj (hleaf htl) (hleaf hul) (hhex (ht.symm.trans hu))
      with rfl | hc
    · refine .inl (leafRecord_injective.list_map ?_)
      rw [← htl, ← hul]
    · exact .inr (hc.mono htm hum)

/-- A system whose calls all succeed and whose directories are empty. -/
def quietSys : Sys Unit where
  lstat := fun _ w => (.ok ⟨.directory, 0, 0⟩, w)
  opendir := fun _ w => (.ok ⟨[], none⟩, w)
  fopen := fun _ w => (.ok ⟨[], false⟩, w)
  openRead := fun _ w => (.ok ⟨[], none, none⟩, w)
  malloc := fun w => (true, w)
  fnmatch := fun _ _ _ => false
  printf := fun w => (true, w)
  fflush := fun w => (true, w)
  strerror := fun _ => []

/-- The digest behind `emptyRootHex`. -/
def emptyDigest : Digest :=
  ⟨[0xe3, 0xb0, 0xc4, 0x42, 0x98, 0xfc, 0x1c, 0x14, 0x9a, 0xfb, 0xf4, 0xc8, 0x99, 0x6f, 0xb9,
    0x24, 0x27, 0xae, 0x41, 0xe4, 0x64, 0x9b, 0x93, 0x4c, 0xa4, 0x95, 0x99, 0x1b, 0x78, 0x52,
    0xb8, 0x55], rfl⟩

/-- A poor hash: the length of the message, except on the empty string. -/
def lengthDigest (m : List UInt8) : Digest :=
  if m = [] then emptyDigest else ⟨m.length.toUInt8 :: List.replicate 31 0, rfl⟩

def entryOf (name : String) : FileEntry := ⟨.lit name, hexOf emptyDigest⟩

theorem lengthDigest_root (name : String) :
    computeMerkleRoot quietSys (.ofFunction lengthDigest) [entryOf name] (.init ()) =
      (some (hexOf (lengthDigest (leafRecord (entryOf name)))).val, .init ()) := by
  simp [computeMerkleRoot, merkleLoop, Context.call, quietSys, Context.init, sizeMax,
    computeLeafDigest_ofFunction]

theorem computeMerkleRoot_binding_lengthDigest :
    [entryOf "a"] = [entryOf "b"] ∨ Collision lengthDigest
      (hashedMessages lengthDigest [entryOf "a"])
      (hashedMessages lengthDigest [entryOf "b"]) := by
  have hd : lengthDigest (leafRecord (entryOf "a")) = lengthDigest (leafRecord (entryOf "b")) := by
    decide
  have hroot := lengthDigest_root "b"
  rw [← hd] at hroot
  have hempty : (hexOf (lengthDigest [])).val = emptyRootHex := by decide
  exact computeMerkleRoot_binding lengthDigest hempty (lengthDigest_root "a") hroot

end Treehash
