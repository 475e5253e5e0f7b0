import LinuxUtilities.Foundation.MerkleTree
import LinuxUtilities.Treehash.Context

/-! Leaf digests and the Merkle reduction of `treehash`, over any streaming hash. -/
namespace Treehash
open CString MerkleTree

/-- The 32 bytes of a SHA-256 digest. -/
abbrev Digest := { d : List UInt8 // d.length = 32 }

/-- The interface of `sha256_init`, `sha256_update` and `sha256_final`. -/
structure StreamHash where
  Ctx : Type
  init : Ctx
  update : Ctx → List UInt8 → Ctx
  final : Ctx → Digest

/-- The streaming hash that collects its input and applies a function to it. -/
def StreamHash.ofFunction (H : List UInt8 → Digest) : StreamHash where
  Ctx := List UInt8
  init := []
  update := fun ctx data => ctx ++ data
  final := H

/-- A hexadecimal digit as `%02x` prints it. -/
def hexDigit (n : ℕ) : UInt8 := (if n < 10 then 48 + n else 87 + n).toUInt8

/-- `sprintf("%02x")` of one byte. -/
def hexByte (b : UInt8) : List UInt8 := [hexDigit (b.toNat / 16), hexDigit (b.toNat % 16)]

theorem hexDigit_injective : ∀ m < 16, ∀ n < 16, hexDigit m = hexDigit n → m = n := by
  decide

theorem hexDigit_range : ∀ n < 16, 48 ≤ hexDigit n ∧ hexDigit n ≤ 57 ∨
    97 ≤ hexDigit n ∧ hexDigit n ≤ 102 := by
  decide

theorem hexByte_injective : Function.Injective hexByte := by
  intro a b h
  simp only [hexByte, List.cons.injEq, and_true] at h
  have ha := a.toNat_lt
  have hb := b.toNat_lt
  have hq := hexDigit_injective _ (by omega) _ (by omega) h.1
  have hr := hexDigit_injective _ (by omega) _ (by omega) h.2
  exact UInt8.toNat_inj.mp (by omega)

theorem flatMap_hexByte_injective : Function.Injective (List.flatMap hexByte) := by
  intro xs ys h
  induction xs generalizing ys with
  | nil => cases ys with
    | nil => rfl
    | cons y ys => simp [hexByte] at h
  | cons x xs ih => cases ys with
    | nil => simp [hexByte] at h
    | cons y ys =>
      simp only [List.flatMap_cons] at h
      obtain ⟨hx, hxs⟩ := List.append_inj h (by simp [hexByte])
      rw [hexByte_injective hx, ih hxs]

/-- The `sprintf` loop over the 32 bytes of a digest. -/
def hexOf (d : Digest) : Hex :=
  ⟨d.val.flatMap hexByte, by
    have hlen : (d.val.flatMap hexByte).length = 2 * d.val.length := by
      simp [List.length_flatMap, hexByte, Nat.mul_comm]
    rw [hlen, d.property], by
    intro b hb
    obtain ⟨x, -, hx⟩ := List.mem_flatMap.mp hb
    have hx' := x.toNat_lt
    simp only [hexByte, List.mem_cons, List.not_mem_nil, or_false] at hx
    rcases hx with rfl | rfl <;> exact hexDigit_range _ (by omega)⟩

theorem hexOf_injective : Function.Injective hexOf := by
  intro d e h
  exact Subtype.ext (flatMap_hexByte_injective (congrArg Subtype.val h))

/-- What the leaf of a file hashes, which is also its manifest line. -/
def leafRecord (e : FileEntry) : List UInt8 :=
  e.hex.val ++ ascii "  " ++ e.relPath.bytes ++ ascii "\n"

/-- `compute_leaf_digest`. -/
def computeLeafDigest (S : StreamHash) (e : FileEntry) : Digest :=
  let sctx := S.init
  let sctx := S.update sctx e.hex.val
  let sctx := S.update sctx (ascii "  ")
  let sctx := S.update sctx e.relPath.bytes
  let sctx := S.update sctx (ascii "\n")
  S.final sctx

/-- The inner node over two child digests. -/
def hashPair (S : StreamHash) (a b : Digest) : Digest :=
  let sctx := S.init
  let sctx := S.update sctx a.val
  let sctx := S.update sctx b.val
  S.final sctx

def sizeMax : ℕ := 2 ^ 64 - 1

def emptyRootHex : List UInt8 :=
  ascii "e3b0c44298fc1c149afbf4c8996fb92427ae41e4649b934ca495991b7852b855"

def outOfMemory : List UInt8 := ascii "treehash: OUT_OF_MEMORY\n"

variable {W : Type} (sys : Sys W) (S : StreamHash)

/-- The `while (count > 1)` loop: each level takes one allocation. -/
def merkleLoop (current : List Digest) (c : Context W) : Option (List Digest) × Context W :=
  if 1 < current.length then
    if (current.length + 1) / 2 > sizeMax / 32 then (none, c.fputs outOfMemory)
    else
      let m := c.call sys.malloc
      if m.1 then merkleLoop (pairLevel (hashPair S) current) m.2
      else (none, m.2.fputs outOfMemory)
  else (some current, c)
termination_by current.length
decreasing_by simp only [length_pairLevel]; omega

/-- `compute_merkle_root`; `none` is its `-1`. -/
def computeMerkleRoot (entries : List FileEntry) (c : Context W) :
    Option (List UInt8) × Context W :=
  if entries.length = 0 then (some emptyRootHex, c)
  else if entries.length > sizeMax / 32 then (none, c.fputs outOfMemory)
  else
    let m := c.call sys.malloc
    if m.1 then
      match merkleLoop sys S (entries.map (computeLeafDigest S)) m.2 with
      | (some (root :: _), c) => (some (hexOf root).val, c)
      | (some [], c) => (none, c)  -- not reached: a level is never empty
      | (none, c) => (none, c)
    else (none, m.2.fputs outOfMemory)

variable {sys S}

/-- A run of the loop that gets its memory is the reduction of the level. -/
theorem merkleLoop_some {current out : List Digest} {c c' : Context W}
    (h : merkleLoop sys S current c = (some out, c')) :
    out = reduce (hashPair S) current := by
  fun_induction merkleLoop sys S current c with
  | case1 current c hlt hbig => simp at h
  | case2 current c hlt hbig m hm ih => rw [ih h, ← reduce_of_lt hlt]
  | case3 current c hlt hbig m hm => simp at h
  | case4 current c hle =>
    rw [reduce_of_le (by omega)]
    simpa using (congrArg Prod.fst h).symm

/-- With memory, the loop always ends, at the reduction of the level. -/
theorem merkleLoop_total (hm : ∀ w, (sys.malloc w).1 = true) (current : List Digest)
    (hlen : current.length ≤ sizeMax / 32) (c : Context W) :
    ∃ c', merkleLoop sys S current c = (some (reduce (hashPair S) current), c') ∧
      c'.stdout = c.stdout := by
  fun_induction merkleLoop sys S current c with
  | case1 current c hlt hbig => omega
  | case2 current c hlt hbig m hm' ih =>
    obtain ⟨c', hc', hout⟩ := ih (by simp only [length_pairLevel]; omega)
    exact ⟨c', by rw [hc', ← reduce_of_lt hlt], hout⟩
  | case3 current c hlt hbig m hm' => exact (hm' (hm c.world)).elim
  | case4 current c hle => exact ⟨c, by rw [reduce_of_le (by omega)], rfl⟩

/-- The root of a manifest: the constant for no files, else the last digest left. -/
def merkleRoot (S : StreamHash) (entries : List FileEntry) : List UInt8 :=
  match reduce (hashPair S) (entries.map (computeLeafDigest S)) with
  | [] => emptyRootHex
  | d :: _ => (hexOf d).val

/-- With memory, the root is always computed. -/
theorem computeMerkleRoot_total (hm : ∀ w, (sys.malloc w).1 = true) (entries : List FileEntry)
    (hlen : entries.length ≤ sizeMax / 32) (c : Context W) :
    ∃ c', computeMerkleRoot sys S entries c = (some (merkleRoot S entries), c') ∧
      c'.stdout = c.stdout := by
  unfold computeMerkleRoot
  by_cases hnil : entries.length = 0
  · rw [if_pos hnil, merkleRoot, List.length_eq_zero_iff.mp hnil, List.map_nil,
      reduce_of_le (by simp)]
    exact ⟨c, rfl, rfl⟩
  · obtain ⟨d, hd⟩ := reduce_singleton (hashPair S) (l := entries.map (computeLeafDigest S))
      (by simpa using hnil)
    obtain ⟨c', hloop, hout⟩ := merkleLoop_total (S := S) hm
      (entries.map (computeLeafDigest S)) (by simpa using hlen) (c.call sys.malloc).2
    rw [if_neg hnil, if_neg (by omega)]
    simp only [Context.call_fst, hm, ↓reduceIte, hloop, merkleRoot, hd]
    exact ⟨c', rfl, hout⟩

/-- What a successful `compute_merkle_root` returns. -/
theorem computeMerkleRoot_some {entries : List FileEntry} {root : List UInt8}
    {c c' : Context W} (h : computeMerkleRoot sys S entries c = (some root, c')) :
    entries = [] ∧ root = emptyRootHex ∨
      entries ≠ [] ∧ ∃ d, reduce (hashPair S) (entries.map (computeLeafDigest S)) = [d] ∧
        root = (hexOf d).val := by
  unfold computeMerkleRoot at h
  split at h
  next hnil =>
    refine .inl ⟨List.length_eq_zero_iff.mp hnil, ?_⟩
    simpa using (congrArg Prod.fst h).symm
  next hne =>
    have hne' : entries ≠ [] := mt List.length_eq_zero_iff.mpr hne
    refine .inr ⟨hne', ?_⟩
    obtain ⟨d, hd⟩ := reduce_singleton (hashPair S)
      (l := entries.map (computeLeafDigest S)) (by simpa using hne')
    split at h
    · simp at h
    · simp only at h
      split at h
      · split at h
        next hl =>
          have he := merkleLoop_some hl
          rw [hd] at he
          obtain ⟨rfl, -⟩ := List.cons.inj he
          exact ⟨_, hd, by simpa using (congrArg Prod.fst h).symm⟩
        · simp at h
        · simp at h
      · simp at h

end Treehash
