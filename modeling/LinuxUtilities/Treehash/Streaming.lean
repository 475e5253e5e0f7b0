import LinuxUtilities.Treehash.Sha256
import Mathlib.Data.List.GetD

/-! The embedded SHA-256 against the standard: the transform is the compression
function, and the buffer carries what does not fill a block. -/
namespace Treehash
open Blocks Fips180

/-- A state as the standard's hash value. -/
def ShaState.hash (s : ShaState) : Hash :=
  ⟨s.a.toBitVec, s.b.toBitVec, s.c.toBitVec, s.d.toBitVec,
    s.e.toBitVec, s.f.toBitVec, s.g.toBitVec, s.h.toBitVec⟩

section Words
variable (x y z : UInt32)

theorem rotr_toBitVec {n : UInt32} (h : 0 < n) (hn : n < 32) :
    (rotr x n).toBitVec = x.toBitVec.rotateRight n.toNat := by
  have hlow : 0 < n.toNat := h
  have hhigh : n.toNat < 32 := hn
  have hback : (32 - n).toNat = 32 - n.toNat := by
    rw [UInt32.toNat_sub_of_le _ _ (UInt32.le_iff_toNat_le.mpr hhigh.le)]
    rfl
  have hright : n.toNat % 32 = n.toNat := Nat.mod_eq_of_lt hhigh
  have hleft : (32 - n.toNat) % 32 = 32 - n.toNat := Nat.mod_eq_of_lt (by omega)
  have hwidth : (32 : BitVec 32).toNat = 32 := rfl
  simp only [rotr, UInt32.toBitVec_or, UInt32.toBitVec_shiftRight, UInt32.toBitVec_shiftLeft,
    BitVec.ushiftRight_eq', BitVec.shiftLeft_eq', BitVec.toNat_umod, UInt32.toNat_toBitVec,
    hwidth, hback, hright, hleft, BitVec.rotateRight_def]

theorem ep0_toBitVec : (ep0 x).toBitVec = bigSigma0 x.toBitVec := by
  simp only [ep0, UInt32.toBitVec_xor]
  rw [rotr_toBitVec x (by decide) (by decide), rotr_toBitVec x (by decide) (by decide),
    rotr_toBitVec x (by decide) (by decide)]
  rfl

theorem ep1_toBitVec : (ep1 x).toBitVec = bigSigma1 x.toBitVec := by
  simp only [ep1, UInt32.toBitVec_xor]
  rw [rotr_toBitVec x (by decide) (by decide), rotr_toBitVec x (by decide) (by decide),
    rotr_toBitVec x (by decide) (by decide)]
  rfl

theorem sig0_toBitVec : (sig0 x).toBitVec = sigma0 x.toBitVec := by
  simp only [sig0, UInt32.toBitVec_xor]
  rw [rotr_toBitVec x (by decide) (by decide), rotr_toBitVec x (by decide) (by decide)]
  rfl

theorem sig1_toBitVec : (sig1 x).toBitVec = sigma1 x.toBitVec := by
  simp only [sig1, UInt32.toBitVec_xor]
  rw [rotr_toBitVec x (by decide) (by decide), rotr_toBitVec x (by decide) (by decide)]
  rfl

theorem dataWord_toBitVec (data : List UInt8) (i : ℕ) :
    (dataWord data i).toBitVec = blockWord data i := by
  have hjoin (a b c d : UInt8) : (a.toUInt32 <<< 24 ||| b.toUInt32 <<< 16 |||
      c.toUInt32 <<< 8 ||| d.toUInt32).toBitVec =
        a.toBitVec ++ b.toBitVec ++ c.toBitVec ++ d.toBitVec := by
    ext j hj
    simp
    grind
  rw [dataWord, hjoin, blockWord, Nat.mul_comm]
  rfl

end Words

theorem shaK_roundConstant : ∀ t < 64, (shaK.getD t 0).toBitVec = roundConstant t := by
  decide +kernel

theorem initial_hash : Hash.initial = (sha256Init blankCtx).state.hash := by
  decide +kernel

section Transform
variable (data : List UInt8)

/-- The loop that extends `m` computes the message schedule. -/
theorem extendWords_schedule (n : ℕ) :
    let m := (List.range' 16 n).foldl extendWords ((List.range 16).map (dataWord data))
    m.length = 16 + n ∧ ∀ t < 16 + n, (m.getD t 0).toBitVec = schedule data t := by
  induction n with
  | zero =>
    refine ⟨by simp, fun t ht => ?_⟩
    rw [schedule, if_pos (by omega), ← dataWord_toBitVec]
    simp [List.getD_eq_getElem?_getD, show t < 16 by omega]
  | succ n ih =>
    simp only [List.range'_1_concat, List.foldl_append, List.foldl_cons, List.foldl_nil]
    generalize (List.range' 16 n).foldl extendWords _ = m at ih ⊢
    obtain ⟨hlen, hword⟩ := ih
    refine ⟨by simp [extendWords, hlen, Nat.add_assoc], fun t ht => ?_⟩
    by_cases hold : t < 16 + n
    · rw [extendWords, List.getD_append _ _ _ _ (by omega), hword t hold]
    · obtain rfl : t = 16 + n := by omega
      rw [extendWords, List.getD_append_right _ _ _ _ (by omega), schedule, if_neg (by omega)]
      simp only [hlen, Nat.sub_self, List.getD_cons_zero, UInt32.toBitVec_add, sig0_toBitVec,
        sig1_toBitVec]
      rw [hword _ (by omega), hword _ (by omega), hword _ (by omega), hword _ (by omega)]

theorem messageWords_schedule {t : ℕ} (ht : t < 64) :
    ((messageWords data).getD t 0).toBitVec = schedule data t :=
  (extendWords_schedule data 48).2 t ht

theorem shaRound_hash (v : ShaState) {t : ℕ} (ht : t < 64) :
    (shaRound (messageWords data) v t).hash = Fips180.round data v.hash t := by
  simp only [shaRound, Fips180.round, ShaState.hash, UInt32.toBitVec_add, ep0_toBitVec,
    ep1_toBitVec, shaK_roundConstant t ht, messageWords_schedule data ht]
  rfl

theorem shaRounds_hash (ts : List ℕ) (hts : ∀ t ∈ ts, t < 64) (v : ShaState) :
    (ts.foldl (shaRound (messageWords data)) v).hash = ts.foldl (Fips180.round data) v.hash := by
  induction ts generalizing v with
  | nil => rfl
  | cons t ts ih =>
    rw [List.foldl_cons, List.foldl_cons, ih (fun s hs => hts s (List.mem_cons_of_mem t hs)),
      shaRound_hash data v (hts t List.mem_cons_self)]

/-- The transform is the compression function of the standard. -/
theorem sha256Transform_hash (state : ShaState) :
    (sha256Transform state data).hash = compress state.hash data := by
  rw [compress, ← shaRounds_hash data (List.range 64) fun t ht => List.mem_range.mp ht]
  rfl

theorem foldl_sha256Transform_hash (bs : List (List UInt8)) (state : ShaState) :
    (bs.foldl sha256Transform state).hash = bs.foldl compress state.hash := by
  induction bs generalizing state with
  | nil => rfl
  | cons b bs ih => rw [List.foldl_cons, List.foldl_cons, ih, sha256Transform_hash]

end Transform

namespace ShaBuffer
variable (buffer : ShaBuffer)

/-- What stands in the buffer up to the end of a copy. -/
theorem take_memcpy (offset : ℕ) (src : List UInt8) (h : offset + src.length ≤ 64) :
    (buffer.memcpy offset src).bytes.take (offset + src.length) =
      buffer.bytes.take offset ++ src := by
  have hsize := buffer.size
  apply List.ext_getElem
  · simp [memcpy, hsize]
    omega
  · intro i hi hi'
    have hlt : i < offset + src.length := by
      have hlt := hi
      rw [List.length_take] at hlt
      omega
    simp only [memcpy, List.getElem_take, List.getElem_mapIdx, List.getElem_append,
      List.length_take, hsize]
    split
    next hoff =>
      rw [dif_neg (by omega), List.getD_eq_getElem?_getD,
        List.getElem?_eq_getElem (by omega), Option.getD_some]
      congr 1
      omega
    next hoff => rw [dif_pos (by omega)]

theorem take_memset (offset n : ℕ) (h : offset + n ≤ 64) :
    (buffer.memset offset n).bytes.take (offset + n) =
      buffer.bytes.take offset ++ List.replicate n 0 := by
  have hcopy := buffer.take_memcpy offset (List.replicate n 0)
  rw [List.length_replicate] at hcopy
  exact hcopy h

/-- A copy up to the end of the buffer leaves only what stood before it. -/
theorem memcpy_bytes (offset : ℕ) (src : List UInt8) (h : offset + src.length = 64) :
    (buffer.memcpy offset src).bytes = buffer.bytes.take offset ++ src := by
  have hsize := (buffer.memcpy offset src).size
  rw [← buffer.take_memcpy offset src h.le, h, List.take_of_length_le hsize.le]

end ShaBuffer

/-- The context has taken in exactly this input. -/
structure Holds (ctx : Sha256Ctx) (input : List UInt8) : Prop where
  state : ctx.state =
    (consumed 64 sha256Transform (sha256Init blankCtx).state input).1
  count : ctx.count = UInt64.ofNat input.length
  waiting : ctx.buffer.bytes.take (input.length % 64) = rest 64 input

theorem Holds.index {ctx : Sha256Ctx} {input : List UInt8} (h : Holds ctx input) :
    (ctx.count % 64).toNat = input.length % 64 := by
  rw [h.count, UInt64.toNat_mod, UInt64.toNat_ofNat']
  exact Nat.mod_mod_of_dvd _ (by decide)

theorem Holds.init (ctx : Sha256Ctx) : Holds (sha256Init ctx) [] := by
  refine ⟨?_, rfl, rfl⟩
  rw [consumed, blocks_of_lt (by decide), List.foldl_nil]
  rfl

/-- The end of an update: the blocks are absorbed and the rest waits. -/
theorem absorbBlocks_spec (ctx : Sha256Ctx) (p : List UInt8) :
    (absorbBlocks ctx p).state = (blocks 64 p).foldl sha256Transform ctx.state ∧
      (absorbBlocks ctx p).count = ctx.count ∧
      (absorbBlocks ctx p).buffer.bytes.take (p.length % 64) = rest 64 p := by
  have hrest := length_rest 64 p
  simp only [absorbBlocks, absorb_eq (by decide : 0 < 64)]
  split
  next hpos =>
    refine ⟨rfl, rfl, ?_⟩
    have hcopy := ctx.buffer.take_memcpy 0 (rest 64 p) (by omega)
    rwa [Nat.zero_add, hrest, List.take_zero, List.nil_append] at hcopy
  next hzero =>
    refine ⟨rfl, rfl, ?_⟩
    have hnil : rest 64 p = [] := List.length_eq_zero_iff.mp (by omega)
    rw [← hrest, hnil]
    rfl

/-- An update takes its piece in, whatever the cut. -/
theorem Holds.update {ctx : Sha256Ctx} {input : List UInt8} (h : Holds ctx input)
    (data : List UInt8) : Holds (sha256Update ctx data) (input ++ data) := by
  have hidx := h.index
  have hwait := h.waiting
  have hlen := length_rest 64 input
  have hcount : ctx.count + UInt64.ofNat data.length =
      UInt64.ofNat (input ++ data).length := by
    rw [h.count, List.length_append, UInt64.ofNat_add]
  have hstep := consumed_append (by decide : 0 < 64) sha256Transform
    (sha256Init blankCtx).state input data
  have hrest := rest_append (by decide : 0 < 64) input data
  simp only [sha256Update, hidx]
  split
  next hpos =>
    split
    next hshort =>
      -- the piece does not fill the buffer
      have hlt : (rest 64 input ++ data).length < 64 := by
        rw [List.length_append]
        omega
      refine ⟨?_, hcount, ?_⟩
      · rw [hstep, ← h.state, consumed, consumed, blocks_of_lt hlt]
        rfl
      · have hmod : (input ++ data).length % 64 = input.length % 64 + data.length := by
          rw [List.length_append]
          omega
        rw [hmod, ShaBuffer.take_memcpy _ _ _ (by omega), hwait, hrest, rest_of_lt hlt]
    next hfull =>
      -- the buffer is filled and consumed, then whole blocks of the piece
      have htake : (data.take (64 - input.length % 64)).length = 64 - input.length % 64 :=
        List.length_take_of_le (by omega)
      have hfill : (ctx.buffer.memcpy (input.length % 64)
          (data.take (64 - input.length % 64))).bytes =
          rest 64 input ++ data.take (64 - input.length % 64) := by
        rw [ShaBuffer.memcpy_bytes _ _ _ (by omega), hwait]
      have hblock : (rest 64 input ++ data.take (64 - input.length % 64)).length = 64 := by
        rw [List.length_append]
        omega
      have hcut : rest 64 input ++ data =
          (rest 64 input ++ data.take (64 - input.length % 64)) ++
            data.drop (64 - input.length % 64) := by
        rw [List.append_assoc, List.take_append_drop]
      obtain ⟨hstate, hcnt, hbuf⟩ := absorbBlocks_spec
        { ctx with
          state := sha256Transform ctx.state (ctx.buffer.memcpy (input.length % 64)
            (data.take (64 - input.length % 64))).bytes
          count := ctx.count + UInt64.ofNat data.length
          buffer := ctx.buffer.memcpy (input.length % 64)
            (data.take (64 - input.length % 64)) }
        (data.drop (64 - input.length % 64))
      refine ⟨?_, hcnt.trans hcount, ?_⟩
      · rw [hstate, hstep, ← h.state, hfill, consumed, consumed, hcut,
          blocks_cons (by decide) hblock, List.foldl_cons]
      · have hmod : (input ++ data).length % 64 =
            (data.drop (64 - input.length % 64)).length % 64 := by
          rw [List.length_append, List.length_drop]
          omega
        rw [hmod, hbuf, hrest, hcut, rest_cons (by decide) hblock]
  next hzero =>
    have hnil : rest 64 input = [] := List.length_eq_zero_iff.mp (by omega)
    obtain ⟨hstate, hcnt, hbuf⟩ :=
      absorbBlocks_spec { ctx with count := ctx.count + UInt64.ofNat data.length } data
    refine ⟨?_, hcnt.trans hcount, ?_⟩
    · rw [hstate, hstep, ← h.state, consumed, consumed, hnil, List.nil_append]
    · have hmod : (input ++ data).length % 64 = data.length % 64 := by
        rw [List.length_append]
        omega
      rw [hmod, hbuf, hrest, hnil, List.nil_append]

theorem Holds.updates {ctx : Sha256Ctx} {input : List UInt8} (h : Holds ctx input)
    (pieces : List (List UInt8)) :
    Holds (pieces.foldl sha256Update ctx) (input ++ pieces.flatten) := by
  induction pieces generalizing ctx input with
  | nil => simpa using h
  | cons piece pieces ih =>
    rw [List.foldl_cons, List.flatten_cons, ← List.append_assoc]
    exact ih (h.update piece)

theorem lengthField_eq (n : ℕ) :
    lengthField (UInt64.ofNat n * 8) = bigEndian 8 (8 * n) := by
  apply List.map_congr_left
  intro i hi
  have hi' : i < 8 := List.mem_range.mp hi
  apply UInt8.toNat_inj.mp
  have hbits : (UInt64.ofNat n * 8).toNat = 8 * n % 2 ^ 64 := by
    rw [UInt64.toNat_mul, UInt64.toNat_ofNat', UInt64.toNat_ofNat, Nat.mod_mul_mod, Nat.mul_comm]
  have hmask (m : ℕ) : m &&& 255 = m % 256 := Nat.and_two_pow_sub_one_eq_mod m 8
  interval_cases i <;>
    simp [hbits, hmask, Nat.shiftRight_eq_div_pow] <;> omega

theorem wordBytes_eq (w : UInt32) : wordBytes w = bigEndian 4 w.toBitVec.toNat := by
  have hmask (m : ℕ) : m &&& 255 = m % 256 := Nat.and_two_pow_sub_one_eq_mod m 8
  simp [wordBytes, bigEndian, List.range_succ, ← UInt8.toNat_inj, hmask,
    Nat.shiftRight_eq_div_pow]

/-- The hash bytes after the blocks that close the message are its digest. -/
theorem Holds.digest {ctx : Sha256Ctx} {input : List UInt8} (h : Holds ctx input) :
    (hashBytes ((blocks 64 (rest 64 input ++ padding input.length)).foldl
      sha256Transform ctx.state)).val = sha256 input := by
  have hbytes (s : ShaState) :
      (hashBytes s).val = s.hash.toList.flatMap fun w => bigEndian 4 w.toNat := by
    simp only [hashBytes, ShaState.hash, Hash.toList, List.flatMap_cons, List.flatMap_nil,
      wordBytes_eq]
  rw [hbytes, h.state, consumed, ← List.foldl_append, ← blocks_append (by decide), ← pad,
    foldl_sha256Transform_hash, sha256, initial_hash]

/-- The last step gives the digest of the input taken in. -/
theorem Holds.final {ctx : Sha256Ctx} {input : List UInt8} (h : Holds ctx input) :
    (sha256Final ctx).val = sha256 input := by
  have hlen := length_rest 64 input
  have hfield : (lengthField (ctx.count * 8)).length = 8 := by simp [lengthField]
  have hbits : lengthField (ctx.count * 8) = bigEndian 8 (8 * input.length) := by
    rw [h.count, lengthField_eq]
  have hmark : (ctx.buffer.memcpy (input.length % 64) [0x80]).bytes.take
      (input.length % 64 + 1) = rest 64 input ++ [0x80] := by
    rw [← h.waiting]
    exact ctx.buffer.take_memcpy _ [0x80] (by rw [List.length_singleton]; omega)
  rw [← h.digest]
  simp only [sha256Final, h.index]
  split
  next hlong =>
    -- the marker leaves no room for the length, which gets a block of its own
    have hzeros : zeroCount input.length = (64 - (input.length % 64 + 1)) + 56 := by
      rw [zeroCount]
      omega
    have hfirst : (rest 64 input ++ [0x80] ++
        List.replicate (64 - (input.length % 64 + 1)) 0).length = 64 := by
      simp only [List.length_append, List.length_singleton, List.length_replicate]
      omega
    have hlast : (List.replicate 56 0 ++ bigEndian 8 (8 * input.length)).length = 64 := by
      simp
    have hcut : rest 64 input ++ padding input.length =
        (rest 64 input ++ [0x80] ++ List.replicate (64 - (input.length % 64 + 1)) 0) ++
          ((List.replicate 56 0 ++ bigEndian 8 (8 * input.length)) ++ []) := by
      rw [padding, hzeros, List.replicate_add]
      simp
    have hclear (full : ShaBuffer) :
        (full.memset 0 56).bytes.take 56 = List.replicate 56 0 :=
      full.take_memset 0 56 (by decide)
    rw [hcut, blocks_cons (by decide) hfirst, blocks_cons (by decide) hlast,
      blocks_of_lt (by decide), ShaBuffer.memcpy_bytes _ _ _ (by rw [hfield]), hbits,
      hclear, ShaBuffer.memset, ShaBuffer.memcpy_bytes _ _ _ (by simp; omega), hmark]
    rfl
  next hshort =>
    have hzeros : zeroCount input.length = 56 - (input.length % 64 + 1) := by
      rw [zeroCount]
      omega
    have hlast : (rest 64 input ++ [0x80] ++
        List.replicate (56 - (input.length % 64 + 1)) 0 ++
          bigEndian 8 (8 * input.length)).length = 64 := by
      simp only [List.length_append, List.length_singleton, List.length_replicate,
        length_bigEndian]
      omega
    have hcut : rest 64 input ++ padding input.length =
        (rest 64 input ++ [0x80] ++ List.replicate (56 - (input.length % 64 + 1)) 0 ++
          bigEndian 8 (8 * input.length)) ++ [] := by
      rw [padding, hzeros]
      simp
    have hfill := (ctx.buffer.memcpy (input.length % 64) [0x80]).take_memset
      (input.length % 64 + 1) (56 - (input.length % 64 + 1)) (by omega)
    rw [Nat.add_sub_cancel' (by omega), hmark] at hfill
    rw [hcut, blocks_cons (by decide) hlast, blocks_of_lt (by decide),
      ShaBuffer.memcpy_bytes _ _ _ (by rw [hfield]), hbits, hfill]
    rfl

/-- Any cut of a message into updates gives its digest. The length bound of the standard is
not needed: the length field of both wraps. -/
theorem sha256_streaming (ctx : Sha256Ctx) (pieces : List (List UInt8)) :
    (sha256Final (pieces.foldl sha256Update (sha256Init ctx))).val = sha256 pieces.flatten :=
  ((Holds.init ctx).updates pieces).final

end Treehash
