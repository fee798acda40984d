import Pclsync.Crypto.Blocks

/-! Sectors of a file, encoded and decoded.

A sector shorter than a block is masked with the nonce. A longer one is chained from the
first block of its HMAC on, and a last block that is not full steals the end of the
encoded block before it. -/
namespace Pclsync.Crypto
open Lib.Files Lib.Machine Lib.Chaining

/-- `psync_aes256_encode_2blocks_consec`. -/
def Aes.encode2BlocksConsec (aes : Aes) (src : Bytes) : Bytes :=
  aes.encode (src.take blockSize) ++ aes.encode (pread src blockSize blockSize)

/-- `psync_aes256_decode_2blocks_consec`. -/
def Aes.decode2BlocksConsec (aes : Aes) (src : Bytes) : Bytes :=
  aes.decode (src.take blockSize) ++ aes.decode (pread src blockSize blockSize)

/-- `psync_aes256_decode_4blocks_consec_xor`. -/
def Aes.decode4BlocksConsecXor (aes : Aes) (src bxor : Bytes) : Bytes :=
  (List.range 4).flatMap fun i =>
    xor16Unaligned (aes.decode (pread src blockSize (blockSize * i))) (pread bxor blockSize (blockSize * i))

/-- `memcmp_const`. -/
def memcmpConst (s1 s2 : Bytes) (cnt : ℕ) : ℕ :=
  let r := (List.range cnt).foldl (fun r i => r ||| (get s1 i ^^^ get s2 i).toNat) 0
  (u32 (r + 2 ^ 32 - 1) >>> 8 &&& 1) ^^^ 1

/-! ### Encoding -/

/-- The loop of `psync_crypto_aes256_encode_sector` over `n` blocks: what it writes to `out`, and `aessrc`. -/
def encodeBlocks (aes : Aes) (longSize : ℕ) (aligned : Bool) : ℕ → Bytes → Bytes → Bytes × Bytes
  | 0, aessrc, _ => ([], aessrc)
  | n + 1, aessrc, data =>
    let aesdst := aes.encode (xor16 longSize aligned aessrc (data.take blockSize))
    let (out, aessrc) := encodeBlocks aes longSize aligned n aesdst (data.drop blockSize)
    (aesdst ++ out, aessrc)

/-- A last block of `needsteal` bytes and the full block before it. -/
def encodeStolen (aes : Aes) (needsteal : ℕ) (aessrc data : Bytes) : Bytes :=
  let aesdst := aes.encode (xor16Unaligned aessrc (data.take blockSize))
  let stolen := aesdst.take needsteal
  let aesdst := xorCnt aesdst (data.drop blockSize) needsteal
  aes.encode aesdst ++ stolen

/-- `psync_crypto_aes256_encode_sector`, with the nonce that it takes. `data` and `out` are aligned to longs
or not. -/
def encodeSector (aes : Aes) (sha512 : Sha512) (longSize : ℕ) (aligned : Bool) (iv rnd data : Bytes) (sectorid : ℕ) :
    Bytes × Bytes :=
  let hmac := hmacSha512 sha512 (data ++ ofNat 8 sectorid ++ rnd) iv
  if data.length < blockSize then
    let aessrc := xorCnt rnd data data.length
    (rnd.take data.length, aes.encode2BlocksConsec (aessrc ++ hmac.take blockSize))
  else
    let needsteal := data.length % 16
    let datalen := if needsteal ≠ 0 then data.length - (needsteal + blockSize) else data.length
    let auth := aes.encode2BlocksConsec (rnd.take (blockSize / 2) ++ hmac.take blockSize ++ pread rnd (blockSize / 2) (blockSize / 2))
    let (out, aessrc) := encodeBlocks aes longSize aligned (datalen / blockSize) (hmac.take blockSize) data
    if needsteal ≠ 0 then (out ++ encodeStolen aes needsteal aessrc (data.drop datalen), auth) else (out, auth)

/-! ### Decoding -/

/-- The loop of `psync_crypto_aes256_decode_sector` over four blocks at a time: what it writes to `out`, and
`aesxor`. -/
def decode4Blocks (aes : Aes) : ℕ → Bytes → Bytes → Bytes × Bytes
  | 0, aesxor, _ => ([], aesxor)
  | n + 1, aesxor, data =>
    let aessrc := data.take (blockSize * 4)
    let aesdst := aes.decode4BlocksConsecXor aessrc (aesxor ++ aessrc.take (blockSize * 3))
    let (out, aesxor) := decode4Blocks aes n (pread aessrc blockSize (blockSize * 3)) (data.drop (blockSize * 4))
    (aesdst ++ out, aesxor)

/-- The loop over the blocks that remain. -/
def decodeBlocks (aes : Aes) (longSize : ℕ) : ℕ → Bytes → Bytes → Bytes × Bytes
  | 0, aesxor, _ => ([], aesxor)
  | n + 1, aesxor, data =>
    let aessrc := data.take blockSize
    let aesdst := xor16Aligned longSize (aes.decode aessrc) aesxor
    let (out, aesxor) := decodeBlocks aes longSize n aessrc (data.drop blockSize)
    (aesdst ++ out, aesxor)

/-- Both loops: `out`, `aesxor` and the data after them. -/
def decodeLoops (aes : Aes) (longSize datalen : ℕ) (aesxor data : Bytes) : Bytes × Bytes × Bytes :=
  let fours := datalen / (blockSize * 4)
  let (out4, aesxor) := decode4Blocks aes fours aesxor data
  let data := data.drop (blockSize * 4 * fours)
  let rest := (datalen - blockSize * 4 * fours) / blockSize
  let (out, aesxor) := decodeBlocks aes longSize rest aesxor data
  (out4 ++ out, aesxor, data.drop (blockSize * rest))

/-- A full block, and the last block of `needsteal` bytes. -/
def decodeStolen (aes : Aes) (longSize needsteal : ℕ) (aesxor data : Bytes) : Bytes :=
  let stolen := pread data needsteal blockSize
  let aesdst := xorCnt (aes.decode (data.take blockSize)) stolen needsteal
  let tail := aesdst.take needsteal
  let aesdst := stolen ++ aesdst.drop needsteal
  xor16Aligned longSize (aes.decode aesdst) aesxor ++ tail

/-- What `psync_crypto_aes256_decode_sector` writes to `out` and leaves in `hmac`. -/
def decodeData (aes : Aes) (longSize : ℕ) (data auth : Bytes) : Bytes × Bytes :=
  let hmac := aes.decode2BlocksConsec auth
  if data.length < blockSize then
    let hmac := xorCnt hmac data data.length
    (hmac.take data.length, data ++ hmac.drop data.length)
  else
    let needsteal := data.length % 16
    let datalen := if needsteal ≠ 0 then data.length - (needsteal + blockSize) else data.length
    let aesxor := pread hmac blockSize (blockSize / 2)
    let hmac := hmac.take (blockSize / 2) ++ pread hmac (blockSize / 2) (blockSize + blockSize / 2) ++ aesxor
    let (out, aesxor, data) := decodeLoops aes longSize datalen aesxor data
    if needsteal ≠ 0 then (out ++ decodeStolen aes longSize needsteal aesxor data, hmac) else (out, hmac)

/-- `psync_crypto_aes256_decode_sector`: what it returns, and `out`. -/
def decodeSector (aes : Aes) (sha512 : Sha512) (longSize : ℕ) (iv data auth : Bytes) (sectorid : ℕ) : ℤ × Bytes :=
  let (out, hmac) := decodeData aes longSize data auth
  let digest := hmacSha512 sha512 (out ++ ofNat 8 sectorid ++ hmac.take blockSize) iv
  (-memcmpConst digest (hmac.drop blockSize) blockSize, out)

/-! ### Loops -/

variable {aes : Aes} {longSize : ℕ} {aligned : Bool} {aessrc aesxor data out auth rnd iv : Bytes} {n sectorid : ℕ}

theorem encodeBlocks_eq (hsrc : aessrc.length = blockSize) (hdata : n * blockSize ≤ data.length) :
    encodeBlocks aes longSize aligned n aessrc data =
      ((chain aes.mode aessrc (blocks n data)).flatten, last aessrc (chain aes.mode aessrc (blocks n data))) := by
  induction n generalizing aessrc data with
  | zero => rfl
  | succ n ih =>
    rw [Nat.succ_mul] at hdata
    have hblock : (data.take blockSize).length = blockSize := by
      rw [List.length_take]
      omega
    have hxor : xor16 longSize aligned aessrc (data.take blockSize) = xor16Unaligned (data.take blockSize) aessrc := by
      rw [xor16_eq longSize aligned (Nat.le_of_eq hsrc.symm) (Nat.le_of_eq hblock.symm), xor16Unaligned_comm hsrc hblock]
    have hdst : (aes.encode (xor16Unaligned (data.take blockSize) aessrc)).length = blockSize :=
      aes.mode.block_encode (aes.mode.block_xor hblock hsrc)
    have hrest : n * blockSize ≤ (data.drop blockSize).length := by
      rw [List.length_drop]
      omega
    rw [encodeBlocks, hxor, ih hdst hrest, blocks, chain, List.flatten_cons, last_cons]
    rfl

theorem decodeBlocks_eq (hxor : aesxor.length = blockSize) (hdata : n * blockSize ≤ data.length) :
    decodeBlocks aes longSize n aesxor data =
      ((unchain aes.mode aesxor (blocks n data)).flatten, last aesxor (blocks n data)) := by
  induction n generalizing aesxor data with
  | zero => rfl
  | succ n ih =>
    rw [Nat.succ_mul] at hdata
    have hblock : (data.take blockSize).length = blockSize := by
      rw [List.length_take]
      omega
    have hdst := xor16Aligned_eq longSize (Nat.le_of_eq (aes.length_decode _ hblock).symm) (Nat.le_of_eq hxor.symm)
    have hrest : n * blockSize ≤ (data.drop blockSize).length := by
      rw [List.length_drop]
      omega
    rw [decodeBlocks, hdst, ih hblock hrest, blocks, unchain, List.flatten_cons, last_cons]
    rfl

/-- Four blocks at once are four blocks one after the other. -/
theorem decode4BlocksConsecXor_eq (hxor : aesxor.length = blockSize) :
    aes.decode4BlocksConsecXor (data.take (blockSize * 4)) (aesxor ++ (data.take (blockSize * 4)).take (blockSize * 3)) =
      (unchain aes.mode aesxor (blocks 4 data)).flatten := by
  have hsrc : ∀ i < 4, pread (data.take (blockSize * 4)) blockSize (blockSize * i) = pread data blockSize (blockSize * i) :=
    fun i hi => pread_take (by rw [blockSize]; omega)
  have hxors : ∀ i < 3, pread (aesxor ++ (data.take (blockSize * 4)).take (blockSize * 3)) blockSize
      (blockSize * (i + 1)) = pread data blockSize (blockSize * i) := by
    intro i hi
    have hnext : blockSize * (i + 1) = blockSize + blockSize * i := by rw [Nat.mul_succ, Nat.add_comm]
    rw [hnext, pread_append_right hxor, pread_take (by rw [blockSize]; omega), hsrc i (by omega)]
  have hfirst : pread (aesxor ++ (data.take (blockSize * 4)).take (blockSize * 3)) blockSize (blockSize * 0) = aesxor := by
    rw [Nat.mul_zero, pread_zero, List.take_left' hxor]
  have hblocks : blocks 4 data = [pread data blockSize (blockSize * 0), pread data blockSize (blockSize * 1),
      pread data blockSize (blockSize * 2), pread data blockSize (blockSize * 3)] := by
    simp only [blocks, pread, List.drop_drop]
    rfl
  have hrange : List.range 4 = [0, 1, 2, 3] := rfl
  rw [Aes.decode4BlocksConsecXor, hrange, hblocks]
  simp only [List.flatMap_cons, List.flatMap_nil, unchain, List.flatten_cons, List.flatten_nil, hfirst, hsrc 0 (by omega),
    hsrc 1 (by omega), hsrc 2 (by omega), hsrc 3 (by omega), hxors 0 (by omega), hxors 1 (by omega), hxors 2 (by omega)]
  rfl

theorem decode4Blocks_eq (hxor : aesxor.length = blockSize) (hdata : 4 * n * blockSize ≤ data.length) :
    decode4Blocks aes n aesxor data =
      ((unchain aes.mode aesxor (blocks (4 * n) data)).flatten, last aesxor (blocks (4 * n) data)) := by
  induction n generalizing aesxor data with
  | zero => rfl
  | succ n ih =>
    have hfour : blockSize * 4 ≤ data.length ∧ 4 * n * blockSize ≤ (data.drop (blockSize * 4)).length := by
      rw [List.length_drop]
      rw [blockSize] at *
      omega
    have hlast : pread (data.take (blockSize * 4)) blockSize (blockSize * 3) = last aesxor (blocks 4 data) := by
      rw [pread_take (by rw [blockSize])]
      simp only [blocks, last, List.drop_drop, pread]
      rfl
    have hnext : (last aesxor (blocks 4 data)).length = blockSize := by
      rw [← hlast, length_pread, List.length_take]
      rw [blockSize] at *
      omega
    have hall : blocks (4 * (n + 1)) data = blocks 4 data ++ blocks (4 * n) (data.drop (blockSize * 4)) := by
      rw [Nat.mul_succ, Nat.add_comm, blocks_add, Nat.mul_comm blockSize]
    rw [decode4Blocks, decode4BlocksConsecXor_eq hxor, hlast, ih hnext hfour.2, hall, unchain_append, last_append,
      List.flatten_append]

theorem decodeLoops_eq (hxor : aesxor.length = blockSize) (hdata : n * blockSize ≤ data.length) :
    decodeLoops aes longSize (n * blockSize) aesxor data =
      ((unchain aes.mode aesxor (blocks n data)).flatten, last aesxor (blocks n data), data.drop (n * blockSize)) := by
  have hfours : n * blockSize / (blockSize * 4) = n / 4 := by
    rw [Nat.mul_comm n, Nat.mul_div_mul_left _ _ (by decide)]
  have hrest : (n * blockSize - blockSize * 4 * (n / 4)) / blockSize = n % 4 := by
    rw [blockSize]
    omega
  have hsplit : blocks n data = blocks (4 * (n / 4)) data ++ blocks (n % 4) (data.drop (blockSize * 4 * (n / 4))) := by
    nth_rewrite 1 [← Nat.div_add_mod n 4]
    rw [blocks_add, Nat.mul_comm (4 * (n / 4)), ← Nat.mul_assoc]
  have hfirst : 4 * (n / 4) * blockSize ≤ data.length := Nat.le_trans (Nat.mul_le_mul_right _ (Nat.mul_div_le ..)) hdata
  have hlast : (last aesxor (blocks (4 * (n / 4)) data)).length = blockSize :=
    block_last (m := aes.mode) hxor (length_blocks hfirst)
  have hsecond : n % 4 * blockSize ≤ (data.drop (blockSize * 4 * (n / 4))).length := by
    rw [List.length_drop, blockSize] at *
    omega
  rw [decodeLoops, hfours, decode4Blocks_eq hxor hfirst]
  simp only [hrest]
  have hend : blockSize * 4 * (n / 4) + blockSize * (n % 4) = n * blockSize := by
    rw [blockSize]
    omega
  rw [decodeBlocks_eq hlast hsecond, hsplit, unchain_append, last_append, List.flatten_append, List.drop_drop, hend]

/-- Masked bytes masked with what masked them. -/
theorem xorCnt_unmask {block tail : Bytes} (hblock : n ≤ block.length) (htail : tail.length = n) :
    xorCnt (xorCnt block tail n) (block.take n) n = tail ++ block.drop n := by
  have hmask : (xorCnt block tail n).length = block.length := length_xorCnt (Nat.le_of_eq htail.symm)
  have htake : (block.take n).length = n := by
    rw [List.length_take]
    omega
  refine ext_get ?_ fun i _ => ?_
  · rw [length_xorCnt (Nat.le_of_eq htake.symm), hmask, List.length_append, List.length_drop]
    omega
  · rw [get_xorCnt (by omega) (by omega), get_xorCnt hblock (by omega), get_append, get_take, get_drop, htail]
    split_ifs with hi
    · rw [UInt8.xor_comm (get block i), UInt8.xor_assoc, UInt8.xor_self, UInt8.xor_zero]
    · rw [Nat.add_sub_cancel' (Nat.not_lt.mp hi)]

/-- What was stolen is given back. -/
theorem decodeStolen_encodeStolen (aes : Aes) (longSize : ℕ) {needsteal : ℕ} (hsteal : needsteal < blockSize) (hsrc : aessrc.length = blockSize)
    (hdata : data.length = blockSize + needsteal) :
    decodeStolen aes longSize needsteal aessrc (encodeStolen aes needsteal aessrc data) = data := by
  have hblock : (data.take blockSize).length = blockSize := by
    rw [List.length_take]
    omega
  have htail : (data.drop blockSize).length = needsteal := by
    rw [List.length_drop]
    omega
  have hxor : (xor16Unaligned aessrc (data.take blockSize)).length = blockSize := aes.mode.block_xor hsrc hblock
  have hback : aes.decode (aes.encode (xor16Unaligned aessrc (data.take blockSize))) =
      xor16Unaligned aessrc (data.take blockSize) := aes.decode_encode _ hxor
  have hdst := aes.length_encode _ hxor
  rw [encodeStolen, decodeStolen]
  generalize aes.encode (xor16Unaligned aessrc (data.take blockSize)) = aesdst at hback hdst ⊢
  have hmask : (xorCnt aesdst (data.drop blockSize) needsteal).length = blockSize :=
    (length_xorCnt (Nat.le_of_eq htail.symm)).trans hdst
  have hcode := aes.length_encode _ hmask
  have htake : (aesdst.take needsteal).length = needsteal := by
    rw [List.length_take]
    omega
  simp only [pread_append_exact hcode htake, List.take_left' hcode, aes.decode_encode _ hmask]
  rw [xorCnt_unmask (by omega) htail, List.take_left' htail, List.drop_left' htail, List.take_append_drop, hback,
    xor16Aligned_eq longSize (Nat.le_of_eq hxor.symm) (Nat.le_of_eq hsrc.symm), xor16Unaligned_comm hsrc hblock]
  have hcancel : xor16Unaligned (xor16Unaligned (data.take blockSize) aessrc) aessrc = data.take blockSize :=
    aes.mode.xor_xor hblock hsrc
  rw [hcancel, List.take_append_drop]

/-! ### Sectors -/

theorem decode2BlocksConsec_encode (hsrc : aessrc.length = blockSize * 2) :
    aes.decode2BlocksConsec (aes.encode2BlocksConsec aessrc) = aessrc := by
  have hfirst : (aessrc.take blockSize).length = blockSize := by
    rw [List.length_take]
    omega
  have hsecond : (pread aessrc blockSize blockSize).length = blockSize := by
    rw [length_pread]
    omega
  have hcode := aes.length_encode _ hfirst
  have hrest : pread aessrc blockSize blockSize = aessrc.drop blockSize :=
    List.take_of_length_le (by rw [List.length_drop]; omega)
  rw [Aes.encode2BlocksConsec, Aes.decode2BlocksConsec, List.take_left' hcode,
    pread_append_exact hcode (aes.length_encode _ hsecond), aes.decode_encode _ hfirst,
    aes.decode_encode _ hsecond, hrest, List.take_append_drop]

theorem memcmpConst_self (s : Bytes) {cnt : ℕ} : memcmpConst s (s.take cnt) cnt = 0 := by
  have hzero : ∀ l : List ℕ, (∀ i ∈ l, i < cnt) →
      l.foldl (fun r i => r ||| (get s i ^^^ get (s.take cnt) i).toNat) 0 = 0 := by
    intro l hl
    induction l with
    | nil => rfl
    | cons i l ih =>
      obtain ⟨hi, hl⟩ := List.forall_mem_cons.mp hl
      rw [List.foldl_cons, get_take, if_pos hi, UInt8.xor_self]
      exact ih hl
  rw [memcmpConst, hzero _ fun i hi => List.mem_range.mp hi]
  decide

theorem length_encodeStolen (aes : Aes) {needsteal : ℕ} (hsteal : needsteal < blockSize) (hsrc : aessrc.length = blockSize)
    (hdata : data.length = blockSize + needsteal) : (encodeStolen aes needsteal aessrc data).length = data.length := by
  have hblock : (data.take blockSize).length = blockSize := by
    rw [List.length_take]
    omega
  have htail : needsteal ≤ (data.drop blockSize).length := by
    rw [List.length_drop]
    omega
  have hdst : (aes.encode (xor16Unaligned aessrc (data.take blockSize))).length = blockSize :=
    aes.mode.block_encode (aes.mode.block_xor hsrc hblock)
  rw [encodeStolen, List.length_append, aes.length_encode _ ((length_xorCnt htail).trans hdst), List.length_take, hdst, hdata]
  omega

theorem decodeLoops_chain (aes : Aes) (longSize : ℕ) (hsrc : aessrc.length = blockSize) (hdata : n * blockSize ≤ data.length) (tail : Bytes) :
    decodeLoops aes longSize (n * blockSize) aessrc ((chain aes.mode aessrc (blocks n data)).flatten ++ tail) =
      (data.take (n * blockSize), last aessrc (chain aes.mode aessrc (blocks n data)), tail) := by
  have hblocks := length_blocks hdata
  have hcode : ∀ c ∈ chain aes.mode aessrc (blocks n data), c.length = blockSize := chain_blocks hsrc hblocks
  have hcount : (chain aes.mode aessrc (blocks n data)).length = n := length_chain.trans count_blocks
  have hlen : (chain aes.mode aessrc (blocks n data)).flatten.length = n * blockSize := by
    rw [length_flatten hcode, hcount]
  have hread := blocks_flatten tail hcode
  rw [hcount] at hread
  rw [decodeLoops_eq hsrc (by rw [List.length_append, hlen]; omega), hread, unchain_chain hsrc hblocks, flatten_blocks,
    List.drop_left' hlen]

/-- The nonce and the start of the digest come out of the first record of a long sector. -/
theorem shuffle_back {half : Bytes} (hrnd : rnd.length = blockSize) (hhalf : half.length = blockSize) :
    let hmac := rnd.take (blockSize / 2) ++ half ++ pread rnd (blockSize / 2) (blockSize / 2)
    hmac.length = blockSize * 2 ∧ pread hmac blockSize (blockSize / 2) = half ∧
      hmac.take (blockSize / 2) ++ pread hmac (blockSize / 2) (blockSize + blockSize / 2) = rnd := by
  have hfirst : (rnd.take (blockSize / 2)).length = blockSize / 2 := by
    rw [List.length_take, hrnd]
    rfl
  have hsecond : (pread rnd (blockSize / 2) (blockSize / 2)).length = blockSize / 2 := by
    rw [length_pread, hrnd]
    rfl
  have hboth : (rnd.take (blockSize / 2) ++ half).length = blockSize + blockSize / 2 := by
    rw [List.length_append, hfirst, hhalf]
    rfl
  refine ⟨?_, ?_, ?_⟩
  · rw [List.length_append, hboth, hsecond]
    rfl
  · rw [pread_append_left (by rw [hboth, Nat.add_comm]), pread_append_exact hfirst hhalf]
  · rw [pread_append_exact hboth hsecond, List.append_assoc, List.take_left' hfirst]
    have hrest : pread rnd (blockSize / 2) (blockSize / 2) = rnd.drop (blockSize / 2) :=
      List.take_of_length_le (by rw [List.length_drop, hrnd]; decide)
    rw [hrest, List.take_append_drop]

/-- Decoding gives the data back, and the nonce and digest that the record was made of. -/
theorem decodeData_encodeSector (aes : Aes) (sha512 : Sha512) (longSize : ℕ) (aligned : Bool) (iv data : Bytes)
    (sectorid : ℕ) (hrnd : rnd.length = blockSize) :
    let (out, auth) := encodeSector aes sha512 longSize aligned iv rnd data sectorid
    decodeData aes longSize out auth =
      (data, rnd ++ (hmacSha512 sha512 (data ++ ofNat 8 sectorid ++ rnd) iv).take blockSize) := by
  have hhalf : ((hmacSha512 sha512 (data ++ ofNat 8 sectorid ++ rnd) iv).take blockSize).length = blockSize := by
    rw [List.length_take, length_hmacSha512]
    rfl
  rw [encodeSector]
  generalize (hmacSha512 sha512 (data ++ ofNat 8 sectorid ++ rnd) iv).take blockSize = half at hhalf ⊢
  by_cases hshort : data.length < blockSize
  · have hmask : (xorCnt rnd data data.length).length = blockSize := (length_xorCnt (Nat.le_refl _)).trans hrnd
    have hout : (rnd.take data.length).length = data.length := by
      rw [List.length_take]
      omega
    have hplain : (xorCnt rnd data data.length ++ half).length = blockSize * 2 := by
      rw [List.length_append, hmask, hhalf]
      rfl
    simp only [if_pos hshort]
    rw [decodeData, decode2BlocksConsec_encode hplain, hout, if_pos hshort, xorCnt_append (by omega),
      xorCnt_unmask (by omega) rfl, List.append_assoc]
    simp only [List.take_left, List.drop_left]
    rw [← List.append_assoc, List.take_append_drop]
  · obtain ⟨hplain, hread, hback⟩ := shuffle_back hrnd hhalf
    simp only [if_neg hshort]
    by_cases hsteal : data.length % 16 = 0
    · obtain ⟨n, hn⟩ : ∃ n, data.length = n * blockSize := ⟨data.length / 16, by rw [blockSize]; omega⟩
      have hout : (chain aes.mode half (blocks n data)).flatten.length = data.length := by
        rw [length_flatten (chain_blocks hhalf (length_blocks (Nat.le_of_eq hn.symm))), length_chain, count_blocks, hn]
      have hloops := decodeLoops_chain aes longSize hhalf (Nat.le_of_eq hn.symm) []
      rw [List.append_nil, ← hn, List.take_length] at hloops
      simp only [hsteal, ne_eq, not_true, if_false]
      rw [hn, Nat.mul_div_cancel _ (by decide), encodeBlocks_eq hhalf (Nat.le_of_eq hn.symm)]
      simp only [decodeData, decode2BlocksConsec_encode hplain, hread, hback, hout, if_neg hshort, hsteal, ne_eq, not_true,
        if_false, hloops]
    · obtain ⟨n, hn⟩ : ∃ n, data.length - (data.length % 16 + blockSize) = n * blockSize :=
        ⟨data.length / 16 - 1, by rw [blockSize]; omega⟩
      have hdata : n * blockSize ≤ data.length := by omega
      have hlast : (last half (chain aes.mode half (blocks n data))).length = blockSize :=
        block_last (m := aes.mode) hhalf (chain_blocks hhalf (length_blocks hdata))
      have hrest : (data.drop (n * blockSize)).length = blockSize + data.length % 16 := by
        rw [List.length_drop, blockSize] at *
        omega
      have hlt : data.length % 16 < blockSize := Nat.mod_lt _ (by decide)
      have hstolen := length_encodeStolen aes hlt hlast hrest
      have hout : ((chain aes.mode half (blocks n data)).flatten ++ encodeStolen aes (data.length % 16)
          (last half (chain aes.mode half (blocks n data))) (data.drop (n * blockSize))).length = data.length := by
        rw [List.length_append, hstolen, length_flatten (chain_blocks hhalf (length_blocks hdata)), length_chain, count_blocks,
          List.length_drop]
        omega
      have hback' := decodeStolen_encodeStolen aes longSize hlt hlast hrest
      simp only [hsteal, ne_eq, not_false_eq_true, if_true, hn]
      rw [Nat.mul_div_cancel _ (by decide), encodeBlocks_eq hhalf hdata]
      simp only [decodeData, decode2BlocksConsec_encode hplain, hread, hback, hout, if_neg hshort, hsteal, ne_eq,
        not_false_eq_true, if_true, hn, decodeLoops_chain aes longSize hhalf hdata, hback', List.take_append_drop]

/-- **Sectors round-trip.** A sector decodes to the data that it was encoded from, whatever the key, the sector, the
nonce and the length. -/
theorem sector_round_trip (aes : Aes) (sha512 : Sha512) (longSize : ℕ) (aligned : Bool) (iv data : Bytes) (sectorid : ℕ)
    (rnd : Block) :
    let (out, auth) := encodeSector aes sha512 longSize aligned iv rnd data sectorid
    decodeSector aes sha512 longSize iv out auth sectorid = (0, data) := by
  obtain ⟨rnd, hrnd⟩ := rnd
  have hdecode := decodeData_encodeSector aes sha512 longSize aligned iv data sectorid hrnd
  generalize encodeSector aes sha512 longSize aligned iv rnd data sectorid = sector at hdecode ⊢
  obtain ⟨out, auth⟩ := sector
  simp only at hdecode ⊢
  rw [decodeSector, hdecode]
  simp only [List.take_left' hrnd, List.drop_left' hrnd, memcmpConst_self]
  rfl

end Pclsync.Crypto
