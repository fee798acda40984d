import Pclsync.Crypto.Blocks
import Pclsync.Lib.CipherModes

/-! Counter mode of `pcrypto.c`: a text is combined with blocks that AES makes of its places.

`data` is the memory from the text on, and a call that goes on behind it returns `none`. -/
namespace Pclsync.Crypto
open Lib.Files Lib.Machine

/-- `sizeof(unsigned long)`. -/
abbrev LongSize := { n : ℕ // n = 4 ∨ n = 8 }

/-- `psync_crypto_aes256_ctr_encoder_decoder_t`. -/
structure CtrEncoder where
  aes : Aes
  iv : Block

/-- `copy_iv_and_xor_with_counter`. -/
def copyIvAndXorWithCounter (longSize : LongSize) (dest iv : Bytes) (counter : ℕ) : Bytes :=
  if longSize.1 = 8 then pwrite dest (ofNat 8 (toNat (pread iv 8 0) ^^^ counter)) 0
  else
    let dest := pwrite dest (ofNat 4 (toNat (pread iv 4 0) ^^^ (counter &&& 0xffffffff))) 0
    pwrite dest (ofNat 4 (toNat (pread iv 4 4) ^^^ (counter >>> 32))) 4

/-- The loop over `n` whole blocks: what they become, and the memory behind them. -/
def ctrBlocks (enc : CtrEncoder) (longSize : LongSize) (aligned : Bool) : ℕ → ℕ → Bytes → Bytes → Option (Bytes × Bytes)
  | 0, _, _, data => some ([], data)
  | n + 1, counter, aessrc, data =>
    if data.length < blockSize then none
    else
      let aessrc := copyIvAndXorWithCounter longSize aessrc enc.iv.1 counter
      let aesdst := enc.aes.encode aessrc
      let block := xor16 longSize aligned (data.take blockSize) aesdst
      (ctrBlocks enc longSize aligned n (u64 (counter + 1)) aessrc (data.drop blockSize)).map fun (out, rest) => (block ++ out, rest)

/-- The last bytes. -/
def ctrTail (enc : CtrEncoder) (longSize : LongSize) (counter : ℕ) (aessrc data : Bytes) (datalen : ℕ) : Option Bytes :=
  if datalen = 0 then some data
  else if data.length < datalen then none
  else
    let aessrc := copyIvAndXorWithCounter longSize aessrc enc.iv.1 counter
    some (xorCnt data (enc.aes.encode aessrc) datalen)

/-- From the start of a block on; `addr` is where `data` is. -/
def ctrWhole (enc : CtrEncoder) (longSize : LongSize) (addr counter : ℕ) (aessrc data : Bytes) (datalen : ℕ) : Option Bytes :=
  let blocksrem := datalen / blockSize
  (ctrBlocks enc longSize (addr % longSize.1 = 0) blocksrem counter aessrc data).bind fun (out, rest) =>
    (ctrTail enc longSize (u64 (counter + blocksrem)) aessrc rest (datalen - blocksrem * blockSize)).map (out ++ ·)

/-- `psync_crypto_aes256_ctr_encode_decode_inplace`; `buff` is what the stack holds before. -/
def ctrEncodeDecodeInplace (enc : CtrEncoder) (longSize : LongSize) (buff : Block) (addr : ℕ) (data : Bytes) (datalen dataoffset : ℕ) :
    Option Bytes :=
  let counter := dataoffset / blockSize
  let aessrc := pwrite buff.1 (enc.iv.1.drop 8) 8
  let dataoffset := dataoffset % blockSize
  if dataoffset ≠ 0 then
    let aessrc := copyIvAndXorWithCounter longSize aessrc enc.iv.1 counter
    let aesdst := enc.aes.encode aessrc
    let blocksrem := blockSize - dataoffset
    if data.length < blocksrem then none
    else
      let data := xorCnt data (aesdst.drop dataoffset) blocksrem
      (ctrWhole enc longSize (addr + blocksrem) (u64 (counter + 1)) aessrc (data.drop blocksrem) (sub64 datalen blocksrem)).map
        (data.take blocksrem ++ ·)
  else ctrWhole enc longSize addr counter aessrc data datalen

/-! ### The keystream -/

/-- The block of which AES makes the keys of a counter. -/
def counterBlock (iv : Bytes) (counter : ℕ) : Bytes := xorCnt iv (ofNat 8 counter) 8

/-- The key of a place. -/
def CtrEncoder.key (enc : CtrEncoder) (place : ℕ) : UInt8 :=
  get (enc.aes.encode (counterBlock enc.iv.1 (place / blockSize))) (place % blockSize)

/-- A text from a place on, with every byte combined with its key. -/
def CtrEncoder.code (enc : CtrEncoder) (off : ℕ) (text : Bytes) : Bytes := Lib.Keystream.code (· ^^^ ·) enc.key off text

variable {enc : CtrEncoder} {longSize : LongSize} {aligned : Bool} {aessrc data : Bytes} {addr counter datalen dataoffset n : ℕ}

theorem length_counterBlock (iv : Block) : (counterBlock iv.1 counter).length = blockSize :=
  (length_xorCnt (by rw [length_ofNat])).trans iv.2

theorem CtrEncoder.length_code {off : ℕ} : (enc.code off data).length = data.length := Lib.Keystream.length_code

theorem CtrEncoder.code_append {off : ℕ} {rest : Bytes} : enc.code off (data ++ rest) = enc.code off data ++ enc.code (off + data.length) rest :=
  Lib.Keystream.code_append

theorem CtrEncoder.code_code {off : ℕ} : enc.code off (enc.code off data) = data :=
  Lib.Keystream.code_code fun a k => by rw [UInt8.xor_assoc, UInt8.xor_self, UInt8.xor_zero]

/-- The source of the blocks, whose last half is never written again. -/
def Source (enc : CtrEncoder) (aessrc : Bytes) : Prop := aessrc.length = blockSize ∧ aessrc.drop 8 = enc.iv.1.drop 8

theorem source_counterBlock : Source enc (counterBlock enc.iv.1 counter) := by
  have hiv : enc.iv.1.length = blockSize := enc.iv.2
  refine ⟨length_counterBlock enc.iv, ?_⟩
  have hlen : (List.zipWith (· ^^^ ·) (enc.iv.1.take 8) ((ofNat 8 counter).take 8)).length = 8 := by
    rw [List.length_zipWith, List.length_take, List.length_take, length_ofNat, hiv]
    rfl
  rw [counterBlock, xorCnt, List.drop_left' hlen]

theorem source_buff (buff : Block) : Source enc (pwrite buff.1 (enc.iv.1.drop 8) 8) := by
  have hbuff : buff.1.length = blockSize := buff.2
  have hiv : (enc.iv.1.drop 8).length = 8 := by
    rw [List.length_drop, enc.iv.2]
    rfl
  have hne : enc.iv.1.drop 8 ≠ [] := List.ne_nil_of_length_pos (by omega)
  have hlen : (pwrite buff.1 (enc.iv.1.drop 8) 8).length = blockSize := by
    rw [length_pwrite, if_neg hne, hiv, hbuff]
    rfl
  refine ⟨hlen, ?_⟩
  have hread := @pread_pwrite buff.1 _ 8 hne
  rw [hiv, pread, List.take_of_length_le (by rw [List.length_drop, hlen]; decide)] at hread
  exact hread

/-- A number of `m + n` bytes is its low bytes and its high bytes. -/
theorem ofNat_add (m n k : ℕ) : ofNat (m + n) k = ofNat m k ++ ofNat n (k / 256 ^ m) := by
  induction m generalizing k with
  | zero => simp [ofNat]
  | succ m ih => rw [Nat.succ_add, ofNat, ih, ofNat, List.cons_append, Nat.div_div_eq_div_mul, Nat.pow_succ, Nat.mul_comm]

theorem ofNat_mod (n k : ℕ) : ofNat n (k % 256 ^ n) = ofNat n k := by
  induction n generalizing k with
  | zero => rfl
  | succ n ih =>
    have hlow : UInt8.ofNat (k % 256 ^ (n + 1)) = UInt8.ofNat k := by
      apply UInt8.toNat_inj.mp
      rw [UInt8.toNat_ofNat', UInt8.toNat_ofNat', Nat.pow_succ', Nat.mod_mul_right_mod]
    have hhigh : k % 256 ^ (n + 1) / 256 = k / 256 % 256 ^ n := by rw [Nat.pow_succ', Nat.mod_mul_right_div_self]
    rw [ofNat, hlow, hhigh, ih, ofNat]

theorem ofNat_word {word : Bytes} {k : ℕ} (hword : word.length = n) (hk : k < 256 ^ n) :
    ofNat n (toNat word ^^^ k) = List.zipWith (· ^^^ ·) word (ofNat n k) := by
  have hxor := ofNat_xor hword (length_ofNat n k)
  rwa [toNat_ofNat hk] at hxor

/-- However long the words are, the counter is combined with the first half of the vector. -/
theorem copyIv_eq (hsrc : Source enc aessrc) (hcounter : counter < 2 ^ 64) :
    copyIvAndXorWithCounter longSize aessrc enc.iv.1 counter = counterBlock enc.iv.1 counter := by
  have hiv : enc.iv.1.length = 16 := enc.iv.2
  obtain ⟨-, hdrop⟩ := hsrc
  rw [copyIvAndXorWithCounter, counterBlock, xorCnt, List.take_of_length_le (l := ofNat 8 counter) (by rw [length_ofNat]), ← hdrop]
  split_ifs with hsize
  · have hword : (pread enc.iv.1 8 0).length = 8 := by
      rw [length_pread]
      omega
    have hlen : (List.zipWith (· ^^^ ·) (pread enc.iv.1 8 0) (ofNat 8 counter)).length = 8 := by
      rw [List.length_zipWith, hword, length_ofNat, Nat.min_self]
    have hne : List.zipWith (· ^^^ ·) (pread enc.iv.1 8 0) (ofNat 8 counter) ≠ [] := List.ne_nil_of_length_pos (by omega)
    rw [ofNat_word hword (by omega), pwrite, if_neg hne, hlen, Nat.zero_sub]
    rfl
  · have hlow : (pread enc.iv.1 4 0).length = 4 := by
      rw [length_pread]
      omega
    have hhigh : (pread enc.iv.1 4 4).length = 4 := by
      rw [length_pread]
      omega
    have hmask : counter &&& 0xffffffff = counter % 2 ^ 32 := Nat.and_two_pow_sub_one_eq_mod counter 32
    have hshift : counter >>> 32 = counter / 2 ^ 32 := Nat.shiftRight_eq_div_pow counter 32
    have hfirst : (List.zipWith (· ^^^ ·) (pread enc.iv.1 4 0) (ofNat 4 (counter % 2 ^ 32))).length = 4 := by
      rw [List.length_zipWith, hlow, length_ofNat, Nat.min_self]
    have hsecond : (List.zipWith (· ^^^ ·) (pread enc.iv.1 4 4) (ofNat 4 (counter / 2 ^ 32))).length = 4 := by
      rw [List.length_zipWith, hhigh, length_ofNat, Nat.min_self]
    have hlowWord : ofNat 4 (counter % 2 ^ 32) = ofNat 4 counter := ofNat_mod 4 counter
    have htake : enc.iv.1.take 8 = pread enc.iv.1 4 0 ++ pread enc.iv.1 4 4 := @pread_add enc.iv.1 0 4 4
    have hwords : ofNat 8 counter = ofNat 4 (counter % 2 ^ 32) ++ ofNat 4 (counter / 2 ^ 32) := by
      rw [hlowWord]
      exact ofNat_add 4 4 counter
    rw [hmask, hshift, ofNat_word hlow (by omega), ofNat_word hhigh (by omega), htake, hwords,
      List.zipWith_append (by rw [hlow, length_ofNat]), pwrite, pwrite, if_neg (List.ne_nil_of_length_pos (by omega)),
      if_neg (List.ne_nil_of_length_pos (by omega)), hfirst, hsecond]
    generalize List.zipWith (· ^^^ ·) (pread enc.iv.1 4 0) (ofNat 4 (counter % 2 ^ 32)) = first at hfirst ⊢
    simp [hfirst, List.drop_append]

/-! ### Combining with the keystream -/

/-- The keys of one counter are the block that AES makes of it. -/
theorem key_block {i : ℕ} (hi : i < blockSize) :
    enc.key (blockSize * counter + i) = get (enc.aes.encode (counterBlock enc.iv.1 counter)) i := by
  have hpos : 0 < blockSize := by decide
  rw [CtrEncoder.key, Nat.mul_add_div hpos, Nat.div_eq_of_lt hi, Nat.add_zero, Nat.mul_add_mod, Nat.mod_eq_of_lt hi]

/-- Bytes combined with the keys of their places. -/
theorem xorCnt_code {key : Bytes} {off : ℕ} (hdata : n ≤ data.length) (hkey : n ≤ key.length) (hkeys : ∀ i < n, get key i = enc.key (off + i)) :
    xorCnt data key n = enc.code off (data.take n) ++ data.drop n := by
  have hlen : (data.take n).length = n := by
    rw [List.length_take]
    omega
  have htake : (key.take n).length = n := by
    rw [List.length_take]
    omega
  rw [xorCnt]
  refine congrArg (· ++ data.drop n) (Lib.Keystream.zipWith_eq_code (Nat.le_of_eq (hlen.trans htake.symm)) fun i hi hlt => ?_)
  have hin : i < n := htake ▸ hi
  rw [← hkeys i hin, Lib.Files.get, List.getElem_take, List.getD_eq_getElem _ _ (lt_of_lt_of_le hin hkey)]

theorem ctrBlocks_eq (hsrc : Source enc aessrc) (hcounter : counter + n < 2 ^ 64) (hdata : n * blockSize ≤ data.length) :
    ctrBlocks enc longSize aligned n counter aessrc data =
      some (enc.code (blockSize * counter) (data.take (n * blockSize)), data.drop (n * blockSize)) := by
  induction n generalizing counter aessrc data with
  | zero =>
    rw [ctrBlocks, Nat.zero_mul]
    rfl
  | succ n ih =>
    rw [Nat.succ_mul] at hdata
    have hkey : (enc.aes.encode (counterBlock enc.iv.1 counter)).length = blockSize := enc.aes.length_encode _ (length_counterBlock enc.iv)
    have hblock : (data.take blockSize).length = blockSize := by
      rw [List.length_take]
      omega
    have hcoded : xor16 longSize aligned (data.take blockSize) (enc.aes.encode (counterBlock enc.iv.1 counter)) =
        enc.code (blockSize * counter) (data.take blockSize) := by
      rw [xor16_eq _ _ (Nat.le_of_eq hblock.symm) (Nat.le_of_eq hkey.symm), xor16Unaligned,
        xorCnt_code (Nat.le_of_eq hblock.symm) (Nat.le_of_eq hkey.symm) fun i hi => (key_block hi).symm,
        List.take_of_length_le (Nat.le_of_eq hblock), List.drop_of_length_le (Nat.le_of_eq hblock), List.append_nil]
    have hrest : n * blockSize ≤ (data.drop blockSize).length := by
      rw [List.length_drop]
      omega
    have hwhole : data.take (n * blockSize + blockSize) = data.take blockSize ++ (data.drop blockSize).take (n * blockSize) := by
      rw [Nat.add_comm, List.take_add]
    rw [ctrBlocks, if_neg (by omega), copyIv_eq hsrc (by omega), u64_of_lt (by omega)]
    dsimp only
    rw [ih source_counterBlock (by omega) hrest, hcoded, Nat.succ_mul, hwhole, enc.code_append, hblock,
      List.drop_drop, Nat.mul_succ, Nat.add_comm (n * blockSize)]
    rfl

theorem ctrBlocks_none (hdata : data.length < n * blockSize) : ctrBlocks enc longSize aligned n counter aessrc data = none := by
  induction n generalizing counter aessrc data with
  | zero => exact absurd hdata (by omega)
  | succ n ih =>
    rw [ctrBlocks]
    by_cases hlt : data.length < blockSize
    · rw [if_pos hlt]
    · rw [Nat.succ_mul] at hdata
      have hrest : (data.drop blockSize).length < n * blockSize := by
        rw [List.length_drop]
        omega
      rw [if_neg hlt]
      dsimp only
      rw [ih hrest]
      rfl

/-- A text from the start of a block on. -/
theorem ctrWhole_eq (hsrc : Source enc aessrc) (hcounter : counter + datalen / blockSize < 2 ^ 64) (hdata : datalen ≤ data.length) :
    ctrWhole enc longSize addr counter aessrc data datalen =
      some (enc.code (blockSize * counter) (data.take datalen) ++ data.drop datalen) := by
  have hdiv : datalen / blockSize * blockSize + datalen % blockSize = datalen := Nat.div_add_mod' datalen blockSize
  have hmod : datalen % blockSize < blockSize := Nat.mod_lt _ (by decide)
  have hrem : datalen - datalen / blockSize * blockSize = datalen % blockSize := by omega
  rw [ctrWhole]
  dsimp only
  have hkey : (enc.aes.encode (counterBlock enc.iv.1 (counter + datalen / blockSize))).length = blockSize :=
    enc.aes.length_encode _ (length_counterBlock enc.iv)
  have hrest : (data.drop (datalen / blockSize * blockSize)).length = data.length - datalen / blockSize * blockSize := List.length_drop
  have hblocks : (data.take (datalen / blockSize * blockSize)).length = datalen / blockSize * blockSize := by
    rw [List.length_take]
    omega
  have htake : data.take datalen =
      data.take (datalen / blockSize * blockSize) ++ (data.drop (datalen / blockSize * blockSize)).take (datalen % blockSize) := by
    rw [← List.take_add, hdiv]
  have hdrop : data.drop datalen = (data.drop (datalen / blockSize * blockSize)).drop (datalen % blockSize) := by
    rw [List.drop_drop, hdiv]
  have hplace : blockSize * counter + datalen / blockSize * blockSize = blockSize * (counter + datalen / blockSize) := by
    rw [Nat.mul_add, Nat.mul_comm blockSize (datalen / blockSize)]
  rw [ctrBlocks_eq hsrc (by omega) (by omega), hrem, Option.bind_some]
  dsimp only
  rw [u64_of_lt hcounter, ctrTail, htake, enc.code_append, hblocks, hplace, hdrop]
  by_cases hzero : datalen % blockSize = 0
  · rw [if_pos hzero, hzero]
    simp [CtrEncoder.code, Lib.Keystream.code]
  · rw [if_neg hzero, if_neg (by omega), copyIv_eq hsrc hcounter]
    dsimp only
    rw [xorCnt_code (by omega) (by omega) fun i hi => (key_block (by omega)).symm, List.append_assoc]
    rfl

/-- One that goes on behind the memory. -/
theorem ctrWhole_none (hsrc : Source enc aessrc) (hcounter : counter + datalen / blockSize < 2 ^ 64) (hdata : data.length < datalen) :
    ctrWhole enc longSize addr counter aessrc data datalen = none := by
  have hdiv : datalen / blockSize * blockSize + datalen % blockSize = datalen := Nat.div_add_mod' datalen blockSize
  rw [ctrWhole]
  dsimp only
  by_cases hblocks : datalen / blockSize * blockSize ≤ data.length
  · rw [ctrBlocks_eq hsrc (by omega) hblocks, Option.bind_some]
    dsimp only
    rw [ctrTail, if_neg (by omega), List.length_drop, if_pos (by omega)]
    rfl
  · rw [ctrBlocks_none (by omega)]
    rfl

/-! ### Calls -/

/-- A text that starts within a block reaches the end of that block. -/
def Reaches (datalen dataoffset : ℕ) : Prop := dataoffset % blockSize = 0 ∨ blockSize - dataoffset % blockSize ≤ datalen

instance : Decidable (Reaches datalen dataoffset) := inferInstanceAs (Decidable (_ ∨ _))

/-- The whole text is coded, and nothing behind it. -/
def CtrEncoder.coded (enc : CtrEncoder) (data : Bytes) (datalen dataoffset : ℕ) : Bytes :=
  enc.code dataoffset (data.take datalen) ++ data.drop datalen

theorem length_coded : (enc.coded data datalen dataoffset).length = data.length := by
  rw [CtrEncoder.coded, List.length_append, CtrEncoder.length_code, ← List.length_append, List.take_append_drop]

/-- Every byte of the text is combined with the key of its place, and no other byte. -/
theorem get_coded {i : ℕ} (hdata : datalen ≤ data.length) :
    get (enc.coded data datalen dataoffset) i = if i < datalen then get data i ^^^ enc.key (dataoffset + i) else get data i := by
  have htake : (data.take datalen).length = datalen := by
    rw [List.length_take]
    omega
  rw [CtrEncoder.coded, get_append, CtrEncoder.length_code, htake]
  split_ifs with hi
  · have hbyte : (data.take datalen)[i]? = some (get data i) := by
      rw [List.getElem?_take, if_pos hi, List.getElem?_eq_getElem (by omega), Lib.Files.get, List.getD_eq_getElem _ _ (by omega)]
    rw [Lib.Files.get, List.getD_eq_getElem?_getD, CtrEncoder.code, Lib.Keystream.getElem?_code, hbyte]
    rfl
  · rw [get_drop, Nat.add_sub_cancel' (Nat.not_lt.mp hi)]

theorem coded_coded (hdata : datalen ≤ data.length) :
    enc.coded (enc.coded data datalen dataoffset) datalen dataoffset = data := by
  have hcoded : (enc.code dataoffset (data.take datalen)).length = datalen := by
    rw [CtrEncoder.length_code, List.length_take]
    omega
  rw [CtrEncoder.coded, CtrEncoder.coded, List.take_left' hcoded, List.drop_left' hcoded, CtrEncoder.code_code, List.take_append_drop]

/-- A call codes its text exactly if the text reaches the end of its first block; else it goes on behind all memory. -/
theorem ctrInplace_eq (buff : Block) (hdata : datalen ≤ data.length) (hmem : data.length < 2 ^ 64) (hoff : dataoffset < 2 ^ 64) :
    ctrEncodeDecodeInplace enc longSize buff addr data datalen dataoffset =
      if Reaches datalen dataoffset then some (enc.coded data datalen dataoffset) else none := by
  have hdiv : blockSize * (dataoffset / blockSize) + dataoffset % blockSize = dataoffset := Nat.div_add_mod dataoffset blockSize
  have hmod : dataoffset % blockSize < blockSize := Nat.mod_lt _ (by decide)
  have hquot : ∀ k < 2 ^ 64, k / blockSize < 2 ^ 60 := fun k hk => Nat.div_lt_of_lt_mul hk
  have hcounter := hquot dataoffset hoff
  have hkey : (enc.aes.encode (counterBlock enc.iv.1 (dataoffset / blockSize))).length = blockSize :=
    enc.aes.length_encode _ (length_counterBlock enc.iv)
  rw [ctrEncodeDecodeInplace]
  dsimp only
  have hiff : Reaches datalen dataoffset ↔ dataoffset % blockSize = 0 ∨ blockSize - dataoffset % blockSize ≤ datalen := Iff.rfl
  by_cases hzero : dataoffset % blockSize = 0
  · have hplace : blockSize * (dataoffset / blockSize) = dataoffset := by omega
    have hblocks := hquot datalen (by omega)
    rw [if_neg (not_not.mpr hzero), if_pos (hiff.mpr (.inl hzero)), ctrWhole_eq (source_buff buff) (by omega) hdata, hplace, CtrEncoder.coded]
  · rw [if_pos hzero, copyIv_eq (source_buff buff) (by omega), u64_of_lt (by omega)]
    have hkeys : ∀ i < blockSize - dataoffset % blockSize,
        get ((enc.aes.encode (counterBlock enc.iv.1 (dataoffset / blockSize))).drop (dataoffset % blockSize)) i =
          enc.key (dataoffset + i) := by
      intro i hi
      rw [get_drop, ← key_block (by omega), ← Nat.add_assoc, hdiv]
    have hlast : ((enc.aes.encode (counterBlock enc.iv.1 (dataoffset / blockSize))).drop (dataoffset % blockSize)).length =
        blockSize - dataoffset % blockSize := by rw [List.length_drop, hkey]
    have hnext : blockSize * (dataoffset / blockSize + 1) = dataoffset + (blockSize - dataoffset % blockSize) := by
      rw [Nat.mul_succ]
      omega
    have hfirst : blockSize - dataoffset % blockSize ≤ 2 ^ 64 := le_trans (Nat.sub_le _ _) (by decide)
    generalize blockSize - dataoffset % blockSize = first at *
    by_cases hreach : first ≤ datalen
    · have htake : (data.take first).length = first := by
        rw [List.length_take]
        omega
      have hhead : (enc.code dataoffset (data.take first)).length = first := CtrEncoder.length_code.trans htake
      have hblocks := hquot (datalen - first) (by omega)
      rw [if_neg (by omega), if_pos (hiff.mpr (.inr hreach)), xorCnt_code (by omega) (by omega) hkeys, sub64_of_le hreach (by omega),
        List.take_left' hhead, List.drop_left' hhead,
        ctrWhole_eq source_counterBlock (by omega) (by rw [List.length_drop]; omega), hnext, Option.map_some, CtrEncoder.coded]
      have hsplit : data.take datalen = data.take first ++ (data.drop first).take (datalen - first) := by
        rw [← List.take_add, Nat.add_sub_cancel' hreach]
      rw [hsplit, enc.code_append, htake, List.drop_drop, Nat.add_sub_cancel' hreach, List.append_assoc]
    · have hnot : ¬Reaches datalen dataoffset := fun h => (hiff.mp h).elim hzero hreach
      have hwrap : sub64 datalen first = datalen + 2 ^ 64 - first := Nat.mod_eq_of_lt (by omega)
      have hblocks := hquot (sub64 datalen first) (Nat.mod_lt _ (by decide))
      rw [if_neg hnot]
      by_cases hshort : data.length < first
      · rw [if_pos hshort]
      · have hlong : ((xorCnt data ((enc.aes.encode (counterBlock enc.iv.1 (dataoffset / blockSize))).drop (dataoffset % blockSize)) first).drop
            first).length < sub64 datalen first := by
          rw [List.length_drop, length_xorCnt (by omega), hwrap]
          omega
        rw [if_neg hshort, ctrWhole_none source_counterBlock (by omega) hlong]
        rfl

/-! ### Pieces -/

/-- Calls on one piece after another: how long each is, and what the stack holds before it. -/
def ctrPieces (enc : CtrEncoder) (longSize : LongSize) : ℕ → List (ℕ × Block) → ℕ → Bytes → Option Bytes
  | _, [], _, data => some data
  | addr, (len, buff) :: pieces, off, data =>
    (ctrEncodeDecodeInplace enc longSize buff addr data len off).bind fun data =>
      (ctrPieces enc longSize (addr + len) pieces (off + len) (data.drop len)).map (data.take len ++ ·)

/-- How long the pieces are together. -/
def total (pieces : List (ℕ × Block)) : ℕ := (pieces.map Prod.fst).sum

/-- Every piece reaches the end of the block that it starts in. -/
def AllReach : List (ℕ × Block) → ℕ → Prop
  | [], _ => True
  | (len, _) :: pieces, off => Reaches len off ∧ AllReach pieces (off + len)

theorem ctrPieces_iff (pieces : List (ℕ × Block)) (hdata : total pieces ≤ data.length) (hmem : data.length < 2 ^ 64)
    (hoff : dataoffset + total pieces < 2 ^ 64) :
    ctrPieces enc longSize addr pieces dataoffset data = some (enc.coded data (total pieces) dataoffset) ↔ AllReach pieces dataoffset := by
  induction pieces generalizing addr data dataoffset with
  | nil => simp [ctrPieces, AllReach, total, CtrEncoder.coded, CtrEncoder.code, Lib.Keystream.code]
  | cons piece pieces ih =>
    obtain ⟨len, buff⟩ := piece
    have htotal : total ((len, buff) :: pieces) = len + total pieces := List.sum_cons
    rw [htotal] at hdata hoff ⊢
    rw [ctrPieces, ctrInplace_eq buff (by omega) hmem (by omega), AllReach]
    split_ifs with hreach
    · have htake : (data.take len).length = len := by
        rw [List.length_take]
        omega
      have hcoded : (enc.code dataoffset (data.take len)).length = len := CtrEncoder.length_code.trans htake
      have hrest : (data.drop len).length = data.length - len := List.length_drop
      have hpieces : ctrPieces enc longSize (addr + len) pieces (dataoffset + len) (data.drop len) =
          some (enc.coded (data.drop len) (total pieces) (dataoffset + len)) ↔ AllReach pieces (dataoffset + len) :=
        ih (by omega) (by omega) (by omega)
      have hsplit : data.take (len + total pieces) = data.take len ++ (data.drop len).take (total pieces) := List.take_add
      rw [Option.bind_some, CtrEncoder.coded, List.take_left' hcoded, List.drop_left' hcoded, and_iff_right hreach,
        ← hpieces, CtrEncoder.coded, hsplit, enc.code_append, htake, CtrEncoder.coded,
        List.drop_drop, List.append_assoc, Option.map_eq_some_iff]
      constructor
      · rintro ⟨rest, hrun, heq⟩
        rw [hrun, List.append_cancel_left heq]
      · exact fun hrun => ⟨_, hrun, rfl⟩
    · exact ⟨fun h => (by cases h), fun h => absurd h.1 hreach⟩

/-- Counter mode codes by place, in any pieces and back again, exactly if every text reaches the end of the block that it starts in. -/
theorem ctr_by_place (enc : CtrEncoder) (longSize : LongSize) (addr dataoffset : ℕ) (data : Bytes) (hmem : data.length < 2 ^ 64) :
    (∀ buff buff' datalen, datalen ≤ data.length → dataoffset < 2 ^ 64 →
      ((∃ out, ctrEncodeDecodeInplace enc longSize buff addr data datalen dataoffset = some out ∧ out.length = data.length ∧
        ∀ i, get out i = if i < datalen then get data i ^^^ enc.key (dataoffset + i) else get data i) ↔ Reaches datalen dataoffset) ∧
      (((ctrEncodeDecodeInplace enc longSize buff addr data datalen dataoffset).bind fun out =>
        ctrEncodeDecodeInplace enc longSize buff' addr out datalen dataoffset) = some data ↔ Reaches datalen dataoffset)) ∧
    ∀ pieces, total pieces ≤ data.length → dataoffset + total pieces < 2 ^ 64 →
      (ctrPieces enc longSize addr pieces dataoffset data = some (enc.coded data (total pieces) dataoffset) ↔ AllReach pieces dataoffset) := by
  refine ⟨fun buff buff' datalen hdata hoff => ?_, fun pieces hdata hoff => ctrPieces_iff pieces hdata hmem hoff⟩
  have hlen : (enc.coded data datalen dataoffset).length = data.length := length_coded
  have hagain : ctrEncodeDecodeInplace enc longSize buff' addr (enc.coded data datalen dataoffset) datalen dataoffset =
      if Reaches datalen dataoffset then some (enc.coded (enc.coded data datalen dataoffset) datalen dataoffset) else none :=
    ctrInplace_eq buff' (hlen.symm ▸ hdata) (hlen.symm ▸ hmem) hoff
  rw [ctrInplace_eq buff hdata hmem hoff]
  by_cases hreach : Reaches datalen dataoffset
  · rw [if_pos hreach, Option.bind_some, hagain, if_pos hreach, coded_coded hdata]
    exact ⟨iff_of_true ⟨_, rfl, length_coded, fun i => get_coded hdata⟩ hreach, iff_of_true rfl hreach⟩
  · rw [if_neg hreach]
    exact ⟨iff_of_false (fun ⟨_, h, _⟩ => (nomatch h)) hreach, iff_of_false (fun h => (nomatch h)) hreach⟩

/-- An encoder with no key, and a vector of zeros. -/
def plainEncoder : CtrEncoder where
  aes := ⟨id, id, fun _ h => h, fun _ h => h, fun _ _ => rfl⟩
  iv := ⟨List.replicate 16 0, rfl⟩

/-- Two bytes over the end of a block. -/
theorem ctr_by_place_two : ∃ out, ctrEncodeDecodeInplace plainEncoder ⟨8, .inr rfl⟩ plainEncoder.iv 0 [1, 2] 2 15 = some out ∧
    out.length = 2 ∧ ∀ i, get out i = if i < 2 then get [1, 2] i ^^^ plainEncoder.key (15 + i) else get [1, 2] i :=
  ((ctr_by_place plainEncoder ⟨8, .inr rfl⟩ 0 15 [1, 2] (by decide)).1 plainEncoder.iv plainEncoder.iv 2 (by decide) (by decide)).1.mpr
    (.inr (by decide))

/-- One byte in the middle of a block: the call goes on behind the memory of 32 bytes that it is in. -/
theorem ctr_runs_on : ctrEncodeDecodeInplace plainEncoder ⟨8, .inr rfl⟩ plainEncoder.iv 0 (List.replicate 32 0) 1 4 = none := by
  have hcall : ctrEncodeDecodeInplace plainEncoder ⟨8, .inr rfl⟩ plainEncoder.iv 0 (List.replicate 32 0) 1 4 =
      if Reaches 1 4 then some (plainEncoder.coded (List.replicate 32 0) 1 4) else none :=
    ctrInplace_eq plainEncoder.iv (by decide) (by decide) (by decide)
  rw [hcall, if_neg (by decide)]

end Pclsync.Crypto
