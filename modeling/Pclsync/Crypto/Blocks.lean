import Pclsync.Lib.CipherModes
import Pclsync.Lib.Files
import Pclsync.Lib.Machine

/-! Blocks of 16 bytes, and the functions of `pcrypto.c` on them. AES and SHA-512 are
those of a library: any permutation of blocks, and any function to 64 bytes. -/
namespace Pclsync.Crypto
open Lib.Files Lib.Machine

/-- `PSYNC_AES256_BLOCK_SIZE`. -/
def blockSize : ℕ := 16

/-- A block, as a nonce or an initialization vector. -/
abbrev Block := { b : Bytes // b.length = blockSize }

/-- One AES key: `psync_aes256_encode_block` and `psync_aes256_decode_block`. -/
structure Aes where
  encode : Bytes → Bytes
  decode : Bytes → Bytes
  length_encode : ∀ b, b.length = blockSize → (encode b).length = blockSize
  length_decode : ∀ b, b.length = blockSize → (decode b).length = blockSize
  decode_encode : ∀ b, b.length = blockSize → decode (encode b) = b

/-- `psync_sha512`. -/
structure Sha512 where
  sum : Bytes → Bytes
  length_sum : ∀ m, (sum m).length = 64

/-! ### Combining bytes -/

/-- `xor_cnt_inplace`. -/
def xorCnt (data key : Bytes) (count : ℕ) : Bytes :=
  List.zipWith (· ^^^ ·) (data.take count) (key.take count) ++ data.drop count

/-- `xor16_unaligned_inplace`. -/
def xor16Unaligned (data key : Bytes) : Bytes := xorCnt data key blockSize

/-- `LONG_DEREF(data, a)^=LONG_DEREF(key, a)`, for longs of `size` bytes. -/
def xorLong (size : ℕ) (key data : Bytes) (a : ℕ) : Bytes :=
  pwrite data (ofNat size (toNat (pread data size (size * a)) ^^^ toNat (pread key size (size * a)))) (size * a)

/-- `xor16_aligned_inplace`, for longs of `size` bytes. -/
def xor16Aligned (size : ℕ) (data key : Bytes) : Bytes :=
  if size = 8 then [0, 1].foldl (xorLong 8 key) data
  else if size = 4 then [0, 1, 2, 3].foldl (xorLong 4 key) data
  else xor16Unaligned data key

/-- How blocks are combined whose pointers are aligned to longs, or not. -/
def xor16 (longSize : ℕ) (aligned : Bool) (data key : Bytes) : Bytes :=
  if aligned then xor16Aligned longSize data key else xor16Unaligned data key

variable {data key : Bytes} {count i n : ℕ}

theorem length_xorCnt (hkey : count ≤ key.length) : (xorCnt data key count).length = data.length := by
  simp only [xorCnt, List.length_append, List.length_zipWith, List.length_take, List.length_drop]
  omega

theorem get_xorCnt (hdata : count ≤ data.length) (hkey : count ≤ key.length) :
    get (xorCnt data key count) i = if i < count then get data i ^^^ get key i else get data i := by
  have hlength : (data.take count).length = (key.take count).length := by
    rw [List.length_take, List.length_take]
    omega
  have hhead : (List.zipWith (· ^^^ ·) (data.take count) (key.take count)).length = count := by
    rw [List.length_zipWith, List.length_take, List.length_take]
    omega
  rw [xorCnt, get_append, hhead, get_zipWith (UInt8.xor_self) hlength, get_take, get_take, get_drop]
  split_ifs with hi
  · rfl
  · rw [Nat.add_sub_cancel' (Nat.not_lt.mp hi)]

/-- Combining with the same bytes again gives the data back. -/
theorem xorCnt_xorCnt (hdata : count ≤ data.length) (hkey : count ≤ key.length) :
    xorCnt (xorCnt data key count) key count = data := by
  have hlen : (xorCnt data key count).length = data.length := length_xorCnt hkey
  refine ext_get ((length_xorCnt hkey).trans hlen) fun i _ => ?_
  rw [get_xorCnt (by omega) hkey, get_xorCnt hdata hkey]
  split_ifs
  · rw [UInt8.xor_assoc, UInt8.xor_self, UInt8.xor_zero]
  · rfl

theorem xorCnt_append {rest : Bytes} (hdata : count ≤ data.length) :
    xorCnt (data ++ rest) key count = xorCnt data key count ++ rest := by
  rw [xorCnt, xorCnt, List.take_append_of_le_length hdata, List.drop_append_of_le_length hdata, List.append_assoc]

/-! ### Words -/

/-- A long is combined as its bytes are. -/
theorem xorLong_eq (size a : ℕ) (data key : Bytes) (hdata : size * (a + 1) ≤ data.length) (hkey : size * (a + 1) ≤ key.length) :
    xorLong size key (xorCnt data key (size * a)) a = xorCnt data key (size * (a + 1)) := by
  rw [Nat.mul_succ] at *
  have hkey' : size * a ≤ key.length := by omega
  have hlen : (xorCnt data key (size * a)).length = data.length := length_xorCnt hkey'
  have hp : (pread (xorCnt data key (size * a)) size (size * a)).length = size := by
    rw [length_pread, hlen]
    omega
  have hk : (pread key size (size * a)).length = size := by
    rw [length_pread]
    omega
  have hget : ∀ j, size * a ≤ j → get (xorCnt data key (size * a)) j = get data j := fun j hj => by
    rw [get_xorCnt (by omega) hkey', if_neg (Nat.not_lt.mpr hj)]
  have hsame : ∀ j < size * a, get (xorCnt data key (size * a)) j = get data j ^^^ get key j := fun j hj => by
    rw [get_xorCnt (by omega) hkey', if_pos hj]
  rw [xorLong, ofNat_xor hp hk]
  have hz : (List.zipWith (· ^^^ ·) (pread (xorCnt data key (size * a)) size (size * a))
      (pread key size (size * a))).length = size := by
    rw [List.length_zipWith, hp, hk, Nat.min_self]
  refine ext_get ?_ fun j _ => ?_
  · rw [length_pwrite, hz, hlen, length_xorCnt hkey]
    split_ifs
    · rfl
    · omega
  · rw [get_pwrite, hz, get_xorCnt hdata hkey]
    by_cases hin : size * a ≤ j ∧ j < size * a + size
    · rw [if_pos hin, if_pos hin.2, get_zipWith UInt8.xor_self (hp.trans hk.symm), get_pread, get_pread,
        if_pos (by omega), if_pos (by omega), Nat.add_sub_cancel' hin.1, hget j hin.1]
    · rw [if_neg hin]
      by_cases hj : j < size * a
      · rw [if_pos (by omega), hsame j hj]
      · rw [if_neg (by omega), hget j (by omega)]

theorem xorCnt_zero : xorCnt data key 0 = data := by simp [xorCnt]

/-- Whatever the longs are, whole blocks are combined as bytes are. -/
theorem xor16Aligned_eq (size : ℕ) (hdata : blockSize ≤ data.length) (hkey : blockSize ≤ key.length) :
    xor16Aligned size data key = xor16Unaligned data key := by
  rw [blockSize] at hdata hkey
  rw [xor16Aligned]
  split_ifs
  · have h₀ := xorLong_eq 8 0 data key (by omega) (by omega)
    have h₁ := xorLong_eq 8 1 data key (by omega) (by omega)
    rw [Nat.mul_zero, xorCnt_zero] at h₀
    rw [List.foldl_cons, List.foldl_cons, List.foldl_nil, h₀, h₁]
    rfl
  · have h₀ := xorLong_eq 4 0 data key (by omega) (by omega)
    have h₁ := xorLong_eq 4 1 data key (by omega) (by omega)
    have h₂ := xorLong_eq 4 2 data key (by omega) (by omega)
    have h₃ := xorLong_eq 4 3 data key (by omega) (by omega)
    rw [Nat.mul_zero, xorCnt_zero] at h₀
    rw [List.foldl_cons, List.foldl_cons, List.foldl_cons, List.foldl_cons, List.foldl_nil, h₀, h₁, h₂, h₃]
    rfl
  · rfl

theorem xor16_eq (longSize : ℕ) (aligned : Bool) (hdata : blockSize ≤ data.length) (hkey : blockSize ≤ key.length) :
    xor16 longSize aligned data key = xor16Unaligned data key := by
  cases aligned with
  | true => exact xor16Aligned_eq longSize hdata hkey
  | false => rfl

theorem xor16Unaligned_eq (hdata : data.length = blockSize) (hkey : key.length = blockSize) :
    xor16Unaligned data key = List.zipWith (· ^^^ ·) data key := by
  rw [xor16Unaligned, xorCnt, List.take_of_length_le (Nat.le_of_eq hdata), List.take_of_length_le (Nat.le_of_eq hkey),
    List.drop_of_length_le (Nat.le_of_eq hdata), List.append_nil]

theorem xor16Unaligned_comm (hdata : data.length = blockSize) (hkey : key.length = blockSize) :
    xor16Unaligned data key = xor16Unaligned key data := by
  rw [xor16Unaligned_eq hdata hkey, xor16Unaligned_eq hkey hdata]
  exact List.zipWith_comm_of_comm UInt8.xor_comm

/-! ### Blocks of a text -/

/-- The first `n` blocks. -/
def blocks : ℕ → Bytes → List Bytes
  | 0, _ => []
  | n + 1, data => data.take blockSize :: blocks n (data.drop blockSize)

theorem count_blocks : (blocks n data).length = n := by
  induction n generalizing data with
  | zero => rfl
  | succ n ih => rw [blocks, List.length_cons, ih]

theorem length_blocks (hdata : n * blockSize ≤ data.length) : ∀ b ∈ blocks n data, b.length = blockSize := by
  induction n generalizing data with
  | zero => nofun
  | succ n ih =>
    rw [Nat.succ_mul] at hdata
    refine List.forall_mem_cons.mpr ⟨?_, ih ?_⟩
    · rw [List.length_take]
      omega
    · rw [List.length_drop]
      omega

theorem flatten_blocks : (blocks n data).flatten = data.take (n * blockSize) := by
  induction n generalizing data with
  | zero => simp [blocks]
  | succ n ih => rw [blocks, List.flatten_cons, ih, Nat.succ_mul, Nat.add_comm, List.take_add]

theorem blocks_flatten {bs : List Bytes} (rest : Bytes) (hbs : ∀ b ∈ bs, b.length = blockSize) :
    blocks bs.length (bs.flatten ++ rest) = bs := by
  induction bs with
  | nil => rfl
  | cons b bs ih =>
    obtain ⟨hb, hbs⟩ := List.forall_mem_cons.mp hbs
    rw [List.length_cons, blocks, List.flatten_cons, List.append_assoc, List.take_left' hb, List.drop_left' hb, ih hbs]

theorem length_flatten {bs : List Bytes} (hbs : ∀ b ∈ bs, b.length = blockSize) :
    bs.flatten.length = bs.length * blockSize := by
  induction bs with
  | nil => simp
  | cons b bs ih =>
    obtain ⟨hb, hbs⟩ := List.forall_mem_cons.mp hbs
    rw [List.flatten_cons, List.length_append, hb, ih hbs, List.length_cons, Nat.succ_mul, Nat.add_comm]

theorem blocks_add (m n : ℕ) (data : Bytes) : blocks (m + n) data = blocks m data ++ blocks n (data.drop (m * blockSize)) := by
  induction m generalizing data with
  | zero => simp [blocks]
  | succ m ih =>
    rw [Nat.succ_add, blocks, blocks, ih, List.drop_drop, Nat.succ_mul, Nat.add_comm blockSize]
    rfl

/-! ### Chaining -/

/-- AES in blocks combined by exclusive or. -/
def Aes.mode (aes : Aes) : Lib.Chaining.Mode Bytes where
  Block b := b.length = blockSize
  xor := xor16Unaligned
  encode := aes.encode
  decode := aes.decode
  block_xor ha hb := (length_xorCnt (Nat.le_of_eq hb.symm)).trans ha
  block_encode hb := aes.length_encode _ hb
  decode_encode hb := aes.decode_encode _ hb
  xor_xor ha hb := xorCnt_xorCnt (Nat.le_of_eq ha.symm) (Nat.le_of_eq hb.symm)

/-! ### HMAC -/

/-- `PSYNC_SHA512_BLOCK_LEN`. -/
def sha512BlockLen : ℕ := 128

/-- The key over a block of one byte. -/
def padKey (key : Bytes) (pad : UInt8) : Bytes :=
  let key := key.take sha512BlockLen
  key.map (· ^^^ pad) ++ List.replicate (sha512BlockLen - key.length) pad

/-- `psync_hmac_sha512`. -/
def hmacSha512 (sha512 : Sha512) (msg key : Bytes) : Bytes :=
  sha512.sum (padKey key 0x5c ++ sha512.sum (padKey key 0x36 ++ msg))

theorem length_hmacSha512 (sha512 : Sha512) (msg key : Bytes) : (hmacSha512 sha512 msg key).length = 64 :=
  sha512.length_sum _

end Pclsync.Crypto
