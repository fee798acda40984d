import Pclsync.Crypto.Base32
import Pclsync.Crypto.Blocks

/-! Encoded names. A name of one block is combined with the key's vector; of a longer one,
the first block is combined with a hash of the others, which are chained to it. The padding
is of zeros and a name has none, so a decoded name ends at the first. -/
namespace Pclsync.Crypto
open Lib.Files Lib.Chaining

/-- `psync_crypto_aes256_key_var_iv_struct_t`. -/
structure TextKey where
  encoder : Aes
  iv : Bytes

/-- `copy_pad`: the copy, and the text that is left. -/
def copyPad (cnt : ℕ) (txt : Bytes) : Bytes × Bytes :=
  if cnt ≤ txt.length then (txt.take cnt, txt.drop cnt) else (txt ++ List.replicate (cnt - txt.length) 0, [])

theorem copyPad_shorter {cnt : ℕ} {txt : Bytes} (hcnt : 0 < cnt) (hne : (copyPad cnt txt).2 ≠ []) :
    (copyPad cnt txt).2.length < txt.length := by
  unfold copyPad at *
  split_ifs at * with hle
  · have hlength := List.length_pos_iff.mpr hne
    rw [List.length_drop] at *
    omega
  · exact absurd rfl hne

section

variable (sha512 : Sha512) (longSize : ℕ) (enc : TextKey)

/-- The loop of `psync_crypto_aes256_encode_text`, after the block `aesdst`. -/
def encodeTextLoop (aesdst txt : Bytes) : Bytes :=
  let aessrc := xor16Aligned longSize (copyPad blockSize txt).1 aesdst
  let aesdst := enc.encoder.encode aessrc
  if _h : (copyPad blockSize txt).2 = [] then aesdst else aesdst ++ encodeTextLoop aesdst (copyPad blockSize txt).2
termination_by txt.length
decreasing_by exact copyPad_shorter (by decide) _h

/-- `psync_crypto_aes256_encode_text`: `out` and `outlen`, none when its assertion fails. -/
def encodeText (txt : Bytes) : Option (Bytes × ℕ) :=
  let ol := (txt.length + 15) / blockSize * blockSize
  if txt.length ≤ blockSize then
    if enc.iv.length ≥ blockSize then
      some (enc.encoder.encode (xor16Aligned longSize (copyPad blockSize txt).1 enc.iv), ol)
    else none
  else
    let hmac := hmacSha512 sha512 (txt.drop blockSize) enc.iv
    let aesdst := enc.encoder.encode (xor16Aligned longSize (txt.take blockSize) hmac)
    some (aesdst ++ encodeTextLoop longSize enc aesdst (txt.drop blockSize), ol)

/-- The loop of `psync_crypto_aes256_decode_text`, with `datalen` blocks after the one at `data`. -/
def decodeTextLoop (aligned : Bool) : ℕ → Bytes → Bytes
  | 0, _ => []
  | datalen + 1, data =>
    let xorptr := data.take blockSize
    let data := data.drop blockSize
    let aesdst := enc.encoder.decode (data.take blockSize)
    xor16 longSize aligned aesdst xorptr ++ decodeTextLoop aligned datalen data

def strlen (str : Bytes) : ℕ := (str.takeWhile (· ≠ 0)).length

/-- The padding from `len` on is zeros; the byte at the end is the one that was put there. -/
def checkPadding (ret : Bytes) (len : ℕ) : Option Bytes :=
  if (ret.dropLast.drop len).all (· = 0) then some ret else none

/-- `psync_crypto_aes256_decode_text`: the outer option is its assertion, the inner one
`NULL`. -/
def decodeText (aligned : Bool) (data : Bytes) : Option (Option Bytes) :=
  if data.length % blockSize ≠ 0 ∨ data.length = 0 then some none
  else if data.length / blockSize = 1 then
    if enc.iv.length ≥ blockSize then
      let ret := xor16Aligned longSize (enc.encoder.decode (data.take blockSize)) enc.iv ++ [0]
      some (checkPadding ret (strlen ret + 1))
    else none
  else
    let ret := enc.encoder.decode (data.take blockSize) ++ decodeTextLoop longSize enc aligned (data.length / blockSize - 1) data ++ [0]
    let len := strlen (ret.drop blockSize)
    let aessrc := hmacSha512 sha512 (pread ret len blockSize) enc.iv
    some (checkPadding (xor16Aligned longSize ret aessrc) (len + blockSize + 1))

end

/-- The string at the start of a buffer. -/
def cString (ret : Bytes) : Bytes := ret.take (strlen ret)

/-! ### Padding -/

variable {sha512 : Sha512} {longSize : ℕ} {enc : TextKey} {name txt tail : Bytes} {k : ℕ}

/-- A name ends at the first zero after it. -/
theorem strlen_name (hnul : 0 ∉ name) : strlen (name ++ 0 :: tail) = name.length := by
  rw [strlen, List.takeWhile_append_of_pos, List.length_append]
  · simp
  · intro b hb
    simp only [ne_eq, decide_not, Bool.not_eq_eq_eq_not, Bool.not_true, decide_eq_false_iff_not]
    rintro rfl
    exact hnul hb

theorem cString_name (hnul : 0 ∉ name) : cString (name ++ 0 :: tail) = name := by
  rw [cString, strlen_name hnul, List.take_left]

theorem zeros_end : List.replicate k (0 : UInt8) ++ [0] = 0 :: List.replicate k 0 := by
  rw [← List.replicate_succ', List.replicate_succ]

/-- A padded name passes the check. -/
theorem checkPadding_name : checkPadding (name ++ (List.replicate k 0 ++ [0])) (name.length + 1) =
    some (name ++ 0 :: List.replicate k 0) := by
  rw [checkPadding, ← List.append_assoc, List.dropLast_concat, List.drop_append, List.drop_of_length_le (Nat.le_succ _), if_pos]
  · rw [List.append_assoc, zeros_end]
  · simp

theorem copyPad_full (h : blockSize ≤ txt.length) : copyPad blockSize txt = (txt.take blockSize, txt.drop blockSize) := if_pos h

theorem copyPad_rest (h : ¬blockSize ≤ txt.length) :
    copyPad blockSize txt = (txt ++ List.replicate (blockSize - txt.length) 0, []) := if_neg h

/-- What a block is padded to. -/
theorem copyPad_block (h : txt.length ≤ blockSize) :
    (copyPad blockSize txt).1 = txt ++ List.replicate (blockSize - txt.length) 0 := by
  by_cases hfull : blockSize ≤ txt.length
  · rw [copyPad_full hfull, List.take_of_length_le h, Nat.sub_eq_zero_of_le hfull, List.replicate_zero, List.append_nil]
  · rw [copyPad_rest hfull]

theorem length_copyPad (txt : Bytes) : (copyPad blockSize txt).1.length = blockSize := by
  by_cases hfull : blockSize ≤ txt.length
  · rw [copyPad_full hfull, List.length_take, Nat.min_eq_left hfull]
  · rw [copyPad_rest hfull, List.length_append, List.length_replicate, Nat.add_sub_cancel' (Nat.le_of_not_le hfull)]

/-! ### The blocks after the first -/

/-- The loop chains the blocks of the padded text. -/
theorem encodeTextLoop_spec (longSize : ℕ) (enc : TextKey) (hne : txt ≠ []) (aesdst : Bytes) (hdst : aesdst.length = blockSize) :
    ∃ (bs : List Bytes) (k : ℕ), bs ≠ [] ∧ (∀ b ∈ bs, b.length = blockSize) ∧ bs.flatten = txt ++ List.replicate k 0 ∧
      k < blockSize ∧ encodeTextLoop longSize enc aesdst txt = (chain enc.encoder.mode aesdst bs).flatten := by
  have hxor : ∀ dst : Bytes, dst.length = blockSize → ∀ txt, xor16Aligned longSize (copyPad blockSize txt).1 dst =
      enc.encoder.mode.xor (copyPad blockSize txt).1 dst := fun dst hdst txt =>
    xor16Aligned_eq longSize (Nat.le_of_eq (length_copyPad _).symm) (Nat.le_of_eq hdst.symm)
  fun_induction encodeTextLoop longSize enc aesdst txt with
  | case1 aesdst txt aessrc dst hlast =>
    have hle : txt.length ≤ blockSize := by
      by_contra hlong
      rw [copyPad_full (Nat.le_of_not_le hlong)] at hlast
      exact hlong (List.drop_eq_nil_iff.mp hlast)
    refine ⟨[(copyPad blockSize txt).1], blockSize - txt.length, List.cons_ne_nil _ _, ?_, ?_, ?_, ?_⟩
    · exact List.forall_mem_singleton.mpr (length_copyPad txt)
    · rw [List.flatten_cons, List.flatten_nil, List.append_nil, copyPad_block hle]
    · have hpos := List.length_pos_iff.mpr hne
      exact Nat.sub_lt (by decide) hpos
    · rw [chain, chain, List.flatten_cons, List.flatten_nil, List.append_nil, ← hxor aesdst hdst]
      rfl
  | case2 aesdst txt aessrc dst hmore ih =>
    have hfull : blockSize ≤ txt.length := by
      by_contra hshort
      exact hmore (by rw [copyPad_rest hshort])
    have hlength : dst.length = blockSize := by
      apply enc.encoder.length_encode
      show (xor16Aligned longSize (copyPad blockSize txt).1 aesdst).length = blockSize
      rw [hxor aesdst hdst]
      exact enc.encoder.mode.block_xor (length_copyPad txt) hdst
    obtain ⟨bs, k, -, hbs, hflat, hk, hloop⟩ := ih hmore hlength
    refine ⟨(copyPad blockSize txt).1 :: bs, k, List.cons_ne_nil _ _, ?_, ?_, hk, ?_⟩
    · exact List.forall_mem_cons.mpr ⟨length_copyPad txt, hbs⟩
    · rw [List.flatten_cons, hflat, copyPad_full hfull, ← List.append_assoc, List.take_append_drop]
    · rw [hloop, chain, List.flatten_cons, ← hxor aesdst hdst]
      rfl

/-- The loop takes the chain apart. -/
theorem decodeTextLoop_spec (longSize : ℕ) (enc : TextKey) (aligned : Bool) {prev : Bytes} {cs : List Bytes} (hprev : prev.length = blockSize)
    (hcs : ∀ c ∈ cs, c.length = blockSize) :
    decodeTextLoop longSize enc aligned cs.length (prev ++ cs.flatten) = (unchain enc.encoder.mode prev cs).flatten := by
  induction cs generalizing prev with
  | nil => rfl
  | cons c cs ih =>
    obtain ⟨hc, hcs⟩ := List.forall_mem_cons.mp hcs
    have hdecode := enc.encoder.length_decode c hc
    have hxor : xor16 longSize aligned (enc.encoder.decode c) prev = enc.encoder.mode.xor (enc.encoder.decode c) prev :=
      xor16_eq longSize aligned (Nat.le_of_eq hdecode.symm) (Nat.le_of_eq hprev.symm)
    rw [List.length_cons, decodeTextLoop, List.flatten_cons, List.take_left' hprev, List.drop_left' hprev, List.take_left' hc, hxor,
      ih hc hcs, unchain, List.flatten_cons]
    rfl

/-! ### Both ways -/

/-- The bytes of `n` blocks, of which the last is not empty. -/
theorem outlen_eq {length n k : ℕ} (h : length + k = n * blockSize) (hk : k < blockSize) :
    (length + 15) / blockSize * blockSize = n * blockSize := by
  rw [blockSize] at *
  omega

/-- A name of one block. -/
theorem short_round_trip (longSize : ℕ) (aligned : Bool) (hne : name ≠ []) (hnul : 0 ∉ name) (hiv : blockSize ≤ enc.iv.length)
    (hshort : name.length ≤ blockSize) :
    ∃ E ret, encodeText sha512 longSize enc name = some (E, E.length) ∧
      decodeText sha512 longSize enc aligned E = some (some ret) ∧ cString ret = name := by
  have hpos := List.length_pos_iff.mpr hne
  have hxor : ∀ {data : Bytes}, data.length = blockSize → xor16Aligned longSize data enc.iv = xor16Unaligned data enc.iv :=
    fun hdata => xor16Aligned_eq longSize (Nat.le_of_eq hdata.symm) hiv
  have hsrc : (xor16Aligned longSize (copyPad blockSize name).1 enc.iv).length = blockSize := by
    rw [hxor (length_copyPad name)]
    exact (length_xorCnt hiv).trans (length_copyPad name)
  have hE := enc.encoder.length_encode _ hsrc
  have hback : xor16Aligned longSize (xor16Aligned longSize (copyPad blockSize name).1 enc.iv) enc.iv = (copyPad blockSize name).1 := by
    rw [hxor hsrc, hxor (length_copyPad name)]
    exact xorCnt_xorCnt (Nat.le_of_eq (length_copyPad _).symm) hiv
  refine ⟨enc.encoder.encode (xor16Aligned longSize (copyPad blockSize name).1 enc.iv),
    name ++ 0 :: List.replicate (blockSize - name.length) 0, ?_, ?_, cString_name hnul⟩
  · have hlength : name.length + (blockSize - name.length) = 1 * blockSize := by omega
    rw [encodeText, if_pos hshort, if_pos hiv, hE, outlen_eq hlength (Nat.sub_lt (by decide) hpos), Nat.one_mul]
  · rw [decodeText, hE, if_neg (by decide), if_pos (by decide), if_pos hiv, List.take_of_length_le (Nat.le_of_eq hE),
      enc.encoder.decode_encode _ hsrc, hback, copyPad_block hshort, List.append_assoc]
    have hlen : strlen (name ++ (List.replicate (blockSize - name.length) 0 ++ [0])) = name.length := by
      rw [zeros_end, strlen_name hnul]
    show some (checkPadding _ (strlen _ + 1)) = _
    rw [hlen, checkPadding_name]

/-- The first block of a longer name, combined with the hash of the others. -/
def firstBlock (sha512 : Sha512) (enc : TextKey) (name : Bytes) : Bytes :=
  xorCnt (name.take blockSize) (hmacSha512 sha512 (name.drop blockSize) enc.iv) blockSize

theorem hmac_full (msg key : Bytes) : blockSize ≤ (hmacSha512 sha512 msg key).length := by
  rw [length_hmacSha512]
  decide

theorem length_take_block (hlong : blockSize < name.length) : (name.take blockSize).length = blockSize := by
  rw [List.length_take, Nat.min_eq_left (Nat.le_of_lt hlong)]

theorem length_firstBlock (sha512 : Sha512) (enc : TextKey) (hlong : blockSize < name.length) : (firstBlock sha512 enc name).length = blockSize :=
  (length_xorCnt (hmac_full ..)).trans (length_take_block hlong)

/-- A longer name is chained in blocks. -/
theorem encodeText_long (sha512 : Sha512) (longSize : ℕ) (enc : TextKey) (hlong : blockSize < name.length) :
    ∃ (bs : List Bytes) (k : ℕ), bs ≠ [] ∧ (∀ b ∈ bs, b.length = blockSize) ∧ bs.flatten = name.drop blockSize ++ List.replicate k 0 ∧
      k < blockSize ∧ encodeText sha512 longSize enc name =
        let dst := enc.encoder.encode (firstBlock sha512 enc name)
        let E := dst ++ (chain enc.encoder.mode dst bs).flatten
        some (E, E.length) := by
  have htail : name.drop blockSize ≠ [] := fun h => Nat.not_le.mpr hlong (List.drop_eq_nil_iff.mp h)
  have hfirst := length_take_block hlong
  have hdst := enc.encoder.length_encode _ (length_firstBlock sha512 enc hlong)
  obtain ⟨bs, k, hbs, hblocks, hflat, hk, hloop⟩ := encodeTextLoop_spec longSize enc htail _ hdst
  have hchain := chain_blocks (m := enc.encoder.mode) hdst hblocks
  refine ⟨bs, k, hbs, hblocks, hflat, hk, ?_⟩
  have hol : name.length + k = (bs.length + 1) * blockSize := by
    have htotal := congrArg List.length hflat
    rw [length_flatten hblocks, List.length_append, List.length_drop, List.length_replicate] at htotal
    rw [Nat.succ_mul]
    omega
  have hxor : xor16Aligned longSize (name.take blockSize) (hmacSha512 sha512 (name.drop blockSize) enc.iv) = firstBlock sha512 enc name :=
    xor16Aligned_eq longSize (Nat.le_of_eq hfirst.symm) (hmac_full ..)
  rw [encodeText, if_neg (Nat.not_le.mpr hlong), outlen_eq hol hk]
  simp only [hxor, hloop, List.length_append, hdst, length_flatten hchain, length_chain, Nat.succ_mul, Nat.add_comm]

/-- What is decoded from the blocks, before the first one is combined with the hash. -/
theorem decode_blocks (longSize : ℕ) (enc : TextKey) (aligned : Bool) {src : Bytes} {bs : List Bytes} (hsrc : src.length = blockSize)
    (hblocks : ∀ b ∈ bs, b.length = blockSize) :
    let E := enc.encoder.encode src ++ (chain enc.encoder.mode (enc.encoder.encode src) bs).flatten
    E.length = (bs.length + 1) * blockSize ∧
      enc.encoder.decode (E.take blockSize) ++ decodeTextLoop longSize enc aligned bs.length E = src ++ bs.flatten := by
  have hdst := enc.encoder.length_encode _ hsrc
  have hchain := chain_blocks (m := enc.encoder.mode) hdst hblocks
  have hdecode := decodeTextLoop_spec longSize enc aligned hdst hchain
  rw [length_chain, unchain_chain (m := enc.encoder.mode) hdst hblocks] at hdecode
  constructor
  · rw [List.length_append, hdst, length_flatten hchain, length_chain, Nat.succ_mul, Nat.add_comm]
  · rw [hdecode, List.take_left' hdst, enc.encoder.decode_encode _ hsrc]

/-- A longer one. -/
theorem long_round_trip (longSize : ℕ) (aligned : Bool) (hnul : 0 ∉ name) (hlong : blockSize < name.length) :
    ∃ E ret, encodeText sha512 longSize enc name = some (E, E.length) ∧
      decodeText sha512 longSize enc aligned E = some (some ret) ∧ cString ret = name := by
  obtain ⟨bs, k, hbs, hblocks, hflat, -, hencode⟩ := encodeText_long sha512 longSize enc hlong
  have hsrc := length_firstBlock sha512 enc hlong
  obtain ⟨hlength, hdecode⟩ := decode_blocks longSize enc aligned hsrc hblocks
  refine ⟨_, name ++ 0 :: List.replicate k 0, hencode, ?_, cString_name hnul⟩
  generalize enc.encoder.encode (firstBlock sha512 enc name) ++ (chain enc.encoder.mode (enc.encoder.encode (firstBlock sha512 enc name)) bs).flatten = E at *
  have hpos := List.length_pos_iff.mpr hbs
  have hnul' : 0 ∉ name.drop blockSize := fun h => hnul (List.mem_of_mem_drop h)
  have hret : enc.encoder.decode (E.take blockSize) ++ decodeTextLoop longSize enc aligned ((bs.length + 1) - 1) E ++ [0] =
      firstBlock sha512 enc name ++ (name.drop blockSize ++ 0 :: List.replicate k 0) := by
    rw [Nat.add_sub_cancel, hdecode, hflat, List.append_assoc, List.append_assoc, zeros_end]
  have hmod : ¬((bs.length + 1) * blockSize % blockSize ≠ 0 ∨ (bs.length + 1) * blockSize = 0) := by
    rw [Nat.mul_mod_left, blockSize]
    omega
  have hdiv : (bs.length + 1) * blockSize / blockSize = bs.length + 1 := Nat.mul_div_cancel _ (by decide)
  have hmsg : pread (firstBlock sha512 enc name ++ (name.drop blockSize ++ 0 :: List.replicate k 0)) (name.drop blockSize).length blockSize =
      name.drop blockSize := by
    rw [pread, List.drop_left' hsrc, List.take_left]
  have hplain : xor16Aligned longSize (firstBlock sha512 enc name ++ (name.drop blockSize ++ 0 :: List.replicate k 0))
      (hmacSha512 sha512 (name.drop blockSize) enc.iv) = name ++ 0 :: List.replicate k 0 := by
    have hfirst := Nat.le_of_eq (length_take_block hlong).symm
    rw [xor16Aligned_eq longSize (by rw [List.length_append]; omega) (hmac_full ..), xor16Unaligned, xorCnt_append (Nat.le_of_eq hsrc.symm),
      firstBlock, xorCnt_xorCnt hfirst (hmac_full ..), ← List.append_assoc, List.take_append_drop]
  have hlen : (name.drop blockSize).length + blockSize + 1 = name.length + 1 := by
    rw [List.length_drop]
    omega
  rw [decodeText, hlength, if_neg hmod, hdiv, if_neg (by omega), hret]
  simp only [List.drop_left' hsrc, strlen_name hnul', hmsg, hplain, hlen]
  rw [← zeros_end, checkPadding_name, zeros_end]

/-- Names go through encoding, base32 and back. -/
theorem names_round_trip (sha512 : Sha512) (longSize : ℕ) (enc : TextKey) (aligned : Bool) (name : Bytes) (hne : name ≠ [])
    (hnul : 0 ∉ name) (hiv : blockSize ≤ enc.iv.length) :
    ∃ E ret, encodeText sha512 longSize enc name = some (E, E.length) ∧ base32Decode (base32Encode E) = some E ∧
      decodeText sha512 longSize enc aligned E = some (some ret) ∧ cString ret = name := by
  rcases Nat.lt_or_ge blockSize name.length with hlong | hshort
  · obtain ⟨E, ret, hencode, hdecode, hname⟩ := long_round_trip longSize aligned hnul hlong
    exact ⟨E, ret, hencode, base32_round_trip E, hdecode, hname⟩
  · obtain ⟨E, ret, hencode, hdecode, hname⟩ := short_round_trip longSize aligned hne hnul hiv hshort
    exact ⟨E, ret, hencode, base32_round_trip E, hdecode, hname⟩

/-- A key of AES-256 does this to the block `001122…ff`, if its bytes are `000102…1f`. -/
def sampleAes : Aes :=
  let mask : Bytes := [0x8e, 0xb3, 0x95, 0xf9, 0x15, 0x32, 0x23, 0xc8, 0x62, 0x65, 0xe3, 0x2b, 0x87, 0x94, 0x8e, 0x76]
  { encode := fun b => xorCnt b mask blockSize
    decode := fun b => xorCnt b mask blockSize
    length_encode := fun b hb => (length_xorCnt (by decide)).trans hb
    length_decode := fun b hb => (length_xorCnt (by decide)).trans hb
    decode_encode := fun b hb => xorCnt_xorCnt (Nat.le_of_eq hb.symm) (by decide) }

/-- The name `a`, which with this vector becomes that block; it has no other blocks to hash. -/
theorem names_round_trip_one_letter :
    let iv : Bytes := [0x61, 0x11, 0x22, 0x33, 0x44, 0x55, 0x66, 0x77, 0x88, 0x99, 0xaa, 0xbb, 0xcc, 0xdd, 0xee, 0xff]
    let sha512 : Sha512 := ⟨fun _ => List.replicate 64 0, fun _ => List.length_replicate⟩
    ∃ E ret, encodeText sha512 8 ⟨sampleAes, iv⟩ [97] = some (E, E.length) ∧ base32Decode (base32Encode E) = some E ∧
      decodeText sha512 8 ⟨sampleAes, iv⟩ true E = some (some ret) ∧ cString ret = [97] :=
  names_round_trip _ 8 _ true [97] (by decide) (by decide) (by decide)

end Pclsync.Crypto
