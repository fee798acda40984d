import Pclsync.Crypto.Names
import Mathlib.Data.List.TakeWhile
import Mathlib.Data.Set.Finite.List
import Mathlib.Data.UInt

/-! Which encoded names decode to one name. The blocks of a ciphertext are in bijection with
the blocks of a text; the name is the text up to its first zero, and the padding is checked
behind the first zero of the blocks after the first one only. -/
namespace Pclsync.Crypto
open Lib.Files Lib.Chaining

variable (sha512 : Sha512) (longSize : ℕ) (enc : TextKey)

/-- A permutation of blocks, as its inverse is one. -/
theorem Aes.encode_decode (aes : Aes) {b : Bytes} (hb : b.length = blockSize) : aes.encode (aes.decode b) = b := by
  have : Finite UInt8 := Finite.of_injective UInt8.toFin UInt8.toFin_injective
  have : Finite Block := (List.finite_length_eq UInt8 blockSize).to_subtype
  let encode : Block → Block := fun b => ⟨aes.encode b.val, aes.length_encode _ b.property⟩
  have hinjective : Function.Injective encode := by
    intro a b hab
    have hval := congrArg (fun b : Block => aes.decode b.val) hab
    simp only [encode, aes.decode_encode _ a.property, aes.decode_encode _ b.property] at hval
    exact Subtype.ext hval
  obtain ⟨a, ha⟩ := Finite.surjective_of_injective hinjective ⟨b, hb⟩
  have ha : aes.encode a.val = b := congrArg Subtype.val ha
  rw [← ha, aes.decode_encode _ a.property]

/-! ### Texts in blocks -/

/-- What the first block is combined with: the key's vector, or a hash of the name's bytes in
the others. -/
def mask (rest : Bytes) : Bytes := if rest = [] then enc.iv else hmacSha512 sha512 (cString rest) enc.iv

/-- The ciphertext of a text, which may have zeros anywhere. -/
def sealText (first : Bytes) (rest : List Bytes) : Bytes :=
  let dst := enc.encoder.encode (xor16Unaligned first (mask sha512 enc rest.flatten))
  dst ++ (chain enc.encoder.mode dst rest).flatten

/-- The text of a ciphertext. -/
def openText (data : Bytes) : Bytes :=
  let rest := (unchain enc.encoder.mode (data.take blockSize) (blocks (data.length / blockSize - 1) (data.drop blockSize))).flatten
  xor16Unaligned (enc.encoder.decode (data.take blockSize)) (mask sha512 enc rest) ++ rest

/-- Only zeros behind the name. -/
def Padded (text : Bytes) : Prop := ∀ b ∈ text.drop (strlen text), b = 0

variable {sha512 longSize enc} {first : Bytes} {rest : List Bytes} {data ret x y : Bytes} {aligned : Bool} {k : ℕ}

/-! ### Strings -/

theorem cString_eq (x : Bytes) : cString x = x.takeWhile (· ≠ 0) :=
  (List.prefix_iff_eq_take.mp (List.takeWhile_prefix _)).symm

theorem length_cString (x : Bytes) : (cString x).length = strlen x := by
  rw [cString_eq]
  rfl

theorem zero_not_mem_cString (x : Bytes) : 0 ∉ cString x := by
  rw [cString_eq]
  intro h
  simpa using List.mem_takeWhile_imp h

theorem cString_of_no_zero (h : 0 ∉ x) : cString x = x := by
  rw [cString_eq, List.takeWhile_eq_self_iff]
  intro b hb
  simpa using fun hzero : b = 0 => h (hzero ▸ hb)

/-- A string ends at its first zero, whatever follows. -/
theorem cString_append_zero (x tail : Bytes) : cString (x ++ 0 :: tail) = cString x := by
  rw [cString_eq, cString_eq, List.takeWhile_append]
  split_ifs with h
  · rw [List.takeWhile_cons_of_neg (by simp), List.append_nil]
    exact (List.IsPrefix.eq_of_length (List.takeWhile_prefix _) h).symm
  · rfl

theorem strlen_append_zero (x tail : Bytes) : strlen (x ++ 0 :: tail) = strlen x := by
  rw [← length_cString, cString_append_zero, length_cString]

theorem cString_append_zeros (x : Bytes) (k : ℕ) : cString (x ++ List.replicate k 0) = cString x := by
  cases k with
  | zero => rw [List.replicate_zero, List.append_nil]
  | succ k => rw [List.replicate_succ, cString_append_zero]

theorem strlen_le (x : Bytes) : strlen x ≤ x.length := List.Sublist.length_le (List.takeWhile_sublist _)

/-- A padded text is its name and zeros. -/
theorem padded_iff : Padded x ↔ ∃ k, x = cString x ++ List.replicate k 0 := by
  constructor
  · intro h
    refine ⟨(x.drop (strlen x)).length, ?_⟩
    rw [← List.eq_replicate_of_mem h, cString, List.take_append_drop]
  · rintro ⟨k, hk⟩ b hb
    rw [hk, ← length_cString (cString x ++ _), cString_append_zeros, cString_of_no_zero (zero_not_mem_cString x), List.drop_left] at hb
    exact List.eq_of_mem_replicate hb

theorem Padded.append_zeros (h : Padded x) (k : ℕ) : Padded (x ++ List.replicate k 0) := by
  obtain ⟨n, hn⟩ := padded_iff.mp h
  refine padded_iff.mpr ⟨n + k, ?_⟩
  rw [cString_append_zeros, List.replicate_add, ← List.append_assoc, ← hn]

/-- The loop starts behind the zero, which is one. -/
theorem padded_from_next : (∀ b ∈ x.drop (strlen x + 1), b = 0) ↔ Padded x := by
  induction x with
  | nil => simp [Padded]
  | cons b x ih =>
    by_cases hb : b = 0
    · simp [Padded, strlen, hb]
    · simpa [Padded, strlen, hb] using ih

theorem checkPadding_iff {len : ℕ} : checkPadding (x ++ [0]) len = some ret ↔ (∀ b ∈ x.drop len, b = 0) ∧ ret = x ++ [0] := by
  rw [checkPadding, List.dropLast_concat]
  split_ifs with h
  · simp only [List.all_eq_true, decide_eq_true_eq] at h
    rw [Option.some.injEq, eq_comm]
    exact ⟨fun hret => ⟨h, hret⟩, fun hret => hret.2⟩
  · simp only [List.all_eq_true, decide_eq_true_eq] at h
    simp [h]

/-! ### Ciphertexts and texts -/

/-- What the padding is checked in. -/
def checked (first : Bytes) (rest : List Bytes) : Bytes := if rest = [] then first else rest.flatten

theorem length_mask (hrest : ∀ b ∈ rest, b.length = blockSize) (hiv : rest = [] → blockSize ≤ enc.iv.length) :
    blockSize ≤ (mask sha512 enc rest.flatten).length := by
  rw [mask]
  split_ifs with hnil
  · apply hiv
    apply List.length_eq_zero_iff.mp
    have hlength := length_flatten hrest
    rw [hnil, List.length_nil, blockSize] at hlength
    omega
  · exact hmac_full ..

/-- What a ciphertext decodes to. -/
theorem decodeText_seal (hfirst : first.length = blockSize) (hrest : ∀ b ∈ rest, b.length = blockSize)
    (hiv : rest = [] → blockSize ≤ enc.iv.length) :
    decodeText sha512 longSize enc aligned (sealText sha512 enc first rest) = some (some ret) ↔
      Padded (checked first rest) ∧ ret = first ++ rest.flatten ++ [0] := by
  have hmask := @length_mask sha512 _ _ hrest hiv
  have hsrc : (xor16Unaligned first (mask sha512 enc rest.flatten)).length = blockSize := (length_xorCnt hmask).trans hfirst
  have hE := enc.encoder.length_encode _ hsrc
  have hback := xorCnt_xorCnt (Nat.le_of_eq hfirst.symm) hmask
  cases rest with
  | nil =>
    rw [List.flatten_nil] at hmask hsrc hE hback
    have hxor := xor16Aligned_eq longSize (Nat.le_of_eq hsrc.symm) hmask
    rw [sealText, chain, List.flatten_nil, List.append_nil, decodeText, hE, if_neg (by decide), if_pos (by decide), if_pos (hiv rfl),
      List.take_of_length_le (Nat.le_of_eq hE), enc.encoder.decode_encode _ hsrc]
    rw [show enc.iv = mask sha512 enc [] from rfl, hxor, xor16Unaligned, xor16Unaligned, hback]
    simp only [Option.some.injEq, checkPadding_iff, strlen_append_zero, padded_from_next]
    rw [checked, if_pos rfl, List.append_nil]
  | cons b bs =>
    have hne : (b :: bs).flatten ≠ [] := by
      intro hnil
      have hlength := length_flatten hrest
      rw [hnil, List.length_nil, List.length_cons, blockSize] at hlength
      omega
    have hmasked : mask sha512 enc (b :: bs).flatten = hmacSha512 sha512 (cString (b :: bs).flatten) enc.iv := if_neg hne
    obtain ⟨hlength, hdecode⟩ := decode_blocks longSize enc aligned hsrc hrest
    have hmod : ¬(((b :: bs).length + 1) * blockSize % blockSize ≠ 0 ∨ ((b :: bs).length + 1) * blockSize = 0) := by
      rw [Nat.mul_mod_left, blockSize]
      omega
    have hdiv : ((b :: bs).length + 1) * blockSize / blockSize = (b :: bs).length + 1 := Nat.mul_div_cancel _ (by decide)
    have hmsg : pread (xor16Unaligned first (mask sha512 enc (b :: bs).flatten) ++ (b :: bs).flatten ++ [0]) (strlen (b :: bs).flatten) blockSize =
        cString (b :: bs).flatten := by
      rw [pread, List.append_assoc, List.drop_left' hsrc, List.take_append_of_le_length (strlen_le _), cString]
    have hplain : xor16Aligned longSize (xor16Unaligned first (mask sha512 enc (b :: bs).flatten) ++ (b :: bs).flatten ++ [0])
        (hmacSha512 sha512 (cString (b :: bs).flatten) enc.iv) = first ++ (b :: bs).flatten ++ [0] := by
      rw [← hmasked, xor16Aligned_eq longSize (by rw [List.append_assoc, List.length_append]; omega) hmask, List.append_assoc, xor16Unaligned,
        xorCnt_append (Nat.le_of_eq hsrc.symm), xor16Unaligned, hback, List.append_assoc]
    have hdrop : (first ++ (b :: bs).flatten).drop (strlen (b :: bs).flatten + blockSize + 1) =
        (b :: bs).flatten.drop (strlen (b :: bs).flatten + 1) := by
      rw [Nat.add_right_comm, Nat.add_comm _ blockSize, ← List.drop_drop, List.drop_left' hfirst]
    rw [sealText, decodeText, hlength, if_neg hmod, hdiv, if_neg (by rw [List.length_cons]; omega), Nat.add_sub_cancel, hdecode]
    simp only [List.append_assoc, List.drop_left' hsrc, strlen_append_zero]
    simp only [← List.append_assoc, hmsg, hplain, Option.some.injEq, checkPadding_iff, hdrop, padded_from_next]
    rfl

/-- A ciphertext opens to the text it was made from. -/
theorem openText_seal (hfirst : first.length = blockSize) (hrest : ∀ b ∈ rest, b.length = blockSize)
    (hiv : rest = [] → blockSize ≤ enc.iv.length) : openText sha512 enc (sealText sha512 enc first rest) = first ++ rest.flatten := by
  have hmask := @length_mask sha512 _ _ hrest hiv
  have hsrc : (xor16Unaligned first (mask sha512 enc rest.flatten)).length = blockSize := (length_xorCnt hmask).trans hfirst
  have hE := enc.encoder.length_encode _ hsrc
  have hchain := chain_blocks (m := enc.encoder.mode) hE hrest
  have hcount : (sealText sha512 enc first rest).length / blockSize - 1 = rest.length := by
    rw [sealText, List.length_append, hE, length_flatten hchain, length_chain, blockSize]
    omega
  have hblocks := blocks_flatten [] hchain
  rw [List.append_nil, length_chain] at hblocks
  rw [openText, hcount, sealText, List.take_left' hE, List.drop_left' hE, hblocks, unchain_chain (m := enc.encoder.mode) hE hrest,
    enc.encoder.decode_encode _ hsrc]
  simp only [xor16Unaligned, xorCnt_xorCnt (Nat.le_of_eq hfirst.symm) hmask]

/-- Every ciphertext is made from a text. -/
theorem exists_seal {n : ℕ} (hdata : data.length = (n + 1) * blockSize) (hiv : n = 0 → blockSize ≤ enc.iv.length) :
    ∃ first rest, first.length = blockSize ∧ (∀ b ∈ rest, b.length = blockSize) ∧ (rest = [] → blockSize ≤ enc.iv.length) ∧
      data = sealText sha512 enc first rest := by
  rw [Nat.succ_mul] at hdata
  have hhead : (data.take blockSize).length = blockSize := by
    rw [List.length_take]
    omega
  have htail : (data.drop blockSize).length = n * blockSize := by
    rw [List.length_drop]
    omega
  have hblocks := length_blocks (Nat.le_of_eq htail.symm)
  obtain ⟨hrest, hchain⟩ := chain_unchain (m := enc.encoder.mode) (fun c hc => ⟨enc.encoder.length_decode c hc, enc.encoder.encode_decode hc⟩)
    hhead hblocks
  let rest := unchain enc.encoder.mode (data.take blockSize) (blocks n (data.drop blockSize))
  have hiv : rest = [] → blockSize ≤ enc.iv.length := by
    intro hnil
    have hlength : rest.length = n := length_unchain.trans count_blocks
    rw [hnil] at hlength
    exact hiv hlength.symm
  have hmask := @length_mask sha512 _ _ hrest hiv
  have hdecode := enc.encoder.length_decode _ hhead
  refine ⟨xor16Unaligned (enc.encoder.decode (data.take blockSize)) (mask sha512 enc rest.flatten), rest,
    (length_xorCnt hmask).trans hdecode, hrest, hiv, ?_⟩
  have hdst : enc.encoder.encode (xor16Unaligned (xor16Unaligned (enc.encoder.decode (data.take blockSize)) (mask sha512 enc rest.flatten))
      (mask sha512 enc rest.flatten)) = data.take blockSize := by
    rw [xor16Unaligned, xor16Unaligned, xorCnt_xorCnt (Nat.le_of_eq hdecode.symm) hmask, enc.encoder.encode_decode hhead]
  rw [sealText, hdst, hchain, flatten_blocks, ← htail, List.take_length, List.take_append_drop]

/-- The blocks that a name is put into. -/
theorem encodeText_seal {name : Bytes} (hne : name ≠ []) (hnul : 0 ∉ name) (hiv : name.length ≤ blockSize → blockSize ≤ enc.iv.length) :
    ∃ first rest k, first.length = blockSize ∧ (∀ b ∈ rest, b.length = blockSize) ∧ (rest = [] → blockSize ≤ enc.iv.length) ∧
      first ++ rest.flatten = name ++ List.replicate k 0 ∧ k < blockSize ∧
      encodeText sha512 longSize enc name = some (sealText sha512 enc first rest, (sealText sha512 enc first rest).length) := by
  rcases Nat.lt_or_ge blockSize name.length with hlong | hshort
  · obtain ⟨bs, k, hbs, hblocks, hflat, hk, hencode⟩ := encodeText_long sha512 longSize enc hlong
    refine ⟨name.take blockSize, bs, k, length_take_block hlong, hblocks, fun hnil => absurd hnil hbs, ?_, hk, ?_⟩
    · rw [hflat, ← List.append_assoc, List.take_append_drop]
    · have hrest : name.drop blockSize ≠ [] := fun hnil => Nat.not_le.mpr hlong (List.drop_eq_nil_iff.mp hnil)
      have hmask : mask sha512 enc bs.flatten = hmacSha512 sha512 (name.drop blockSize) enc.iv := by
        rw [mask, hflat, if_neg (List.append_ne_nil_of_left_ne_nil hrest _), cString_append_zeros,
          cString_of_no_zero fun h => hnul (List.mem_of_mem_drop h)]
      rw [hencode, sealText, hmask]
      rfl
  · have hpos := List.length_pos_iff.mpr hne
    refine ⟨(copyPad blockSize name).1, [], blockSize - name.length, length_copyPad name, nofun, fun _ => hiv hshort, ?_,
      Nat.sub_lt (by decide) hpos, ?_⟩
    · rw [List.flatten_nil, List.append_nil, copyPad_block hshort]
    · have hseal : sealText sha512 enc (copyPad blockSize name).1 [] =
          enc.encoder.encode (xor16Aligned longSize (copyPad blockSize name).1 enc.iv) := by
        rw [sealText, chain, List.flatten_nil, List.append_nil, xor16Aligned_eq longSize (Nat.le_of_eq (length_copyPad _).symm) (hiv hshort)]
        rfl
      have hE : (sealText sha512 enc (copyPad blockSize name).1 []).length = blockSize := by
        rw [hseal]
        apply enc.encoder.length_encode
        rw [xor16Aligned_eq longSize (Nat.le_of_eq (length_copyPad _).symm) (hiv hshort)]
        exact (length_xorCnt (hiv hshort)).trans (length_copyPad name)
      have hlength : name.length + (blockSize - name.length) = 1 * blockSize := by omega
      rw [encodeText, if_pos hshort, if_pos (hiv hshort), hE, outlen_eq hlength (Nat.sub_lt (by decide) hpos), Nat.one_mul, hseal]

/-! ### What decodes to one name -/

theorem length_sealText (hfirst : first.length = blockSize) (hrest : ∀ b ∈ rest, b.length = blockSize)
    (hiv : rest = [] → blockSize ≤ enc.iv.length) : (sealText sha512 enc first rest).length = (rest.length + 1) * blockSize := by
  have hmask := @length_mask sha512 _ _ hrest hiv
  have hE := enc.encoder.length_encode _ ((length_xorCnt hmask).trans hfirst)
  have hchain := chain_blocks (m := enc.encoder.mode) hE hrest
  rw [sealText, List.length_append, xor16Unaligned, hE, length_flatten hchain, length_chain, Nat.succ_mul, Nat.add_comm]

/-- What is decoded was made from a padded text. -/
theorem decoded (h : decodeText sha512 longSize enc aligned data = some (some ret)) :
    ∃ first rest, first.length = blockSize ∧ (∀ b ∈ rest, b.length = blockSize) ∧ (rest = [] → blockSize ≤ enc.iv.length) ∧
      data = sealText sha512 enc first rest ∧ Padded (checked first rest) ∧ ret = first ++ rest.flatten ++ [0] := by
  have hblocks : ∃ n, data.length = (n + 1) * blockSize ∧ (n = 0 → blockSize ≤ enc.iv.length) := by
    rw [decodeText] at h
    split_ifs at h with hmod hone hiv
    · cases h
    · refine ⟨0, ?_, fun _ => hiv⟩
      rw [blockSize] at *
      omega
    · refine ⟨data.length / blockSize - 1, ?_, ?_⟩
      all_goals
        rw [blockSize] at *
        omega
  obtain ⟨n, hlength, hiv⟩ := hblocks
  obtain ⟨first, rest, hfirst, hrest, hiv, rfl⟩ := @exists_seal sha512 _ _ _ hlength hiv
  exact ⟨first, rest, hfirst, hrest, hiv, rfl, (decodeText_seal hfirst hrest hiv).mp h⟩

/-- A block of zeros. -/
def zeroBlock : Bytes := List.replicate blockSize 0

/-- With a block of zeros behind it, a text is still padded. -/
theorem padded_zeroBlock (h : Padded (checked first rest)) : Padded (checked first (rest ++ [zeroBlock])) := by
  rw [checked, if_neg (List.append_ne_nil_of_right_ne_nil _ (List.cons_ne_nil _ _)), List.flatten_append, List.flatten_singleton]
  cases rest with
  | nil => exact padded_iff.mpr ⟨blockSize, by decide⟩
  | cons b bs => exact h.append_zeros blockSize

theorem cString_zeroBlock (x : Bytes) : cString (x ++ zeroBlock ++ [0]) = cString (x ++ [0]) := by
  rw [List.append_assoc, zeroBlock, zeros_end, cString_append_zero, cString_append_zero]

/-- A padded text whose first block is of the name is the name and zeros. -/
theorem text_eq (hfirst : 0 ∉ first ∨ rest = []) (h : Padded (checked first rest)) :
    ∃ k, first ++ rest.flatten = cString (first ++ rest.flatten ++ [0]) ++ List.replicate k 0 := by
  rw [cString_append_zero]
  apply padded_iff.mp
  cases rest with
  | nil =>
    rw [List.flatten_nil, List.append_nil]
    exact h
  | cons b bs =>
    have hfirst : 0 ∉ first := hfirst.resolve_right (List.cons_ne_nil _ _)
    obtain ⟨k, hk⟩ := padded_iff.mp h
    rw [checked, if_neg (List.cons_ne_nil _ _)] at hk
    generalize (b :: bs).flatten = text at *
    have hname : 0 ∉ first ++ cString text := by
      rw [List.mem_append]
      exact fun hmem => hmem.elim hfirst (zero_not_mem_cString _)
    have htext : first ++ text = first ++ cString text ++ List.replicate k 0 := by rw [List.append_assoc, ← hk]
    refine padded_iff.mpr ⟨k, ?_⟩
    rw [htext, cString_append_zeros, cString_of_no_zero hname]

/-- The blocks of a text. -/
theorem blocks_inj {first' : Bytes} {rest' : List Bytes} (hfirst : first.length = blockSize) (hrest : ∀ b ∈ rest, b.length = blockSize)
    (hfirst' : first'.length = blockSize) (hrest' : ∀ b ∈ rest', b.length = blockSize)
    (h : first ++ rest.flatten = first' ++ rest'.flatten) : first = first' ∧ rest = rest' := by
  obtain ⟨hhead, htail⟩ := List.append_inj h (hfirst.trans hfirst'.symm)
  have hcount := congrArg List.length htail
  rw [length_flatten hrest, length_flatten hrest'] at hcount
  have hblocks := blocks_flatten [] hrest
  rw [htail, Nat.eq_of_mul_eq_mul_right (by decide) hcount, blocks_flatten [] hrest'] at hblocks
  exact ⟨hhead, hblocks.symm⟩

/-- The encoder's padding is of less than a block. -/
theorem encodeText_iff (hfirst : first.length = blockSize) (hrest : ∀ b ∈ rest, b.length = blockSize)
    (hiv : rest = [] → blockSize ≤ enc.iv.length) {name : Bytes} (hnul : 0 ∉ name) :
    encodeText sha512 longSize enc name = some (sealText sha512 enc first rest, (sealText sha512 enc first rest).length) ↔
      ∃ k < blockSize, first ++ rest.flatten = name ++ List.replicate k 0 := by
  have hlength := @length_sealText sha512 _ _ _ hfirst hrest hiv
  have htext : (first ++ rest.flatten).length = (rest.length + 1) * blockSize := by
    rw [List.length_append, hfirst, length_flatten hrest, Nat.succ_mul, Nat.add_comm]
  constructor
  · intro hencode
    have hne : name ≠ [] := by
      rintro rfl
      rw [encodeText, if_pos (show ([] : Bytes).length ≤ blockSize from Nat.zero_le _)] at hencode
      split_ifs at hencode with hfull
      have hzero := congrArg Prod.snd (Option.some.inj hencode)
      rw [hlength, List.length_nil, blockSize] at hzero
      omega
    have hiv' : name.length ≤ blockSize → blockSize ≤ enc.iv.length := by
      intro hshort
      rw [encodeText, if_pos hshort] at hencode
      split_ifs at hencode with hfull
      exact hfull
    obtain ⟨first', rest', k, hfirst', hrest', hiv', htext', hk, hencode'⟩ :=
      @encodeText_seal sha512 longSize _ _ hne hnul hiv'
    have hseal : sealText sha512 enc first rest = sealText sha512 enc first' rest' :=
      congrArg Prod.fst (Option.some.inj (hencode.symm.trans hencode'))
    refine ⟨k, hk, ?_⟩
    rw [← @openText_seal sha512 _ _ _ hfirst hrest hiv, hseal, openText_seal hfirst' hrest' hiv', htext']
  · rintro ⟨k, hk, htail⟩
    rw [htail, List.length_append, List.length_replicate, blockSize] at htext
    rw [blockSize] at hk
    have hne : name ≠ [] := by
      rintro rfl
      rw [List.length_nil] at htext
      omega
    have hiv' : name.length ≤ blockSize → blockSize ≤ enc.iv.length := by
      intro hshort
      apply hiv
      apply List.length_eq_zero_iff.mp
      rw [blockSize] at hshort
      omega
    obtain ⟨first', rest', k', hfirst', hrest', -, htext', hk', hencode⟩ :=
      @encodeText_seal sha512 longSize _ _ hne hnul hiv'
    have hlength' := congrArg List.length htext'
    rw [List.length_append, hfirst', length_flatten hrest', List.length_append, List.length_replicate, blockSize] at hlength'
    rw [blockSize] at hk'
    have hkk : k' = k := by omega
    rw [hkk, ← htail] at htext'
    obtain ⟨rfl, rfl⟩ := blocks_inj hfirst' hrest' hfirst hrest htext'
    exact hencode

/-- **No name has one ciphertext.** Another one decodes to the same string, and the encoder gives
the ciphertext back exactly if its text has no zero outside the padding that the encoder
makes, of less than a block. -/
theorem decode_text_collides (sha512 : Sha512) (longSize : ℕ) (enc : TextKey) (aligned : Bool) (data ret : Bytes)
    (h : decodeText sha512 longSize enc aligned data = some (some ret)) :
    (∃ data' ret', data' ≠ data ∧ decodeText sha512 longSize enc aligned data' = some (some ret') ∧ cString ret' = cString ret) ∧
      (encodeText sha512 longSize enc (cString ret) = some (data, data.length) ↔
        0 ∉ (openText sha512 enc data).take (data.length - (blockSize - 1))) := by
  obtain ⟨first, rest, hfirst, hrest, hiv, rfl, hpadded, rfl⟩ := decoded h
  have hlength := @length_sealText sha512 _ _ _ hfirst hrest hiv
  constructor
  · have hrest' : ∀ b ∈ rest ++ [zeroBlock], b.length = blockSize := by
      intro b hb
      rcases List.mem_append.mp hb with hb | hb
      · exact hrest b hb
      · rw [List.mem_singleton.mp hb]
        exact List.length_replicate
    have hiv' : rest ++ [zeroBlock] = [] → blockSize ≤ enc.iv.length :=
      fun hnil => absurd hnil (List.append_ne_nil_of_right_ne_nil _ (List.cons_ne_nil _ _))
    refine ⟨sealText sha512 enc first (rest ++ [zeroBlock]), _, ?_,
      (decodeText_seal hfirst hrest' hiv').mpr ⟨padded_zeroBlock hpadded, rfl⟩, ?_⟩
    · intro heq
      have hlength' := @length_sealText sha512 _ _ _ hfirst hrest' hiv'
      rw [heq, hlength, List.length_append, List.length_singleton, blockSize] at hlength'
      omega
    · rw [List.flatten_append, List.flatten_singleton, ← List.append_assoc, cString_zeroBlock]
  · rw [openText_seal hfirst hrest hiv, hlength]
    have htext : (first ++ rest.flatten).length = (rest.length + 1) * blockSize := by
      rw [List.length_append, hfirst, length_flatten hrest, Nat.succ_mul, Nat.add_comm]
    have hname := zero_not_mem_cString (first ++ rest.flatten ++ [0])
    rw [← hlength, encodeText_iff hfirst hrest hiv hname, hlength]
    constructor
    · rintro ⟨k, hk, htail⟩ hzero
      rw [htail, List.length_append, List.length_replicate] at htext
      rw [htail, List.take_append_of_le_length (by rw [blockSize] at *; omega)] at hzero
      exact hname (List.mem_of_mem_take hzero)
    · intro hnul
      have hzeros : 0 ∉ first ∨ rest = [] := by
        by_cases hnil : rest = []
        · exact Or.inr hnil
        · left
          intro hmem
          have hcount := List.length_pos_iff.mpr hnil
          apply hnul
          rw [List.take_append, List.take_of_length_le (by rw [hfirst, blockSize]; omega)]
          exact List.mem_append_left _ hmem
      obtain ⟨k, htail⟩ := text_eq hzeros hpadded
      refine ⟨k, ?_, htail⟩
      by_contra hlong
      rw [htail, List.length_append, List.length_replicate] at htext
      apply hnul
      rw [htail, List.take_append, List.take_replicate]
      refine List.mem_append_right _ (List.mem_replicate.mpr ⟨?_, rfl⟩)
      rw [blockSize] at *
      omega

/-- The name `a`, in a block of its own and with other bytes behind the zero. -/
theorem hidden_bytes_collide :
    let sha512 : Sha512 := ⟨fun _ => List.replicate 64 0, fun _ => List.length_replicate⟩
    let enc : TextKey := ⟨sampleAes, List.replicate 16 7⟩
    ¬∀ data data' ret ret', decodeText sha512 8 enc true data = some (some ret) → decodeText sha512 8 enc true data' = some (some ret') →
      cString ret = cString ret' → data = data' := by
  intro sha512 enc h
  have hsame := h (sealText sha512 enc (97 :: List.replicate 15 0) [])
    (sealText sha512 enc ([97, 0, 98] ++ List.replicate 13 0) [98 :: List.replicate 15 0])
    ((97 :: List.replicate 15 0) ++ [0]) (([97, 0, 98] ++ List.replicate 13 0) ++ (98 :: List.replicate 15 0) ++ [0])
    (by decide +kernel) (by decide +kernel) (by decide +kernel)
  exact absurd hsame (by decide +kernel)

theorem decode_text_collides_one_letter :
    let sha512 : Sha512 := ⟨fun _ => List.replicate 64 0, fun _ => List.length_replicate⟩
    let enc : TextKey := ⟨sampleAes, List.replicate 16 7⟩
    let data := sealText sha512 enc (97 :: List.replicate 15 0) []
    let ret : Bytes := (97 :: List.replicate 15 0) ++ [0]
    (∃ data' ret', data' ≠ data ∧ decodeText sha512 8 enc true data' = some (some ret') ∧ cString ret' = cString ret) ∧
      (encodeText sha512 8 enc (cString ret) = some (data, data.length) ↔ 0 ∉ (openText sha512 enc data).take (data.length - (blockSize - 1))) :=
  decode_text_collides _ 8 _ true _ _ (by decide +kernel)

end Pclsync.Crypto
