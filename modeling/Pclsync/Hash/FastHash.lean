import Pclsync.Hash.Crc32c

/-! The hash of the log files (`psync_fast_hash256_*` in `pcrc32c.c`), which takes its data
in pieces of any length. -/
namespace Pclsync.Hash
open Lib.ShiftRegister

/-- How `psync_fast_hash256_init` found that a CRC is computed on this machine. -/
inductive Path where
  | software
  | instruction (t : WordType)
deriving DecidableEq, Repr

/-- The variables `a` to `y`, or `state` of the context. -/
structure Lanes where
  a : UInt64
  b : UInt64
  c : UInt64
  d : UInt64
  x : UInt64
  y : UInt64
deriving DecidableEq, Repr

/-- `PSYNC_FAST_HASH256_BLOCK_LEN`. -/
def blockLen : ℕ := 64

/-- `psync_fast_hash256_ctx`. The last byte of `buff` tells how many of the others are
filled, as long as no block is complete. -/
structure Ctx where
  state : Lanes
  length : UInt64
  buff : Vector UInt8 64
deriving DecidableEq, Repr

def k0 : UInt64 := 0xc3a5c85c97cb3127
def k1 : UInt64 := 0xb492b66fbe98f273
def k2 : UInt64 := 0x9ae16a3b2f90404f

/-- `fh_shiftmix`. -/
def fhShiftmix (val : UInt64) : UInt64 := val ^^^ (val >>> 47)

/-- `fh_rotate64`. -/
def fhRotate64 (val shift : UInt64) : UInt64 := if shift ≠ 0 then (val >>> shift) ||| (val <<< (64 - shift)) else val

/-- `fh_hashmul3`. -/
def fhHashmul3 (u v mul : UInt64) : UInt64 := fhShiftmix ((fhShiftmix ((u ^^^ v) * mul) ^^^ v) * mul) * mul

/-- `fh_hashmul2`. -/
def fhHashmul2 (u v : UInt64) : UInt64 := fhHashmul3 u v 0x9ddfea08eb382d69

/-- `fh_load64`. -/
def fhLoad64 (data : List UInt8) : UInt64 := UInt64.ofNat (load 8 data)

/-- `crc32c_table[k][x & 0xff]`. -/
def tableOf (k : ℕ) (x : UInt64) : UInt64 := UInt64.ofNat (entry crc32cTable k (x &&& 0xff).toNat)

/-- `fh_crc32_64sw`. -/
def fhCrc32Sw (crc data : UInt64) : UInt64 :=
  let crc := crc ^^^ (data &&& 0xffffffff)
  tableOf 7 crc ^^^ tableOf 6 (crc >>> 8) ^^^ tableOf 5 (crc >>> 16) ^^^ tableOf 4 (crc >>> 24) ^^^
    tableOf 3 (data >>> 32) ^^^ tableOf 2 (data >>> 40) ^^^ tableOf 1 (data >>> 48) ^^^ tableOf 0 (data >>> 56)

/-- `fh_crc32_64hw`; the instruction takes the low half of the register. -/
def fhCrc32Hw (t : WordType) (crc data : UInt64) : UInt64 :=
  let crc := crc.toNat % 2 ^ 32
  UInt64.ofNat (match t with
    | .uint64 => crc32Instruction 8 crc data.toNat
    | .uint32 => crc32Instruction 4 (crc32Instruction 4 crc (data &&& 0xffffffff).toNat) (data >>> 32).toNat)

def Path.crc : Path → UInt64 → UInt64 → UInt64
  | software => fhCrc32Sw
  | instruction t => fhCrc32Hw t

/-- `ROUND_GEN` over the words `word 0` to `word 7`. -/
def roundGen (crc : UInt64 → UInt64 → UInt64) (word : ℕ → UInt64) (s : Lanes) : Lanes :=
  let a := s.a + word 0
  let b := s.b + word 1
  let c := s.c + word 2
  let d := s.d + word 3
  let b := b ^^^ fhRotate64 a 21
  let d := d ^^^ fhRotate64 c 17
  let x := crc s.x (a + b)
  let y := crc s.y (c + d)
  let a := a + word 4
  let b := b + word 5
  let c := c + word 6
  let d := d + word 7
  let a := a ^^^ fhRotate64 b 13
  let c := c ^^^ fhRotate64 d 16
  let x := crc x (a + b)
  let y := crc y (c + d)
  -- ROTATE_4_64 and ROTATE_2_64
  ⟨d, a, b, c, y, x⟩

/-- The words of a block. -/
def wordsOf (block : List UInt8) (k : ℕ) : UInt64 := fhLoad64 (block.drop (8 * k))

/-- `ROUND_CDATA` and `ROUND_BUFF`. -/
def round (path : Path) (s : Lanes) (block : List UInt8) : Lanes := roundGen path.crc (wordsOf block) s

/-- `n` bytes of the table from `crc32c_table[k][2]` on. -/
def tableBytes (k n : ℕ) : List UInt8 :=
  (((crc32cTable.getD k []).drop 2).flatMap fun x => (bytesOf 4 x).map UInt8.ofNat).take n

/-- `memcpy(buff+l, data, data.length)`. -/
def memcpy (buff : Vector UInt8 64) (l : ℕ) (data : List UInt8) : Vector UInt8 64 :=
  Vector.ofFn fun i => if l ≤ i.val ∧ i.val < l + data.length then data.getD (i.val - l) 0 else buff.get i

/-- `ctx->buff[PSYNC_FAST_HASH256_BLOCK_LEN-1]=n`. -/
def setFill (buff : Vector UInt8 64) (n : ℕ) : Vector UInt8 64 := memcpy buff (blockLen - 1) [UInt8.ofNat n]

/-- `ctx->buff[PSYNC_FAST_HASH256_BLOCK_LEN-1]`: how many bytes of the buffer are filled. -/
def fillOf (buff : Vector UInt8 64) : ℕ := (buff.get 63).toNat

def Ctx.fill (ctx : Ctx) : ℕ := fillOf ctx.buff

/-- The first state: `&crc32c_table[0][2]`. -/
def initState : Lanes :=
  let word := wordsOf (tableBytes 0 48)
  ⟨word 0, word 1, word 2, word 3, word 4, word 5⟩

/-- `psync_fast_hash256_init`, of a context that holds anything. -/
def psyncFastHash256Init (junk : Vector UInt8 64) : Ctx where
  state := initState
  length := 0
  buff := setFill junk 0

/-- `psync_fast_hash256_update_short_sw`. -/
def updateShort (ctx : Ctx) (data : List UInt8) : Ctx :=
  let l := ctx.fill
  { ctx with buff := memcpy (setFill ctx.buff (l + data.length)) l data }

/-- `while (len>=PSYNC_FAST_HASH256_BLOCK_LEN)`. -/
def whileBlocks (path : Path) (s : Lanes) (data : List UInt8) : Lanes × List UInt8 :=
  if blockLen ≤ data.length then whileBlocks path (round path s data) (data.drop blockLen) else (s, data)
termination_by data.length
decreasing_by
  rw [List.length_drop, blockLen] at *
  omega

/-- `psync_fast_hash256_update_long_hw` and `psync_fast_hash256_update_long_sw`. -/
def updateLong (path : Path) (ctx : Ctx) (data : List UInt8) : Ctx :=
  let l := ctx.fill
  let filled := memcpy ctx.buff l (data.take (blockLen - l))
  let (s, data) := if l ≠ 0 then (round path ctx.state filled.toList, data.drop (blockLen - l)) else (ctx.state, data)
  let buff := if l ≠ 0 then filled else ctx.buff
  let (s, data) := whileBlocks path s data
  { ctx with state := s, buff := setFill (memcpy buff 0 data) data.length }

/-- `psync_fast_hash256_update`. -/
def psyncFastHash256Update (path : Path) (ctx : Ctx) (data : List UInt8) : Ctx :=
  let ctx := { ctx with length := ctx.length + UInt64.ofNat data.length }
  if data.length + ctx.fill < blockLen then updateShort ctx data else updateLong path ctx data

/-- `psync_fast_hash256_final`: the digest as four words. -/
def psyncFastHash256Final (path : Path) (ctx : Ctx) : List UInt64 :=
  let buff := memcpy ctx.buff ctx.fill (tableBytes 1 (blockLen - ctx.fill))
  let len := ctx.length
  let word : ℕ → UInt64
    | 0 => wordsOf buff.toList 0 + len * k0
    | 1 => wordsOf buff.toList 1 ^^^ fhHashmul2 len k0
    | 2 => wordsOf buff.toList 2 ^^^ len * k1
    | 3 => wordsOf buff.toList 3 - len * k2
    | k => wordsOf buff.toList k
  let ⟨a, b, c, d, x, y⟩ := roundGen path.crc word ctx.state
  let d := d ^^^ fhRotate64 a 43
  let a := a + fhRotate64 b 42
  let b := b ^^^ fhRotate64 c 41
  let c := c + fhRotate64 d 40
  let a := fhHashmul2 a (x + b)
  let b := fhHashmul2 b (y + c)
  let c := fhHashmul2 c (x + d)
  let d := fhHashmul2 d (y + a)
  [a + b + y + x, fhShiftmix ((a + x) * k0) * k0 + b, fhShiftmix ((c ^^^ y) * k1) * k1 + d,
    fhShiftmix ((x - y) * k2) * k2 + (c ^^^ d)]

/-! ### The buffer -/

variable {buff : Vector UInt8 64} {data rest msg : List UInt8} {l n : ℕ} {path : Path} {ctx : Ctx} {s : Lanes}

theorem memcpy_get (buff : Vector UInt8 64) (l : ℕ) (data : List UInt8) (i : Fin 64) :
    (memcpy buff l data).get i = if l ≤ i.val ∧ i.val < l + data.length then data.getD (i.val - l) 0 else buff.get i := by
  show (memcpy buff l data)[i.val] = _
  rw [memcpy, Vector.getElem_ofFn]

/-- The first bytes of the buffer are `rest`. -/
def StartsWith (buff : Vector UInt8 64) (rest : List UInt8) : Prop :=
  ∀ i : Fin 64, i.val < rest.length → buff.get i = rest.getD i.val 0

/-- Data copied behind what is there. -/
theorem StartsWith.memcpy (h : StartsWith buff rest) (data : List UInt8) :
    StartsWith (memcpy buff rest.length data) (rest ++ data) := by
  intro i hi
  rw [memcpy_get]
  split_ifs with hin
  · rw [List.getD_append_right _ _ _ _ hin.1]
  · rw [List.length_append] at hi
    have hlt : i.val < rest.length := by omega
    rw [h i hlt, List.getD_append _ _ _ _ hlt]

/-- The last byte of the buffer is not one of those. -/
theorem StartsWith.setFill (h : StartsWith buff rest) (hlen : rest.length < blockLen) (n : ℕ) :
    StartsWith (setFill buff n) rest := by
  intro i hi
  rw [blockLen] at hlen
  rw [Hash.setFill, memcpy_get, if_neg (by rw [blockLen]; omega)]
  exact h i hi

/-- A full buffer. -/
theorem StartsWith.toList_eq (h : StartsWith buff rest) (hlen : rest.length = blockLen) : buff.toList = rest := by
  refine List.ext_getElem (by rw [Vector.length_toList, hlen, blockLen]) fun i hi hi' => ?_
  have hcell := h ⟨i, by rwa [Vector.length_toList] at hi⟩ hi'
  rw [List.getD_eq_getElem _ _ hi'] at hcell
  rw [← hcell]
  rfl

theorem fillOf_setFill (buff : Vector UInt8 64) (hn : n < blockLen) : fillOf (setFill buff n) = n := by
  rw [blockLen] at hn
  have hcell : (setFill buff n).get 63 = UInt8.ofNat n := by
    rw [setFill, memcpy_get, List.length_singleton, if_pos (by decide)]
    rfl
  rw [fillOf, hcell, UInt8.toNat_ofNat', Nat.mod_eq_of_lt (by omega)]

/-- Data below the last byte leaves the fill as it is. -/
theorem fillOf_memcpy (buff : Vector UInt8 64) (h : l + data.length < blockLen) : fillOf (memcpy buff l data) = fillOf buff := by
  rw [blockLen] at h
  have hout : ¬(l ≤ (63 : Fin 64).val ∧ (63 : Fin 64).val < l + data.length) := by
    show ¬(l ≤ 63 ∧ 63 < l + data.length)
    omega
  rw [fillOf, memcpy_get, if_neg hout, fillOf]

/-! ### Blocks -/

theorem roundGen_congr {word word' : ℕ → UInt64} (crc : UInt64 → UInt64 → UInt64) (h : ∀ k < 8, word k = word' k) :
    roundGen crc word s = roundGen crc word' s := by
  rw [roundGen, h 0 (by decide), h 1 (by decide), h 2 (by decide), h 3 (by decide), h 4 (by decide), h 5 (by decide),
    h 6 (by decide), h 7 (by decide)]
  rfl

/-- A round reads one block. -/
theorem round_append (hlen : blockLen ≤ data.length) (ys : List UInt8) : round path s (data ++ ys) = round path s data := by
  rw [blockLen] at hlen
  refine roundGen_congr _ fun k hk => ?_
  rw [wordsOf, wordsOf, fhLoad64, fhLoad64, load, load, List.drop_append_of_le_length (by omega),
    List.take_append_of_le_length (by rw [List.length_drop]; omega)]

/-- What is left of the first data joins the rest of the data. -/
theorem whileBlocks_append (path : Path) (s : Lanes) (xs ys : List UInt8) :
    whileBlocks path s (xs ++ ys) =
      whileBlocks path (whileBlocks path s xs).1 ((whileBlocks path s xs).2 ++ ys) := by
  fun_induction whileBlocks path s xs with
  | case1 s xs hlen ih =>
    rw [whileBlocks, if_pos (by rw [List.length_append]; omega), List.drop_append_of_le_length hlen, round_append hlen, ih]
  | case2 s xs hlen => rfl

theorem whileBlocks_rest (path : Path) (s : Lanes) (xs : List UInt8) : (whileBlocks path s xs).2.length < blockLen := by
  fun_induction whileBlocks path s xs with
  | case1 s xs hlen ih => exact ih
  | case2 s xs hlen => exact Nat.not_le.mp hlen

/-! ### Pieces -/

/-- The context has taken in the message, in whatever pieces: whole blocks in the state, the
rest in the buffer, behind which anything may stand. -/
structure Absorbed (path : Path) (msg : List UInt8) (ctx : Ctx) : Prop where
  state_eq : ctx.state = (whileBlocks path initState msg).1
  starts : StartsWith ctx.buff (whileBlocks path initState msg).2
  fill_eq : ctx.fill = (whileBlocks path initState msg).2.length
  length_eq : ctx.length = UInt64.ofNat msg.length

theorem whileBlocks_short (path : Path) (s : Lanes) (h : data.length < blockLen) : whileBlocks path s data = (s, data) := by
  rw [whileBlocks, if_neg (Nat.not_le.mpr h)]

theorem init_absorbed (path : Path) (junk : Vector UInt8 64) : Absorbed path [] (psyncFastHash256Init junk) := by
  have hnil : whileBlocks path initState [] = (initState, []) := whileBlocks_short path initState (by decide)
  have hfill : (psyncFastHash256Init junk).fill = 0 := by
    rw [Ctx.fill, psyncFastHash256Init, fillOf_setFill junk (by decide)]
  refine ⟨?_, ?_, ?_, ?_⟩
  · rw [hnil, psyncFastHash256Init]
  · rw [hnil]
    exact fun i hi => absurd hi (Nat.not_lt_zero i.val)
  · rw [hnil, hfill, List.length_nil]
  · rw [psyncFastHash256Init, List.length_nil]
    rfl

/-- A short piece stays in the buffer. -/
theorem updateShort_starts (hstarts : StartsWith ctx.buff rest) (hfill : ctx.fill = rest.length)
    (hlen : data.length + ctx.fill < blockLen) :
    (updateShort ctx data).state = ctx.state ∧ StartsWith (updateShort ctx data).buff (rest ++ data) ∧
      (updateShort ctx data).fill = (rest ++ data).length := by
  have hbuff : (updateShort ctx data).buff = memcpy (setFill ctx.buff (ctx.fill + data.length)) ctx.fill data := by
    rw [updateShort]
  refine ⟨by rw [updateShort], ?_, ?_⟩
  · rw [hbuff, hfill]
    exact (hstarts.setFill (by omega) _).memcpy data
  · rw [Ctx.fill, hbuff, fillOf_memcpy _ (by omega), fillOf_setFill _ (by omega), hfill, List.length_append]

/-- The last part of the function, from the data that are left. -/
theorem left_starts (buff : Vector UInt8 64) {left : List UInt8} (hleft : left.length < blockLen) :
    StartsWith (setFill (memcpy buff 0 left) left.length) left ∧
      fillOf (setFill (memcpy buff 0 left) left.length) = left.length := by
  have hempty : StartsWith buff [] := nofun
  exact ⟨(hempty.memcpy left).setFill hleft _, fillOf_setFill _ hleft⟩

theorem updateLong_zero (path : Path) (hzero : ctx.fill = 0) :
    updateLong path ctx data = { ctx with
      state := (whileBlocks path ctx.state data).1
      buff := setFill (memcpy ctx.buff 0 (whileBlocks path ctx.state data).2) (whileBlocks path ctx.state data).2.length } := by
  simp only [updateLong, hzero, ne_eq, not_true_eq_false, if_false]

theorem updateLong_filled (path : Path) (hfill : ctx.fill ≠ 0) :
    updateLong path ctx data =
      let filled := memcpy ctx.buff ctx.fill (data.take (blockLen - ctx.fill))
      let left := whileBlocks path (round path ctx.state filled.toList) (data.drop (blockLen - ctx.fill))
      { ctx with state := left.1, buff := setFill (memcpy filled 0 left.2) left.2.length } := by
  simp only [updateLong, if_pos hfill]

/-- A long piece completes the block in the buffer; whole blocks of it go into the state. -/
theorem updateLong_starts (path : Path) (hstarts : StartsWith ctx.buff rest) (hfill : ctx.fill = rest.length)
    (hrest : rest.length < blockLen) (hlen : blockLen ≤ data.length + ctx.fill) :
    (updateLong path ctx data).state = (whileBlocks path ctx.state (rest ++ data)).1 ∧
      StartsWith (updateLong path ctx data).buff (whileBlocks path ctx.state (rest ++ data)).2 ∧
      (updateLong path ctx data).fill = (whileBlocks path ctx.state (rest ++ data)).2.length := by
  have hleft := whileBlocks_rest path ctx.state (rest ++ data)
  by_cases hzero : ctx.fill = 0
  · have hnil : rest = [] := List.length_eq_zero_iff.mp (hfill.symm.trans hzero)
    rw [hnil, List.nil_append] at hleft ⊢
    rw [updateLong_zero path hzero]
    exact ⟨rfl, left_starts ctx.buff hleft⟩
  · have hblock : (rest ++ data.take (blockLen - ctx.fill)).length = blockLen := by
      rw [List.length_append, List.length_take, hfill]
      omega
    have hbuff : (memcpy ctx.buff ctx.fill (data.take (blockLen - ctx.fill))).toList =
        rest ++ data.take (blockLen - ctx.fill) := by
      have hcopy := hstarts.memcpy (data.take (blockLen - ctx.fill))
      rw [← hfill] at hcopy
      exact hcopy.toList_eq hblock
    have hwhile : whileBlocks path ctx.state (rest ++ data) =
        whileBlocks path (round path ctx.state (rest ++ data.take (blockLen - ctx.fill)))
          (data.drop (blockLen - ctx.fill)) := by
      have hsplit : rest ++ data = (rest ++ data.take (blockLen - ctx.fill)) ++ data.drop (blockLen - ctx.fill) := by
        rw [List.append_assoc, List.take_append_drop]
      have hdrop : ((rest ++ data.take (blockLen - ctx.fill)) ++ data.drop (blockLen - ctx.fill)).drop blockLen =
          data.drop (blockLen - ctx.fill) := by
        rw [List.drop_append, hblock, Nat.sub_self, List.drop_zero, List.drop_of_length_le hblock.le, List.nil_append]
      rw [hsplit, whileBlocks, if_pos (by rw [List.length_append, hblock]; omega), round_append hblock.ge, hdrop]
    rw [updateLong_filled path hzero]
    simp only [hbuff]
    rw [hwhile] at hleft ⊢
    exact ⟨rfl, left_starts _ hleft⟩

/-- **A piece more**, be it short or long. -/
theorem update_absorbed (h : Absorbed path msg ctx) (data : List UInt8) :
    Absorbed path (msg ++ data) (psyncFastHash256Update path ctx data) := by
  obtain ⟨hstate, hstarts, hfill, hlength⟩ := h
  have hrest := whileBlocks_rest path initState msg
  have hlength' : ctx.length + UInt64.ofNat data.length = UInt64.ofNat (msg ++ data).length := by
    rw [hlength, List.length_append, UInt64.ofNat_add]
  have hjoin := whileBlocks_append path initState msg data
  rw [← hstate] at hjoin
  rw [psyncFastHash256Update]
  split_ifs with hshort
  · obtain ⟨hstate', hstarts', hfill'⟩ := @updateShort_starts _ _
      { ctx with length := ctx.length + UInt64.ofNat data.length } hstarts hfill hshort
    have hlt : ((whileBlocks path initState msg).2 ++ data).length < blockLen := by
      rw [List.length_append, ← hfill, Nat.add_comm]
      exact hshort
    rw [whileBlocks_short path ctx.state hlt] at hjoin
    refine ⟨?_, ?_, ?_, hlength'⟩
    · rw [hjoin, hstate']
    · rw [hjoin]
      exact hstarts'
    · rw [hjoin, hfill']
  · obtain ⟨hstate', hstarts', hfill'⟩ := @updateLong_starts _ _
      { ctx with length := ctx.length + UInt64.ofNat data.length } path hstarts hfill hrest (Nat.not_lt.mp hshort)
    refine ⟨?_, ?_, ?_, hlength'⟩
    · rw [hjoin, hstate']
    · rw [hjoin]
      exact hstarts'
    · rw [hjoin, hfill']

theorem updates_absorbed (h : Absorbed path msg ctx) (pieces : List (List UInt8)) :
    Absorbed path (msg ++ pieces.flatten) (pieces.foldl (psyncFastHash256Update path) ctx) := by
  induction pieces generalizing msg ctx with
  | nil =>
    rw [List.flatten_nil, List.append_nil]
    exact h
  | cons piece pieces ih =>
    rw [List.flatten_cons, ← List.append_assoc]
    exact ih (update_absorbed h piece)

theorem tableBytes_length (hn : n ≤ 64) : (tableBytes 1 n).length = n := by
  have hall : 64 ≤ (((crc32cTable.getD 1 []).drop 2).flatMap fun x => (bytesOf 4 x).map UInt8.ofNat).length := by
    decide +kernel
  rw [tableBytes, List.length_take, Nat.min_eq_left (hn.trans hall)]

/-- The digest is that of the message alone: the table covers what stands behind the rest. -/
theorem final_eq {ctx' : Ctx} (h : Absorbed path msg ctx) (h' : Absorbed path msg ctx') :
    psyncFastHash256Final path ctx = psyncFastHash256Final path ctx' := by
  have hrest := whileBlocks_rest path initState msg
  have hcover : ∀ {ctx}, Absorbed path msg ctx →
      (memcpy ctx.buff ctx.fill (tableBytes 1 (blockLen - ctx.fill))).toList =
        (whileBlocks path initState msg).2 ++ tableBytes 1 (blockLen - (whileBlocks path initState msg).2.length) := by
    intro ctx h
    have hcopy := h.starts.memcpy (tableBytes 1 (blockLen - (whileBlocks path initState msg).2.length))
    rw [h.fill_eq]
    refine hcopy.toList_eq ?_
    rw [List.length_append, tableBytes_length (show blockLen - _ ≤ blockLen from Nat.sub_le ..)]
    omega
  rw [psyncFastHash256Final, psyncFastHash256Final, hcover h, hcover h', h.state_eq, h'.state_eq, h.length_eq, h'.length_eq]

/-- **Pieces do not matter**: the digest of a message taken in pieces of any lengths is that
of the message taken in at once, whatever stood in the buffers before. -/
theorem fast_hash_pieces (path : Path) (pieces : List (List UInt8)) (junk junk' : Vector UInt8 64) :
    psyncFastHash256Final path (pieces.foldl (psyncFastHash256Update path) (psyncFastHash256Init junk)) =
      psyncFastHash256Final path (psyncFastHash256Update path (psyncFastHash256Init junk') pieces.flatten) := by
  have hpieces := updates_absorbed (init_absorbed path junk) pieces
  have honce := update_absorbed (init_absorbed path junk') pieces.flatten
  exact final_eq hpieces honce

end Pclsync.Hash
