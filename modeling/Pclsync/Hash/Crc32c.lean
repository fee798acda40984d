import Pclsync.Hash.CrcTables

/-! CRC-32C (`pcrc32c.c`): byte by byte, by eight in software, and by words with the
instruction of the processor, three streams at a time. -/
namespace Pclsync.Hash
open Lib.ShiftRegister

/-- `CRC32C_8BIT`. -/
def crc32c8Bit (crc : ℕ) (b : UInt8) : ℕ := entry crc32cTable 0 ((crc ^^^ b.toNat) &&& 0xff) ^^^ crc >>> 8

/-- The definition: one byte after the other through the first table. -/
def crc32cBytes (crc : ℕ) (data : List UInt8) : ℕ := data.foldl crc32c8Bit crc

/-- The word at the start of the data, as this machine reads it. -/
def load (size : ℕ) (data : List UInt8) : ℕ := littleEndian ((data.take size).map UInt8.toNat)

/-- `CRC32C_64BIT`. -/
def crc32c64Bit (crc : ℕ) (data : List UInt8) : ℕ :=
  let crc := crc ^^^ load 4 data
  entry crc32cTable 7 (crc &&& 0xff) ^^^ entry crc32cTable 6 (crc >>> 8 &&& 0xff) ^^^
    entry crc32cTable 5 (crc >>> 16 &&& 0xff) ^^^ entry crc32cTable 4 (crc >>> 24 &&& 0xff) ^^^
    entry crc32cTable 3 (data.getD 4 0).toNat ^^^ entry crc32cTable 2 (data.getD 5 0).toNat ^^^
    entry crc32cTable 1 (data.getD 6 0).toNat ^^^ entry crc32cTable 0 (data.getD 7 0).toNat

/-- A step over the first bytes of the data. -/
structure WordStep where
  size : ℕ
  pos : 0 < size
  step : ℕ → List UInt8 → ℕ

/-- The loop for the bytes before the first whole word. -/
def align (size : ℕ) (byte : ℕ → UInt8 → ℕ) (addr crc : ℕ) : List UInt8 → ℕ × List UInt8
  | [] => (crc, [])
  | b :: data => if addr % size ≠ 0 then align size byte (addr + 1) (byte crc b) data else (crc, b :: data)

/-- `n` words, one after the other. -/
def words (w : WordStep) : ℕ → ℕ → List UInt8 → ℕ × List UInt8
  | 0, crc, data => (crc, data)
  | n + 1, crc, data => words w n (w.step crc data) (data.drop w.size)

theorem words_length (w : WordStep) (n crc : ℕ) (data : List UInt8) :
    (words w n crc data).2.length = data.length - n * w.size := by
  induction n generalizing crc data with
  | zero => simp [words]
  | succ n ih =>
    rw [words, ih, List.length_drop, Nat.succ_mul]
    omega

/-- `while (len>=n*size)`, unrolled into `n` words. -/
def whileWords (w : WordStep) (n : ℕ) [NeZero n] (crc : ℕ) (data : List UInt8) : ℕ × List UInt8 :=
  if n * w.size ≤ data.length then
    whileWords w n (words w n crc data).1 (words w n crc data).2
  else (crc, data)
termination_by data.length
decreasing_by
  have hpos := Nat.mul_pos (Nat.pos_of_neZero n) w.pos
  rw [words_length]
  omega

def swWord : WordStep := ⟨8, by decide, crc32c64Bit⟩

/-- `psync_crc32c_sw`, of data at the address `addr`. -/
def psyncCrc32cSw (addr crc : ℕ) (data : List UInt8) : ℕ :=
  let (crc, data) := align 4 crc32c8Bit addr crc data
  let (crc, data) := whileWords swWord 8 crc data
  let (crc, data) := whileWords swWord 1 crc data
  data.foldl crc32c8Bit crc

/-! ### With the instruction -/

/-- The bytes of a word. -/
def bytesOf : ℕ → ℕ → List ℕ
  | 0, _ => []
  | n + 1, x => x % 256 :: bytesOf n (x / 256)

/-- The `crc32` instruction on a word of `size` bytes: its bytes through the register, the
lowest first. -/
def crc32Instruction (size crc word : ℕ) : ℕ := (bytesOf size word).foldl (feed poly) crc

/-- `crc32c_shift_chunk`. -/
def crc32cShiftChunk (crc : ℕ) : ℕ :=
  entry crc32cShiftChunkTable1360 0 (crc &&& 0xff) ^^^ entry crc32cShiftChunkTable1360 1 (crc >>> 8 &&& 0xff) ^^^
    entry crc32cShiftChunkTable1360 2 (crc >>> 16 &&& 0xff) ^^^ entry crc32cShiftChunkTable1360 3 (crc >>> 24)

/-- `CRC32_WORD_TYPE`. -/
inductive WordType where
  | uint32
  | uint64
deriving DecidableEq, Repr

/-- `CRC32_WORD_SIZE`. -/
def WordType.size : WordType → ℕ
  | uint32 => 4
  | uint64 => 8

theorem WordType.size_pos (t : WordType) : 0 < t.size := by cases t <;> decide

/-- `CRC32_WORD_HW` of the word at the start of the data. -/
def hwWord (t : WordType) : WordStep := ⟨t.size, t.size_pos, fun crc data => crc32Instruction t.size crc (load t.size data)⟩

/-- The loop over three chunks, from the place `off` in each. -/
def streams (t : WordType) (data : List UInt8) (off crc0 crc1 crc2 : ℕ) : ℕ × ℕ × ℕ :=
  let crc0 := (hwWord t).step crc0 (data.drop off)
  let crc1 := (hwWord t).step crc1 (data.drop (off + parallelChunk))
  let crc2 := (hwWord t).step crc2 (data.drop (off + parallelChunk * 2))
  if off + t.size < parallelChunk then streams t data (off + t.size) crc0 crc1 crc2 else (crc0, crc1, crc2)
termination_by parallelChunk - off
decreasing_by
  have := t.size_pos
  omega

/-- `while (len>=CRC32_PARALLEL_CHUNK*3)`. -/
def whileChunks (t : WordType) (crc0 : ℕ) (data : List UInt8) : ℕ × List UInt8 :=
  if parallelChunk * 3 ≤ data.length then
    let (crc0, crc1, crc2) := streams t data 0 crc0 0 0
    let crc0 := crc32cShiftChunk crc0 ^^^ crc1
    let crc0 := crc32cShiftChunk crc0 ^^^ crc2
    whileChunks t crc0 (data.drop (parallelChunk * 3))
  else (crc0, data)
termination_by data.length
decreasing_by
  rw [List.length_drop, parallelChunk] at *
  omega

def hwByte (crc : ℕ) (b : UInt8) : ℕ := crc32Instruction 1 crc b.toNat

/-- `psync_crc32c_hw`, of data at the address `addr`. -/
def psyncCrc32cHw (t : WordType) (addr crc : ℕ) (data : List UInt8) : ℕ :=
  let (crc, data) := align t.size hwByte addr crc data
  let (crc, data) := whileChunks t crc data
  let (crc, data) := whileWords (hwWord t) 4 crc data
  let (crc, data) := whileWords (hwWord t) 1 crc data
  data.foldl hwByte crc

/-! ### Bytes -/

variable {crc : ℕ} {data : List UInt8}

theorem bytes_toNat (data : List UInt8) : Bytes (data.map UInt8.toNat) := by
  intro b hb
  obtain ⟨c, -, rfl⟩ := List.mem_map.mp hb
  exact c.toNat_lt

theorem mask_byte (x : ℕ) : x &&& 0xff = x % 2 ^ 8 := Nat.and_two_pow_sub_one_eq_mod x 8

/-- One byte through the table is one byte through the register. -/
theorem crc32c8Bit_eq (crc : ℕ) (b : UInt8) : crc32c8Bit crc b = feed poly crc b.toNat := by
  have hdiv : (crc ^^^ b.toNat) / 2 ^ 8 = crc / 2 ^ 8 := by
    rw [← Nat.shiftRight_eq_div_pow, Nat.shiftRight_xor_distrib, Nat.shiftRight_eq_div_pow, Nat.shiftRight_eq_div_pow,
      Nat.div_eq_of_lt b.toNat_lt, Nat.xor_zero]
  have hlt : (crc ^^^ b.toNat) % 2 ^ 8 < 256 := Nat.mod_lt _ (by decide)
  rw [crc32c8Bit, mask_byte, crc32cTable_entry (by decide) hlt, feed, bits_split 8 (crc ^^^ b.toNat), hdiv,
    Nat.shiftRight_eq_div_pow]

theorem hwByte_eq (crc : ℕ) (b : UInt8) : hwByte crc b = crc32c8Bit crc b := by
  have hb := b.toNat_lt
  rw [crc32c8Bit_eq, hwByte, crc32Instruction, bytesOf, bytesOf, Nat.mod_eq_of_lt (by omega)]
  rfl

theorem crc32cBytes_eq (crc : ℕ) (data : List UInt8) :
    crc32cBytes crc data = (data.map UInt8.toNat).foldl (feed poly) crc := by
  rw [crc32cBytes, List.foldl_map]
  exact congrArg (fun f => data.foldl f crc) (funext fun crc => funext fun b => crc32c8Bit_eq crc b)

theorem crc32cBytes_append (crc : ℕ) (xs ys : List UInt8) :
    crc32cBytes crc (xs ++ ys) = crc32cBytes (crc32cBytes crc xs) ys := List.foldl_append

/-- The register after some bytes is that of their number. -/
theorem crc32cBytes_load (size : ℕ) (crc : ℕ) (data : List UInt8) :
    crc32cBytes crc (data.take size) = bits poly (8 * (data.take size).length) (crc ^^^ load size data) := by
  rw [crc32cBytes_eq, foldl_feed (bytes_toNat _), List.length_map, load]

theorem crc32c8Bit_lt (hcrc : crc < 2 ^ 32) (b : UInt8) : crc32c8Bit crc b < 2 ^ 32 := by
  rw [crc32c8Bit_eq]
  exact bits_lt (by decide) (Nat.xor_lt_two_pow hcrc (b.toNat_lt.trans (by decide))) 8

theorem crc32cBytes_lt (hcrc : crc < 2 ^ 32) (data : List UInt8) : crc32cBytes crc data < 2 ^ 32 := by
  induction data generalizing crc with
  | nil => exact hcrc
  | cons b data ih => exact ih (crc32c8Bit_lt hcrc b)

/-! ### Words -/

/-- A step over whole words is the bytes of the word. -/
def WordStep.Right (w : WordStep) : Prop :=
  ∀ crc < 2 ^ 32, ∀ data : List UInt8, w.size ≤ data.length → w.step crc data = crc32cBytes crc (data.take w.size)

variable {w : WordStep}

theorem words_bytes (hw : w.Right) (n : ℕ) (hcrc : crc < 2 ^ 32) (hlen : n * w.size ≤ data.length) :
    words w n crc data = (crc32cBytes crc (data.take (n * w.size)), data.drop (n * w.size)) := by
  induction n generalizing crc data with
  | zero => rw [words, Nat.zero_mul, List.take_zero, List.drop_zero, crc32cBytes, List.foldl_nil]
  | succ n ih =>
    rw [Nat.succ_mul] at hlen
    have hstep := hw crc hcrc data (by omega)
    have hsplit : data.take ((n + 1) * w.size) = data.take w.size ++ (data.drop w.size).take (n * w.size) := by
      rw [Nat.succ_mul, Nat.add_comm, List.take_add]
    rw [words, hstep, ih (crc32cBytes_lt hcrc _) (by rw [List.length_drop]; omega), hsplit, crc32cBytes_append,
      List.drop_drop, Nat.succ_mul, Nat.add_comm]

theorem whileWords_bytes (hw : w.Right) (n : ℕ) [NeZero n] (hcrc : crc < 2 ^ 32) :
    crc32cBytes (whileWords w n crc data).1 (whileWords w n crc data).2 = crc32cBytes crc data ∧
      (whileWords w n crc data).1 < 2 ^ 32 := by
  fun_induction whileWords w n crc data with
  | case1 crc data hlen ih =>
    rw [words_bytes hw n hcrc hlen] at ih ⊢
    obtain ⟨hbytes, hlt⟩ := ih (crc32cBytes_lt hcrc _)
    refine ⟨?_, hlt⟩
    rw [hbytes, ← crc32cBytes_append, List.take_append_drop]
  | case2 crc data hlen => exact ⟨rfl, hcrc⟩

theorem align_bytes (size addr : ℕ) (byte : ℕ → UInt8 → ℕ) (hbyte : byte = crc32c8Bit) (hcrc : crc < 2 ^ 32) :
    crc32cBytes (align size byte addr crc data).1 (align size byte addr crc data).2 = crc32cBytes crc data ∧
      (align size byte addr crc data).1 < 2 ^ 32 := by
  subst hbyte
  induction data generalizing addr crc with
  | nil => exact ⟨rfl, hcrc⟩
  | cons b data ih =>
    rw [align]
    split_ifs
    · obtain ⟨hbytes, hlt⟩ := ih (addr + 1) (crc32c8Bit_lt hcrc b)
      exact ⟨hbytes, hlt⟩
    · exact ⟨rfl, hcrc⟩

/-! ### Slices -/

theorem bits_byte (n c : ℕ) : bits poly (n + 8) c = bits poly (n + 8) (c % 256) ^^^ bits poly n (c / 256) := by
  rw [bits_add, bits_split 8 c, bits_xor, ← bits_add]
  rfl

/-- The rows of the table for the four bytes of a word, with `n` bytes behind it. -/
theorem bits_rows (n c : ℕ) (hc : c < 2 ^ 32) (hn : n < 5) :
    bits poly (8 * n + 32) c = entry crc32cTable (n + 3) (c % 256) ^^^ entry crc32cTable (n + 2) (c / 256 % 256) ^^^
      entry crc32cTable (n + 1) (c / 256 / 256 % 256) ^^^ entry crc32cTable n (c / 256 / 256 / 256) := by
  have hlow : ∀ x, x % 256 < 256 := fun x => Nat.mod_lt x (by decide)
  have htop : c / 256 / 256 / 256 < 256 := by omega
  rw [crc32cTable_entry (by omega) (hlow _), crc32cTable_entry (by omega) (hlow _), crc32cTable_entry (by omega) (hlow _),
    crc32cTable_entry (by omega) htop, show 8 * n + 32 = 8 * n + 24 + 8 by omega, bits_byte, bits_byte (8 * n + 16),
    bits_byte (8 * n + 8)]
  simp only [Nat.xor_assoc]
  rfl

theorem littleEndian_lt {bs : List ℕ} (hbs : Bytes bs) : littleEndian bs < 256 ^ bs.length := by
  induction bs with
  | nil => exact Nat.one_pos
  | cons b bs ih =>
    have hb := hbs b List.mem_cons_self
    have hrest := ih fun b hb => hbs b (List.mem_cons_of_mem _ hb)
    rw [littleEndian, List.length_cons, Nat.pow_succ]
    omega

theorem load_lt {size : ℕ} (hlen : size ≤ data.length) : load size data < 256 ^ size := by
  have hlt := littleEndian_lt (bytes_toNat (data.take size))
  rwa [List.length_map, List.length_take, Nat.min_eq_left hlen] at hlt

/-- Eight bytes by the eight rows of the table. -/
theorem swWord_right : swWord.Right := by
  intro crc hcrc data hlen
  obtain ⟨b0, b1, b2, b3, b4, b5, b6, b7, rest, rfl⟩ :
      ∃ b0 b1 b2 b3 b4 b5 b6 b7 rest, data = b0 :: b1 :: b2 :: b3 :: b4 :: b5 :: b6 :: b7 :: rest := by
    match data, hlen with
    | b0 :: b1 :: b2 :: b3 :: b4 :: b5 :: b6 :: b7 :: rest, _ => exact ⟨b0, b1, b2, b3, b4, b5, b6, b7, rest, rfl⟩
  have hsplit : (b0 :: b1 :: b2 :: b3 :: b4 :: b5 :: b6 :: b7 :: rest).take 8 =
      (b0 :: b1 :: b2 :: b3 :: b4 :: b5 :: b6 :: b7 :: rest).take 4 ++ [b4, b5, b6, b7].take 4 := rfl
  have hword : crc ^^^ load 4 (b0 :: b1 :: b2 :: b3 :: b4 :: b5 :: b6 :: b7 :: rest) < 2 ^ 32 :=
    Nat.xor_lt_two_pow hcrc (load_lt (Nat.le_add_left 4 _))
  have hfour : ∀ (c0 c1 c2 c3 : UInt8) (cs : List UInt8), ((c0 :: c1 :: c2 :: c3 :: cs).take 4).length = 4 := fun _ _ _ _ _ => rfl
  show crc32c64Bit crc _ = crc32cBytes crc (List.take 8 _)
  rw [hsplit, crc32cBytes_append, crc32cBytes_load, crc32cBytes_load, hfour, hfour, bits_xor, ← bits_add, crc32c64Bit]
  generalize crc ^^^ load 4 (b0 :: b1 :: b2 :: b3 :: b4 :: b5 :: b6 :: b7 :: rest) = x at hword ⊢
  have hhigh : load 4 [b4, b5, b6, b7] = b4.toNat + 256 * (b5.toNat + 256 * (b6.toNat + 256 * (b7.toNat + 256 * 0))) := rfl
  have h4 := b4.toNat_lt
  have h5 := b5.toNat_lt
  have h6 := b6.toNat_lt
  have h7 := b7.toNat_lt
  have hlow := bits_rows 4 x hword (by decide)
  have hrows := bits_rows 0 (load 4 [b4, b5, b6, b7]) (by omega) (by decide)
  have hbytes : load 4 [b4, b5, b6, b7] % 256 = b4.toNat ∧ load 4 [b4, b5, b6, b7] / 256 % 256 = b5.toNat ∧
      load 4 [b4, b5, b6, b7] / 256 / 256 % 256 = b6.toNat ∧ load 4 [b4, b5, b6, b7] / 256 / 256 / 256 = b7.toNat := by
    omega
  have hmask : x >>> 8 &&& 0xff = x / 256 % 256 ∧ x >>> 16 &&& 0xff = x / 256 / 256 % 256 ∧
      x >>> 24 &&& 0xff = x / 256 / 256 / 256 := by
    simp only [mask_byte, Nat.shiftRight_eq_div_pow]
    omega
  rw [hbytes.1, hbytes.2.1, hbytes.2.2.1, hbytes.2.2.2] at hrows
  rw [show 8 * 4 + 8 * 4 = 8 * 4 + 32 from rfl, show 8 * 4 = 8 * 0 + 32 from rfl, hrows]
  rw [show 8 * 0 + 32 + 32 = 8 * 4 + 32 from rfl, hlow, mask_byte, hmask.1, hmask.2.1, hmask.2.2]
  simp only [Nat.xor_assoc]
  rfl

/-! ### Streams -/

theorem bytesOf_littleEndian {bs : List ℕ} (hbs : Bytes bs) : bytesOf bs.length (littleEndian bs) = bs := by
  induction bs with
  | nil => rfl
  | cons b bs ih =>
    have hb := hbs b List.mem_cons_self
    have hmod : (b + 256 * littleEndian bs) % 256 = b := by omega
    have hdiv : (b + 256 * littleEndian bs) / 256 = littleEndian bs := by omega
    rw [List.length_cons, littleEndian, bytesOf, hmod, hdiv, ih fun b hb => hbs b (List.mem_cons_of_mem _ hb)]

theorem hwWord_right (t : WordType) : (hwWord t).Right := by
  intro crc hcrc data hlen
  have hbytes := bytesOf_littleEndian (bytes_toNat (data.take t.size))
  have hsize : t.size ≤ data.length := hlen
  rw [List.length_map, List.length_take, Nat.min_eq_left hsize] at hbytes
  rw [crc32cBytes_eq]
  show crc32Instruction t.size crc (load t.size data) = _
  rw [crc32Instruction, load, hbytes]
  rfl

/-- The table moves the register over a chunk of zeros. -/
theorem crc32cShiftChunk_eq (hcrc : crc < 2 ^ 32) : crc32cShiftChunk crc = bits poly (8 * parallelChunk) crc := by
  have hlow : ∀ x, x % 256 < 256 := fun x => Nat.mod_lt x (by decide)
  have hmask : crc &&& 0xff = crc % 256 ∧ crc >>> 8 &&& 0xff = crc / 256 % 256 ∧
      crc >>> 16 &&& 0xff = crc / 256 / 256 % 256 ∧ crc >>> 24 = crc / 256 / 256 / 256 := by
    simp only [mask_byte, Nat.shiftRight_eq_div_pow]
    omega
  have hsum : ∀ x, x = x % 256 ^^^ x / 256 * 2 ^ 8 := fun x => (split_xor 8 x).symm
  have hmul : ∀ a b : ℕ, (a ^^^ b) * 2 ^ 8 = a * 2 ^ 8 ^^^ b * 2 ^ 8 := by
    intro a b
    rw [← Nat.shiftLeft_eq, Nat.shiftLeft_xor_distrib, Nat.shiftLeft_eq, Nat.shiftLeft_eq]
  have htop : crc / 256 / 256 / 256 < 256 := by omega
  have hcrc_eq : crc = crc % 256 * 2 ^ (8 * 0) ^^^ (crc / 256 % 256 * 2 ^ (8 * 1) ^^^ (crc / 256 / 256 % 256 * 2 ^ (8 * 2) ^^^
      crc / 256 / 256 / 256 * 2 ^ (8 * 3))) := by
    conv_lhs => rw [hsum crc, hsum (crc / 256), hsum (crc / 256 / 256)]
    rw [hmul, hmul, hmul, Nat.mul_zero, Nat.pow_zero, Nat.mul_one]
    simp only [Nat.mul_assoc]
    rfl
  conv_rhs => rw [hcrc_eq]
  have hentry : ∀ k < 4, ∀ x < 256, entry crc32cShiftChunkTable1360 k x = bits poly (8 * parallelChunk) (x * 2 ^ (8 * k)) :=
    fun _ hk _ hx => crc32cShiftChunkTable_entry hk hx
  rw [crc32cShiftChunk, hmask.1, hmask.2.1, hmask.2.2.1, hmask.2.2.2, bits_xor, bits_xor, bits_xor,
    hentry 0 (by decide) _ (hlow crc), hentry 1 (by decide) _ (hlow _), hentry 2 (by decide) _ (hlow _),
    hentry 3 (by decide) _ htop, Nat.xor_assoc, Nat.xor_assoc]

/-- The three streams read their chunks to the end. -/
theorem streams_bytes (t : WordType) (hlen : parallelChunk * 3 ≤ data.length) (off crc0 crc1 crc2 : ℕ)
    (hoff : off < parallelChunk) (hdvd : t.size ∣ parallelChunk - off) (h0 : crc0 < 2 ^ 32) (h1 : crc1 < 2 ^ 32)
    (h2 : crc2 < 2 ^ 32) :
    streams t data off crc0 crc1 crc2 = (crc32cBytes crc0 ((data.drop off).take (parallelChunk - off)),
      crc32cBytes crc1 ((data.drop (off + parallelChunk)).take (parallelChunk - off)),
      crc32cBytes crc2 ((data.drop (off + parallelChunk * 2)).take (parallelChunk - off))) := by
  have hsize : t.size ≤ parallelChunk - off := Nat.le_of_dvd (by omega) hdvd
  have hstep : ∀ at' crc, at' + t.size ≤ data.length → crc < 2 ^ 32 →
      (hwWord t).step crc (data.drop at') = crc32cBytes crc ((data.drop at').take t.size) := by
    intro at' crc hat hcrc
    exact hwWord_right t crc hcrc _ (by rw [List.length_drop]; exact Nat.le_sub_of_add_le (by rw [Nat.add_comm]; exact hat))
  have hmore : ∀ at', (data.drop at').take t.size ++ (data.drop (at' + t.size)).take (parallelChunk - (off + t.size)) =
      (data.drop at').take (parallelChunk - off) := by
    intro at'
    rw [← List.drop_drop, ← List.take_add]
    congr 1
    omega
  rw [streams, hstep _ _ (by omega) h0, hstep _ _ (by omega) h1, hstep _ _ (by omega) h2]
  split_ifs with hnext
  · have hdvd' : t.size ∣ parallelChunk - (off + t.size) := by
      rw [← Nat.sub_sub]
      exact Nat.dvd_sub hdvd (Nat.dvd_refl _)
    rw [streams_bytes t hlen (off + t.size) _ _ _ hnext hdvd' (crc32cBytes_lt h0 _) (crc32cBytes_lt h1 _)
      (crc32cBytes_lt h2 _), ← crc32cBytes_append, ← crc32cBytes_append, ← crc32cBytes_append, hmore,
      Nat.add_right_comm off, hmore, Nat.add_right_comm off, hmore]
  · have hall : t.size = parallelChunk - off := by omega
    rw [hall]
termination_by parallelChunk - off
decreasing_by
  have := t.size_pos
  omega

theorem whileChunks_bytes (t : WordType) (crc : ℕ) (data : List UInt8) (hcrc : crc < 2 ^ 32) :
    crc32cBytes (whileChunks t crc data).1 (whileChunks t crc data).2 = crc32cBytes crc data ∧
      (whileChunks t crc data).1 < 2 ^ 32 := by
  rw [whileChunks]
  split_ifs with hlen
  · have hshift : ∀ crc < 2 ^ 32, ∀ at', at' + parallelChunk ≤ data.length →
        crc32cShiftChunk crc ^^^ crc32cBytes 0 ((data.drop at').take parallelChunk) =
          crc32cBytes crc ((data.drop at').take parallelChunk) := by
      intro crc hcrc at' hat
      have hchunk : (((data.drop at').take parallelChunk).map UInt8.toNat).length = parallelChunk := by
        rw [List.length_map, List.length_take, List.length_drop]
        omega
      have happend := @foldl_feed_append poly _ (bytes_toNat ((data.drop at').take parallelChunk)) crc
      rw [hchunk] at happend
      rw [crc32cShiftChunk_eq hcrc, crc32cBytes_eq, crc32cBytes_eq, happend]
    have hstreams := streams_bytes t hlen 0 crc 0 0 (by decide) (by cases t <;> decide) hcrc (by decide) (by decide)
    rw [Nat.zero_add, Nat.zero_add, Nat.sub_zero, List.drop_zero] at hstreams
    have hfirst := crc32cBytes_lt hcrc (data.take parallelChunk)
    have hsecond := crc32cBytes_lt hfirst ((data.drop parallelChunk).take parallelChunk)
    have htake : data.take (parallelChunk * 3) = data.take parallelChunk ++ (data.drop parallelChunk).take parallelChunk ++
        (data.drop (parallelChunk * 2)).take parallelChunk := by
      rw [← List.take_add, show parallelChunk * 2 = parallelChunk + parallelChunk from rfl, ← List.take_add]
      rfl
    have hsum1 := hshift _ hfirst parallelChunk (by omega)
    have hsum2 := hshift _ hsecond (parallelChunk * 2) (by omega)
    simp only [hstreams, hsum1, hsum2]
    rw [← crc32cBytes_append, ← crc32cBytes_append, ← List.append_assoc, ← htake]
    obtain ⟨hbytes, hlt⟩ := whileChunks_bytes t _ (data.drop (parallelChunk * 3))
      (crc32cBytes_lt hcrc (data.take (parallelChunk * 3)))
    refine ⟨?_, hlt⟩
    rw [hbytes, ← crc32cBytes_append, List.take_append_drop]
  · exact ⟨rfl, hcrc⟩
termination_by data.length
decreasing_by
  rw [List.length_drop, parallelChunk] at *
  omega

theorem hwByte_fun : hwByte = crc32c8Bit := funext fun crc => funext fun b => hwByte_eq crc b

theorem psyncCrc32cSw_eq (addr : ℕ) (hcrc : crc < 2 ^ 32) (data : List UInt8) :
    psyncCrc32cSw addr crc data = crc32cBytes crc data := by
  obtain ⟨halign, hcrc1⟩ := @align_bytes _ data 4 addr crc32c8Bit rfl hcrc
  obtain ⟨height, hcrc2⟩ := @whileWords_bytes _ (align 4 crc32c8Bit addr crc data).2 _ swWord_right 8 _ hcrc1
  obtain ⟨hone, -⟩ := @whileWords_bytes _
    (whileWords swWord 8 (align 4 crc32c8Bit addr crc data).1 (align 4 crc32c8Bit addr crc data).2).2
    _ swWord_right 1 _ hcrc2
  exact hone.trans (height.trans halign)

theorem psyncCrc32cHw_eq (t : WordType) (addr : ℕ) (hcrc : crc < 2 ^ 32) (data : List UInt8) :
    psyncCrc32cHw t addr crc data = crc32cBytes crc data := by
  obtain ⟨halign, hcrc1⟩ := @align_bytes _ data t.size addr hwByte hwByte_fun hcrc
  obtain ⟨hchunks, hcrc2⟩ := whileChunks_bytes t _ (align t.size hwByte addr crc data).2 hcrc1
  simp only [psyncCrc32cHw]
  generalize align t.size hwByte addr crc data = r at *
  generalize whileChunks t r.1 r.2 = r' at *
  obtain ⟨hfour, hcrc3⟩ := @whileWords_bytes _ r'.2 _ (hwWord_right t) 4 _ hcrc2
  generalize whileWords (hwWord t) 4 r'.1 r'.2 = r'' at *
  obtain ⟨hone, -⟩ := @whileWords_bytes _ r''.2 _ (hwWord_right t) 1 _ hcrc3
  rw [hwByte_fun]
  exact hone.trans (hfour.trans (hchunks.trans halign))

/-- **All paths agree**: in software and with the instruction, on either kind of word and
from any address, the result is that of the bytes one after the other; that of two strings
in a row is that of both at once. -/
theorem crc32c_paths (t : WordType) (addr addr' : ℕ) (crc : UInt32) (x y : List UInt8) :
    psyncCrc32cSw addr crc.toNat x = crc32cBytes crc.toNat x ∧ psyncCrc32cHw t addr crc.toNat x = crc32cBytes crc.toNat x ∧
      psyncCrc32cSw addr' (psyncCrc32cSw addr crc.toNat x) y = psyncCrc32cSw addr crc.toNat (x ++ y) ∧
      psyncCrc32cHw t addr' (psyncCrc32cHw t addr crc.toNat x) y = psyncCrc32cHw t addr crc.toNat (x ++ y) := by
  have hlt := crc32cBytes_lt crc.toNat_lt x
  have hsw := fun data => psyncCrc32cSw_eq addr crc.toNat_lt data
  have hhw := fun data => psyncCrc32cHw_eq t addr crc.toNat_lt data
  refine ⟨hsw x, hhw x, ?_, ?_⟩
  · rw [hsw, hsw, psyncCrc32cSw_eq addr' hlt, crc32cBytes_append]
  · rw [hhw, hhw, psyncCrc32cHw_eq t addr' hlt, crc32cBytes_append]

/-- The check value of CRC-32C, with the register inverted before and after. -/
example : crc32cBytes 0xffffffff [0x31, 0x32, 0x33, 0x34, 0x35, 0x36, 0x37, 0x38, 0x39] ^^^ 0xffffffff = 0xe3069283 := by
  decide +kernel

end Pclsync.Hash
