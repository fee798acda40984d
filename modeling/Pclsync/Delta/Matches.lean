import Pclsync.Delta.Scan

/-! The scan of `check_range_for_blocks` finds the matches in order: the buffer holds the part
of the file around the window, and the checksum is that of the window. -/
namespace Pclsync.Delta
open Lib.Files Lib.Machine

/-! ### The buffer -/

variable {cs : Checksums} {off len : ℕ} {file : Bytes} {e : ℕ}

/-- The block size is a power of two that the rolled checksum can do with. -/
def Checksums.Rolls (cs : Checksums) : Prop := ∃ e ≤ 24, cs.blocksize = 2 ^ e

structure Halves (cs : Checksums) (len : ℕ) : Prop where
  pos : 0 < cs.blocksize
  size : buffersize cs len = 2 * hbuffersize cs len
  whole : cs.blocksize ∣ hbuffersize cs len
  half : 0 < hbuffersize cs len

theorem Checksums.Rolls.pos (h : cs.Rolls) : 0 < cs.blocksize := by
  obtain ⟨e, -, he⟩ := h
  rw [he]
  exact Nat.two_pow_pos e

theorem Checksums.Rolls.le (h : cs.Rolls) : cs.blocksize ≤ 2 ^ 24 := by
  obtain ⟨e, hle, he⟩ := h
  rw [he]
  exact Nat.pow_le_pow_right (by decide) hle

theorem Checksums.Rolls.halves (h : cs.Rolls) (len : ℕ) : Halves cs len := by
  have hpos := h.pos
  have hle := h.le
  have hdouble : u32 (cs.blocksize * 2) = cs.blocksize * 2 := u32_of_lt (by omega)
  have hcases : buffersize cs len = 2 * cs.blocksize ∨ buffersize cs len = copyBufferSize ∧ cs.blocksize * 2 ≤ copyBufferSize := by
    unfold buffersize
    rw [hdouble]
    split_ifs with hbig
    · exact .inl (Nat.mul_comm ..)
    · exact .inr ⟨rfl, Nat.not_lt.mp fun h => hbig (.inl h)⟩
  unfold copyBufferSize at hcases
  rcases hcases with hsize | ⟨hsize, hsmall⟩
  · have hhalf : hbuffersize cs len = cs.blocksize := by rw [hbuffersize, hsize]; omega
    exact ⟨hpos, by rw [hhalf, hsize], by rw [hhalf], by rwa [hhalf]⟩
  · have hhalf : hbuffersize cs len = 32768 := by rw [hbuffersize, hsize]
    obtain ⟨e, -, he⟩ := h
    refine ⟨hpos, by rw [hhalf, hsize], ?_, by rw [hhalf]; decide⟩
    rw [hhalf, he, show 32768 = 2 ^ 15 from rfl]
    refine Nat.pow_dvd_pow 2 ?_
    by_contra hlt
    have hpow := Nat.pow_le_pow_right (n := 2) (by decide) (Nat.not_le.mp hlt)
    omega

/-- Where a position of half `m` is in the buffer. -/
theorem half_index {m half q : ℕ} (hm : m * half ≤ q) (hq : q < (m + 1) * half) :
    q % (2 * half) = m % 2 * half + (q - m * half) := by
  have hsplit : m * half = m / 2 * (2 * half) + m % 2 * half := by
    conv_lhs => rw [← Nat.div_add_mod m 2]
    ring
  have hlt : m % 2 * half + (q - m * half) < 2 * half := by
    have hmod : m % 2 * half ≤ 1 * half := Nat.mul_le_mul_right _ (by omega)
    rw [Nat.succ_mul] at hq
    omega
  have heq : q = m % 2 * half + (q - m * half) + m / 2 * (2 * half) := by omega
  conv_lhs => rw [heq]
  rw [Nat.add_mul_mod_self_right, Nat.mod_eq_of_lt hlt]

/-- The end of the part of the file from `off` on, filled up to whole blocks. -/
def scanEnd (cs : Checksums) (off : ℕ) (file : Bytes) : ℕ := ceilBlocks (file.length - off) cs.blocksize * cs.blocksize

/-- The window is at `p`, and the file is read up to `hi`, which is in half `m`. -/
structure Scan.At (cs : Checksums) (off len : ℕ) (file : Bytes) (s : Scan) (p m hi : ℕ) : Prop where
  low : m * hbuffersize cs len ≤ p + cs.blocksize
  high : p + cs.blocksize ≤ hi
  ends : hi ≤ (m + 1) * hbuffersize cs len
  whole : cs.blocksize ∣ hi
  inside : hi ≤ scanEnd cs off file
  inbyte : s.inbyteoff = m % 2 * hbuffersize cs len + (p + cs.blocksize - m * hbuffersize cs len)
  outbyte : s.buffoff + s.outbyteoff = p
  out_le : s.outbyteoff ≤ buffersize cs len
  rounds : buffersize cs len ∣ s.buffoff
  loaded : s.bufferlen = buffersize cs len ∧ hi = (m + 1) * hbuffersize cs len ∨
    s.bufferlen ≠ buffersize cs len ∧ hi = scanEnd cs off file ∧
      s.bufferlen = m % 2 * hbuffersize cs len + (hi - m * hbuffersize cs len)
  position : s.position = off + min hi (file.length - off)
  filled : ∀ q, p ≤ q → q < hi → s.buff (q % buffersize cs len) = get file (off + q)

variable {s s' : Scan} {p m hi : ℕ}

/-- The byte after the window, as a position in the file. -/
theorem Scan.At.in_eq (h : s.At cs off len file p m hi) (hs : Halves cs len) :
    s.inbyteoff + m / 2 * buffersize cs len = p + cs.blocksize ∧ s.inbyteoff ≤ buffersize cs len := by
  have hsplit : m * hbuffersize cs len = m / 2 * buffersize cs len + m % 2 * hbuffersize cs len := by
    rw [hs.size]
    conv_lhs => rw [← Nat.div_add_mod m 2]
    ring
  have hin := h.inbyte
  have hlow := h.low
  have hends := h.high.trans h.ends
  rw [Nat.succ_mul] at hends
  have hmod : m % 2 * hbuffersize cs len ≤ 1 * hbuffersize cs len := Nat.mul_le_mul_right _ (by omega)
  have hsize := hs.size
  omega

/-- The window goes round the end of the buffer or it does not. -/
theorem Scan.At.wraps (h : s.At cs off len file p m hi) (hs : Halves cs len) :
    s.outbyteoff + cs.blocksize = s.inbyteoff ∨ s.outbyteoff + cs.blocksize = s.inbyteoff + buffersize cs len := by
  obtain ⟨c, hc⟩ := h.rounds
  obtain ⟨hin, hle⟩ := h.in_eq hs
  have hout := h.outbyte
  have hout' := h.out_le
  have hbs : cs.blocksize ≤ hbuffersize cs len := Nat.le_of_dvd hs.half hs.whole
  have hpos := hs.pos
  have hsize := hs.size
  rw [hc, Nat.mul_comm] at hout
  -- `c` rounds of the buffer are behind the first byte of the window, and `m / 2` behind the byte after it
  rcases Nat.lt_trichotomy (m / 2) c with hlt | heq | hgt
  · have hround := Nat.mul_le_mul_right (buffersize cs len) hlt
    rw [Nat.succ_mul] at hround
    omega
  · rw [← heq] at hout
    left
    omega
  · have hround := Nat.mul_le_mul_right (buffersize cs len) hgt
    rw [Nat.succ_mul] at hround
    rcases Nat.lt_or_ge (c + 1) (m / 2) with hfar | hnear
    · have hround' := Nat.mul_le_mul_right (buffersize cs len) hfar
      rw [Nat.succ_mul, Nat.succ_mul] at hround'
      omega
    · have hnext : m / 2 = c + 1 := by omega
      rw [hnext, Nat.succ_mul] at hin
      right
      omega

theorem Scan.At.byte (h : s.At cs off len file p m hi) {i : ℕ} (hi' : i < cs.blocksize) (x : ℕ)
    (hx : x = s.outbyteoff + i ∨ x + buffersize cs len = s.outbyteoff + i) (hlt : x < buffersize cs len) :
    s.buff x = get file (off + p + i) := by
  have hq : (p + i) % buffersize cs len = x := by
    obtain ⟨c, hc⟩ := h.rounds
    rw [← h.outbyte, hc, Nat.add_assoc, Nat.mul_add_mod]
    rcases hx with rfl | hx
    · exact Nat.mod_eq_of_lt hlt
    · rw [← hx, Nat.add_mod_right, Nat.mod_eq_of_lt hlt]
  have hhigh := h.high
  rw [← hq, h.filled (p + i) (Nat.le_add_right ..) (by omega), Nat.add_assoc]

/-- The window in one piece. -/
theorem Scan.At.bytes (h : s.At cs off len file p m hi) (hs : Halves cs len) (hin : s.outbyteoff < s.inbyteoff) :
    bytesAt s.buff s.outbyteoff cs.blocksize = window file cs.blocksize (off + p) := by
  refine List.map_congr_left fun i hi' => ?_
  have hi' := List.mem_range.mp hi'
  have hle := (h.in_eq hs).2
  have hsize : cs.blocksize ≤ hbuffersize cs len := Nat.le_of_dvd hs.half hs.whole
  have hsize' := hs.size
  have hpos := hs.pos
  rcases h.wraps hs with heq | heq
  · exact h.byte hi' _ (.inl rfl) (by omega)
  · omega

theorem bytesAt_add (buff : ℕ → UInt8) (start a b : ℕ) :
    bytesAt buff start (a + b) = bytesAt buff start a ++ bytesAt buff (start + a) b := by
  rw [bytesAt, List.range_add, List.map_append, List.map_map, bytesAt, bytesAt]
  congr 1
  refine List.map_congr_left fun i _ => ?_
  rw [Function.comp_apply, Nat.add_assoc]

theorem window_add {a b n : ℕ} : window file (a + b) n = window file a n ++ window file b (n + a) :=
  bytesAt_add (Lib.Files.get file) n a b

/-- The window in two pieces. -/
theorem Scan.At.bytes_wrap (h : s.At cs off len file p m hi) (hs : Halves cs len) (hin : ¬s.outbyteoff < s.inbyteoff) :
    bytesAt s.buff s.outbyteoff (buffersize cs len - s.outbyteoff) ++ bytesAt s.buff 0 s.inbyteoff =
      window file cs.blocksize (off + p) := by
  have hsize : cs.blocksize ≤ hbuffersize cs len := Nat.le_of_dvd hs.half hs.whole
  have hsize' := hs.size
  have hpos := hs.pos
  have hle := h.out_le
  rcases h.wraps hs with heq | heq
  · omega
  · have hlen : cs.blocksize = (buffersize cs len - s.outbyteoff) + s.inbyteoff := by omega
    conv_rhs => rw [hlen, window_add]
    congr 1
    · refine List.map_congr_left fun i hi' => ?_
      have hi' := List.mem_range.mp hi'
      exact h.byte (by omega) _ (.inl rfl) (by omega)
    · refine List.map_congr_left fun i hi' => ?_
      have hi' := List.mem_range.mp hi'
      rw [Nat.add_assoc (off + p)]
      exact h.byte (i := buffersize cs len - s.outbyteoff + i) (by omega) _ (.inr (by omega)) (by omega)

/-- `inbyteoff&blockmask` says how far the window is from a whole block. -/
theorem Scan.At.mask (h : s.At cs off len file p m hi) (hs : Halves cs len) (hr : cs.Rolls) :
    s.inbyteoff &&& (cs.blocksize - 1) = p % cs.blocksize := by
  obtain ⟨c, hc⟩ := hs.whole
  obtain ⟨hin, -⟩ := h.in_eq hs
  have hmod : s.inbyteoff &&& (cs.blocksize - 1) = s.inbyteoff % cs.blocksize := by
    obtain ⟨e, -, he⟩ := hr
    rw [he, Nat.and_two_pow_sub_one_eq_mod]
  have hround : m / 2 * buffersize cs len = cs.blocksize * (m / 2 * (2 * c)) := by
    rw [hs.size, hc]
    ring
  rw [hmod, ← Nat.add_mod_right p, ← hin, hround, Nat.add_mul_mod_self_left]

/-- The window moves on within what is read. -/
theorem Scan.At.move (h : s.At cs off len file p m hi) {n : ℕ} (hhi : p + n + cs.blocksize ≤ hi)
    (hout : s.outbyteoff + n ≤ buffersize cs len) (hin : s'.inbyteoff = s.inbyteoff + n)
    (hout' : s'.outbyteoff = s.outbyteoff + n)
    (hsame : (s'.buff, s'.buffoff, s'.bufferlen, s'.position) = (s.buff, s.buffoff, s.bufferlen, s.position)) :
    s'.At cs off len file (p + n) m hi := by
  obtain ⟨hbuff, hsame⟩ := Prod.mk.inj hsame
  obtain ⟨hbuffoff, hsame⟩ := Prod.mk.inj hsame
  obtain ⟨hbufferlen, hposition⟩ := Prod.mk.inj hsame
  have hlow := h.low
  have hinbyte := h.inbyte
  have houtbyte := h.outbyte
  refine ⟨by omega, hhi, h.ends, h.whole, h.inside, by omega, by omega, by omega, ?_, ?_, ?_, fun q hq hlt => ?_⟩
  · rw [hbuffoff]
    exact h.rounds
  · rw [hbufferlen]
    exact h.loaded
  · rw [hposition]
    exact h.position
  · rw [hbuff]
    exact h.filled q (by omega) hlt

/-- The first byte of a window that is on a whole block is before the end of the buffer by a block. -/
theorem Scan.At.aligned (h : s.At cs off len file p m hi) (hs : Halves cs len) {d : ℕ} (hd : cs.blocksize ∣ p + d)
    (hlt : s.outbyteoff < buffersize cs len) (hdlt : d ≤ cs.blocksize) : s.outbyteoff + d ≤ buffersize cs len := by
  obtain ⟨c, hc⟩ := hs.whole
  obtain ⟨k, hk⟩ := h.rounds
  obtain ⟨j, hj⟩ := hd
  have hsize : buffersize cs len = cs.blocksize * (2 * c) := by rw [hs.size, hc]; ring
  have hout := h.outbyte
  rw [hk, hsize] at hout
  have hdvd : cs.blocksize ∣ s.outbyteoff + d := by
    refine (Nat.dvd_add_right (Dvd.intro (2 * c * k) rfl)).mp (Dvd.intro j ?_)
    rw [← hj, ← hout]
    ring
  obtain ⟨i, hi⟩ := hdvd
  rw [hi, hsize]
  refine Nat.mul_le_mul_left _ ?_
  by_contra hgt
  have hmul := Nat.mul_le_mul_left cs.blocksize (Nat.not_le.mp hgt)
  rw [Nat.succ_eq_add_one, Nat.mul_add, Nat.mul_one, ← hsize, ← hi] at hmul
  omega

/-! ### Reading a half -/

/-- A count rounded up to whole blocks. -/
theorem ceilBlocks_mul {n c : ℕ} (hpos : 0 < cs.blocksize) (hc : cs.blocksize ∣ c) :
    (n ≤ c ↔ ceilBlocks n cs.blocksize * cs.blocksize ≤ c) ∧
      ceilBlocks (c + n) cs.blocksize * cs.blocksize = c + ceilBlocks n cs.blocksize * cs.blocksize := by
  obtain ⟨k, rfl⟩ := hc
  constructor
  · rw [Nat.mul_comm cs.blocksize k, ← ceilBlocks_le hpos, Nat.mul_le_mul_right_iff hpos]
  · have hsplit : cs.blocksize * k + n + cs.blocksize - 1 = n + cs.blocksize - 1 + cs.blocksize * k := by omega
    rw [ceilBlocks, hsplit, Nat.add_mul_div_left _ _ hpos, Nat.add_mul, ceilBlocks, Nat.mul_comm k, Nat.add_comm]

theorem le_scanEnd (hpos : 0 < cs.blocksize) : file.length - off ≤ scanEnd cs off file :=
  (ceilBlocks_mul hpos (Nat.dvd_mul_left ..)).1.mpr (Nat.le_refl _)

/-- The window with the first byte taken round the end of the buffer. -/
def Scan.wrapOut (cs : Checksums) (len : ℕ) (s : Scan) : Scan :=
  if s.outbyteoff ≥ buffersize cs len then
    { s with outbyteoff := s.outbyteoff - buffersize cs len, buffoff := s.buffoff + buffersize cs len }
  else s

theorem Scan.At.wrapOut (h : s.At cs off len file p m hi) (hs : Halves cs len) :
    (s.wrapOut cs len).At cs off len file p m hi ∧ (s.wrapOut cs len).outbyteoff < buffersize cs len := by
  have hpos : 0 < buffersize cs len := by rw [hs.size]; exact Nat.mul_pos (by decide) hs.half
  have hout := h.outbyte
  have hle := h.out_le
  unfold Scan.wrapOut
  split_ifs with hge
  · refine ⟨⟨h.low, h.high, h.ends, h.whole, h.inside, h.inbyte, ?_, ?_, ?_, h.loaded, h.position, h.filled⟩, ?_⟩
    · dsimp only
      omega
    · dsimp only
      omega
    · exact (Nat.dvd_add_right h.rounds).mpr (Nat.dvd_refl _)
    · dsimp only
      omega
  · exact ⟨h, Nat.not_le.mp hge⟩

theorem Scan.At.read (h : s.At cs off len file p m hi) (start : ℕ) :
    (readHalf cs len file s start).2 = min (hbuffersize cs len) (file.length - off - hi) := by
  rw [readHalf, h.position]
  omega

/-- The bytes of the buffer after a half is read. -/
theorem Scan.At.read_byte (h : s.At cs off len file p m hi) (hs : Halves cs len) (hend : p + cs.blocksize = hi)
    (hhi : hi = (m + 1) * hbuffersize cs len) {rd filled : ℕ}
    (hrd : (readHalf cs len file s ((m + 1) % 2 * hbuffersize cs len)).2 = rd) (hpos : 0 < rd)
    (hfilled : filled = if rd = hbuffersize cs len then rd else ceilBlocks rd cs.blocksize * cs.blocksize)
    (hle : filled ≤ hbuffersize cs len) {q : ℕ} (hq : p ≤ q) (hlt : q < hi + filled) :
    (readHalf cs len file s ((m + 1) % 2 * hbuffersize cs len)).1 (q % buffersize cs len) = get file (off + q) := by
  have hread := h.read ((m + 1) % 2 * hbuffersize cs len)
  have hposition := h.position
  have hbs : cs.blocksize ≤ hbuffersize cs len := Nat.le_of_dvd hs.half hs.whole
  have hround : (m + 1) * hbuffersize cs len = m * hbuffersize cs len + hbuffersize cs len := Nat.succ_mul ..
  have hround' : (m + 1 + 1) * hbuffersize cs len = (m + 1) * hbuffersize cs len + hbuffersize cs len := Nat.succ_mul ..
  rw [hrd] at hread
  have hmin : min (hbuffersize cs len) (file.length - s.position) = rd := hrd
  unfold readHalf
  dsimp only
  unfold ceilBlocks at hfilled
  rw [hmin, ← hfilled, hs.size]
  rcases Nat.lt_or_ge q hi with hold | hnew
  · -- the half before stays
    have hindex := @half_index m (hbuffersize cs len) q (by omega) (by omega)
    have hother : (m + 1) % 2 * hbuffersize cs len + m % 2 * hbuffersize cs len = hbuffersize cs len := by
      rw [← Nat.add_mul, show (m + 1) % 2 + m % 2 = 1 by omega, Nat.one_mul]
    have hparity : (m + 1) % 2 * hbuffersize cs len = 0 ∨ m % 2 * hbuffersize cs len = 0 := by
      rcases Nat.mod_two_eq_zero_or_one m with heq | heq
      · exact .inr (by rw [heq, Nat.zero_mul])
      · exact .inl (by rw [show (m + 1) % 2 = 0 by omega, Nat.zero_mul])
    have hbyte := h.filled q hq hold
    rw [hs.size] at hbyte
    rw [if_neg (by omega), if_neg (by omega), hbyte]
  · have hindex := @half_index (m + 1) (hbuffersize cs len) q (by omega) (by omega)
    rw [hindex]
    by_cases hin : q < hi + rd
    · rw [if_pos (by omega), hposition]
      congr 1
      omega
    · have hshort : rd ≠ hbuffersize cs len := by
        rintro heq
        rw [if_pos heq] at hfilled
        omega
      rw [if_neg (by omega), if_pos (by omega), get_of_le (by omega)]

/-- The next half is read when the window has come to the end of what is read. -/
theorem Scan.At.fill (h : s.At cs off len file p m hi) (hs : Halves cs len) (hend : p + cs.blocksize = hi)
    (hmore : s.bufferlen = buffersize cs len ∧ hi = (m + 1) * hbuffersize cs len) {rd filled bufferlen : ℕ}
    (hrd : (readHalf cs len file s ((m + 1) % 2 * hbuffersize cs len)).2 = rd) (hpos : 0 < rd)
    (hcase : rd = hbuffersize cs len ∧ bufferlen = buffersize cs len ∧ filled = rd ∨
      rd ≠ hbuffersize cs len ∧ bufferlen = ceilBlocks rd cs.blocksize * cs.blocksize + (m + 1) % 2 * hbuffersize cs len ∧
        filled = ceilBlocks rd cs.blocksize * cs.blocksize) :
    hi < hi + filled ∧ Scan.At cs off len file
      { s with
        inbyteoff := (m + 1) % 2 * hbuffersize cs len
        buff := (readHalf cs len file s ((m + 1) % 2 * hbuffersize cs len)).1
        position := s.position + rd, bufferlen := bufferlen }
      p (m + 1) (hi + filled) := by
  have hread := h.read ((m + 1) % 2 * hbuffersize cs len)
  rw [hrd] at hread
  have hposition := h.position
  have hbs : cs.blocksize ≤ hbuffersize cs len := Nat.le_of_dvd hs.half hs.whole
  have hround' : (m + 1 + 1) * hbuffersize cs len = (m + 1) * hbuffersize cs len + hbuffersize cs len := Nat.succ_mul ..
  have hrem := @le_scanEnd _ off file hs.pos
  have hsize := hs.size
  have hparity : (m + 1) % 2 * hbuffersize cs len ≤ 1 * hbuffersize cs len := Nat.mul_le_mul_right _ (by omega)
  have hceil := (ceilBlocks_mul (n := rd) (c := ceilBlocks rd cs.blocksize * cs.blocksize) hs.pos (Nat.dvd_mul_left ..)).1.mpr
    (Nat.le_refl _)
  have hceil' := (ceilBlocks_mul (n := rd) hs.pos hs.whole).1.mp (by omega)
  have hle : filled ≤ hbuffersize cs len := by omega
  have hif : filled = if rd = hbuffersize cs len then rd else ceilBlocks rd cs.blocksize * cs.blocksize := by
    split_ifs <;> omega
  have hwhole : cs.blocksize ∣ filled := by
    rcases hcase with ⟨heq, -, hf⟩ | ⟨-, -, hf⟩
    · rw [hf, heq]
      exact hs.whole
    · rw [hf]
      exact Nat.dvd_mul_left ..
  have hshort : rd ≠ hbuffersize cs len → hi + ceilBlocks rd cs.blocksize * cs.blocksize = scanEnd cs off file := fun hne => by
    have hsum : file.length - off = hi + rd := by omega
    rw [scanEnd, hsum, (ceilBlocks_mul hs.pos h.whole).2]
  refine ⟨by omega, ?_⟩
  refine ⟨?_, ?_, ?_, (Nat.dvd_add_right h.whole).mpr hwhole, ?_, ?_, h.outbyte, h.out_le, h.rounds, ?_, ?_, ?_⟩
  · omega
  · omega
  · omega
  · omega
  · dsimp only
    omega
  · dsimp only
    by_cases hfull : bufferlen = buffersize cs len
    · exact .inl ⟨hfull, by omega⟩
    · exact .inr ⟨hfull, by omega, by omega⟩
  · dsimp only
    omega
  · exact fun q hq hlt => h.read_byte hs hend hmore.2 hrd hpos hif hle hq hlt

/-- What the end of a block of the buffer leads to: the window can go on, or the file ends with it. -/
theorem Scan.At.refill (h : s.At cs off len file p m hi) (hs : Halves cs len) (hhead : m * hbuffersize cs len < p + cs.blocksize) :
    p + cs.blocksize = scanEnd cs off file ∧ s.refill cs len file = none ∨
      ∃ s' m' hi', s.refill cs len file = some s' ∧ s'.At cs off len file p m' hi' ∧ p + cs.blocksize < hi' ∧
        s'.outbyteoff < buffersize cs len ∧ (s'.nr, s'.skipbytes, s'.adler) = (s.nr, s.skipbytes, s.adler) := by
  obtain ⟨hw, hout⟩ := h.wrapOut hs
  have hkept : ((s.wrapOut cs len).nr, (s.wrapOut cs len).skipbytes, (s.wrapOut cs len).adler) = (s.nr, s.skipbytes, s.adler) := by
    unfold Scan.wrapOut
    split_ifs <;> rfl
  generalize hw' : s.wrapOut cs len = w at *
  have hrefill : s.refill cs len file =
      if w.inbyteoff = w.bufferlen then
        if w.bufferlen ≠ buffersize cs len then none
        else
          let rd := (readHalf cs len file w 0).2
          let s' := { w with inbyteoff := 0, buff := (readHalf cs len file w 0).1, position := w.position + rd }
          if rd = hbuffersize cs len then some s'
          else if rd = 0 then none
          else some { s' with bufferlen := ceilBlocks rd cs.blocksize * cs.blocksize }
      else if w.inbyteoff = hbuffersize cs len then
        let rd := (readHalf cs len file w (hbuffersize cs len)).2
        let s' := { w with buff := (readHalf cs len file w (hbuffersize cs len)).1, position := w.position + rd }
        if rd = hbuffersize cs len then some s'
        else if rd = 0 then none
        else some { s' with bufferlen := ceilBlocks rd cs.blocksize * cs.blocksize + hbuffersize cs len }
      else some w := by
    rw [← hw']
    rfl
  have hin := hw.inbyte
  have hhigh := hw.high
  have hends := hw.ends
  have hsize := hs.size
  have hhalf := hs.half
  have hround : (m + 1) * hbuffersize cs len = m * hbuffersize cs len + hbuffersize cs len := Nat.succ_mul ..
  have hparity : m % 2 * hbuffersize cs len = 0 ∧ (m + 1) % 2 * hbuffersize cs len = hbuffersize cs len ∨
      m % 2 * hbuffersize cs len = hbuffersize cs len ∧ (m + 1) % 2 * hbuffersize cs len = 0 := by
    rcases Nat.mod_two_eq_zero_or_one m with heq | heq
    · exact .inl ⟨by rw [heq, Nat.zero_mul], by rw [show (m + 1) % 2 = 1 by omega, Nat.one_mul]⟩
    · exact .inr ⟨by rw [heq, Nat.one_mul], by rw [show (m + 1) % 2 = 0 by omega, Nat.zero_mul]⟩
  by_cases hend : p + cs.blocksize = hi
  · rcases hw.loaded with hmore | ⟨hlast, heq, hlen⟩
    · have hcommon : s.refill cs len file =
          let start := (m + 1) % 2 * hbuffersize cs len
          let rd := (readHalf cs len file w start).2
          let s' (bufferlen : ℕ) : Scan := { w with
            inbyteoff := start, buff := (readHalf cs len file w start).1, position := w.position + rd, bufferlen := bufferlen }
          if rd = hbuffersize cs len then some (s' (buffersize cs len))
          else if rd = 0 then none
          else some (s' (ceilBlocks rd cs.blocksize * cs.blocksize + start)) := by
        rcases hparity with ⟨hm, hm'⟩ | ⟨hm, hm'⟩
        · have hsame : w.inbyteoff = hbuffersize cs len := by omega
          rw [hrefill, if_neg (by omega), if_pos hsame, hm', ← hsame, ← hmore.1]
        · rw [hrefill, if_pos (by omega), if_neg (by omega), hm', ← hmore.1]
          rfl
      rw [hcommon]
      dsimp only
      generalize hrd : (readHalf cs len file w ((m + 1) % 2 * hbuffersize cs len)).2 = rd
      split_ifs with hfull hnone
      · obtain ⟨hlt, hfill⟩ := hw.fill hs hend hmore hrd (by omega) (.inl ⟨hfull, rfl, rfl⟩)
        exact .inr ⟨_, _, _, rfl, hfill, by omega, hout, hkept⟩
      · refine .inl ⟨?_, rfl⟩
        have hread := hw.read ((m + 1) % 2 * hbuffersize cs len)
        have hinside := hw.inside
        have hle := (ceilBlocks_mul (n := file.length - off) hs.pos hw.whole).1.mp (by omega)
        exact hend.trans (Nat.le_antisymm hinside hle)
      · obtain ⟨hlt, hfill⟩ := hw.fill hs hend hmore hrd (by omega) (.inr ⟨hfull, rfl, rfl⟩)
        exact .inr ⟨_, _, _, rfl, hfill, by omega, hout, hkept⟩
    · refine .inl ⟨hend.trans heq, ?_⟩
      rw [hrefill, if_pos (by omega), if_pos hlast]
  · refine .inr ⟨w, m, hi, ?_, hw, by omega, hout, hkept⟩
    rw [hrefill, if_neg, if_neg (by omega)]
    rcases hw.loaded with ⟨hlen, -⟩ | ⟨-, -, hlen⟩
    · omega
    · omega

/-! ### A turn of the loop -/

section Matches
variable (sha1 : Bytes → Bytes) (hash : ChecksumHash) (cs off len file)

/-- `blockidx` for the window at a position: the block that has its checksums plus one, or 0. -/
def blockAt (p : ℕ) : Option ℕ :=
  let w := window file cs.blocksize (off + p)
  let adler := adler32 adler32Initial w
  (hashHasAdler hash cs adler).bind fun has => if has then hashHasAdlerAndSha1 hash cs adler (sha1 w) else some 0

/-- The matches from a position on, each with `blockidx`: a window is looked up as long as it is in
the file filled up to whole blocks and starts in the range, and a match is passed over as a whole. -/
def matchesFrom : (fuel p : ℕ) → List (ℕ × ℕ)
  | 0, _ => []
  | fuel + 1, p =>
    if p < len ∧ p + cs.blocksize ≤ scanEnd cs off file then
      let blockidx := (blockAt cs off file sha1 hash p).getD 0
      if blockidx = 0 then matchesFrom fuel (p + 1)
      else (p, blockidx) :: if p + cs.blocksize ≤ len then matchesFrom fuel (p + cs.blocksize) else []
    else []

/-- A match added to the ranges. -/
def addMatch (nr : List UploadRange) (found : ℕ × ℕ) : List UploadRange :=
  addRange nr (off + found.1) (u32 ((found.2 - 1) * cs.blocksize)) (min cs.blocksize (len - found.1))

end Matches

/-- The window at the head of the loop. -/
structure Scan.Head (cs : Checksums) (off len : ℕ) (file : Bytes) (s : Scan) (p : ℕ) : Prop where
  window : ∃ m hi, s.At cs off len file p m hi ∧ m * hbuffersize cs len < p + cs.blocksize
  adler : s.adler = adler32 adler32Initial (Lib.Files.window file cs.blocksize (off + p))
  skipbytes : s.skipbytes = none

variable {sha1 : Bytes → Bytes} {hash : ChecksumHash}

theorem Scan.Head.lookup (h : s.Head cs off len file p) (hs : Halves cs len) :
    s.lookup sha1 hash cs len = blockAt cs off file sha1 hash p := by
  obtain ⟨m, hi, hat, -⟩ := h.window
  have hhashed : s.hashed cs len = Lib.Files.window file cs.blocksize (off + p) := by
    unfold Scan.hashed
    split_ifs with hin
    · exact hat.bytes hs hin
    · exact hat.bytes_wrap hs hin
  rw [Scan.lookup, hhashed, h.adler]
  rfl

/-- The window goes on by a byte, and the rolled checksum is that of the new window. -/
theorem Scan.At.roll (h : s.At cs off len file p m hi) (hs : Halves cs len) (hr : cs.Rolls) (hlt : p + cs.blocksize < hi)
    (hout : s.outbyteoff < buffersize cs len) (hadler : s.adler = adler32 adler32Initial (window file cs.blocksize (off + p)))
    (hskip : s.skipbytes = none) : (s.roll cs).Head cs off len file (p + 1) := by
  have hlow := h.low
  refine ⟨⟨m, hi, h.move (by omega) hout rfl rfl rfl, by omega⟩, ?_, hskip⟩
  have hmod : s.outbyteoff = p % buffersize cs len := by
    obtain ⟨c, hc⟩ := h.rounds
    rw [← h.outbyte, hc, Nat.mul_add_mod, Nat.mod_eq_of_lt hout]
  have hbyteout : s.buff s.outbyteoff = get file (off + p) := by
    rw [hmod, h.filled p (Nat.le_refl _) (by omega)]
  have hin : s.inbyteoff = (p + cs.blocksize) % buffersize cs len := by
    have hends := h.ends
    rw [hs.size, half_index hlow (by omega), h.inbyte]
  have hbytein : s.buff s.inbyteoff = get file (off + p + cs.blocksize) := by
    rw [hin, h.filled _ (Nat.le_add_right ..) hlt, Nat.add_assoc]
  obtain ⟨n, hn⟩ := Nat.exists_eq_succ_of_ne_zero (Nat.ne_of_gt hs.pos)
  have hle := hr.le
  rw [hn] at hadler hbytein hle
  rw [window_succ] at hadler
  have hlength : (window file n (off + p + 1)).length = n := length_window
  have hroll := @adler32Roll_eq (window file n (off + p + 1)) (get file (off + p))
    (get file (off + p + 1 + n)) (by rw [hlength, show rollLimit = 4292870399 from rfl]; omega)
  rw [hlength] at hroll
  unfold Scan.roll
  dsimp only
  rw [hn, hadler, hbyteout, hbytein, ← Nat.add_assoc off, window_concat, ← hroll, Nat.add_right_comm (off + p) 1 n]
  rfl

/-- The window is put past a match. -/
theorem Scan.At.skip (h : s.At cs off len file p m hi) (hs : Halves cs len) {n : ℕ} (hn : 0 < n) (hhi : p + n + cs.blocksize ≤ hi) (hout : s.outbyteoff + n ≤ buffersize cs len) :
    (s.skip cs len n).Head cs off len file (p + n) := by
  have hmoved : (s.skip cs len n).At cs off len file (p + n) m hi := h.move hhi hout rfl rfl rfl
  have hlow := h.low
  refine ⟨⟨m, hi, hmoved, by omega⟩, ?_, rfl⟩
  change (if s.outbyteoff + n < s.inbyteoff + n then _ else _) = _
  split_ifs with hin
  · exact congrArg _ (hmoved.bytes hs hin)
  · rw [← hmoved.bytes_wrap hs hin]
    exact adler32_append

/-- A window whose first byte is at the end of the buffer is on a whole block. -/
theorem Scan.At.out_lt (h : s.At cs off len file p m hi) (hs : Halves cs len) (hp : p % cs.blocksize ≠ 0) :
    s.outbyteoff < buffersize cs len := by
  refine Nat.lt_of_le_of_ne h.out_le fun heq => hp (Nat.mod_eq_zero_of_dvd ?_)
  have hsize : cs.blocksize ∣ buffersize cs len := by
    rw [hs.size]
    exact Nat.dvd_mul_left_of_dvd hs.whole 2
  rw [← h.outbyte, heq]
  exact (Nat.dvd_add_right (hsize.trans h.rounds)).mpr hsize

theorem Scan.Head.advance (h : s.Head cs off len file p) (hs : Halves cs len) (hr : cs.Rolls) :
    p + cs.blocksize = scanEnd cs off file ∧ s.advance cs len file = .stop s.nr ∨
      ∃ s', s.advance cs len file = .go s' ∧ s'.Head cs off len file (p + 1) ∧ s'.nr = s.nr := by
  obtain ⟨m, hi, hat, hhead⟩ := h.window
  unfold Scan.advance
  rw [hat.mask hs hr]
  by_cases hp : p % cs.blocksize = 0
  · rw [if_pos hp]
    rcases hat.refill hs hhead with ⟨hend, hnone⟩ | ⟨s', m', hi', hsome, hat', hlt, hout, hkept⟩
    · rw [hnone]
      exact .inl ⟨hend, rfl⟩
    · obtain ⟨hnr, hkept⟩ := Prod.mk.inj hkept
      obtain ⟨hskip, hadler⟩ := Prod.mk.inj hkept
      rw [hsome]
      dsimp only
      rw [hskip, h.skipbytes]
      exact .inr ⟨_, rfl, hat'.roll hs hr hlt hout (hadler.trans h.adler) (hskip.trans h.skipbytes), hnr⟩
  · rw [if_neg hp]
    have hlt : p + cs.blocksize < hi := by
      refine Nat.lt_of_le_of_ne hat.high fun heq => hp ?_
      rw [← Nat.add_mod_right, heq]
      exact Nat.mod_eq_zero_of_dvd hat.whole
    exact .inr ⟨_, rfl, hat.roll hs hr hlt (hat.out_lt hs hp) h.adler h.skipbytes, rfl⟩

/-- How far a position is from the next whole block. -/
def toWhole (bs p : ℕ) : ℕ := if bs - p % bs = bs then 0 else bs - p % bs

theorem toWhole_spec {bs p : ℕ} (hpos : 0 < bs) : toWhole bs p < bs ∧ bs ∣ p + toWhole bs p := by
  have hlt := Nat.mod_lt p hpos
  have hdiv := Nat.div_add_mod p bs
  unfold toWhole
  split_ifs with hzero
  · refine ⟨hpos, Nat.dvd_of_mod_eq_zero ?_⟩
    rw [Nat.add_zero]
    omega
  · refine ⟨by omega, ⟨p / bs + 1, ?_⟩⟩
    rw [Nat.mul_add, Nat.mul_one]
    omega

/-- Past a match the window is put after it, or the file ends before the next window does. -/
theorem Scan.Head.pass (h : s.Head cs off len file p) (hs : Halves cs len) (hr : cs.Rolls) (nr : List UploadRange) :
    let found : Scan := { s with
      nr := nr, skipbytes := some (cs.blocksize - toWhole cs.blocksize p)
      inbyteoff := s.inbyteoff + toWhole cs.blocksize p, outbyteoff := s.outbyteoff + toWhole cs.blocksize p }
    scanEnd cs off file < p + cs.blocksize + cs.blocksize ∧ found.advance cs len file = .stop nr ∨
      ∃ s', found.advance cs len file = .go s' ∧ s'.Head cs off len file (p + cs.blocksize) ∧ s'.nr = nr := by
  intro found
  obtain ⟨m, hi, hat, hhead⟩ := h.window
  obtain ⟨hlt, hdvd⟩ := toWhole_spec (p := p) hs.pos
  have hhi : p + toWhole cs.blocksize p + cs.blocksize ≤ hi := by
    -- the next whole block is not past what is read, which is whole blocks
    obtain ⟨j, hj⟩ := hat.whole
    obtain ⟨k, hk⟩ := hdvd
    have hhigh := hat.high
    rw [hk, hj, ← Nat.mul_succ]
    refine Nat.mul_le_mul_left _ ?_
    by_contra hgt
    have hmul := Nat.mul_le_mul_left cs.blocksize (Nat.le_of_lt_succ (Nat.not_le.mp hgt))
    rw [← hj, ← hk] at hmul
    have hpos := hs.pos
    omega
  have hout : s.outbyteoff + toWhole cs.blocksize p ≤ buffersize cs len := by
    by_cases hp : p % cs.blocksize = 0
    · have hzero : toWhole cs.blocksize p = 0 := if_pos (by rw [hp, Nat.sub_zero])
      rw [hzero]
      exact hat.out_le
    · exact hat.aligned hs hdvd (hat.out_lt hs hp) (Nat.le_of_lt hlt)
  have hfound : found.At cs off len file (p + toWhole cs.blocksize p) m hi := hat.move hhi hout rfl rfl rfl
  unfold Scan.advance
  rw [hfound.mask hs hr, if_pos (Nat.mod_eq_zero_of_dvd hdvd)]
  rcases hfound.refill hs (by omega) with ⟨hend, hnone⟩ | ⟨s', m', hi', hsome, hat', hlt', hout', hkept⟩
  · rw [hnone]
    exact .inl ⟨by omega, rfl⟩
  · obtain ⟨hnr, hkept⟩ := Prod.mk.inj hkept
    obtain ⟨hskip, -⟩ := Prod.mk.inj hkept
    rw [hsome]
    dsimp only
    rw [hskip]
    have hsum : p + toWhole cs.blocksize p + (cs.blocksize - toWhole cs.blocksize p) = p + cs.blocksize := by omega
    have hhi' : p + toWhole cs.blocksize p + cs.blocksize + cs.blocksize ≤ hi' := by
      obtain ⟨j, hj⟩ := hat'.whole
      obtain ⟨k, hk⟩ := hdvd
      rw [hk, ← Nat.mul_succ] at hlt' ⊢
      rw [hj] at hlt' ⊢
      rw [← Nat.mul_succ]
      exact Nat.mul_le_mul_left _ (Nat.lt_of_mul_lt_mul_left hlt')
    have hroom := hat'.aligned hs ((Nat.dvd_add_right hdvd).mpr (Nat.dvd_refl _)) hout' (Nat.le_refl _)
    have hhead' := hat'.skip hs (n := cs.blocksize - toWhole cs.blocksize p) (by omega) (by omega) (by omega)
    rw [hsum] at hhead'
    exact .inr ⟨_, rfl, hhead', hnr⟩

/-- A turn without a match. -/
theorem Scan.Head.turn_none (h : s.Head cs off len file p) (hs : Halves cs len) (hr : cs.Rolls)
    (hnone : blockAt cs off file sha1 hash p = some 0) :
    p + cs.blocksize = scanEnd cs off file ∧ s.turn sha1 hash cs off len file = some (.stop s.nr) ∨
      ∃ s', s.turn sha1 hash cs off len file = some (.go s') ∧ s'.Head cs off len file (p + 1) ∧ s'.nr = s.nr := by
  have hturn : s.turn sha1 hash cs off len file = some (s.advance cs len file) := by
    rw [Scan.turn, h.lookup hs, hnone, Option.map_some, if_pos rfl]
  rw [hturn]
  rcases h.advance hs hr with ⟨hend, hstop⟩ | ⟨s', hgo, hhead, hnr⟩
  · exact .inl ⟨hend, congrArg some hstop⟩
  · exact .inr ⟨s', congrArg some hgo, hhead, hnr⟩

/-- A turn with a match. -/
theorem Scan.Head.turn_some (h : s.Head cs off len file p) (hs : Halves cs len) (hr : cs.Rolls) (hp : p < len) {blockidx : ℕ}
    (hmatch : blockAt cs off file sha1 hash p = some blockidx) (hne : blockidx ≠ 0) :
    (len < p + cs.blocksize ∨ scanEnd cs off file < p + cs.blocksize + cs.blocksize) ∧
        s.turn sha1 hash cs off len file = some (.stop (addMatch cs off len s.nr (p, blockidx))) ∨
      p + cs.blocksize ≤ len ∧ ∃ s', s.turn sha1 hash cs off len file = some (.go s') ∧
        s'.Head cs off len file (p + cs.blocksize) ∧ s'.nr = addMatch cs off len s.nr (p, blockidx) := by
  obtain ⟨m, hi, hat, -⟩ := h.window
  have hout := hat.outbyte
  have hnr : addRange s.nr (off + s.buffoff + s.outbyteoff) (u32 ((blockidx - 1) * cs.blocksize))
      (if s.buffoff + s.outbyteoff + cs.blocksize ≤ len then cs.blocksize else len - s.buffoff - s.outbyteoff) =
        addMatch cs off len s.nr (p, blockidx) := by
    rw [addMatch, Nat.add_assoc off, hout]
    congr 1
    split_ifs <;> omega
  rw [Scan.turn, h.lookup hs, hmatch, Option.map_some, if_neg hne, Scan.found]
  dsimp only
  rw [hnr, hat.mask hs hr, hout]
  by_cases hle : p + cs.blocksize ≤ len
  · rw [if_neg (by rw [if_pos hle]; exact not_not.mpr rfl)]
    rcases h.pass hs hr (addMatch cs off len s.nr (p, blockidx)) with ⟨hend, hstop⟩ | ⟨s', hgo, hhead, hnr'⟩
    · exact .inl ⟨.inr hend, congrArg some hstop⟩
    · exact .inr ⟨hle, s', congrArg some hgo, hhead, hnr'⟩
  · rw [if_pos (by rw [if_neg hle]; omega)]
    exact .inl ⟨.inl (Nat.not_le.mp hle), rfl⟩

theorem matchesFrom_end {fuel : ℕ} (h : scanEnd cs off file < p + cs.blocksize) :
    matchesFrom cs off len file sha1 hash fuel p = [] := by
  cases fuel with
  | zero => rfl
  | succ fuel => rw [matchesFrom, if_neg fun hp => absurd hp.2 (Nat.not_le.mpr h)]

/-- The loop finds the matches from the window on, one after another. -/
theorem scanLoop_eq (hs : Halves cs len) (hr : cs.Rolls) (htotal : ∀ p, (blockAt cs off file sha1 hash p).isSome) {fuel : ℕ}
    (hfuel : len < p + fuel) (hple : p ≤ len) (h : s.Head cs off len file p) :
    scanLoop sha1 hash cs off len file fuel s =
      some ((matchesFrom cs off len file sha1 hash fuel p).foldl (addMatch cs off len) s.nr) := by
  induction fuel generalizing s p with
  | zero => exact absurd hfuel (Nat.not_lt.mpr hple)
  | succ fuel ih =>
    obtain ⟨m, hi, hat, -⟩ := h.window
    have hin : p + cs.blocksize ≤ scanEnd cs off file := hat.high.trans hat.inside
    have hpos := hs.pos
    rw [scanLoop, hat.outbyte, matchesFrom]
    by_cases hp : p < len
    · rw [if_pos hp, if_pos ⟨hp, hin⟩]
      obtain ⟨blockidx, hblock⟩ := Option.isSome_iff_exists.mp (htotal p)
      rw [hblock, Option.getD_some]
      by_cases hzero : blockidx = 0
      · subst hzero
        rw [if_pos rfl]
        rcases h.turn_none hs hr hblock with ⟨hend, hstop⟩ | ⟨s', hgo, hhead, hnr⟩
        · rw [hstop, matchesFrom_end (by omega)]
          rfl
        · rw [hgo, ← hnr]
          exact ih (by omega) hp hhead
      · rw [if_neg hzero, List.foldl_cons]
        rcases h.turn_some hs hr hp hblock hzero with ⟨hend, hstop⟩ | ⟨hle, s', hgo, hhead, hnr⟩
        · have hnone : (if p + cs.blocksize ≤ len then matchesFrom cs off len file sha1 hash fuel (p + cs.blocksize) else []) = [] := by
            split_ifs with hle
            · exact matchesFrom_end (hend.resolve_left (Nat.not_lt.mpr hle))
            · rfl
          rw [hstop, hnone]
          rfl
        · rw [hgo, if_pos hle, ← hnr]
          exact ih (by omega) hle hhead
    · rw [if_neg hp, if_neg (fun h => hp h.1)]
      rfl

/-- A file that has less than a half of the buffer from `off` on is not scanned. -/
theorem scanStart_short (h : file.length - off < hbuffersize cs len) : scanStart cs off len file = none :=
  if_pos (Nat.lt_of_le_of_lt (Nat.min_le_right ..) h)

theorem scanStart_head (hs : Halves cs len) (hlong : hbuffersize cs len ≤ file.length - off) :
    ∃ s, scanStart cs off len file = some s ∧ s.Head cs off len file 0 ∧ s.nr = [] := by
  have hbs : cs.blocksize ≤ hbuffersize cs len := Nat.le_of_dvd hs.half hs.whole
  have hhalf := hs.half
  have hpos := hs.pos
  have hsize := hs.size
  have hrd : min (hbuffersize cs len) (file.length - off) = hbuffersize cs len := Nat.min_eq_left hlong
  unfold scanStart readHalf
  dsimp only
  rw [hrd, if_neg (Nat.lt_irrefl _)]
  refine ⟨_, rfl, ?_, rfl⟩
  generalize hbuff : (fun x => if 0 ≤ x ∧ x < 0 + hbuffersize cs len then get file (off + (x - 0)) else _) = buff
  have hbyte : ∀ x < hbuffersize cs len, buff x = get file (off + x) := fun x hx => by
    rw [← hbuff]
    exact if_pos ⟨Nat.zero_le _, by omega⟩
  refine ⟨⟨0, hbuffersize cs len, ⟨?_, ?_, ?_, hs.whole, ?_, ?_, rfl, Nat.zero_le _, Nat.dvd_zero _, ?_, ?_, ?_⟩, ?_⟩, ?_, rfl⟩
  · omega
  · omega
  · omega
  · exact hlong.trans (le_scanEnd hpos)
  · dsimp only
    omega
  · exact .inl ⟨rfl, by omega⟩
  · dsimp only
    omega
  · intro q _ hq
    rw [Nat.mod_eq_of_lt (by omega)]
    exact hbyte q hq
  · omega
  · have hbytes : bytesAt buff 0 cs.blocksize = window file cs.blocksize (off + 0) :=
      List.map_congr_left fun i hi => by
        have hi := List.mem_range.mp hi
        rw [Nat.zero_add]
        exact hbyte i (by omega)
    exact congrArg (adler32 adler32Initial) hbytes

/-- What `check_range_for_blocks` leaves in `nr`: nothing for a short file, else the ranges of the matches. -/
theorem checkRangeForBlocks_eq (hr : cs.Rolls) (htotal : ∀ p, (blockAt cs off file sha1 hash p).isSome) {fuel : ℕ}
    (hfuel : len < fuel) :
    checkRangeForBlocks sha1 hash cs off len file fuel true =
      some (true, if hbuffersize cs len ≤ file.length - off then
        ((matchesFrom cs off len file sha1 hash fuel 0).foldl (addMatch cs off len) []).reverse else []) := by
  have hs := hr.halves len
  rw [checkRangeForBlocks, if_pos rfl]
  split_ifs with hlong
  · obtain ⟨s, hstart, hhead, hnr⟩ := scanStart_head hs hlong
    rw [hstart]
    dsimp only
    rw [scanLoop_eq hs hr htotal (by omega) (Nat.zero_le _) hhead, hnr, Option.map_some]
  · rw [scanStart_short (Nat.not_le.mp hlong)]

end Pclsync.Delta
