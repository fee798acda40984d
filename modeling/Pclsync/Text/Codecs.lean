import Pclsync.Lib.Buffers
import Pclsync.Lib.BitStrings
import Pclsync.Lib.Machine
import Mathlib.Tactic.IntervalCases

/-! Bytes as text and back (`plibs.c`): `psync_base32_encode`, `psync_base64_encode` and
their inverses, with every cell of the buffer that they write. -/
namespace Pclsync.Text
open Lib.Buffers Lib.Groups Lib.Machine

/-- `result` and `p - result`. -/
structure Writer where
  buff : Buffer UInt8
  pos : ℕ

def Writer.start : Writer := ⟨untouched, 0⟩

/-- `*p++=c`. -/
def Writer.put (p : Writer) (c : UInt8) : Writer := ⟨write p.buff p.pos [c], p.pos + 1⟩

/-- `*p=c`. -/
def Writer.set (p : Writer) (c : UInt8) : Writer := { p with buff := write p.buff p.pos [c] }

/-- What a function has allocated and written, and `*ret_length` unless it returns `NULL`. -/
structure Returned where
  size : ℕ
  buff : Buffer UInt8
  ret : Option ℕ

/-- `*p=0; *ret_length=p-result; return result`. -/
def Writer.done (size : ℕ) (p : Writer) : Returned := ⟨size, (p.set 0).buff, some p.pos⟩

/-- `psync_free(result); return NULL`. -/
def Writer.reject (size : ℕ) (p : Writer) : Returned := ⟨size, p.buff, none⟩

/-- The bytes that the caller gets, all of them written. -/
def Returned.string (r : Returned) : Option (List UInt8) := r.ret.bind fun n => (List.range n).mapM r.buff

/-- No cell outside of the allocated ones was written. -/
def Returned.Inside (r : Returned) : Prop := ∀ j, r.size ≤ j → r.buff j = none

/-- The cells from the first one on are `out`, no other was written. -/
structure Writer.Holds (p : Writer) (out : List UInt8) : Prop where
  buff_eq : p.buff = fun j => out[j]?
  pos_eq : p.pos = out.length

variable {p : Writer} {out str : List UInt8} {c ch : UInt8} {size n bits buff d : ℕ}

theorem Writer.start_holds : Writer.start.Holds [] := ⟨rfl, rfl⟩

/-- A write right behind the cells written, or to the last one of them. -/
theorem write_last {rest : List UInt8} (hrest : rest.length ≤ 1) :
    write (fun j => (out ++ rest)[j]?) out.length [c] = fun j => (out ++ [c])[j]? := by
  funext j
  rcases Nat.lt_trichotomy j out.length with hlt | rfl | hlt
  · rw [write_outside (.inl hlt), List.getElem?_append_left hlt, List.getElem?_append_left hlt]
  · rw [write_inside (Nat.le_refl _) (Nat.lt_succ_self _), Nat.sub_self, List.getElem?_append_right (Nat.le_refl _),
      Nat.sub_self]
  · rw [write_outside (.inr hlt), List.getElem?_eq_none, List.getElem?_eq_none]
    · rw [List.length_append, List.length_singleton]
      omega
    · rw [List.length_append]
      omega

theorem Writer.Holds.put (h : p.Holds out) : (p.put c).Holds (out ++ [c]) where
  buff_eq := by
    have := @write_last out c [] (Nat.zero_le _)
    rwa [List.append_nil, ← h.buff_eq, ← h.pos_eq] at this
  pos_eq := by rw [Writer.put, h.pos_eq, List.length_append, List.length_singleton]

/-- The buffer after the final zero. -/
theorem Writer.done_buff {rest : List UInt8} (hrest : rest.length ≤ 1) (hbuff : p.buff = fun j => (out ++ rest)[j]?)
    (hpos : p.pos = out.length) : (p.done size).buff = fun j => (out ++ [0])[j]? := by
  rw [Writer.done, Writer.set, hbuff, hpos]
  exact write_last hrest

theorem mapM_cells (n : ℕ) (h : n ≤ out.length) : (List.range n).mapM (fun j => out[j]?) = some (out.take n) := by
  induction n with
  | zero => rfl
  | succ n ih =>
    have hcell : out[n]? = some out[n] := List.getElem?_eq_getElem h
    rw [List.range_succ, List.mapM_append, ih (Nat.le_of_succ_le h), List.take_add_one]
    simp only [List.mapM_cons, List.mapM_nil, hcell]
    rfl

theorem string_done (hbuff : (p.done size).buff = fun j => (out ++ [0])[j]?) (hpos : p.pos = out.length) :
    (p.done size).string = some out := by
  have hstring : (p.done size).string = (List.range p.pos).mapM (p.done size).buff := rfl
  rw [hstring, hbuff, hpos, mapM_cells]
  · rw [List.take_left]
  · rw [List.length_append]
    omega

theorem inside_of_length {r : Returned} (hbuff : r.buff = fun j => out[j]?) (h : out.length ≤ r.size) : r.Inside := by
  intro j hj
  rw [hbuff]
  exact List.getElem?_eq_none (h.trans hj)

theorem Writer.Holds.string (h : p.Holds out) : (p.done size).string = some out :=
  string_done (@Writer.done_buff _ _ _ [] (Nat.zero_le _) (by rw [List.append_nil]; exact h.buff_eq) h.pos_eq) h.pos_eq

theorem Writer.Holds.inside (h : p.Holds out) (hsize : out.length < size) : (p.done size).Inside := by
  refine inside_of_length
    (@Writer.done_buff _ _ _ [] (Nat.zero_le _) (by rw [List.append_nil]; exact h.buff_eq) h.pos_eq) ?_
  rw [List.length_append]
  exact hsize

/-- The bytes as digits. -/
def digits (str : List UInt8) : List ℕ := str.map UInt8.toNat

theorem digits_append (xs ys : List UInt8) : digits (xs ++ ys) = digits xs ++ digits ys := List.map_append

theorem digits_length : (digits str).length = str.length := List.length_map ..

theorem digits_lt : ∀ d ∈ digits str, d < 2 ^ 8 := by
  intro d hd
  obtain ⟨c, -, rfl⟩ := List.mem_map.mp hd
  exact c.toNat_lt

theorem digits_inj {xs ys : List UInt8} (h : digits xs = digits ys) : xs = ys :=
  List.map_injective_iff.mpr (fun _ _ => UInt8.toNat_inj.mp) h

/-- The size of a buffer does not wrap around. -/
theorem size_of_length {len up from' to' : ℕ} (hlen : len < 2 ^ 63) (hfits : up < 8 ∧ to' < 9 ∧ to' * 5 ≤ from' * 8) :
    u64 (u64 (u64 (len + up) / from' * to') + 1) = (len + up) / from' * to' + 1 := by
  have hdiv : (len + up) / from' * from' ≤ len + up := Nat.div_mul_le_self ..
  have hmul : (len + up) / from' * (to' * 5) ≤ (len + up) / from' * (from' * 8) := Nat.mul_le_mul_left _ hfits.2.2
  have hmul' : (len + up) / from' * to' * 5 ≤ (len + up) / from' * from' * 8 := by
    rw [Nat.mul_assoc, Nat.mul_assoc]
    exact hmul
  have hsum : u64 (len + up) = len + up := u64_of_lt (by omega)
  have hgroups : u64 ((len + up) / from' * to') = (len + up) / from' * to' := u64_of_lt (by omega)
  rw [hsum, hgroups, u64_of_lt (by omega)]

/-- A byte comes into the accumulator. -/
theorem or_byte (x : ℕ) (c : UInt8) : u32 (x <<< 8) ||| c.toNat = (x * 2 ^ 8 + c.toNat) % 2 ^ 32 := by
  have hc := c.toNat_lt
  have hmul : u32 (x <<< 8) = (x % 2 ^ 24) <<< 8 := by
    rw [u32, Nat.shiftLeft_eq, Nat.shiftLeft_eq]
    omega
  rw [hmul, ← Nat.shiftLeft_add_eq_or_of_lt (by omega), Nat.shiftLeft_eq]
  omega

/-! ### Base 32 -/

/-- `table` of `psync_base32_encode`. -/
def base32Table : List Char :=
  ['A', 'B', 'C', 'D', 'E', 'F', 'G', 'H', 'I', 'J', 'K', 'L', 'M', 'N', 'O', 'P', 'Q', 'R', 'S', 'T', 'U', 'V', 'W',
    'X', 'Y', 'Z', '2', '3', '4', '5', '6', '7']

def byteOf (c : Char) : UInt8 := UInt8.ofNat c.toNat

def base32Code (n : ℕ) : UInt8 := byteOf (base32Table.getD n ' ')

/-- The first loop. -/
def base32EncodeLoop : List UInt8 → ℕ → ℕ → Writer → ℕ × ℕ × Writer
  | [], bits, buff, p => (bits, buff, p)
  | c :: str, bits, buff, p =>
    if bits < 5 then
      let buff := u32 (buff <<< 8) ||| c.toNat
      let bits := bits + 8 - 5
      base32EncodeLoop str bits buff (p.put (base32Code (0x1f &&& (buff >>> bits))))
    else
      let bits := bits - 5
      base32EncodeLoop (c :: str) bits buff (p.put (base32Code (0x1f &&& (buff >>> bits))))
termination_by str bits => 8 * str.length + bits
decreasing_by
  · simp only [List.length_cons]
    omega
  · omega

/-- The loop for the bits that are left. -/
def base32EncodeFlush (bits buff : ℕ) (p : Writer) : Writer :=
  if bits = 0 then p
  else
    let buff' := if bits < 5 then u32 (buff <<< (5 - bits)) else buff
    let bits' := (if bits < 5 then 5 else bits) - 5
    base32EncodeFlush bits' buff' (p.put (base32Code (0x1f &&& (buff' >>> bits'))))
termination_by bits
decreasing_by
  split_ifs <;> omega

/-- `psync_base32_encode`. -/
def base32Encode (str : List UInt8) : Returned :=
  let (bits, buff, p) := base32EncodeLoop str 0 0 .start
  (base32EncodeFlush bits buff p).done (u64 (u64 (u64 (str.length + 4) / 5 * 8) + 1))

/-- The low five bits of what is left of the accumulator are the next group. -/
theorem group_of_acc (hbuff : buff = n % 2 ^ 32) (hv : 5 ≤ bits) (hbits : bits ≤ 32) :
    0x1f &&& (buff >>> (bits - 5)) = n / 2 ^ (bits - 5) % 2 ^ 5 := by
  rw [Nat.and_comm, Nat.and_two_pow_sub_one_eq_mod _ 5, Nat.shiftRight_eq_div_pow]
  exact div_mod_of_acc hbuff hv hbits

/-- What the encoder has done: the groups of the bytes read, and the accumulator. -/
structure Encodes (done : List UInt8) (ds : List ℕ) (bits buff : ℕ) (p : Writer) : Prop where
  top : Top 5 (8 * done.length) (value (2 ^ 8) (digits done)) ds bits
  acc : buff = value (2 ^ 8) (digits done) % 2 ^ 32
  bits_le : bits ≤ 7
  holds : p.Holds (ds.map base32Code)

variable {done : List UInt8} {ds : List ℕ}

theorem Encodes.byte (h : Encodes done ds bits buff p) (hbits : bits < 5) :
    ∃ ds', Encodes (done ++ [c]) ds' (bits + 8 - 5) (u32 (buff <<< 8) ||| c.toNat)
      (p.put (base32Code (0x1f &&& ((u32 (buff <<< 8) ||| c.toNat) >>> (bits + 8 - 5))))) := by
  have hvalue : value (2 ^ 8) (digits (done ++ [c])) = value (2 ^ 8) (digits done) * 2 ^ 8 + c.toNat := by
    rw [digits_append]
    exact value_concat
  have htop : Top 5 (8 * (done ++ [c]).length) (value (2 ^ 8) (digits (done ++ [c]))) ds (bits + 8) := by
    rw [hvalue, List.length_append, List.length_singleton, Nat.mul_add]
    exact h.top.more c.toNat_lt
  have hacc : u32 (buff <<< 8) ||| c.toNat = value (2 ^ 8) (digits (done ++ [c])) % 2 ^ 32 := by
    rw [or_byte, hvalue, h.acc]
    omega
  refine ⟨_, htop.emit (by omega), hacc, by omega, ?_⟩
  rw [group_of_acc hacc (by omega) (by omega), List.map_append]
  exact h.holds.put

theorem Encodes.group (h : Encodes done ds bits buff p) (hbits : ¬bits < 5) :
    ∃ ds', Encodes done ds' (bits - 5) buff (p.put (base32Code (0x1f &&& (buff >>> (bits - 5))))) := by
  have hle := h.bits_le
  refine ⟨_, h.top.emit (by omega), h.acc, by omega, ?_⟩
  rw [group_of_acc h.acc (by omega) (by omega), List.map_append]
  exact h.holds.put

theorem base32EncodeLoop_encodes (str : List UInt8) (h : Encodes done ds bits buff p) :
    ∃ ds', Encodes (done ++ str) ds' (base32EncodeLoop str bits buff p).1 (base32EncodeLoop str bits buff p).2.1
      (base32EncodeLoop str bits buff p).2.2 := by
  fun_induction base32EncodeLoop str bits buff p generalizing done ds with
  | case1 bits buff p =>
    rw [List.append_nil]
    exact ⟨ds, h⟩
  | case2 c str bits buff p hbits =>
    rename_i ih
    obtain ⟨ds', h'⟩ := h.byte (c := c) hbits
    obtain ⟨ds'', h''⟩ := ih h'
    rw [List.append_assoc] at h''
    exact ⟨ds'', h''⟩
  | case3 c str bits buff p hbits =>
    rename_i ih
    obtain ⟨ds', h'⟩ := h.group hbits
    exact ih h'

/-- The last bits, padded. -/
theorem base32EncodeFlush_encodes (h : Encodes done ds bits buff p) :
    ∃ ds' pad, pad < 5 ∧ Top 5 (8 * done.length + pad) (value (2 ^ 8) (digits done) * 2 ^ pad) ds' 0 ∧
      (base32EncodeFlush bits buff p).Holds (ds'.map base32Code) := by
  have hle := h.bits_le
  have hpadded : ∀ {ds bits p}, Encodes done ds bits buff p → bits ≠ 0 → bits < 5 →
      ∃ ds' pad, pad < 5 ∧ Top 5 (8 * done.length + pad) (value (2 ^ 8) (digits done) * 2 ^ pad) ds' 0 ∧
        (base32EncodeFlush bits buff p).Holds (ds'.map base32Code) := by
    intro ds bits p h hzero hlt
    have htop := (h.top.more (w := 5 - bits) (Nat.two_pow_pos _)).emit (by omega)
    have hacc : u32 (buff <<< (5 - bits)) = value (2 ^ 8) (digits done) * 2 ^ (5 - bits) % 2 ^ 32 := by
      rw [u32, Nat.shiftLeft_eq, h.acc, Nat.mod_mul_mod]
    have hgroup := group_of_acc hacc (Nat.le_refl 5) (by omega)
    rw [Nat.add_zero, show bits + (5 - bits) - 5 = 0 by omega] at htop
    refine ⟨_, 5 - bits, by omega, htop, ?_⟩
    rw [base32EncodeFlush, if_neg hzero, if_pos hlt, if_pos hlt, base32EncodeFlush, if_pos rfl, hgroup, List.map_append]
    exact h.holds.put
  by_cases hzero : bits = 0
  · subst hzero
    rw [base32EncodeFlush, if_pos rfl]
    exact ⟨ds, 0, by decide, by simpa using h.top, h.holds⟩
  by_cases hlt : bits < 5
  · exact hpadded h hzero hlt
  · obtain ⟨ds', h'⟩ := h.group hlt
    rw [base32EncodeFlush, if_neg hzero, if_neg hlt, if_neg hlt]
    by_cases hzero' : bits - 5 = 0
    · rw [hzero'] at h' ⊢
      rw [base32EncodeFlush, if_pos rfl]
      exact ⟨ds', 0, by decide, by simpa using h'.top, h'.holds⟩
    · exact hpadded h' hzero' (by omega)

/-- The text of a string: its bits in groups of five, the last one padded. -/
theorem base32Encode_spec (str : List UInt8) :
    ∃ ds pad, pad < 5 ∧ Top 5 (8 * str.length + pad) (value (2 ^ 8) (digits str) * 2 ^ pad) ds 0 ∧
      (base32Encode str).string = some (ds.map base32Code) ∧ (str.length < 2 ^ 63 → (base32Encode str).Inside) := by
  have hstart : Encodes [] [] 0 0 .start := ⟨.start, rfl, by decide, Writer.start_holds⟩
  obtain ⟨ds', h⟩ := base32EncodeLoop_encodes str hstart
  obtain ⟨ds, pad, hpad, htop, hholds⟩ := base32EncodeFlush_encodes h
  refine ⟨ds, pad, hpad, htop, hholds.string, fun hlen => hholds.inside ?_⟩
  have hlength := htop.length
  rw [List.nil_append] at hlength
  rw [List.length_map, size_of_length hlen (by decide)]
  omega

/-- The value of a character. -/
def base32Value (ch : UInt8) : Option ℕ :=
  if byteOf 'A' ≤ ch ∧ ch ≤ byteOf 'Z' then some ((ch &&& 0x1f) - 1).toNat
  else if byteOf '2' ≤ ch ∧ ch ≤ byteOf '7' then some (ch - (byteOf '2' - 26)).toNat
  else none

def base32DecodeLoop (size : ℕ) : List UInt8 → ℕ → ℕ → Writer → Returned
  | [], _, _, p => p.done size
  | ch :: str, bits, buff, p =>
    match base32Value ch with
    | none => p.reject size
    | some ch =>
      let buff := u32 (u32 (buff <<< 5) + ch)
      let bits := bits + 5
      if bits ≥ 8 then base32DecodeLoop size str (bits - 8) buff (p.put (UInt8.ofNat (buff >>> (bits - 8))))
      else base32DecodeLoop size str bits buff p

/-- `psync_base32_decode`. -/
def base32Decode (str : List UInt8) : Returned :=
  base32DecodeLoop (u64 (u64 (u64 (str.length + 7) / 8 * 5) + 1)) str 0 0 .start

theorem base32Value_code : ∀ d < 32, base32Value (base32Code d) = some d := by decide

theorem base32Value_lt (h : base32Value ch = some d) : d < 32 := by
  have hall : ∀ n < 256, ((base32Value (UInt8.ofNat n)).all fun d => decide (d < 32)) = true := by decide +kernel
  have hch := hall ch.toNat ch.toNat_lt
  rw [UInt8.ofNat_toNat, h] at hch
  exact of_decide_eq_true hch

/-- What the decoder has done: the bytes of the characters read, and the accumulator. -/
structure Decodes (ds : List ℕ) (out : List UInt8) (bits buff : ℕ) (p : Writer) : Prop where
  top : Top 8 (5 * ds.length) (value (2 ^ 5) ds) (digits out) bits
  acc : buff = value (2 ^ 5) ds % 2 ^ 32
  bits_lt : bits < 8
  holds : p.Holds out

theorem Decodes.start : Decodes [] [] 0 0 .start := ⟨.start, rfl, by decide, Writer.start_holds⟩

/-- Another character, without a byte that it completes. -/
theorem Decodes.char (h : Decodes ds out bits buff p) (hd : d < 32) :
    Top 8 (5 * (ds ++ [d]).length) (value (2 ^ 5) (ds ++ [d])) (digits out) (bits + 5) ∧
      u32 (u32 (buff <<< 5) + d) = value (2 ^ 5) (ds ++ [d]) % 2 ^ 32 := by
  refine ⟨?_, ?_⟩
  · rw [value_concat, List.length_append, List.length_singleton, Nat.mul_add]
    exact h.top.more hd
  · rw [value_concat, u32, u32, Nat.shiftLeft_eq, h.acc]
    omega

/-- A byte is complete. -/
theorem Decodes.byte (h : Decodes ds out bits buff p) (hd : d < 32) (hbits : bits + 5 ≥ 8) :
    Decodes (ds ++ [d]) (out ++ [UInt8.ofNat (u32 (u32 (buff <<< 5) + d) >>> (bits + 5 - 8))]) (bits + 5 - 8)
      (u32 (u32 (buff <<< 5) + d)) (p.put (UInt8.ofNat (u32 (u32 (buff <<< 5) + d) >>> (bits + 5 - 8)))) := by
  obtain ⟨htop, hacc⟩ := h.char hd
  have hlt := h.bits_lt
  refine ⟨?_, hacc, by omega, h.holds.put⟩
  have hbyte := div_mod_of_acc hacc hbits (by omega)
  rw [digits_append, digits, digits, List.map_singleton, UInt8.toNat_ofNat', Nat.shiftRight_eq_div_pow, hbyte]
  exact htop.emit hbits

theorem Decodes.wait (h : Decodes ds out bits buff p) (hd : d < 32) (hbits : ¬bits + 5 ≥ 8) :
    Decodes (ds ++ [d]) out (bits + 5) (u32 (u32 (buff <<< 5) + d)) p :=
  ⟨(h.char hd).1, (h.char hd).2, by omega, h.holds⟩

/-- Characters of the table are accepted; their bits are the bytes. -/
theorem base32DecodeLoop_codes (ds' : List ℕ) (hds : ∀ d ∈ ds', d < 32) (h : Decodes ds out bits buff p) :
    ∃ out' bits', Top 8 (5 * (ds ++ ds').length) (value (2 ^ 5) (ds ++ ds')) (digits out') bits' ∧ bits' < 8 ∧
      (base32DecodeLoop size (ds'.map base32Code) bits buff p).string = some out' := by
  induction ds' generalizing ds out bits buff p with
  | nil =>
    rw [List.append_nil]
    exact ⟨out, bits, h.top, h.bits_lt, h.holds.string⟩
  | cons d ds' ih =>
    have hd := hds d List.mem_cons_self
    have hrest : ∀ d ∈ ds', d < 32 := fun d hd => hds d (List.mem_cons_of_mem _ hd)
    simp only [List.map_cons, base32DecodeLoop, base32Value_code d hd]
    rw [List.append_cons]
    split_ifs with hbits
    · exact ih hrest (h.byte hd hbits)
    · exact ih hrest (h.wait hd hbits)

theorem base32DecodeLoop_inside (str : List UInt8) (h : Decodes ds out bits buff p)
    (hsize : 5 * (ds.length + str.length) / 8 < size) : (base32DecodeLoop size str bits buff p).Inside := by
  induction str generalizing ds out bits buff p with
  | nil =>
    have hlength := h.top.length
    rw [digits_length] at hlength
    rw [List.length_nil] at hsize
    exact h.holds.inside (by omega)
  | cons ch str ih =>
    rw [List.length_cons] at hsize
    cases hch : base32Value ch with
    | none =>
      have hlength := h.top.length
      rw [digits_length] at hlength
      simp only [base32DecodeLoop, hch]
      exact inside_of_length h.holds.buff_eq (show out.length ≤ size by omega)
    | some d =>
      have hd := base32Value_lt hch
      have hsize' : 5 * ((ds ++ [d]).length + str.length) / 8 < size := by
        rw [List.length_append, List.length_singleton, Nat.add_assoc, Nat.add_comm 1]
        exact hsize
      simp only [base32DecodeLoop, hch]
      split_ifs with hbits
      · exact ih (h.byte hd hbits) hsize'
      · exact ih (h.wait hd hbits) hsize'

theorem base32_inverts (str : List UInt8) :
    ∃ text, (base32Encode str).string = some text ∧ (base32Decode text).string = some str := by
  obtain ⟨ds, pad, hpad, hto, hstring, -⟩ := base32Encode_spec str
  obtain ⟨out, bits, hback, hbits, hout⟩ := base32DecodeLoop_codes ds hto.small Decodes.start
  refine ⟨_, hstring, ?_⟩
  rw [← digits_length] at hto
  have hsame := hto.inverse (by decide) digits_lt (hpad.trans (by decide)) hback hbits
  rw [base32Decode, hout, digits_inj hsame]

theorem base32Decode_inside (str : List UInt8) (hlen : str.length < 2 ^ 63) : (base32Decode str).Inside := by
  refine base32DecodeLoop_inside str Decodes.start ?_
  rw [size_of_length hlen (by decide), List.length_nil]
  omega

/-! ### Base 64 -/

/-- `base64_table`. -/
def base64Table : List Char :=
  ['A', 'B', 'C', 'D', 'E', 'F', 'G', 'H', 'I', 'J', 'K', 'L', 'M',
    'N', 'O', 'P', 'Q', 'R', 'S', 'T', 'U', 'V', 'W', 'X', 'Y', 'Z',
    'a', 'b', 'c', 'd', 'e', 'f', 'g', 'h', 'i', 'j', 'k', 'l', 'm',
    'n', 'o', 'p', 'q', 'r', 's', 't', 'u', 'v', 'w', 'x', 'y', 'z',
    '0', '1', '2', '3', '4', '5', '6', '7', '8', '9', '-', '_']

def base64Code (n : UInt8) : UInt8 := byteOf (base64Table.getD n.toNat ' ')

/-- `base64_reverse_table`, with a `char` that is signed. -/
def base64ReverseTable : List ℤ :=
  [-2, -2, -2, -2, -2, -2, -2, -2, -2, -1, -1, -2, -2, -1, -2, -2,
    -2, -2, -2, -2, -2, -2, -2, -2, -2, -2, -2, -2, -2, -2, -2, -2,
    -1, -2, -2, -2, -2, -2, -2, -2, -2, -2, -2, 62, -2, 62, -2, 63,
    52, 53, 54, 55, 56, 57, 58, 59, 60, 61, -2, -2, -2, -1, -2, -2,
    -2,  0,  1,  2,  3,  4,  5,  6,  7,  8,  9, 10, 11, 12, 13, 14,
    15, 16, 17, 18, 19, 20, 21, 22, 23, 24, 25, -2, -2, -2, -2, 63,
    -2, 26, 27, 28, 29, 30, 31, 32, 33, 34, 35, 36, 37, 38, 39, 40,
    41, 42, 43, 44, 45, 46, 47, 48, 49, 50, 51, -2, -2, -2, -2, -2] ++ List.replicate 128 (-2)

/-- The loop over whole groups of three bytes, and the tail. -/
def base64EncodeLoop : List UInt8 → Writer → Writer
  | a :: b :: c :: rest, p =>
    base64EncodeLoop rest ((((p.put (base64Code (a >>> 2))).put (base64Code (((a &&& 0x03) <<< 4) + (b >>> 4)))).put
      (base64Code (((b &&& 0x0f) <<< 2) + (c >>> 6)))).put (base64Code (c &&& 0x3f)))
  | [a, b], p =>
    ((p.put (base64Code (a >>> 2))).put (base64Code (((a &&& 0x03) <<< 4) + (b >>> 4)))).put
      (base64Code ((b &&& 0x0f) <<< 2))
  | [a], p => (p.put (base64Code (a >>> 2))).put (base64Code ((a &&& 0x03) <<< 4))
  | [], p => p

/-- `psync_base64_encode`. -/
def base64Encode (str : List UInt8) : Returned :=
  (base64EncodeLoop str .start).done (u64 (u64 (u64 (str.length + 2) / 3 * 4) + 1))

/-- What the encoder has done. -/
structure Encodes64 (done : List UInt8) (ds : List ℕ) (bits : ℕ) (p : Writer) : Prop where
  top : Top 6 (8 * done.length) (value (2 ^ 8) (digits done)) ds bits
  holds : p.Holds (ds.map fun d => base64Code (UInt8.ofNat d))

/-- The text so far, of all bytes and `pad` zero bits. -/
def Padded64 (done : List UInt8) (p : Writer) : Prop :=
  ∃ ds pad, pad < 6 ∧ Top 6 (8 * done.length + pad) (value (2 ^ 8) (digits done) * 2 ^ pad) ds 0 ∧
    p.Holds (ds.map fun d => base64Code (UInt8.ofNat d))

theorem Encodes64.more (h : Encodes64 done ds bits p) : Encodes64 (done ++ [c]) ds (bits + 8) p where
  top := by
    rw [digits_append, digits, digits, List.map_singleton, value_concat, List.length_append, List.length_singleton,
      Nat.mul_add]
    exact h.top.more c.toNat_lt
  holds := h.holds

theorem holds_code (h : p.Holds (ds.map fun d => base64Code (UInt8.ofNat d))) (hc : c.toNat = d) :
    (p.put (base64Code c)).Holds ((ds ++ [d]).map fun d => base64Code (UInt8.ofNat d)) := by
  rw [List.map_append, List.map_singleton, ← hc, UInt8.ofNat_toNat]
  exact h.put

theorem Encodes64.emit (h : Encodes64 done ds bits p) (hbits : 6 ≤ bits)
    (hc : c.toNat = value (2 ^ 8) (digits done) / 2 ^ (bits - 6) % 2 ^ 6) :
    Encodes64 done (ds ++ [c.toNat]) (bits - 6) (p.put (base64Code c)) where
  top := by
    rw [hc]
    exact h.top.emit hbits
  holds := holds_code h.holds rfl

/-- The last bits, with zeros behind them. -/
theorem Encodes64.pad (h : Encodes64 done ds bits p) (hbits : bits ≤ 6) (hpos : 0 < bits)
    (hc : c.toNat = value (2 ^ 8) (digits done) * 2 ^ (6 - bits) % 2 ^ 6) : Padded64 done (p.put (base64Code c)) := by
  have htop := (h.top.more (w := 6 - bits) (Nat.two_pow_pos _)).emit (by omega)
  rw [Nat.add_zero, show bits + (6 - bits) - 6 = 0 by omega, Nat.pow_zero, Nat.div_one, ← hc] at htop
  exact ⟨_, 6 - bits, by omega, htop, holds_code h.holds rfl⟩

theorem value_byte : value (2 ^ 8) (digits (done ++ [c])) = value (2 ^ 8) (digits done) * 256 + c.toNat := by
  rw [digits_append]
  exact value_concat

theorem mask_eq (k : ℕ) (x : ℕ) : x &&& (2 ^ k - 1) = x % 2 ^ k := Nat.and_two_pow_sub_one_eq_mod x k

/-! The digits of one to three bytes. -/

theorem first_digit (a : UInt8) : (a >>> 2).toNat = a.toNat / 4 := by
  simp [Nat.shiftRight_eq_div_pow]

theorem second_digit (a b : UInt8) : (((a &&& 0x03) <<< 4) + (b >>> 4)).toNat = a.toNat % 4 * 16 + b.toNat / 16 := by
  have ha := a.toNat_lt
  have hb := b.toNat_lt
  have hmask := mask_eq 2 a.toNat
  simp [Nat.shiftRight_eq_div_pow, Nat.shiftLeft_eq] at hmask ⊢
  omega

theorem third_digit (b c : UInt8) : (((b &&& 0x0f) <<< 2) + (c >>> 6)).toNat = b.toNat % 16 * 4 + c.toNat / 64 := by
  have hb := b.toNat_lt
  have hc := c.toNat_lt
  have hmask := mask_eq 4 b.toNat
  simp [Nat.shiftRight_eq_div_pow, Nat.shiftLeft_eq] at hmask ⊢
  omega

theorem fourth_digit (c : UInt8) : (c &&& 0x3f).toNat = c.toNat % 64 := by
  simpa using mask_eq 6 c.toNat

theorem second_alone (a : UInt8) : ((a &&& 0x03) <<< 4).toNat = a.toNat % 4 * 16 := by
  simpa using second_digit a 0

theorem third_alone (b : UInt8) : ((b &&& 0x0f) <<< 2).toNat = b.toNat % 16 * 4 := by
  simpa using third_digit b 0

theorem base64EncodeLoop_encodes (str : List UInt8) (h : Encodes64 done ds 0 p) :
    Padded64 (done ++ str) (base64EncodeLoop str p) := by
  fun_induction base64EncodeLoop str p generalizing done ds with
  | case1 a b c rest p ih =>
    have ha := a.toNat_lt
    have hb := b.toNat_lt
    have hc := c.toNat_lt
    have h := (h.more (c := a)).emit (c := a >>> 2) (by decide) (by rw [value_byte, first_digit]; omega)
    have h := (h.more (c := b)).emit (c := ((a &&& 0x03) <<< 4) + (b >>> 4)) (by decide)
      (by rw [value_byte, value_byte, second_digit]; omega)
    have h := (h.more (c := c)).emit (c := ((b &&& 0x0f) <<< 2) + (c >>> 6)) (by decide)
      (by rw [value_byte, value_byte, value_byte, third_digit]; omega)
    have h := h.emit (c := c &&& 0x3f) (by decide)
      (by rw [value_byte, value_byte, value_byte, fourth_digit]; omega)
    have hrest := ih h
    simpa only [List.append_assoc, List.cons_append, List.nil_append] using hrest
  | case2 a b p =>
    have ha := a.toNat_lt
    have hb := b.toNat_lt
    have h := (h.more (c := a)).emit (c := a >>> 2) (by decide) (by rw [value_byte, first_digit]; omega)
    have h := (h.more (c := b)).emit (c := ((a &&& 0x03) <<< 4) + (b >>> 4)) (by decide)
      (by rw [value_byte, value_byte, second_digit]; omega)
    have hlast := h.pad (c := (b &&& 0x0f) <<< 2) (by decide) (by decide)
      (by rw [value_byte, value_byte, third_alone]; omega)
    simpa only [List.append_assoc, List.cons_append, List.nil_append] using hlast
  | case3 a p =>
    have ha := a.toNat_lt
    have h := (h.more (c := a)).emit (c := a >>> 2) (by decide) (by rw [value_byte, first_digit]; omega)
    exact h.pad (c := (a &&& 0x03) <<< 4) (by decide) (by decide) (by rw [value_byte, second_alone]; omega)
  | case4 p =>
    rw [List.append_nil]
    exact ⟨ds, 0, by decide, by simpa using h.top, h.holds⟩

/-- The text of a string: its bits in groups of six, the last one padded. -/
theorem base64Encode_spec (str : List UInt8) :
    ∃ ds pad, pad < 6 ∧ Top 6 (8 * str.length + pad) (value (2 ^ 8) (digits str) * 2 ^ pad) ds 0 ∧
      (base64Encode str).string = some (ds.map fun d => base64Code (UInt8.ofNat d)) ∧
      (str.length < 2 ^ 63 → (base64Encode str).Inside) := by
  have hstart : Encodes64 [] [] 0 .start := ⟨.start, Writer.start_holds⟩
  obtain ⟨ds, pad, hpad, htop, hholds⟩ := base64EncodeLoop_encodes str hstart
  refine ⟨ds, pad, hpad, htop, hholds.string, fun hlen => hholds.inside ?_⟩
  have hlength := htop.length
  rw [List.nil_append] at hlength
  rw [List.length_map, size_of_length hlen (by decide)]
  omega

/-- `result[j]|=c`; `none` if the cell holds nothing. -/
def Writer.or (p : Writer) (c : UInt8) : Option Writer := (p.buff p.pos).map fun old => p.set (old ||| c)

/-- One accepted character, at the position `i` among them; `p.pos` is `j`. -/
def base64Step (i : ℕ) (ch : ℕ) (p : Writer) : Option Writer :=
  match i % 4 with
  | 0 => some (p.set (UInt8.ofNat (ch <<< 2)))
  | 1 => (p.or (UInt8.ofNat (ch >>> 4))).map fun p => { p with pos := p.pos + 1 }.set (UInt8.ofNat ((ch &&& 0x0f) <<< 4))
  | 2 => (p.or (UInt8.ofNat (ch >>> 2))).map fun p => { p with pos := p.pos + 1 }.set (UInt8.ofNat ((ch &&& 0x03) <<< 6))
  | _ => (p.or (UInt8.ofNat ch)).map fun p => { p with pos := p.pos + 1 }

/-- `none` if a cell is read that was never written. -/
def base64DecodeLoop (size : ℕ) : List UInt8 → ℕ → Writer → Option Returned
  | [], _, p => some (p.done size)
  | c :: str, i, p =>
    let ch := base64ReverseTable.getD c.toNat 0
    if ch = -1 then base64DecodeLoop size str i p
    else if ch = -2 then some (p.reject size)
    else (base64Step i ch.toNat p).bind (base64DecodeLoop size str (i + 1))

/-- `psync_base64_decode`. -/
def base64Decode (str : List UInt8) : Option Returned :=
  base64DecodeLoop (u64 (u64 (u64 (str.length + 3) / 4 * 3) + 1)) str 0 .start

theorem base64Reverse_code : ∀ d < 64, base64ReverseTable.getD (base64Code (UInt8.ofNat d)).toNat 0 = d := by decide

theorem base64Reverse_range (c : UInt8) (hskip : base64ReverseTable.getD c.toNat 0 ≠ -1)
    (hwrong : base64ReverseTable.getD c.toNat 0 ≠ -2) : (base64ReverseTable.getD c.toNat 0).toNat < 64 := by
  have hall : ∀ n < 256, base64ReverseTable.getD n 0 ≠ -1 → base64ReverseTable.getD n 0 ≠ -2 →
      (base64ReverseTable.getD n 0).toNat < 64 := by decide +kernel
  exact hall c.toNat c.toNat_lt hskip hwrong

/-- The cell that holds the bits of a byte that is not complete. -/
def pending (n bits : ℕ) : List UInt8 := if bits = 0 then [] else [UInt8.ofNat (n % 2 ^ bits * 2 ^ (8 - bits))]

/-- What the decoder has done: whole bytes, and the bits of the next one ahead of `j`. -/
structure Decodes64 (ds : List ℕ) (out : List UInt8) (p : Writer) : Prop where
  top : Top 8 (6 * ds.length) (value (2 ^ 6) ds) (digits out) (6 * ds.length % 8)
  buff_eq : p.buff = fun j => (out ++ pending (value (2 ^ 6) ds) (6 * ds.length % 8))[j]?
  pos_eq : p.pos = out.length

theorem Decodes64.start : Decodes64 [] [] .start := ⟨.start, rfl, rfl⟩

theorem pending_length (n bits : ℕ) : (pending n bits).length ≤ 1 := by
  rw [pending]
  split_ifs
  · exact Nat.zero_le _
  · exact Nat.le_refl _

theorem Decodes64.string (h : Decodes64 ds out p) : (p.done size).string = some out :=
  string_done (Writer.done_buff (pending_length ..) h.buff_eq h.pos_eq) h.pos_eq

theorem Decodes64.length_le (h : Decodes64 ds out p) : 8 * out.length ≤ 6 * ds.length := by
  have := h.top.length
  rw [digits_length] at this
  omega

/-- The rest of a byte comes below the bits that are there. -/
theorem or_bits {k x y : ℕ} (hk : k ≤ 8) (hx : x < 2 ^ (8 - k)) (hy : y < 2 ^ k) :
    (UInt8.ofNat (x * 2 ^ k) ||| UInt8.ofNat y).toNat = x * 2 ^ k + y := by
  have hfits : x * 2 ^ k + y < 2 ^ 8 := by
    have hsplit : 2 ^ 8 = 2 ^ (8 - k) * 2 ^ k := by rw [← Nat.pow_add, Nat.sub_add_cancel hk]
    have := Nat.mul_le_mul_right (2 ^ k) (Nat.succ_le_of_lt hx)
    rw [Nat.succ_mul] at this
    omega
  rw [UInt8.toNat_or, UInt8.toNat_ofNat', UInt8.toNat_ofNat', Nat.mod_eq_of_lt (by omega), Nat.mod_eq_of_lt (by omega),
    ← Nat.shiftLeft_eq, Nat.shiftLeft_add_eq_or_of_lt hy]

/-- The byte at `j` completed, with `p.pos` on it still. -/
theorem Decodes64.complete (h : Decodes64 ds out p) (hbits : 2 ≤ 6 * ds.length % 8) (hle : 6 * ds.length % 8 ≤ 6)
    (hd : d < 2 ^ 6) :
    ∃ c p', p.or (UInt8.ofNat (d >>> (6 * ds.length % 8 - 2))) = some p' ∧ p'.pos = out.length ∧
      (p'.buff = fun j => (out ++ [c])[j]?) ∧
      Top 8 (6 * (ds ++ [d]).length) (value (2 ^ 6) (ds ++ [d])) (digits (out ++ [c])) (6 * ds.length % 8 - 2) := by
  obtain ⟨htop, hbuff, hpos⟩ := h
  generalize 6 * ds.length % 8 = bits at *
  have hcell : p.buff p.pos = some (UInt8.ofNat (value (2 ^ 6) ds % 2 ^ bits * 2 ^ (8 - bits))) := by
    rw [hbuff, hpos, pending, if_neg (by omega)]
    exact List.getElem?_concat_length
  have hmore := (htop.more (w := 6) hd).emit (by omega)
  rw [← value_concat] at hmore
  have hor : ∀ c, p.or c = some (p.set (UInt8.ofNat (value (2 ^ 6) ds % 2 ^ bits * 2 ^ (8 - bits)) ||| c)) := by
    intro c
    rw [Writer.or, hcell]
    rfl
  refine ⟨UInt8.ofNat (value (2 ^ 6) ds % 2 ^ bits * 2 ^ (8 - bits)) ||| UInt8.ofNat (d >>> (bits - 2)), _, hor _, hpos,
    ?_, ?_⟩
  · rw [Writer.set, hbuff, hpos]
    exact write_last (pending_length ..)
  · have hbyte := or_bits (k := 8 - bits) (x := value (2 ^ 6) ds % 2 ^ bits) (y := d >>> (bits - 2)) (by omega)
      (by rw [Nat.sub_sub_self (by omega)]; exact Nat.mod_lt _ (Nat.two_pow_pos _))
      (by
        rw [Nat.shiftRight_eq_div_pow, Nat.div_lt_iff_lt_mul (Nat.two_pow_pos _), ← Nat.pow_add,
          show 8 - bits + (bits - 2) = 6 by omega]
        exact hd)
    have hgroup : value (2 ^ 6) ds % 2 ^ bits * 2 ^ (8 - bits) + d >>> (bits - 2) =
        value (2 ^ 6) (ds ++ [d]) / 2 ^ (bits + 6 - 8) % 2 ^ 8 := by
      rw [value_concat, Nat.shiftRight_eq_div_pow]
      interval_cases bits <;> omega
    rw [digits_append, digits, digits, List.map_singleton, hbyte, hgroup, List.length_append, List.length_singleton,
      Nat.mul_add]
    exact hmore

/-- The bits that are left are the pending ones. -/
theorem pending_eq {k : ℕ} (hk : k ≤ 6) (hpos : k ≠ 0) :
    pending (value (2 ^ 6) (ds ++ [d])) k = [UInt8.ofNat ((d % 2 ^ k) * 2 ^ (8 - k))] := by
  have hdvd : 2 ^ 6 = 2 ^ (6 - k) * 2 ^ k := by rw [← Nat.pow_add, Nat.sub_add_cancel hk]
  rw [pending, if_neg hpos, value_concat, hdvd, ← Nat.mul_assoc, Nat.mul_add_mod_self_right]

/-- The byte at `j` is complete, and the bits left over are written to the next cell. -/
theorem Decodes64.advance (h : Decodes64 ds out p) {k : ℕ} (hbits : 6 * ds.length % 8 = k + 2) (hk : k ≤ 4) (hd : d < 64) :
    ∃ c p', p.or (UInt8.ofNat (d >>> k)) = some p' ∧
      (k = 0 → Decodes64 (ds ++ [d]) (out ++ [c]) { p' with pos := p'.pos + 1 }) ∧
      (k ≠ 0 → Decodes64 (ds ++ [d]) (out ++ [c])
        ({ p' with pos := p'.pos + 1 }.set (UInt8.ofNat ((d % 2 ^ k) * 2 ^ (8 - k))))) := by
  obtain ⟨c, p', hor, hpos, hbuff, htop⟩ := h.complete (d := d) (by omega) (by omega) hd
  have hlen : (ds ++ [d]).length = ds.length + 1 := List.length_append
  have hbits' : 6 * (ds ++ [d]).length % 8 = k := by omega
  have hpos' : p'.pos + 1 = (out ++ [c]).length := by rw [hpos, List.length_append, List.length_singleton]
  rw [hbits, Nat.add_sub_cancel] at hor htop
  refine ⟨c, p', hor, fun hzero => ⟨by rwa [hbits'], ?_, hpos'⟩, fun hzero => ⟨by rwa [hbits'], ?_, hpos'⟩⟩
  · rw [hbits', hzero, pending, if_pos rfl, List.append_nil]
    exact hbuff
  · rw [hbits', pending_eq (by omega) hzero, Writer.set]
    simp only [hbuff, hpos']
    have hlast := @write_last (out ++ [c]) (UInt8.ofNat ((d % 2 ^ k) * 2 ^ (8 - k))) [] (Nat.zero_le _)
    rwa [List.append_nil] at hlast

/-- Each character accepted is six more bits. -/
theorem base64Step_decodes (h : Decodes64 ds out p) (hd : d < 64) :
    ∃ out' p', base64Step ds.length d p = some p' ∧ Decodes64 (ds ++ [d]) out' p' := by
  have hlen : (ds ++ [d]).length = ds.length + 1 := List.length_append
  have hmod := Nat.mod_lt ds.length (show 0 < 4 by decide)
  obtain hi | hi | hi | hi : ds.length % 4 = 0 ∨ ds.length % 4 = 1 ∨ ds.length % 4 = 2 ∨ ds.length % 4 = 3 := by omega
  · have hbits : 6 * ds.length % 8 = 0 := by omega
    have hbits' : 6 * (ds ++ [d]).length % 8 = 6 := by omega
    refine ⟨out, p.set (UInt8.ofNat (d <<< 2)), by simp only [base64Step, hi], ?_, ?_, h.pos_eq⟩
    · have hmore := h.top.more (w := 6) hd
      rw [hbits']
      rw [hbits] at hmore
      rw [value_concat, hlen, Nat.mul_add]
      exact hmore
    · rw [hbits', pending_eq (by decide) (by decide), Nat.mod_eq_of_lt (show d < 2 ^ 6 from hd), ← Nat.shiftLeft_eq, Writer.set, h.buff_eq,
        h.pos_eq]
      exact write_last (pending_length ..)
  · obtain ⟨c, p', hor, -, hnext⟩ := h.advance (k := 4) (by omega) (by decide) hd
    refine ⟨_, _, ?_, hnext (by decide)⟩
    rw [base64Step, hi]
    have hmask : d &&& 0x0f = d % 2 ^ 4 := mask_eq 4 d
    simp only [hor, Option.map_some, Nat.shiftLeft_eq, hmask]
  · obtain ⟨c, p', hor, -, hnext⟩ := h.advance (k := 2) (by omega) (by decide) hd
    refine ⟨_, _, ?_, hnext (by decide)⟩
    rw [base64Step, hi]
    have hmask : d &&& 0x03 = d % 2 ^ 2 := mask_eq 2 d
    simp only [hor, Option.map_some, Nat.shiftLeft_eq, hmask]
  · obtain ⟨c, p', hor, hnext, -⟩ := h.advance (k := 0) (by omega) (by decide) hd
    refine ⟨_, _, ?_, hnext rfl⟩
    rw [base64Step, hi]
    simp only [Nat.shiftRight_zero] at hor
    simp only [hor, Option.map_some]

/-- Characters of the table are accepted; their bits are the bytes. -/
theorem base64DecodeLoop_codes (ds' : List ℕ) (hds : ∀ d ∈ ds', d < 2 ^ 6) (h : Decodes64 ds out p) :
    ∃ out' bits', Top 8 (6 * (ds ++ ds').length) (value (2 ^ 6) (ds ++ ds')) (digits out') bits' ∧ bits' < 8 ∧
      ((base64DecodeLoop size (ds'.map fun d => base64Code (UInt8.ofNat d)) ds.length p).bind Returned.string) =
        some out' := by
  induction ds' generalizing ds out p with
  | nil =>
    rw [List.append_nil]
    exact ⟨out, _, h.top, Nat.mod_lt _ (by decide), h.string⟩
  | cons d ds' ih =>
    have hd : d < 64 := hds d List.mem_cons_self
    have hrest : ∀ d ∈ ds', d < 2 ^ 6 := fun d hd => hds d (List.mem_cons_of_mem _ hd)
    obtain ⟨out', p', hstep, h'⟩ := base64Step_decodes h hd
    have hlen : (ds ++ [d]).length = ds.length + 1 := List.length_append
    have hloop := ih hrest h'
    rw [List.append_cons]
    simpa only [List.map_cons, base64DecodeLoop, base64Reverse_code d hd, Int.toNat_natCast, hstep, Option.bind_some,
      hlen, if_neg (show ¬(d : ℤ) = -1 by omega), if_neg (show ¬(d : ℤ) = -2 by omega)] using hloop

/-- No cell is read before it was written, and none outside of the buffer is written. -/
theorem base64DecodeLoop_inside (str : List UInt8) (h : Decodes64 ds out p)
    (hsize : 6 * (ds.length + str.length) / 8 < size) :
    ∃ r, base64DecodeLoop size str ds.length p = some r ∧ r.Inside := by
  have hle := h.length_le
  induction str generalizing ds out p with
  | nil =>
    rw [List.length_nil] at hsize
    refine ⟨_, rfl, inside_of_length (Writer.done_buff (pending_length ..) h.buff_eq h.pos_eq) ?_⟩
    rw [List.length_append, List.length_singleton]
    show out.length + 1 ≤ size
    omega
  | cons c str ih =>
    rw [List.length_cons] at hsize
    rw [base64DecodeLoop]
    split_ifs with hskip hwrong
    · exact ih h (by omega) hle
    · refine ⟨_, rfl, inside_of_length h.buff_eq ?_⟩
      have hpending := pending_length (value (2 ^ 6) ds) (6 * ds.length % 8)
      rw [List.length_append]
      show _ ≤ size
      omega
    · obtain ⟨out', p', hstep, h'⟩ := base64Step_decodes h (base64Reverse_range c hskip hwrong)
      have hlen : ∀ d, (ds ++ [d]).length = ds.length + 1 := fun d => List.length_append
      rw [hstep, Option.bind_some, ← hlen]
      exact ih h' (by rw [hlen]; omega) h'.length_le

theorem base64_inverts (str : List UInt8) :
    ∃ text, (base64Encode str).string = some text ∧ (base64Decode text).bind Returned.string = some str := by
  obtain ⟨ds, pad, hpad, hto, hstring, -⟩ := base64Encode_spec str
  obtain ⟨out, bits, hback, hbits, hout⟩ := base64DecodeLoop_codes ds hto.small Decodes64.start
  refine ⟨_, hstring, ?_⟩
  rw [← digits_length] at hto
  have hsame := hto.inverse (by decide) digits_lt (hpad.trans (by decide)) hback hbits
  exact hout.trans (congrArg some (digits_inj hsame))

theorem base64Decode_inside (str : List UInt8) (hlen : str.length < 2 ^ 63) :
    ∃ r, base64Decode str = some r ∧ r.Inside := by
  refine base64DecodeLoop_inside str Decodes64.start ?_
  rw [size_of_length hlen (by decide), List.length_nil]
  omega

/-- **The codecs invert.** Every string comes back from its text in base 32 and in base 64,
and the four functions, the decoders on any text, stay inside of what they allocate. No
object has `2 ^ 63` bytes. -/
theorem codecs_invert (str : List UInt8) :
    (∃ text, (base32Encode str).string = some text ∧ (base32Decode text).string = some str) ∧
    (∃ text, (base64Encode str).string = some text ∧ (base64Decode text).bind Returned.string = some str) ∧
    (str.length < 2 ^ 63 → (base32Encode str).Inside ∧ (base32Decode str).Inside ∧ (base64Encode str).Inside ∧
      ∃ r, base64Decode str = some r ∧ r.Inside) := by
  obtain ⟨_, _, -, -, -, hinside⟩ := base32Encode_spec str
  obtain ⟨_, _, -, -, -, hinside'⟩ := base64Encode_spec str
  exact ⟨base32_inverts str, base64_inverts str, fun hlen =>
    ⟨hinside hlen, base32Decode_inside str hlen, hinside' hlen, base64Decode_inside str hlen⟩⟩

/-- Four bytes, with a tail of its own in both codes. -/
theorem codecs_invert_foob : (base32Encode [102, 111, 111, 98]).Inside ∧ (base32Decode [102, 111, 111, 98]).Inside :=
  have h := (codecs_invert [102, 111, 111, 98]).2.2 (by decide)
  ⟨h.1, h.2.1⟩

end Pclsync.Text
