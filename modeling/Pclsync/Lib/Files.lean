import Mathlib.Data.List.GetD
import Mathlib.Tactic.Ring

/-! Files as lists of bytes, and numbers in them.

`get` reads a file as if it went on with zeros. Two files are the same when they have
the same length and the same bytes, and each operation is known by what it leaves at
every position. -/
namespace Pclsync.Lib.Files

abbrev Bytes := List UInt8

/-! ### Numbers -/

/-- The little-endian number of some bytes. -/
def toNat : Bytes → ℕ
  | [] => 0
  | b :: bytes => b.toNat + 256 * toNat bytes

/-- A number in `n` bytes, the lowest first. -/
def ofNat : ℕ → ℕ → Bytes
  | 0, _ => []
  | n + 1, k => UInt8.ofNat k :: ofNat n (k / 256)

@[simp] theorem length_ofNat (n k : ℕ) : (ofNat n k).length = n := by
  induction n generalizing k with
  | zero => rfl
  | succ n ih => rw [ofNat, List.length_cons, ih]

theorem toNat_ofNat {n k : ℕ} (h : k < 256 ^ n) : toNat (ofNat n k) = k := by
  induction n generalizing k with
  | zero =>
    rw [Nat.pow_zero, Nat.lt_one_iff] at h
    rw [h]
    rfl
  | succ n ih =>
    have hdiv : k / 256 < 256 ^ n := Nat.div_lt_of_lt_mul (by rwa [Nat.pow_succ, Nat.mul_comm] at h)
    rw [ofNat, toNat, ih hdiv, UInt8.toNat_ofNat']
    omega

theorem toNat_lt {f : Bytes} : toNat f < 256 ^ f.length := by
  induction f with
  | nil => exact Nat.one_pos
  | cons b f ih =>
    have hb : b.toNat < 256 := b.toNat_lt
    rw [toNat, List.length_cons, Nat.pow_succ]
    omega

theorem ofNat_toNat (f : Bytes) : ofNat f.length (toNat f) = f := by
  induction f with
  | nil => rfl
  | cons b f ih =>
    have hb : b.toNat < 256 := b.toNat_lt
    have hdiv : (b.toNat + 256 * toNat f) / 256 = toNat f := by omega
    have hmod : UInt8.ofNat (b.toNat + 256 * toNat f) = b := by
      rw [← UInt8.toNat_inj, UInt8.toNat_ofNat']
      omega
    rw [List.length_cons, toNat, ofNat, hdiv, ih, hmod]

/-- The number of combined bytes is the combined number. -/
theorem toNat_zipWith_xor {f g : Bytes} (hlength : f.length = g.length) :
    toNat (List.zipWith (· ^^^ ·) f g) = toNat f ^^^ toNat g := by
  induction f generalizing g with
  | nil =>
    cases g with
    | nil => rfl
    | cons => cases hlength
  | cons b f ih =>
    cases g with
    | nil => cases hlength
    | cons c g =>
      have hb : b.toNat < 2 ^ 8 := b.toNat_lt
      have hc : c.toNat < 2 ^ 8 := c.toNat_lt
      have hbc : b.toNat ^^^ c.toNat < 2 ^ 8 := Nat.xor_lt_two_pow hb hc
      rw [List.zipWith_cons_cons, toNat, toNat, toNat, ih (Nat.succ.inj hlength), UInt8.toNat_xor]
      refine Nat.eq_of_testBit_eq fun j => ?_
      rw [Nat.testBit_xor, Nat.add_comm, Nat.add_comm b.toNat, Nat.add_comm c.toNat,
        Nat.testBit_two_pow_mul_add _ hbc, Nat.testBit_two_pow_mul_add _ hb, Nat.testBit_two_pow_mul_add _ hc]
      split_ifs
      · exact Nat.testBit_xor ..
      · exact Nat.testBit_xor ..

theorem ofNat_xor {f g : Bytes} {n : ℕ} (hf : f.length = n) (hg : g.length = n) :
    ofNat n (toNat f ^^^ toNat g) = List.zipWith (· ^^^ ·) f g := by
  have hlength : (List.zipWith (· ^^^ ·) f g).length = n := by rw [List.length_zipWith, hf, hg, Nat.min_self]
  rw [← toNat_zipWith_xor (hf.trans hg.symm), ← hlength]
  exact ofNat_toNat _

/-! ### Files -/

/-- The byte at a position, zero past the end. -/
def get (f : Bytes) (i : ℕ) : UInt8 := f.getD i 0

/-- `pread` of up to `len` bytes. -/
def pread (f : Bytes) (len off : ℕ) : Bytes := (f.drop off).take len

/-- `pwrite` of all of `data`. -/
def pwrite (f data : Bytes) (off : ℕ) : Bytes :=
  if data = [] then f
  else f.take off ++ List.replicate (off - f.length) 0 ++ data ++ f.drop (off + data.length)

/-- `ftruncate`. -/
def truncate (f : Bytes) (n : ℕ) : Bytes := f.take n ++ List.replicate (n - f.length) 0

variable {f g data : Bytes} {i n off : ℕ}

theorem get_of_le (h : f.length ≤ i) : get f i = 0 := by rw [get, List.getD_eq_default _ _ h]

theorem get_append : get (f ++ g) i = if i < f.length then get f i else get g (i - f.length) := by
  split_ifs with h
  · rw [get, get, List.getD_append _ _ _ _ h]
  · rw [get, get, List.getD_append_right _ _ _ _ (Nat.not_lt.mp h)]

theorem get_take : get (f.take n) i = if i < n then get f i else 0 := by
  rw [get, get, List.getD_eq_getElem?_getD, List.getD_eq_getElem?_getD, List.getElem?_take]
  split_ifs
  · rfl
  · rfl

theorem get_drop : get (f.drop n) i = get f (n + i) := by
  rw [get, get, List.getD_eq_getElem?_getD, List.getD_eq_getElem?_getD, List.getElem?_drop]

@[simp] theorem get_replicate : get (List.replicate n 0) i = 0 := by
  by_cases h : i < n
  · rw [get, List.getD_replicate _ h]
  · exact get_of_le (by simpa using h)

theorem get_zipWith {op : UInt8 → UInt8 → UInt8} (hop : op 0 0 = 0) (hlength : f.length = g.length) :
    get (List.zipWith op f g) i = op (get f i) (get g i) := by
  by_cases hi : i < f.length
  · have hg : i < g.length := hlength ▸ hi
    have hz : i < (List.zipWith op f g).length := by rw [List.length_zipWith, ← hlength, Nat.min_self]; exact hi
    rw [get, get, get, List.getD_eq_getElem _ _ hz, List.getD_eq_getElem _ _ hi, List.getD_eq_getElem _ _ hg,
      List.getElem_zipWith]
  · have hf := Nat.not_lt.mp hi
    have hz : (List.zipWith op f g).length ≤ i := by rwa [List.length_zipWith, ← hlength, Nat.min_self]
    rw [get_of_le hz, get_of_le hf, get_of_le (hlength ▸ hf), hop]

/-- Files of one length with the same bytes are the same. -/
theorem ext_get (hlength : f.length = g.length) (hget : ∀ i < f.length, get f i = get g i) : f = g := by
  refine List.ext_getElem hlength fun i hf hg => ?_
  have := hget i hf
  rwa [get, get, List.getD_eq_getElem _ _ hf, List.getD_eq_getElem _ _ hg] at this

@[simp] theorem length_truncate : (truncate f n).length = n := by
  rw [truncate, List.length_append, List.length_take, List.length_replicate]
  omega

theorem get_truncate : get (truncate f n) i = if i < n then get f i else 0 := by
  rw [truncate, get_append, get_take, get_replicate, List.length_take]
  split_ifs with h₁ h₂ h₂
  · rfl
  · omega
  · exact (get_of_le (by omega)).symm
  · rfl

theorem length_pwrite : (pwrite f data off).length = if data = [] then f.length else max f.length (off + data.length) := by
  rw [pwrite]
  split_ifs
  · rfl
  · simp only [List.length_append, List.length_take, List.length_replicate, List.length_drop]
    omega

theorem get_pwrite :
    get (pwrite f data off) i = if off ≤ i ∧ i < off + data.length then get data (i - off) else get f i := by
  rw [pwrite]
  by_cases hdata : data = []
  · rw [if_pos hdata, if_neg (by simp only [hdata, List.length_nil]; omega)]
  · rw [if_neg hdata]
    have hhead : (f.take off ++ List.replicate (off - f.length) 0).length = off := by
      rw [List.length_append, List.length_take, List.length_replicate]
      omega
    rw [get_append, get_append, List.length_append, hhead]
    by_cases hin : off ≤ i ∧ i < off + data.length
    · rw [if_pos hin.2, if_neg (Nat.not_lt.mpr hin.1), if_pos hin]
    · rw [if_neg hin]
      by_cases hbefore : i < off
      · rw [if_pos (by omega), if_pos hbefore]
        exact get_truncate.trans (if_pos hbefore)
      · rw [if_neg (by omega), get_drop]
        congr 1
        omega

theorem length_pread {len : ℕ} : (pread f len off).length = min len (f.length - off) := by
  rw [pread, List.length_take, List.length_drop]

theorem get_pread {len : ℕ} : get (pread f len off) i = if i < len then get f (off + i) else 0 := by
  rw [pread, get_take, get_drop]

/-- A read goes on where another one ends. -/
theorem pread_add (a b : ℕ) : pread f (a + b) off = pread f a off ++ pread f b (off + a) := by
  rw [pread, pread, pread, List.take_add, List.drop_drop]

theorem pread_take {len : ℕ} (h : off + len ≤ n) : pread (f.take n) len off = pread f len off := by
  rw [pread, pread, List.drop_take, List.take_take, Nat.min_eq_left (by omega)]

theorem pread_append_right {len : ℕ} (h : f.length = n) : pread (f ++ g) len (n + off) = pread g len off := by
  rw [pread, pread, List.drop_append, List.drop_of_length_le (by omega), List.nil_append, h, Nat.add_sub_cancel_left]

theorem pread_append_exact {len : ℕ} (hf : f.length = n) (hg : g.length = len) : pread (f ++ g) len n = g := by
  rw [pread, List.drop_left' hf, List.take_of_length_le (Nat.le_of_eq hg)]

theorem pread_append_left {len : ℕ} (h : off + len ≤ f.length) : pread (f ++ g) len off = pread f len off := by
  rw [← pread_take (f := f ++ g) h, List.take_left]

theorem pread_zero {len : ℕ} : pread f len 0 = f.take len := rfl

/-- What was written is read back. -/
theorem pread_pwrite (hdata : data ≠ []) : pread (pwrite f data off) data.length off = data := by
  have hlen : (pread (pwrite f data off) data.length off).length = data.length := by
    rw [length_pread, length_pwrite, if_neg hdata]
    omega
  refine ext_get hlen fun i hi => ?_
  rw [hlen] at hi
  rw [get_pread, if_pos hi, get_pwrite, if_pos (by omega), Nat.add_sub_cancel_left]

/-- `n` bytes from a position on, with zeros past the end. -/
def window (f : Bytes) (n off : ℕ) : Bytes := (List.range n).map fun i => get f (off + i)

@[simp] theorem length_window : (window f n off).length = n := by
  rw [window, List.length_map, List.length_range]

theorem get_window : get (window f n off) i = if i < n then get f (off + i) else 0 := by
  split_ifs with hi
  · have hlt : i < (window f n off).length := by rwa [length_window]
    rw [get, List.getD_eq_getElem _ _ hlt]
    simp [window]
  · exact get_of_le (by rw [length_window]; exact Nat.not_lt.mp hi)

theorem window_succ : window f (n + 1) off = get f off :: window f n (off + 1) := by
  rw [window, List.range_succ_eq_map, List.map_cons, List.map_map, Nat.add_zero, window]
  refine congrArg _ (List.map_congr_left fun i _ => ?_)
  rw [Function.comp_apply, Nat.succ_eq_add_one, Nat.add_right_comm, Nat.add_assoc]

theorem window_concat : window f (n + 1) off = window f n off ++ [get f (off + n)] := by
  rw [window, List.range_succ, List.map_append, List.map_singleton, window]

/-- The part of a window that is in the file is what a read gives. -/
theorem take_window {m : ℕ} (hm : m ≤ n) (h : off + m ≤ f.length) : (window f n off).take m = pread f m off := by
  refine ext_get ?_ fun i hi => ?_
  · rw [List.length_take, length_window, length_pread]
    omega
  · rw [List.length_take, length_window] at hi
    rw [get_take, get_window, get_pread, if_pos (by omega), if_pos (by omega), if_pos (by omega)]

end Pclsync.Lib.Files
