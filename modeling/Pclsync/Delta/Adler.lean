import Pclsync.Lib.Files
import Pclsync.Lib.Machine
import Pclsync.Lib.Checksums

/-! The `adler32` of `pnetlibs.c`, and its roll over a file. -/
namespace Pclsync.Delta
open Lib.Files Lib.Machine Lib.RollingSum

def adler32Base : ℕ := 65521
def adler32Nmax : ℕ := 5552
def adler32Initial : ℕ := 1

/-- `a - b` on `uint32_t`. -/
def sub32 (a b : ℕ) : ℕ := u32 (a + 2 ^ 32 - b)

/-- `ADLER32_1`: `adler` and `sum` after a byte. -/
def addByte (p : ℕ × ℕ) (b : UInt8) : ℕ × ℕ :=
  let adler := u32 (p.1 + b.toNat)
  (adler, u32 (p.2 + adler))

def reduceSums (p : ℕ × ℕ) : ℕ × ℕ := (p.1 % adler32Base, p.2 % adler32Base)

/-- The loops of `adler32`: `rounds` times `ADLER32_NMAX` bytes, and the rest. -/
def adlerLoop : (rounds : ℕ) → ℕ × ℕ → Bytes → ℕ × ℕ
  | 0, p, buff => reduceSums (buff.foldl addByte p)
  | rounds + 1, p, buff =>
    adlerLoop rounds (reduceSums ((buff.take adler32Nmax).foldl addByte p)) (buff.drop adler32Nmax)

/-- `adler|(sum<<16)`. -/
def packSums (p : ℕ × ℕ) : ℕ := p.1 ||| p.2 <<< 16

def adler32 (adler : ℕ) (buff : Bytes) : ℕ :=
  packSums (adlerLoop (buff.length / adler32Nmax) (adler &&& 0xffff, adler >>> 16) buff)

def adler32Roll (adler : ℕ) (byteout bytein : UInt8) (len : ℕ) : ℕ :=
  let sum := adler >>> 16
  let adler := adler &&& 0xffff
  let adler := sub32 (u32 (adler + adler32Base + bytein.toNat)) byteout.toNat
  let sum := u32 (sub32 (sub32 (u32 (adler32Base * adler32Base + sum)) (u32 (len * byteout.toNat))) adler32Initial + adler)
    % adler32Base
  packSums (adler % adler32Base, sum)

/-- The bytes as numbers. -/
def values (buff : Bytes) : List ℕ := buff.map UInt8.toNat

/-- The checksum by its definition. -/
def adlerSums (buff : Bytes) : ℕ × ℕ := reduceSums (sums 1 0 (values buff))

variable {buff buff' : Bytes} {p q : ℕ × ℕ}

theorem unpack_packSums (h : p.1 < 2 ^ 16) : packSums p &&& 0xffff = p.1 ∧ packSums p >>> 16 = p.2 := by
  have hpack : packSums p = p.2 * 2 ^ 16 + p.1 := by
    rw [packSums, Nat.or_comm, ← Nat.shiftLeft_add_eq_or_of_lt h, Nat.shiftLeft_eq]
  rw [show 0xffff = 2 ^ 16 - 1 from rfl, Nat.and_two_pow_sub_one_eq_mod, Nat.shiftRight_eq_div_pow, hpack]
  omega

theorem values_le : ∀ b ∈ values buff, b ≤ 255 := by
  intro b hb
  obtain ⟨c, -, rfl⟩ := List.mem_map.mp hb
  exact Nat.le_of_lt_succ c.toNat_lt

theorem values_append : values (buff ++ buff') = values buff ++ values buff' := List.map_append

theorem foldl_addByte (h₁ : (sums p.1 p.2 (values buff)).1 < 2 ^ 32) (h₂ : (sums p.1 p.2 (values buff)).2 < 2 ^ 32) :
    buff.foldl addByte p = sums p.1 p.2 (values buff) := by
  induction buff generalizing p with
  | nil => rfl
  | cons b buff ih =>
    change (sums (p.1 + b.toNat) (p.2 + (p.1 + b.toNat)) (values buff)).1 < _ at h₁
    change (sums (p.1 + b.toNat) (p.2 + (p.1 + b.toNat)) (values buff)).2 < _ at h₂
    have hstep : addByte p b = (p.1 + b.toNat, p.2 + (p.1 + b.toNat)) := by
      unfold addByte
      dsimp only
      rw [u32_of_lt (Nat.lt_of_le_of_lt le_sums.1 h₁), u32_of_lt (Nat.lt_of_le_of_lt le_sums.2 h₂)]
    rw [List.foldl_cons, hstep]
    exact ih h₁ h₂

/-- Up to `ADLER32_NMAX` bytes nothing overflows. -/
theorem foldl_addByte_nmax (hlen : buff.length ≤ adler32Nmax) (h₁ : p.1 < 2 ^ 16) (h₂ : p.2 < 2 ^ 16) :
    buff.foldl addByte p = sums p.1 p.2 (values buff) := by
  obtain ⟨hle, hle'⟩ := sums_le (a := p.1) (s := p.2) (@values_le buff)
  have hlength : (values buff).length ≤ 5552 := by rwa [values, List.length_map]
  have hfactor : 2 * p.1 + ((values buff).length + 1) * 255 ≤ 1547085 := by omega
  have hmul := Nat.mul_le_mul hlength hfactor
  exact foldl_addByte (by omega) (by omega)

theorem reduceSums_lt (p : ℕ × ℕ) : (reduceSums p).1 < 2 ^ 16 ∧ (reduceSums p).2 < 2 ^ 16 := by
  unfold reduceSums adler32Base
  omega

/-- Reducing before or after is the same. -/
theorem reduceSums_sums (xs : List ℕ) :
    reduceSums (sums (reduceSums p).1 (reduceSums p).2 xs) = reduceSums (sums p.1 p.2 xs) := by
  obtain ⟨h₁, h₂⟩ := @sums_modEq _ _ _ xs _ _ (Nat.mod_modEq p.1 adler32Base) (Nat.mod_modEq p.2 adler32Base)
  exact Prod.ext h₁ h₂

theorem adlerLoop_eq {rounds : ℕ} (hrounds : buff.length < (rounds + 1) * adler32Nmax) (h₁ : p.1 < 2 ^ 16) (h₂ : p.2 < 2 ^ 16) :
    adlerLoop rounds p buff = reduceSums (sums p.1 p.2 (values buff)) := by
  induction rounds generalizing p buff with
  | zero => rw [adlerLoop, foldl_addByte_nmax (by omega) h₁ h₂]
  | succ rounds ih =>
    have hdrop : (buff.drop adler32Nmax).length < (rounds + 1) * adler32Nmax := by
      rw [List.length_drop]
      rw [Nat.succ_mul] at hrounds
      have hpos : 0 < (rounds + 1) * adler32Nmax := by unfold adler32Nmax; omega
      omega
    have hlt := reduceSums_lt ((buff.take adler32Nmax).foldl addByte p)
    rw [adlerLoop, ih hdrop hlt.1 hlt.2, reduceSums_sums, foldl_addByte_nmax (List.length_take_le ..) h₁ h₂, ← sums_append,
      ← values_append, List.take_append_drop]

theorem adler32_eq {adler : ℕ} (h : adler >>> 16 < 2 ^ 16) :
    adler32 adler buff = packSums (reduceSums (sums (adler &&& 0xffff) (adler >>> 16) (values buff))) := by
  rw [adler32, adlerLoop_eq _ (Nat.lt_of_le_of_lt Nat.and_le_right (by decide)) h]
  have hmod := Nat.lt_mul_div_succ buff.length (show 0 < adler32Nmax by decide)
  rwa [Nat.mul_comm]

theorem adler32_initial : adler32 adler32Initial buff = packSums (adlerSums buff) := adler32_eq (by decide)

/-- A block in two pieces. -/
theorem adler32_append : adler32 (adler32 adler32Initial buff) buff' = adler32 adler32Initial (buff ++ buff') := by
  obtain ⟨hlt, hlt'⟩ := reduceSums_lt (sums 1 0 (values buff))
  obtain ⟨hunpack, hunpack'⟩ := unpack_packSums hlt
  rw [adler32_initial, adler32_initial, adlerSums, adlerSums, adler32_eq (by rwa [hunpack']), hunpack, hunpack',
    reduceSums_sums, values_append, sums_append]

theorem sub32_of_le {a b : ℕ} (hle : b ≤ a) (h : a < 2 ^ 32) : sub32 a b = a - b := by
  have heq : a + 2 ^ 32 - b = a - b + 2 ^ 32 := by omega
  rw [sub32, u32, heq, Nat.add_mod_right, Nat.mod_eq_of_lt (by omega)]

/-- Below it the product that the roll subtracts leaves the sum positive. -/
def rollLimit : ℕ := adler32Base * adler32Base - 2 * adler32Base

/-- One roll of reduced sums, with `n` times the byte that leaves below the range of the type. -/
theorem roll_sums {a s a' s' n x y : ℕ} (hx : x ≤ 255) (hy : y ≤ 255) (hn : 255 * n < rollLimit) (ha : a' + x = a + y)
    (hs : s' + n * x + 1 = s + a') :
    let adler := sub32 (u32 (a % adler32Base + adler32Base + y)) x
    adler % adler32Base = a' % adler32Base ∧
      u32 (sub32 (sub32 (u32 (adler32Base * adler32Base + s % adler32Base)) (u32 (n * x))) adler32Initial + adler) % adler32Base =
        s' % adler32Base := by
  have hbase : adler32Base = 65521 := rfl
  have hsquare : adler32Base * adler32Base = 4293001441 := rfl
  have hinitial : adler32Initial = 1 := rfl
  have hlimit : rollLimit = 4292870399 := rfl
  have hmul : n * x ≤ n * 255 := Nat.mul_le_mul_left n hx
  have hsmall := Nat.mod_lt a (show 0 < adler32Base by decide)
  have hsmall' := Nat.mod_lt s (show 0 < adler32Base by decide)
  have hadler : sub32 (u32 (a % adler32Base + adler32Base + y)) x = a % adler32Base + adler32Base + y - x := by
    rw [u32_of_lt (by omega), sub32_of_le (by omega) (by omega)]
  have hsum : sub32 (sub32 (u32 (adler32Base * adler32Base + s % adler32Base)) (u32 (n * x))) adler32Initial =
      adler32Base * adler32Base + s % adler32Base - n * x - 1 := by
    have hfirst : sub32 (adler32Base * adler32Base + s % adler32Base) (n * x) =
        adler32Base * adler32Base + s % adler32Base - n * x := sub32_of_le (by omega) (by omega)
    rw [u32_of_lt (by omega), u32_of_lt (by omega), hfirst, hinitial, sub32_of_le (by omega) (by omega)]
  have hmod : a % adler32Base + adler32Base + y - x ≡ a' [MOD adler32Base] := by
    refine Nat.ModEq.add_right_cancel' x ?_
    rw [ha, Nat.sub_add_cancel (by omega)]
    refine Nat.ModEq.add_right y ?_
    rw [Nat.ModEq, Nat.add_mod_right, Nat.mod_mod]
  dsimp only
  rw [hadler, hsum, u32_of_lt (by omega)]
  refine ⟨hmod, Nat.ModEq.add_right_cancel' (n * x + 1) ?_⟩
  have hleft : adler32Base * adler32Base + s % adler32Base - n * x - 1 + (a % adler32Base + adler32Base + y - x) + (n * x + 1) =
      s % adler32Base + adler32Base * adler32Base + (a % adler32Base + adler32Base + y - x) := by omega
  rw [hleft, ← Nat.add_assoc, hs]
  refine Nat.ModEq.add ?_ hmod
  rw [Nat.ModEq, Nat.add_mul_mod_self_left, Nat.mod_mod]

/-- The rolled checksum is the checksum of the next window. -/
theorem adler32Roll_eq {x y : UInt8} (hlen : 255 * (buff.length + 1) < rollLimit) :
    adler32Roll (adler32 adler32Initial (x :: buff)) x y (buff.length + 1) = adler32 adler32Initial (buff ++ [y]) := by
  obtain ⟨hlt, -⟩ := reduceSums_lt (sums 1 0 (values (x :: buff)))
  obtain ⟨hunpack, hunpack'⟩ := unpack_packSums hlt
  obtain ⟨hroll, hroll'⟩ := @sums_roll (values buff) x.toNat y.toNat
  have hlength : (values buff).length = buff.length := List.length_map ..
  rw [hlength] at hroll'
  obtain ⟨hadler, hsum⟩ := roll_sums (Nat.le_of_lt_succ x.toNat_lt) (Nat.le_of_lt_succ y.toNat_lt) hlen hroll hroll'
  rw [adler32_initial, adler32_initial, adlerSums, adlerSums, adler32Roll, hunpack, hunpack', values_append]
  exact congrArg packSums (Prod.ext hadler hsum)

/-! ### The checksum of any buffer -/

/-- The sums after each byte of a round are those of natural numbers, and below `2 ^ 32`. -/
def RoundFits (p : ℕ × ℕ) (buff : Bytes) : Prop :=
  ∀ k, (buff.take k).foldl addByte p = sums p.1 p.2 (values (buff.take k)) ∧
    (sums p.1 p.2 (values (buff.take k))).1 < 2 ^ 32 ∧ (sums p.1 p.2 (values (buff.take k))).2 < 2 ^ 32

/-- The same of all rounds of `adler32`. -/
def LoopFits : (rounds : ℕ) → ℕ × ℕ → Bytes → Prop
  | 0, p, buff => RoundFits p buff
  | rounds + 1, p, buff => RoundFits p (buff.take adler32Nmax) ∧
    LoopFits rounds (reduceSums ((buff.take adler32Nmax).foldl addByte p)) (buff.drop adler32Nmax)

theorem roundFits (hlen : buff.length ≤ adler32Nmax) (h₁ : p.1 < 2 ^ 16) (h₂ : p.2 < 2 ^ 16) : RoundFits p buff := by
  intro k
  have hshort : (buff.take k).length ≤ adler32Nmax := by
    rw [List.length_take]
    omega
  obtain ⟨hle, hle'⟩ := sums_le (a := p.1) (s := p.2) (@values_le (buff.take k))
  have hlength : (values (buff.take k)).length ≤ 5552 := by rwa [values, List.length_map]
  have hfactor : 2 * p.1 + ((values (buff.take k)).length + 1) * 255 ≤ 1547085 := by omega
  have hmul := Nat.mul_le_mul hlength hfactor
  exact ⟨foldl_addByte_nmax hshort h₁ h₂, by omega, by omega⟩

theorem loopFits {rounds : ℕ} (hrounds : buff.length < (rounds + 1) * adler32Nmax) (h₁ : p.1 < 2 ^ 16) (h₂ : p.2 < 2 ^ 16) :
    LoopFits rounds p buff := by
  induction rounds generalizing p buff with
  | zero => exact roundFits (by omega) h₁ h₂
  | succ rounds ih =>
    have hlt := reduceSums_lt ((buff.take adler32Nmax).foldl addByte p)
    refine ⟨roundFits (List.length_take_le ..) h₁ h₂, ih ?_ hlt.1 hlt.2⟩
    rw [List.length_drop]
    rw [Nat.succ_mul] at hrounds
    have hpos : 0 < (rounds + 1) * adler32Nmax := by unfold adler32Nmax; omega
    omega

/-- A roll of a window without bytes. -/
theorem adler32Roll_zero (x : UInt8) : adler32Roll (adler32 adler32Initial []) x x 0 = adler32 adler32Initial [] := by
  have hx := x.toNat_lt
  have hempty : adler32 adler32Initial [] = 1 := by decide
  have hadler : sub32 (u32 (1 + adler32Base + x.toNat)) x.toNat = 1 + adler32Base := by
    have hbase : adler32Base = 65521 := rfl
    rw [u32_of_lt (by omega), sub32_of_le (by omega) (by omega)]
    omega
  rw [hempty, adler32Roll]
  change packSums (sub32 (u32 (1 + adler32Base + x.toNat)) x.toNat % adler32Base,
    u32 (sub32 (sub32 (u32 (adler32Base * adler32Base + 0)) (u32 (0 * x.toNat))) adler32Initial +
      sub32 (u32 (1 + adler32Base + x.toNat)) x.toNat) % adler32Base) = 1
  rw [hadler, Nat.zero_mul]
  decide

/-- The checksum of a buffer of any length is that of its definition, no sum on the way to it overflows, buffers may be cut, and the roll
leads from a window to the next one. -/
theorem adler32_exact :
    (∀ buff, adler32 adler32Initial buff = packSums (adlerSums buff) ∧
      LoopFits (buff.length / adler32Nmax) (adler32Initial &&& 0xffff, adler32Initial >>> 16) buff) ∧
    (∀ buff buff', adler32 (adler32 adler32Initial buff) buff' = adler32 adler32Initial (buff ++ buff') ∧
      LoopFits (buff'.length / adler32Nmax) (adler32 adler32Initial buff &&& 0xffff, adler32 adler32Initial buff >>> 16) buff') ∧
    ∀ (d : Bytes) (i len : ℕ) (x y : UInt8), 255 * len < rollLimit → d[i]? = some x → d[i + len]? = some y →
      adler32Roll (adler32 adler32Initial ((d.drop i).take len)) x y len = adler32 adler32Initial ((d.drop (i + 1)).take len) := by
  have hloop : ∀ buff : Bytes, buff.length < (buff.length / adler32Nmax + 1) * adler32Nmax := fun buff => by
    have hmod := Nat.lt_mul_div_succ buff.length (show 0 < adler32Nmax by decide)
    rwa [Nat.mul_comm]
  refine ⟨fun buff => ⟨adler32_initial, loopFits (hloop buff) (by decide) (by decide)⟩, fun buff buff' => ⟨adler32_append, ?_⟩,
    fun d i len x y hlen hx hy => ?_⟩
  · obtain ⟨hlt, hlt'⟩ := reduceSums_lt (sums 1 0 (values buff))
    obtain ⟨hunpack, hunpack'⟩ := unpack_packSums hlt
    rw [adler32_initial, adlerSums, hunpack, hunpack']
    exact loopFits (hloop buff') hlt hlt'
  · cases len with
    | zero =>
      obtain rfl : x = y := Option.some.inj (hx.symm.trans hy)
      rw [List.take_zero, List.take_zero]
      exact adler32Roll_zero x
    | succ n =>
      obtain ⟨hi, hxi⟩ := List.getElem?_eq_some_iff.mp hx
      have hfirst : (d.drop i).take (n + 1) = x :: (d.drop (i + 1)).take n := by
        rw [List.drop_eq_getElem_cons hi, hxi, List.take_succ_cons]
      have hlast : (d.drop (i + 1)).take (n + 1) = (d.drop (i + 1)).take n ++ [y] := by
        rw [List.take_add_one, List.getElem?_drop, show i + 1 + n = i + (n + 1) by omega, hy, Option.toList_some]
      have hlength : ((d.drop (i + 1)).take n).length = n := by
        obtain ⟨hlt, -⟩ := List.getElem?_eq_some_iff.mp hy
        rw [List.length_take, List.length_drop]
        omega
      have hroll := @adler32Roll_eq ((d.drop (i + 1)).take n) x y (by rwa [hlength])
      rw [hlength] at hroll
      rw [hfirst, hlast, hroll]

theorem adler32_exact_four : 255 * 2 < rollLimit ∧
    adler32Roll (adler32 adler32Initial ((([1, 2, 3, 4] : Bytes).drop 1).take 2)) 2 4 2 = adler32 adler32Initial ((([1, 2, 3, 4] : Bytes).drop 2).take 2) :=
  ⟨by decide, adler32_exact.2.2 [1, 2, 3, 4] 1 2 2 4 (by decide) rfl rfl⟩

end Pclsync.Delta
