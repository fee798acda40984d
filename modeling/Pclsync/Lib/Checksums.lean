import Mathlib.Data.List.Basic
import Mathlib.Data.Nat.ModEq
import Mathlib.Tactic.Linarith
import Mathlib.Tactic.Ring
import Mathlib.Data.List.Induction
import Mathlib.Data.Nat.Bitwise
import Mathlib.Logic.Function.Iterate

/-! The sum of a list and the sum of its running sums, and what moving a window over a list
by one place does to them. -/
namespace Pclsync.Lib.RollingSum

/-- The sum and the sum of running sums, from `a` and `s` on. -/
def sums (a s : ℕ) : List ℕ → ℕ × ℕ
  | [] => (a, s)
  | b :: bs => sums (a + b) (s + (a + b)) bs

variable {a s m : ℕ} {xs ys : List ℕ}

theorem sums_append : sums a s (xs ++ ys) = sums (sums a s xs).1 (sums a s xs).2 ys := by
  induction xs generalizing a s with
  | nil => rfl
  | cons b xs ih => exact ih

theorem sums_eq : sums a s xs = (a + xs.sum, s + xs.length * a + (sums 0 0 xs).2) := by
  induction xs generalizing a s with
  | nil => simp [sums]
  | cons b xs ih =>
    rw [sums, ih, sums, ih (a := 0 + b)]
    refine Prod.ext ?_ ?_
    · rw [List.sum_cons, Nat.add_assoc]
    · simp only [List.length_cons]
      ring

theorem le_sums : a ≤ (sums a s xs).1 ∧ s ≤ (sums a s xs).2 := by
  rw [sums_eq]
  exact ⟨Nat.le_add_right .., (Nat.le_add_right ..).trans (Nat.le_add_right ..)⟩

/-- Bounds that depend on the length only. -/
theorem sums_le {M : ℕ} (hxs : ∀ b ∈ xs, b ≤ M) :
    (sums a s xs).1 ≤ a + xs.length * M ∧ 2 * (sums a s xs).2 ≤ 2 * s + xs.length * (2 * a + (xs.length + 1) * M) := by
  induction xs generalizing a s with
  | nil => simp [sums]
  | cons b xs ih =>
    obtain ⟨hb, hrest⟩ := List.forall_mem_cons.mp hxs
    obtain ⟨h₁, h₂⟩ := ih (a := a + b) (s := s + (a + b)) hrest
    have hmul : (xs.length + 1) * b ≤ (xs.length + 1) * M := Nat.mul_le_mul_left _ hb
    rw [sums, List.length_cons]
    constructor
    · linarith
    · linarith

theorem sums_modEq {a' s' : ℕ} (ha : a ≡ a' [MOD m]) (hs : s ≡ s' [MOD m]) :
    (sums a s xs).1 ≡ (sums a' s' xs).1 [MOD m] ∧ (sums a s xs).2 ≡ (sums a' s' xs).2 [MOD m] := by
  induction xs generalizing a s a' s' with
  | nil => exact ⟨ha, hs⟩
  | cons b xs ih => exact ih (ha.add_right b) (hs.add (ha.add_right b))

/-- The window moves on: `x` leaves it and `y` comes in. -/
theorem sums_roll (x y : ℕ) :
    (sums 1 0 (xs ++ [y])).1 + x = (sums 1 0 (x :: xs)).1 + y ∧
      (sums 1 0 (xs ++ [y])).2 + (xs.length + 1) * x + 1 = (sums 1 0 (x :: xs)).2 + (sums 1 0 (xs ++ [y])).1 := by
  rw [sums_append, sums, sums, sums_eq (a := 1), sums, sums_eq (a := 1 + x)]
  dsimp only
  constructor
  · ring
  · ring

end Pclsync.Lib.RollingSum

/-! Linear feedback shift registers: a register that shifts down one bit at a time, with
the polynomial `poly` added when the bit that falls out is set. The register is linear, so
that it runs through whole tables at once. -/
namespace Pclsync.Lib.ShiftRegister

variable {poly a b c n m : ℕ} {bs : List ℕ}

/-- One bit. -/
def bit (poly c : ℕ) : ℕ := if c % 2 = 1 then c / 2 ^^^ poly else c / 2

def bits (poly n : ℕ) (c : ℕ) : ℕ := (bit poly)^[n] c

theorem bit_xor (a b : ℕ) : bit poly (a ^^^ b) = bit poly a ^^^ bit poly b := by
  have hmod : (a ^^^ b) % 2 = (a + b) % 2 := Nat.xor_mod_two_eq
  have hsum : (a + b) % 2 = (a % 2 + b % 2) % 2 := Nat.add_mod a b 2
  simp only [bit, hmod, hsum, Nat.xor_div_two]
  rcases Nat.mod_two_eq_zero_or_one a with ha | ha <;> rcases Nat.mod_two_eq_zero_or_one b with hb | hb <;>
    simp [ha, hb, Nat.xor_comm, Nat.xor_left_comm]

theorem bits_zero_left : bits poly 0 c = c := rfl

theorem bits_succ : bits poly (n + 1) c = bits poly n (bit poly c) := Function.iterate_succ_apply ..

theorem bits_add : bits poly (m + n) c = bits poly m (bits poly n c) := Function.iterate_add_apply ..

theorem bits_xor (n a b : ℕ) : bits poly n (a ^^^ b) = bits poly n a ^^^ bits poly n b := by
  induction n generalizing a b with
  | zero => rfl
  | succ n ih => rw [bits_succ, bits_succ, bits_succ, bit_xor, ih]

theorem bits_zero (n : ℕ) : bits poly n 0 = 0 := by
  have := @bits_xor poly n 0 0
  rw [Nat.xor_self] at this
  rw [this, Nat.xor_self]

/-- Zeros at the low end fall out. -/
theorem bits_mul (n c : ℕ) : bits poly n (c * 2 ^ n) = c := by
  induction n generalizing c with
  | zero => rw [Nat.pow_zero, Nat.mul_one, bits_zero_left]
  | succ n ih =>
    have hbit : bit poly (c * 2 ^ (n + 1)) = c * 2 ^ n := by
      rw [bit, Nat.pow_succ, ← Nat.mul_assoc, Nat.mul_mod_left, if_neg (by decide), Nat.mul_div_cancel _ (by decide)]
    rw [bits_succ, hbit, ih]

theorem bit_lt {w : ℕ} (hpoly : poly < 2 ^ w) (hc : c < 2 ^ w) : bit poly c < 2 ^ w := by
  have hhalf : c / 2 < 2 ^ w := (Nat.div_le_self ..).trans_lt hc
  rw [bit]
  split_ifs
  · exact Nat.xor_lt_two_pow hhalf hpoly
  · exact hhalf

theorem bits_lt {w : ℕ} (hpoly : poly < 2 ^ w) (hc : c < 2 ^ w) (n : ℕ) : bits poly n c < 2 ^ w := by
  induction n generalizing c with
  | zero => exact hc
  | succ n ih =>
    rw [bits_succ]
    exact ih (bit_lt hpoly hc)

/-- The low bits of a register and the rest of it. -/
theorem split_xor (k c : ℕ) : c % 2 ^ k ^^^ c / 2 ^ k * 2 ^ k = c := by
  refine Nat.eq_of_testBit_eq fun i => ?_
  rw [Nat.testBit_xor, Nat.testBit_mod_two_pow, Nat.testBit_mul_two_pow, Nat.testBit_div_two_pow]
  by_cases hi : i < k
  · simp [hi, Nat.not_le.mpr hi]
  · simp [hi, Nat.not_lt.mp hi, Nat.sub_add_cancel]

/-- As many bits as the low part has: what it leaves, and the rest shifted down. -/
theorem bits_split (k c : ℕ) : bits poly k c = bits poly k (c % 2 ^ k) ^^^ c / 2 ^ k := by
  conv_lhs => rw [← split_xor k c]
  rw [bits_xor, bits_mul]

/-! ### Bytes -/

/-- One byte. -/
def feed (poly c b : ℕ) : ℕ := bits poly 8 (c ^^^ b)

/-- The number of little-endian bytes. -/
def littleEndian : List ℕ → ℕ
  | [] => 0
  | b :: bs => b + 256 * littleEndian bs

def Bytes (bs : List ℕ) : Prop := ∀ b ∈ bs, b < 256

theorem littleEndian_cons_xor (hb : b < 256) : littleEndian (b :: bs) = b ^^^ littleEndian bs * 2 ^ 8 := by
  have hsplit := split_xor 8 (b + 256 * littleEndian bs)
  rw [show (b + 256 * littleEndian bs) % 2 ^ 8 = b by omega, show (b + 256 * littleEndian bs) / 2 ^ 8 = littleEndian bs by omega]
    at hsplit
  exact hsplit.symm

/-- **A word is its bytes**: bytes one by one do what their number does at once. -/
theorem foldl_feed (hbs : Bytes bs) (c : ℕ) : bs.foldl (feed poly) c = bits poly (8 * bs.length) (c ^^^ littleEndian bs) := by
  induction bs generalizing c with
  | nil =>
    rw [littleEndian, Nat.xor_zero]
    rfl
  | cons b bs ih =>
    have hshift : feed poly c b ^^^ littleEndian bs = bits poly 8 (c ^^^ littleEndian (b :: bs)) := by
      rw [littleEndian_cons_xor (hbs b List.mem_cons_self), ← Nat.xor_assoc, bits_xor, bits_mul, feed]
    rw [List.foldl_cons, ih fun b hb => hbs b (List.mem_cons_of_mem _ hb), hshift, ← bits_add, List.length_cons, Nat.mul_succ]

/-- Two streams: the second one may start at zero. -/
theorem foldl_feed_append (hbs : Bytes bs) (c : ℕ) :
    bs.foldl (feed poly) c = bits poly (8 * bs.length) c ^^^ bs.foldl (feed poly) 0 := by
  rw [foldl_feed hbs, foldl_feed hbs, bits_xor, Nat.zero_xor]

/-! ### Tables -/

/-- All sums of numbers of a list, indexed by their bits. -/
def span : List ℕ → List ℕ := List.foldl (fun sums b => sums ++ sums.map (b ^^^ ·)) [0]

theorem span_concat (bs : List ℕ) (b : ℕ) : span (bs ++ [b]) = span bs ++ (span bs).map (b ^^^ ·) := by
  rw [span, List.foldl_append]
  rfl

theorem span_length (bs : List ℕ) : (span bs).length = 2 ^ bs.length := by
  induction bs using List.reverseRecOn with
  | nil => rfl
  | append_singleton bs b ih =>
    rw [span_concat, List.length_append, List.length_map, ih, List.length_append, List.length_singleton, Nat.pow_succ]
    omega

/-- **A table of a linear map** is the span of what it is on the powers of two. -/
theorem span_getD (f : ℕ → ℕ) (hzero : f 0 = 0) (hxor : ∀ a b, f (a ^^^ b) = f a ^^^ f b) (w : ℕ) :
    ∀ x < 2 ^ w, (span ((List.range w).map fun i => f (2 ^ i))).getD x 0 = f x := by
  induction w with
  | zero =>
    intro x hx
    obtain rfl : x = 0 := by omega
    exact hzero.symm
  | succ w ih =>
    intro x hx
    have hlen : (span ((List.range w).map fun i => f (2 ^ i))).length = 2 ^ w := by
      rw [span_length, List.length_map, List.length_range]
    rw [List.range_succ, List.map_append, List.map_singleton, span_concat, List.getD_eq_getElem?_getD]
    by_cases hlow : x < 2 ^ w
    · rw [List.getElem?_append_left (by rwa [hlen]), ← List.getD_eq_getElem?_getD]
      exact ih x hlow
    · have hrest : x - 2 ^ w < 2 ^ w := by
        rw [Nat.pow_succ] at hx
        omega
      have hsum : x = 2 ^ w ^^^ (x - 2 ^ w) := by
        have hsplit := split_xor w x
        rw [show x / 2 ^ w = 1 by rw [Nat.div_eq_iff (Nat.two_pow_pos w)]; omega, Nat.one_mul, Nat.mod_eq_sub_mod (by omega),
          Nat.mod_eq_of_lt hrest] at hsplit
        rw [Nat.xor_comm, hsplit]
      have hcell := ih _ hrest
      rw [List.getD_eq_getElem?_getD] at hcell
      rw [List.getElem?_append_right (by rw [hlen]; omega), hlen, List.getElem?_map]
      cases hget : (span ((List.range w).map fun i => f (2 ^ i)))[x - 2 ^ w]? with
      | none =>
        rw [List.getElem?_eq_none_iff, hlen] at hget
        omega
      | some y =>
        rw [hget] at hcell
        have hy : y = f (x - 2 ^ w) := hcell
        rw [Option.map_some, Option.getD_some, hy, ← hxor, ← hsum]

/-! ### Long runs -/

/-- `bits`, with the register evaluated before each step. -/
def bitsEager (poly : ℕ) : ℕ → ℕ → ℕ
  | 0, c => c
  | _ + 1, 0 => 0
  | n + 1, c + 1 => bitsEager poly n (bit poly (c + 1))

theorem bitsEager_eq (n c : ℕ) : bitsEager poly n c = bits poly n c := by
  induction n generalizing c with
  | zero => rfl
  | succ n ih =>
    cases c with
    | zero => exact (bits_zero _).symm
    | succ c => rw [bitsEager, ih, bits_succ]

end Pclsync.Lib.ShiftRegister
