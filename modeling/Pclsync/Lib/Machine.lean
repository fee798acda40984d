import Mathlib.Tactic.Ring

/-! Machine arithmetic: what a C expression of a fixed width leaves of a value. Unsigned
values are naturals, signed ones integers. -/
namespace Pclsync.Lib.Machine

def u8 (x : ℕ) : ℕ := x % 2 ^ 8
def u16 (x : ℕ) : ℕ := x % 2 ^ 16
def u32 (x : ℕ) : ℕ := x % 2 ^ 32
def u64 (x : ℕ) : ℕ := x % 2 ^ 64

/-- `a - b` on `uint64_t`. -/
def sub64 (a b : ℕ) : ℕ := u64 (a + 2 ^ 64 - b)

theorem u8_of_lt {x : ℕ} (h : x < 2 ^ 8) : u8 x = x := Nat.mod_eq_of_lt h
theorem u16_of_lt {x : ℕ} (h : x < 2 ^ 16) : u16 x = x := Nat.mod_eq_of_lt h
theorem u32_of_lt {x : ℕ} (h : x < 2 ^ 32) : u32 x = x := Nat.mod_eq_of_lt h
theorem u64_of_lt {x : ℕ} (h : x < 2 ^ 64) : u64 x = x := Nat.mod_eq_of_lt h

theorem sub64_of_le {a b : ℕ} (hle : b ≤ a) (h : a < 2 ^ 64) : sub64 a b = a - b := by
  have : a + 2 ^ 64 - b = a - b + 2 ^ 64 := by omega
  rw [sub64, u64, this, Nat.add_mod_right, Nat.mod_eq_of_lt (by omega)]

/-- `int64_t`. -/
def s64 (x : ℤ) : ℤ := x.bmod (2 ^ 64)

/-- An `int64_t` as `uint64_t`. -/
def u64OfS64 (x : ℤ) : ℕ := (x % 2 ^ 64).toNat

theorem s64_of_range {x : ℤ} (hlo : -2 ^ 63 ≤ x) (hhi : x < 2 ^ 63) : s64 x = x := by
  rw [s64, Int.bmod_eq_of_le]
  · exact hlo
  · exact hhi

theorem u64OfS64_natCast {x : ℕ} (h : x < 2 ^ 64) : u64OfS64 x = x := by
  simp only [u64OfS64]
  omega

/-- The same bits. -/
theorem u64OfS64_s64 (x : ℤ) : u64OfS64 (s64 x) = (x % 2 ^ 64).toNat := by
  rw [u64OfS64, s64]
  exact congrArg Int.toNat (Int.bmod_emod ..)

end Pclsync.Lib.Machine
