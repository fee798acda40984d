import Pclsync.FsCrypto.Offsets
import Pclsync.Lib.PostOrder
import Mathlib.Data.Nat.Log
import Mathlib.Tactic.Ring

/-! The layout both geometry functions compute, as one closed form.

`layout n` is the record of a file of `n` plaintext bytes, written with the
number `m` of its last sector: level `k` has `m / 128 ^ k + 1` entries, of which
the last sector of the level holds `m / 128 ^ k % 128 + 1`. `plain_layout` says
that computing bottom-up from the plaintext size gives this record,
`crypto_layout` that peeling the levels off the size of the encrypted file does. -/
namespace Pclsync.FsCrypto
open Lib.Machine Lib.PostOrder

/-- The last sector of a file of `n` bytes. -/
def lastSector (n : ℕ) : ℕ := (n - 1) / 4096

/-- How many entries level `k` of the tree has. -/
def entries (m k : ℕ) : ℕ := m / 128 ^ k + 1

/-- How many bytes the last authentication sector of level `k` has. -/
def lastLen (m k : ℕ) : ℕ := (m / 128 ^ k % 128 + 1) * 32

/-- Where the last authentication sector of level `k` starts. -/
def tailOff (n k : ℕ) : ℕ :=
  n + 4096 * above 128 (lastSector n) + ∑ i ∈ Finset.range k, lastLen (lastSector n) i

/-- How many levels the tree over the sectors up to `m` has. -/
def levels (m : ℕ) : ℕ := Nat.log 128 m + 1

/-- The bytes of the file that are not authentication entries of level `k` or above. -/
def forestSize (n k : ℕ) : ℕ := n + 32 * ∑ i ∈ Finset.range k, entries (lastSector n) i

/-- The offsets of the last sectors of the levels from `lo` up to `hi`. -/
def layoutOffs (n lo hi : ℕ) : Vector ℕ maxHashTreeLevel :=
  Vector.ofFn fun k => if lo ≤ k.val ∧ k.val < hi then tailOff n k else 0

/-- Their lengths; the entry past the last level is the master record's. -/
def layoutLens (n lo hi : ℕ) : Vector ℕ maxHashTreeLevel :=
  Vector.ofFn fun k => if lo ≤ k.val ∧ k.val < hi then
    (if k.val < levels (lastSector n) then lastLen (lastSector n) k else 32) else 0

/-- The record of a file of `n` bytes. -/
def layout (n : ℕ) : Offsets :=
  if n = 0 then .zero
  else
    { masterauthoff := tailOff n (levels (lastSector n))
      plainsize := n
      lastauthsectoroff := layoutOffs n 0 (levels (lastSector n) + 1)
      lastauthsectorlen := layoutLens n 0 (levels (lastSector n) + 1)
      treelevels := levels (lastSector n)
      needmasterauth := decide (n > 4096) }

/-- The sizes whose every sector id is at most `PSYNC_CRYPTO_MAX_SECTORID`. -/
def Admitted (n : ℕ) : Prop := (n + 4095) / 4096 ≤ maxSectorid

/-! ### Levels and entries -/

theorem entries_succ (m k : ℕ) : (entries m k + 127) / 128 = entries m (k + 1) := by
  simp only [entries, pow_succ, ← Nat.div_div_eq_div_mul]
  omega

theorem hashTreeSectors_eq : hashTreeSectors = 128 := rfl

theorem lastCount_entries (m k : ℕ) : lastCount (entries m k) = m / 128 ^ k % 128 + 1 := by
  rw [lastCount, hashTreeSectors_eq, entries]
  split <;> omega

theorem lastLen_eq (m k : ℕ) : lastCount (entries m k) * authSize = lastLen m k := by
  rw [lastCount_entries, lastLen, authSize]

theorem lastLen_le (m k : ℕ) : lastLen m k ≤ 4096 := by
  have := Nat.mod_lt (m / 128 ^ k) (by decide : 0 < 128)
  simp only [lastLen]
  omega

theorem lt_pow_levels (m : ℕ) : m < 128 ^ levels m := Nat.lt_pow_succ_log_self (by decide) m

theorem pow_le_of_lt_levels {m k : ℕ} (h0 : k ≠ 0) (h : k < levels m) : 128 ^ k ≤ m := by
  have hm : m ≠ 0 := by
    rintro rfl
    simp only [levels, Nat.log_zero_right] at h
    omega
  exact Nat.pow_le_of_le_log hm (by simp only [levels] at h; omega)

/-- A level has more than one entry exactly when the tree has a level above it. -/
theorem one_lt_entries {m k : ℕ} (h0 : k ≠ 0) : 1 < entries m k ↔ k < levels m := by
  constructor
  · intro h
    by_contra hle
    have : 128 ^ levels m ≤ 128 ^ k := Nat.pow_le_pow_right (by decide) (by omega)
    have hdiv : m / 128 ^ k = 0 := Nat.div_eq_of_lt (lt_of_lt_of_le (lt_pow_levels m) this)
    simp only [entries, hdiv] at h
    omega
  · intro h
    have := Nat.div_pos (pow_le_of_lt_levels h0 h) (Nat.pow_pos (n := k) (by decide : 0 < 128))
    simp only [entries]
    omega

theorem entries_levels (m : ℕ) : entries m (levels m) = 1 := by
  simp [entries, Nat.div_eq_of_lt (lt_pow_levels m)]

theorem levels_pos (m : ℕ) : 0 < levels m := Nat.succ_pos _

theorem levels_le {m : ℕ} (h : m < 2 ^ 32) : levels m ≤ 5 := by
  have : Nat.log 128 m < 5 := Nat.log_lt_of_lt_pow' (by decide) (lt_trans h (by decide))
  simp only [levels]
  omega

theorem Admitted.lastSector_lt {n : ℕ} (h : Admitted n) : lastSector n < 2 ^ 32 - 2 := by
  simp only [Admitted, maxSectorid] at h
  simp only [lastSector]
  omega

theorem Admitted.levels_le {n : ℕ} (h : Admitted n) : levels (lastSector n) ≤ 5 :=
  FsCrypto.levels_le (by have := h.lastSector_lt; omega)

theorem Admitted.lt {n : ℕ} (h : Admitted n) : n < 2 ^ 44 := by
  simp only [Admitted, maxSectorid] at h
  omega

/-! ### Sizes -/

theorem maxLevelSize_eq {k : ℕ} (h : k ≤ 6) : maxLevelSize k = 4096 * full 128 k := by
  interval_cases k <;> rfl

theorem maxLevelSize_succ {k : ℕ} (h : k < 6) :
    maxLevelSize (k + 1) = 128 * (maxLevelSize k + 32) := by
  rw [maxLevelSize_eq (by omega), maxLevelSize_eq (by omega), full]
  omega

theorem forestSize_succ (n k : ℕ) :
    forestSize n (k + 1) = forestSize n k + 32 * entries (lastSector n) k := by
  simp only [forestSize, Finset.sum_range_succ]
  omega

/-- A level's trees are complete but the last, which is not empty. -/
theorem forestSize_bounds {n : ℕ} (hn : n ≠ 0) {k : ℕ} (hk : k ≤ 6) :
    (entries (lastSector n) k - 1) * maxLevelSize k < forestSize n k ∧
      forestSize n k ≤ entries (lastSector n) k * maxLevelSize k := by
  induction k with
  | zero =>
    have hsize : maxLevelSize 0 = 4096 := rfl
    rw [hsize]
    simp only [entries, forestSize, lastSector, Finset.range_zero, Finset.sum_empty, pow_zero,
      Nat.div_one]
    omega
  | succ k ih =>
    obtain ⟨hlo, hhi⟩ := ih (by omega)
    have hcnt := entries_succ (lastSector n) k
    have hpos : 1 ≤ entries (lastSector n) k := Nat.succ_pos _
    rw [forestSize_succ, maxLevelSize_succ (by omega)]
    generalize entries (lastSector n) k = c at *
    generalize entries (lastSector n) (k + 1) = c' at *
    have hc' : 128 * (c' - 1) ≤ c - 1 := by omega
    have hc : c ≤ 128 * c' := by omega
    have hup : c * (maxLevelSize k + 32) ≤ 128 * c' * (maxLevelSize k + 32) :=
      Nat.mul_le_mul_right _ hc
    have hdown : 128 * (c' - 1) * (maxLevelSize k + 32) ≤ (c - 1) * (maxLevelSize k + 32) :=
      Nat.mul_le_mul_right _ hc'
    constructor
    · calc (c' - 1) * (128 * (maxLevelSize k + 32)) = 128 * (c' - 1) * (maxLevelSize k + 32) := by ring
        _ ≤ (c - 1) * (maxLevelSize k + 32) := hdown
        _ = (c - 1) * maxLevelSize k + 32 * (c - 1) := by ring
        _ < forestSize n k + 32 * c := by omega
    · calc forestSize n k + 32 * c ≤ c * maxLevelSize k + 32 * c := by omega
        _ = c * (maxLevelSize k + 32) := by ring
        _ ≤ 128 * c' * (maxLevelSize k + 32) := hup
        _ = c' * (128 * (maxLevelSize k + 32)) := by ring

/-- The end of the last authentication sectors is the whole file but the master record. -/
theorem tailOff_levels (n : ℕ) :
    tailOff n (levels (lastSector n)) = forestSize n (levels (lastSector n)) := by
  set m := lastSector n with hm
  have habove : above 128 m = ∑ i ∈ Finset.range (levels m), m / 128 ^ (i + 1) := by
    apply above_eq_sum (by decide)
    exact lt_of_lt_of_le (lt_pow_levels m) (Nat.pow_le_pow_right (by decide) (by omega))
  simp only [tailOff, forestSize, ← hm, habove, Finset.mul_sum, Nat.add_assoc,
    ← Finset.sum_add_distrib]
  congr 1
  refine Finset.sum_congr rfl fun i _ => ?_
  simp only [lastLen, entries, pow_succ, ← Nat.div_div_eq_div_mul]
  omega

theorem tailOff_succ (n k : ℕ) : tailOff n (k + 1) = tailOff n k + lastLen (lastSector n) k := by
  simp only [tailOff, Finset.sum_range_succ]
  omega

theorem tailOff_mono (n : ℕ) : Monotone (tailOff n) :=
  monotone_nat_of_le_succ fun k => by rw [tailOff_succ]; omega

theorem forestSize_mono (n : ℕ) : Monotone (forestSize n) :=
  monotone_nat_of_le_succ fun k => by rw [forestSize_succ]; omega

theorem Admitted.forestSize_lt {n : ℕ} (h : Admitted n) (hn : n ≠ 0) :
    forestSize n (levels (lastSector n)) < 2 ^ 48 := by
  have hL := h.levels_le
  have hb := (forestSize_bounds hn (k := levels (lastSector n)) (by omega)).2
  rw [entries_levels, Nat.one_mul] at hb
  refine lt_of_le_of_lt hb ?_
  generalize levels (lastSector n) = L at *
  interval_cases L <;> decide

end Pclsync.FsCrypto
