import Mathlib.Algebra.Order.Group.Nat
import Mathlib.Tactic.Common

/-! The arithmetic of hierarchical timing wheels: a level has `B` slots, one for each unit of
`B ^ k` ticks; at each unit's first tick its slot is emptied. -/
namespace Pclsync.Lib.TimingWheel

variable (B : ℕ)

/-- The slot of a deadline. -/
def slot (k deadline : ℕ) : ℕ := deadline / B ^ k % B

/-- When all ticks up to `now` are over, a deadline is in one of the next `B` units of a level. -/
def Ahead (now k deadline : ℕ) : Prop := now / B ^ k < deadline / B ^ k ∧ deadline / B ^ k ≤ now / B ^ k + B

variable {B : ℕ} {now k deadline : ℕ}

theorem Ahead.now_lt (h : Ahead B now k deadline) : now < deadline := by
  by_contra hle
  exact Nat.not_lt.mpr (Nat.div_le_div_right (Nat.le_of_not_lt hle)) h.1

/-- A delay of more than one unit and at most `B` of them. -/
theorem ahead_of_delay (hB : 0 < B) (hle : now + B ^ k ≤ deadline) (hunits : deadline / B ^ k ≤ now / B ^ k + B) :
    Ahead B now k deadline := by
  refine ⟨?_, hunits⟩
  calc now / B ^ k < now / B ^ k + 1 := Nat.lt_succ_self _
    _ = (now + B ^ k) / B ^ k := (Nat.add_div_right now (Nat.pow_pos hB)).symm
    _ ≤ deadline / B ^ k := Nat.div_le_div_right hle

/-- Numbers of which one is among the `B` after the other, equal modulo `B`. -/
theorem eq_of_mod {a d : ℕ} (hlt : a < d) (hle : d ≤ a + B) (hmod : d % B = (a + 1) % B) : d = a + 1 := by
  have hzero : (d - (a + 1)) % B = 0 := Nat.sub_mod_eq_zero_of_mod_eq hmod
  rw [Nat.mod_eq_of_lt (by omega)] at hzero
  omega

/-- What is in the slot of a unit that begins is due in that unit. -/
theorem Ahead.due (h : Ahead B now k deadline) (hunit : B ^ k ∣ now + 1) (hslot : slot B k deadline = slot B k (now + 1)) :
    deadline / B ^ k = (now + 1) / B ^ k := by
  rw [slot, slot, Nat.succ_div_of_dvd hunit] at hslot
  rw [Nat.succ_div_of_dvd hunit]
  exact eq_of_mod h.1 h.2 hslot

/-- What is in other slots stays ahead. -/
theorem Ahead.stays (h : Ahead B now k deadline) (hother : B ^ k ∣ now + 1 → slot B k deadline ≠ slot B k (now + 1)) :
    Ahead B (now + 1) k deadline := by
  obtain ⟨hlt, hle⟩ := h
  by_cases hunit : B ^ k ∣ now + 1
  · have hne : deadline / B ^ k ≠ now / B ^ k + 1 := fun heq => hother hunit (by rw [slot, slot, heq, Nat.succ_div_of_dvd hunit])
    rw [Ahead, Nat.succ_div_of_dvd hunit]
    omega
  · rw [Ahead, Nat.succ_div_of_not_dvd hunit]
    exact ⟨hlt, hle⟩

/-- What is due in a unit that begins goes ahead in the units one level below. -/
theorem ahead_below (hB : 0 < B) (hunit : B ^ (k + 1) ∣ now + 1) (hdue : deadline / B ^ (k + 1) = (now + 1) / B ^ (k + 1)) :
    Ahead B now k deadline := by
  obtain ⟨q, hq⟩ := hunit
  have hpos : 0 < B ^ k := Nat.pow_pos hB
  have hnext : (now + 1) / B ^ k = B * q := by
    rw [hq, Nat.pow_succ, Nat.mul_assoc, Nat.mul_div_cancel_left _ hpos]
  have hdvd : B ^ k ∣ now + 1 := ⟨B * q, by rw [hq, Nat.pow_succ, Nat.mul_assoc]⟩
  have hnow : now / B ^ k + 1 = B * q := by rw [← Nat.succ_div_of_dvd hdvd, hnext]
  have hunits : deadline / B ^ k / B = q := by
    rw [Nat.div_div_eq_div_mul, ← Nat.pow_succ, hdue, hq, Nat.mul_div_cancel_left _ (Nat.pow_pos hB)]
  have hsplit := Nat.div_add_mod (deadline / B ^ k) B
  have hrest := Nat.mod_lt (deadline / B ^ k) hB
  rw [hunits] at hsplit
  rw [Ahead]
  omega

end Pclsync.Lib.TimingWheel
