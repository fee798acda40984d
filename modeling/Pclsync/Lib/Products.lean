import Mathlib.Algebra.BigOperators.Group.List.Basic
import Mathlib.Data.Nat.ModEq
import Mathlib.Tactic.Common

/-! Products by one factor after another, modulo a number: what a test for a product below the number it was made from notices. -/
namespace Pclsync.Lib.Products

variable {m s r : ℕ} {factors : List ℕ}

/-- The product modulo `m`, unless it is below `s`. -/
def noticed (m s factor : ℕ) : Option ℕ := if s * factor % m < s then none else some (s * factor % m)

/-- One of the products of `s` with the factors is below the one before it, modulo `m`. -/
def Drops (m s : ℕ) (factors : List ℕ) : Prop :=
  ∃ i < factors.length, s * (factors.take (i + 1)).prod % m < s * (factors.take i).prod % m

theorem drops_cons {factor : ℕ} (hs : s < m) :
    Drops m s (factor :: factors) ↔ s * factor % m < s ∨ Drops m (s * factor % m) factors := by
  have hmod : ∀ p : ℕ, s * (factor * p) % m = s * factor % m * p % m := fun p => by rw [← Nat.mul_assoc, Nat.mod_mul_mod]
  constructor
  · rintro ⟨_ | i, hi, hdrop⟩
    · left
      simpa [Nat.mod_eq_of_lt hs] using hdrop
    · right
      refine ⟨i, Nat.lt_of_succ_lt_succ hi, ?_⟩
      simpa only [List.take_succ_cons, List.prod_cons, hmod] using hdrop
  · rintro (hdrop | ⟨i, hi, hdrop⟩)
    · refine ⟨0, Nat.succ_pos _, ?_⟩
      simpa [Nat.mod_eq_of_lt hs] using hdrop
    · refine ⟨i + 1, Nat.succ_lt_succ hi, ?_⟩
      simpa only [List.take_succ_cons, List.prod_cons, hmod] using hdrop

/-- All products are made exactly where none drops. -/
theorem foldlM_noticed (hs : s < m) : factors.foldlM (noticed m) s = none ↔ Drops m s factors := by
  induction factors generalizing s with
  | nil => exact ⟨nofun, fun ⟨i, hi, _⟩ => (nomatch hi)⟩
  | cons factor factors ih =>
    rw [List.foldlM_cons, drops_cons hs, noticed]
    split_ifs with hdrop
    · exact ⟨fun _ => .inl hdrop, fun _ => rfl⟩
    · have hbelow : s * factor % m < m := Nat.mod_lt _ (Nat.zero_lt_of_lt hs)
      rw [Option.bind_eq_bind, Option.bind_some, ih hbelow]
      exact ⟨.inr, fun h => h.resolve_left hdrop⟩

/-- Then the last product is the one of all factors, modulo `m`. -/
theorem foldlM_eq_some (hs : s < m) (hfold : factors.foldlM (noticed m) s = some r) : r = s * factors.prod % m := by
  induction factors generalizing s with
  | nil =>
    rw [List.prod_nil, Nat.mul_one, Nat.mod_eq_of_lt hs]
    exact (Option.some.inj hfold).symm
  | cons factor factors ih =>
    obtain ⟨p, hp, hfold⟩ := Option.bind_eq_some_iff.mp hfold
    rw [noticed] at hp
    split_ifs at hp with hdrop
    obtain rfl := Option.some.inj hp
    rw [ih (Nat.mod_lt _ (Nat.zero_lt_of_lt hs)) hfold, List.prod_cons, ← Nat.mul_assoc, Nat.mod_mul_mod]

end Pclsync.Lib.Products
