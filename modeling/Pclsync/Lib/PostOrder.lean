import Mathlib.Algebra.BigOperators.Intervals
import Mathlib.RingTheory.Multiplicity
import Mathlib.Algebra.Order.BigOperators.Group.Finset
import Mathlib.Data.Nat.Multiplicity

/-! The post-order listing of the complete `b`-ary forest.

Leaves are numbered `0, 1, 2, …`. The node `(k, i)` of height `k` is the root of
the leaves `b ^ k * i, …, b ^ k * (i + 1) - 1`, and a node is listed right after
the last of its leaves and after the lower nodes that end there. `place` is the
closed formula for a node's position in that listing. `place_injective` and
`place_surjective` say that the listing has every node once and no hole, and
`place_lt_iff` which nodes are listed before a given leaf. -/
namespace Pclsync.Lib.PostOrder

/-- How many nodes of height one and more end among the first `m` leaves. -/
def above (b m : ℕ) : ℕ := ∑ j ∈ Finset.range m, m / b ^ (j + 1)

/-- How many nodes the complete tree of height `k` has. -/
def full (b : ℕ) : ℕ → ℕ
  | 0 => 1
  | k + 1 => b * full b k + 1

/-- The position of node `(k, i)`. -/
def place (b k i : ℕ) : ℕ := full b k * (i + 1) - 1 + above b i

section Counting
variable {b : ℕ} (hb : 2 ≤ b)
include hb

theorem lt_pow_self (m : ℕ) : m < b ^ m := Nat.lt_pow_self (by omega)

/-- Any range of levels that reaches past `m` counts the same. -/
theorem above_eq_sum {m L : ℕ} (h : m < b ^ (L + 1)) :
    above b m = ∑ j ∈ Finset.range L, m / b ^ (j + 1) := by
  have tail : ∀ n, m < b ^ (n + 1) → ∀ d,
      ∑ j ∈ Finset.range (n + d), m / b ^ (j + 1) = ∑ j ∈ Finset.range n, m / b ^ (j + 1) := by
    intro n hn d
    induction d with
    | zero => rfl
    | succ d ih =>
      have hle : b ^ (n + 1) ≤ b ^ (n + d + 1) := Nat.pow_le_pow_right (by omega) (by omega)
      rw [← Nat.add_assoc, Finset.sum_range_succ, ih, Nat.div_eq_of_lt (lt_of_lt_of_le hn hle),
        Nat.add_zero]
  have hm : m < b ^ (m + 1) := lt_trans (lt_pow_self hb m) (Nat.pow_lt_pow_right (by omega) (by omega))
  rcases Nat.le_total m L with hle | hle
  · have := tail m hm (L - m)
    rw [Nat.add_sub_cancel' hle] at this
    exact this.symm
  · have := tail L h (m - L)
    rw [Nat.add_sub_cancel' hle] at this
    exact this

theorem above_of_lt {m : ℕ} (h : m < b) : above b m = 0 := by
  rw [above_eq_sum hb (L := 0) (by simpa using h)]
  rfl

/-- The nodes above `m` leaves are the `m / b` parents and the nodes above those. -/
theorem above_div (m : ℕ) : above b m = m / b + above b (m / b) := by
  have hm : m < b ^ (m + 1 + 1) :=
    lt_trans (lt_pow_self hb m) (Nat.pow_lt_pow_right (by omega) (by omega))
  have hd : m / b < b ^ (m + 1) := by
    rw [Nat.div_lt_iff_lt_mul (by omega)]
    simpa [pow_succ] using hm
  rw [above_eq_sum hb hm, above_eq_sum hb hd, Finset.sum_range_succ']
  simp only [Nat.zero_add, pow_one]
  rw [Nat.add_comm]
  congr 1
  refine Finset.sum_congr rfl fun j _ => ?_
  rw [Nat.div_div_eq_div_mul, pow_succ b (j + 1), Nat.mul_comm b]

theorem above_le (m : ℕ) : above b m ≤ m := by
  induction m using Nat.strong_induction_on with
  | _ m ih =>
    rcases Nat.eq_zero_or_pos m with rfl | hm
    · exact le_of_eq (above_of_lt hb (by omega))
    · have hlt : m / b < m := Nat.div_lt_self hm (by omega)
      have htwo : m / b * 2 ≤ m := le_trans (Nat.mul_le_mul_left _ hb) (Nat.div_mul_le_self m b)
      have := ih (m / b) hlt
      rw [above_div hb]
      omega

/-- How many nodes of height one and more end exactly at leaf `m`: the levels
whose group size divides `m + 1`. -/
theorem above_succ (m : ℕ) : above b (m + 1) = above b m + multiplicity b (m + 1) := by
  have hfin : FiniteMultiplicity b (m + 1) := Nat.finiteMultiplicity_iff.mpr ⟨by omega, by omega⟩
  have hm : m < b ^ (m + 1 + 1) :=
    lt_trans (lt_pow_self hb m) (Nat.pow_lt_pow_right (by omega) (by omega))
  have hlt : multiplicity b (m + 1) ≤ m + 1 := by
    have hdvd := pow_multiplicity_dvd b (m + 1)
    have hle := Nat.le_of_dvd (by omega) hdvd
    exact le_of_lt (lt_of_lt_of_le (lt_pow_self hb _) hle)
  rw [above_eq_sum hb hm, above, ← Nat.sub_eq_iff_eq_add', ← Finset.sum_tsub_distrib]
  · have hterm : ∀ j ∈ Finset.range (m + 1), (m + 1) / b ^ (j + 1) - m / b ^ (j + 1) =
        if j < multiplicity b (m + 1) then 1 else 0 := by
      intro j _
      rw [Nat.succ_div, Nat.add_sub_cancel_left]
      simp only [hfin.pow_dvd_iff_le_multiplicity, Nat.succ_le_iff]
    rw [Finset.sum_congr rfl hterm, Finset.sum_ite, Finset.sum_const_zero, Nat.add_zero,
      Finset.sum_const, smul_eq_mul, Nat.mul_one]
    have : (Finset.range (m + 1)).filter (· < multiplicity b (m + 1)) =
        Finset.range (multiplicity b (m + 1)) := by
      ext j
      simp only [Finset.mem_filter, Finset.mem_range]
      omega
    rw [this, Finset.card_range]
  · exact fun j _ => Nat.div_le_div_right (Nat.le_succ m)
  · exact Finset.sum_le_sum fun j _ => Nat.div_le_div_right (Nat.le_succ m)

end Counting

theorem full_pos (b k : ℕ) : 0 < full b k := by
  cases k <;> simp [full]

/-- A tree of height `k + 1` is its leaves and the tree of height `k` above them. -/
theorem full_succ (b k : ℕ) : full b (k + 1) = b ^ (k + 1) + full b k := by
  induction k with
  | zero => simp [full]
  | succ k ih =>
    calc full b (k + 1 + 1) = b * full b (k + 1) + 1 := rfl
      _ = b * (b ^ (k + 1) + full b k) + 1 := by rw [ih]
      _ = b ^ (k + 1 + 1) + (b * full b k + 1) := by rw [Nat.mul_add, ← Nat.pow_succ', Nat.add_assoc]
      _ = b ^ (k + 1 + 1) + full b (k + 1) := rfl

@[simp] theorem place_zero (b i : ℕ) : place b 0 i = i + above b i := by
  simp [place, full]

section Places
variable {b : ℕ} (hb : 2 ≤ b)
include hb

/-- A node stands `k` places after its last leaf. -/
theorem place_eq (k i : ℕ) : place b k i = place b 0 (b ^ k * (i + 1) - 1) + k := by
  induction k with
  | zero => simp
  | succ k ih =>
    have hpos : 0 < b ^ k * (i + 1) := Nat.mul_pos (Nat.pow_pos (by omega)) (by omega)
    have hdiv : (b ^ (k + 1) * (i + 1) - 1) / b = b ^ k * (i + 1) - 1 := by
      have hsplit : b ^ (k + 1) * (i + 1) - 1 = (b - 1) + b * (b ^ k * (i + 1) - 1) := by
        have heq : b ^ (k + 1) * (i + 1) = b * (b ^ k * (i + 1)) := by ring
        rw [heq, Nat.mul_sub, Nat.mul_one]
        have hle : b ≤ b * (b ^ k * (i + 1)) := Nat.le_mul_of_pos_right b hpos
        omega
      rw [hsplit, Nat.add_mul_div_left _ _ (by omega), Nat.div_eq_of_lt (by omega), Nat.zero_add]
    have hleaf : place b 0 (b ^ (k + 1) * (i + 1) - 1) =
        b ^ (k + 1) * (i + 1) - 1 + place b 0 (b ^ k * (i + 1) - 1) := by
      rw [place_zero, above_div hb, hdiv, place_zero]
    have hpos' : 0 < b ^ (k + 1) * (i + 1) := Nat.mul_pos (Nat.pow_pos (by omega)) (by omega)
    have hfull : 0 < full b k * (i + 1) := Nat.mul_pos (full_pos b k) (by omega)
    have hplace : place b (k + 1) i = b ^ (k + 1) * (i + 1) + place b k i := by
      simp only [place, full_succ, Nat.add_mul]
      omega
    rw [hplace, ih, hleaf]
    omega

/-- Consecutive leaves are as far apart as the nodes that end at the first. -/
theorem leaf_succ (m : ℕ) :
    place b 0 (m + 1) = place b 0 m + 1 + multiplicity b (m + 1) := by
  rw [place_zero, place_zero, above_succ hb]
  omega

theorem leaf_strictMono : StrictMono (place b 0) :=
  strictMono_nat_of_lt_succ fun m => by rw [leaf_succ hb]; omega

theorem height_le_multiplicity (k i : ℕ) : k ≤ multiplicity b (b ^ k * (i + 1)) := by
  have hpos : 0 < b ^ k * (i + 1) := Nat.mul_pos (Nat.pow_pos (by omega)) (by omega)
  have hfin : FiniteMultiplicity b (b ^ k * (i + 1)) :=
    Nat.finiteMultiplicity_iff.mpr ⟨by omega, hpos⟩
  exact hfin.pow_dvd_iff_le_multiplicity.mp (Nat.dvd_mul_right _ _)

/-- A node is listed before leaf `m` exactly when it ends before it. -/
theorem place_lt_iff (k i m : ℕ) : place b k i < place b 0 m ↔ b ^ k * (i + 1) ≤ m := by
  have hpos : 0 < b ^ k * (i + 1) := Nat.mul_pos (Nat.pow_pos (by omega)) (by omega)
  have hend := leaf_succ hb (b ^ k * (i + 1) - 1)
  rw [Nat.sub_add_cancel hpos] at hend
  have hk := height_le_multiplicity hb k i
  rw [place_eq hb k i]
  constructor
  · intro h
    by_contra hlt
    have : place b 0 m ≤ place b 0 (b ^ k * (i + 1) - 1) :=
      (leaf_strictMono hb).monotone (by omega)
    omega
  · intro h
    have : place b 0 (b ^ k * (i + 1)) ≤ place b 0 m := (leaf_strictMono hb).monotone h
    omega

/-- No two nodes have one position. -/
theorem place_injective {k i k' i' : ℕ} (h : place b k i = place b k' i') : k = k' ∧ i = i' := by
  have hpos : 0 < b ^ k * (i + 1) := Nat.mul_pos (Nat.pow_pos (by omega)) (by omega)
  have hpos' : 0 < b ^ k' * (i' + 1) := Nat.mul_pos (Nat.pow_pos (by omega)) (by omega)
  have hle : b ^ k * (i + 1) ≤ b ^ k' * (i' + 1) := by
    rw [← place_lt_iff hb, h, place_lt_iff hb]
  have hge : b ^ k' * (i' + 1) ≤ b ^ k * (i + 1) := by
    rw [← place_lt_iff hb, ← h, place_lt_iff hb]
  have hend : b ^ k * (i + 1) = b ^ k' * (i' + 1) := le_antisymm hle hge
  rw [place_eq hb k i, place_eq hb k' i', hend] at h
  have hk : k = k' := by omega
  subst hk
  have := Nat.eq_of_mul_eq_mul_left (Nat.pow_pos (n := k) (by omega : 0 < b)) hend
  exact ⟨rfl, by omega⟩

/-- Every position before leaf `m` is that of a node that ends before it. -/
theorem place_surjective (m p : ℕ) (h : p < place b 0 m) :
    ∃ k i, b ^ k * (i + 1) ≤ m ∧ place b k i = p := by
  induction m with
  | zero => simp [above] at h
  | succ m ih =>
    by_cases hp : p < place b 0 m
    · obtain ⟨k, i, hle, heq⟩ := ih hp
      exact ⟨k, i, by omega, heq⟩
    · rw [leaf_succ hb] at h
      obtain ⟨k, rfl⟩ := Nat.exists_eq_add_of_le (Nat.le_of_not_lt hp)
      have hfin : FiniteMultiplicity b (m + 1) := Nat.finiteMultiplicity_iff.mpr ⟨by omega, by omega⟩
      obtain ⟨c, hc⟩ : b ^ k ∣ m + 1 := hfin.pow_dvd_iff_le_multiplicity.mpr (by omega)
      have hcpos : 0 < c := by
        rcases Nat.eq_zero_or_pos c with rfl | hc0
        · omega
        · exact hc0
      refine ⟨k, c - 1, ?_, ?_⟩
      · rw [Nat.sub_add_cancel hcpos, ← hc]
      · rw [place_eq hb, Nat.sub_add_cancel hcpos, ← hc, Nat.add_sub_cancel]

end Places

end Pclsync.Lib.PostOrder
