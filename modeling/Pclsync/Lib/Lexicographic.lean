import Mathlib.Order.Compare
import Mathlib.Data.Nat.Basic
import Mathlib.Order.MinMax

/-! Sequences compared by the first place at which they differ, and the places that a bisection looks at. -/
namespace Pclsync.Lib.Lexicographic

section
variable {α : Type} [LinearOrder α] {f g h : ℕ → α} {k k' n : ℕ}

/-- The comparison of the first `n` entries of two sequences. -/
def compareUpTo : ℕ → (ℕ → α) → (ℕ → α) → Ordering
  | 0, _, _ => .eq
  | n + 1, f, g => (compare (f 0) (g 0)).then (compareUpTo n (fun k => f (k + 1)) fun k => g (k + 1))

/-- They differ at `k` first, and there the first sequence is below. -/
def Precedes (f g : ℕ → α) (k : ℕ) : Prop := (∀ j < k, f j = g j) ∧ f k < g k

theorem Precedes.trans (hfg : Precedes f g k) (hgh : Precedes g h k') : Precedes f h (min k k') := by
  refine ⟨fun j hj => (hfg.1 j (lt_min_iff.mp hj).1).trans (hgh.1 j (lt_min_iff.mp hj).2), ?_⟩
  rcases lt_trichotomy k k' with hlt | rfl | hlt
  · rw [min_eq_left hlt.le, ← hgh.1 k hlt]
    exact hfg.2
  · rw [min_self]
    exact hfg.2.trans hgh.2
  · rw [min_eq_right hlt.le, hfg.1 k' hlt]
    exact hgh.2

theorem precedes_succ : Precedes f g (k + 1) ↔ f 0 = g 0 ∧ Precedes (fun k => f (k + 1)) (fun k => g (k + 1)) k := by
  constructor
  · intro hfg
    exact ⟨hfg.1 0 (Nat.succ_pos k), fun j hj => hfg.1 (j + 1) (Nat.succ_lt_succ hj), hfg.2⟩
  · rintro ⟨hzero, hrest, hlt⟩
    refine ⟨fun j hj => ?_, hlt⟩
    cases j with
    | zero => exact hzero
    | succ j => exact hrest j (Nat.lt_of_succ_lt_succ hj)

theorem compareUpTo_eq : compareUpTo n f g = .eq ↔ ∀ k < n, f k = g k := by
  induction n generalizing f g with
  | zero => exact ⟨fun _ k hk => (nomatch hk), fun _ => rfl⟩
  | succ n ih =>
    rw [compareUpTo, Ordering.then_eq_eq, compare_eq_iff_eq, ih]
    constructor
    · rintro ⟨hzero, hrest⟩ (_ | k) hk
      · exact hzero
      · exact hrest k (Nat.lt_of_succ_lt_succ hk)
    · exact fun hagree => ⟨hagree 0 (Nat.succ_pos n), fun k hk => hagree (k + 1) (Nat.succ_lt_succ hk)⟩

theorem compareUpTo_lt : compareUpTo n f g = .lt ↔ ∃ k < n, Precedes f g k := by
  induction n generalizing f g with
  | zero => exact ⟨nofun, fun ⟨k, hk, _⟩ => (nomatch hk)⟩
  | succ n ih =>
    rw [compareUpTo, Ordering.then_eq_lt, compare_lt_iff_lt, compare_eq_iff_eq, ih]
    constructor
    · rintro (hlt | ⟨hzero, k, hk, hrest⟩)
      · exact ⟨0, Nat.succ_pos n, fun j hj => (nomatch hj), hlt⟩
      · exact ⟨k + 1, Nat.succ_lt_succ hk, precedes_succ.mpr ⟨hzero, hrest⟩⟩
    · rintro ⟨_ | k, hk, hfg⟩
      · exact .inl hfg.2
      · obtain ⟨hzero, hrest⟩ := precedes_succ.mp hfg
        exact .inr ⟨hzero, k, Nat.lt_of_succ_lt_succ hk, hrest⟩

end

/-- The places that a bisection of `[lo, hi)` towards a boundary looks at, in order. -/
def probes (boundary lo hi : ℕ) : List ℕ :=
  if lo < hi then
    let med := (lo + hi) / 2
    med :: if boundary ≤ med then probes boundary lo med else probes boundary (med + 1) hi
  else []
termination_by hi - lo

theorem probes_of_lt {boundary lo hi : ℕ} (hlt : lo < hi) : probes boundary lo hi =
    (lo + hi) / 2 :: if boundary ≤ (lo + hi) / 2 then probes boundary lo ((lo + hi) / 2) else probes boundary ((lo + hi) / 2 + 1) hi := by
  rw [probes, if_pos hlt]

theorem probes_of_le {boundary lo hi : ℕ} (hle : hi ≤ lo) : probes boundary lo hi = [] := by
  rw [probes, if_neg (not_lt.mpr hle)]

end Pclsync.Lib.Lexicographic
