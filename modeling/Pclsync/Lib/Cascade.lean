import Mathlib.Data.List.Basic
import Mathlib.Data.Nat.Notation

/-! A table whose rows refer to rows of the same table, and a deletion that takes along what referred
to a deleted row. -/
namespace Pclsync.Lib.Cascade

variable {R K : Type} [DecidableEq K]

/-- A row refers to nothing, or to one that is there. -/
def Refers (key : R → K) (parent : R → Option K) (rows : List R) (r : R) : Prop :=
  ∀ k, parent r = some k → ∃ p ∈ rows, key p = k

/-- Every row does. -/
def Closed (key : R → K) (parent : R → Option K) (rows : List R) : Prop := ∀ r ∈ rows, Refers key parent rows r

def attached (key : R → K) (parent : R → Option K) (rows : List R) (r : R) : Bool :=
  (parent r).all fun k => rows.any (key · = k)

variable {key : R → K} {parent : R → Option K} {rows : List R}

theorem attached_iff {r : R} : attached key parent rows r = true ↔ Refers key parent rows r := by
  unfold attached Refers
  cases hp : parent r with
  | none => exact ⟨fun _ => nofun, fun _ => rfl⟩
  | some k =>
    rw [Option.all_some, List.any_eq_true]
    constructor
    · intro hany k' hk
      obtain ⟨p, hp, hkey⟩ := hany
      exact ⟨p, hp, (of_decide_eq_true hkey).trans (Option.some.inj hk)⟩
    · intro hall
      obtain ⟨p, hp, hkey⟩ := hall k rfl
      exact ⟨p, hp, decide_eq_true hkey⟩

/-- Rows that refer to nothing that is there go, as often as that. -/
def sweep (key : R → K) (parent : R → Option K) : ℕ → List R → List R
  | 0, rows => rows
  | n + 1, rows => sweep key parent n (rows.filter (attached key parent rows))

theorem sweep_sublist (n : ℕ) : (sweep key parent n rows).Sublist rows := by
  induction n generalizing rows with
  | zero => exact List.Sublist.refl _
  | succ n ih => exact ih.trans List.filter_sublist

theorem mem_of_mem_sweep {n : ℕ} {r : R} (hr : r ∈ sweep key parent n rows) : r ∈ rows :=
  (sweep_sublist n).subset hr

/-- After as many rounds as there are rows nothing is left to take. -/
theorem closed_sweep {n : ℕ} (hlen : rows.length ≤ n) : Closed key parent (sweep key parent n rows) := by
  induction n generalizing rows with
  | zero =>
    have hnil : rows = [] := List.length_eq_zero_iff.mp (Nat.le_zero.mp hlen)
    subst hnil
    nofun
  | succ n ih =>
    by_cases hall : ∀ r ∈ rows, attached key parent rows r = true
    · -- The round takes nothing, and then no later one does.
      have hclosed : Closed key parent rows := fun r hr => attached_iff.mp (hall r hr)
      have hstays : ∀ m, sweep key parent m rows = rows := by
        intro m
        induction m with
        | zero => rfl
        | succ m hm =>
          show sweep key parent m (rows.filter (attached key parent rows)) = rows
          rw [List.filter_eq_self.mpr hall, hm]
      rwa [hstays]
    · have hshort : (rows.filter (attached key parent rows)).length < rows.length := by
        refine Nat.lt_of_le_of_ne (List.length_filter_le _ _) fun heq => hall ?_
        exact List.length_filter_eq_length_iff.mp heq
      exact ih (Nat.le_of_lt_succ (Nat.lt_of_lt_of_le hshort hlen))

/-- What refers only to itself is not taken. -/
theorem filter_sweep {p : R → Bool} {n : ℕ}
    (hclosed : ∀ r ∈ rows, p r = true → ∀ k, parent r = some k → ∃ q ∈ rows, p q = true ∧ key q = k) :
    (sweep key parent n rows).filter p = rows.filter p := by
  induction n generalizing rows with
  | zero => rfl
  | succ n ih =>
    have hkept : ∀ r ∈ rows, p r = true → attached key parent rows r = true := by
      intro r hr hp
      refine attached_iff.mpr fun k hk => ?_
      obtain ⟨q, hq, _, hkey⟩ := hclosed r hr hp k hk
      exact ⟨q, hq, hkey⟩
    have hround : (rows.filter (attached key parent rows)).filter p = rows.filter p := by
      rw [List.filter_filter]
      refine List.filter_congr fun r hr => ?_
      cases hp : p r with
      | false => rfl
      | true => rw [hkept r hr hp, Bool.true_and]
    show (sweep key parent n (rows.filter (attached key parent rows))).filter p = _
    rw [ih ?_, hround]
    intro r hr hp k hk
    obtain ⟨q, hq, hpq, hkey⟩ := hclosed r (List.mem_of_mem_filter hr) hp k hk
    exact ⟨q, List.mem_filter.mpr ⟨hq, hkept q hq hpq⟩, hpq, hkey⟩

end Pclsync.Lib.Cascade
