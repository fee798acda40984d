import Mathlib.Algebra.BigOperators.Group.List.Basic
import Mathlib.Data.Finset.Card
import Mathlib.Tactic.Ring

/-! What the members of a list add up to, and what changing one of them does to the sum. -/
namespace Pclsync.Lib.Tally

variable {α : Type} {f : α → ℕ} {l : List α} {a b : α} {i : ℕ}

def tally (f : α → ℕ) (l : List α) : ℕ := (l.map f).sum
@[simp] theorem tally_nil : tally f [] = 0 := rfl

theorem tally_cons : tally f (a :: l) = f a + tally f l := List.sum_cons

theorem tally_concat : tally f (l ++ [a]) = tally f l + f a := by
  unfold tally
  rw [List.map_append, List.sum_append, List.map_singleton, List.sum_singleton]

theorem tally_map {β : Type} (g : β → α) (l : List β) : tally f (l.map g) = tally (fun b => f (g b)) l := by
  unfold tally
  rw [List.map_map]
  rfl

theorem tally_set (h : l[i]? = some a) : tally f (l.set i b) + f a = tally f l + f b := by
  induction l generalizing i with
  | nil => cases h
  | cons c l ih =>
    cases i with
    | zero =>
      cases h
      rw [List.set_cons_zero, tally_cons, tally_cons]
      omega
    | succ i =>
      have := ih h
      rw [List.set_cons_succ, tally_cons, tally_cons]
      omega

theorem le_tally (h : a ∈ l) : f a ≤ tally f l := by
  induction l with
  | nil => cases h
  | cons c l ih =>
    rw [tally_cons]
    cases h with
    | head => exact Nat.le_add_right ..
    | tail _ h => exact Nat.le_add_left_of_le (ih h)

theorem tally_eq_zero_of (h : ∀ a ∈ l, f a = 0) : tally f l = 0 := by
  induction l with
  | nil => rfl
  | cons c l ih => rw [tally_cons, h c (.head _), ih fun a ha => h a (.tail _ ha)]

theorem of_tally_eq_zero (h : tally f l = 0) (ha : a ∈ l) : f a = 0 := Nat.eq_zero_of_le_zero (h ▸ le_tally ha)

end Pclsync.Lib.Tally

/-! Counters that count the members of a population with a property, and what moving
one member does to them. -/
namespace Pclsync.Lib.Census

variable {T : Type} {p q : T → Prop} {n : ℕ} {t : T}

/-- `n` members have the property. -/
def Counts (p : T → Prop) (n : ℕ) : Prop := ∃ members : Finset T, members.card = n ∧ ∀ t, t ∈ members ↔ p t

theorem counts_none (h : ∀ t, ¬p t) : Counts p 0 := ⟨∅, rfl, fun t => by simp [h t]⟩

theorem Counts.congr (h : Counts p n) (hpq : ∀ t, p t ↔ q t) : Counts q n := by
  obtain ⟨members, hcard, hmem⟩ := h
  exact ⟨members, hcard, fun t => (hmem t).trans (hpq t)⟩

theorem Counts.join (h : Counts p n) (ht : ¬p t) : Counts (fun u => u = t ∨ p u) (n + 1) := by
  classical
  obtain ⟨members, hcard, hmem⟩ := h
  refine ⟨insert t members, ?_, fun u => by rw [Finset.mem_insert, hmem]⟩
  rw [Finset.card_insert_of_notMem (by rwa [hmem]), hcard]

theorem Counts.leave (h : Counts p n) (ht : p t) : Counts (fun u => u ≠ t ∧ p u) (n - 1) := by
  classical
  obtain ⟨members, hcard, hmem⟩ := h
  refine ⟨members.erase t, ?_, fun u => by rw [Finset.mem_erase, hmem]⟩
  rw [Finset.card_erase_of_mem ((hmem t).mpr ht), hcard]

theorem Counts.pos_iff (h : Counts p n) : 0 < n ↔ ∃ t, p t := by
  obtain ⟨members, hcard, hmem⟩ := h
  rw [← hcard, Finset.card_pos]
  exact exists_congr hmem

theorem Counts.pos (h : Counts p n) (ht : p t) : 0 < n := h.pos_iff.mpr ⟨t, ht⟩

theorem Counts.unique (h : Counts p n) (hn : n ≤ 1) {u : T} (ht : p t) (hu : p u) : t = u := by
  obtain ⟨members, hcard, hmem⟩ := h
  exact Finset.card_le_one.mp (hcard.trans_le hn) t ((hmem t).mpr ht) u ((hmem u).mpr hu)

/-- A property that is not more common than a stronger one is the same. -/
theorem Counts.eq_of_imp (h : Counts p n) (h' : Counts q n) (hpq : ∀ t, p t → q t) (ht : q t) : p t := by
  obtain ⟨members, hcard, hmem⟩ := h
  obtain ⟨members', hcard', hmem'⟩ := h'
  have hsub : members ⊆ members' := fun u hu => (hmem' u).mpr (hpq u ((hmem u).mp hu))
  have heq := Finset.eq_of_subset_of_card_le hsub (hcard'.trans hcard.symm).le
  exact (hmem t).mp (heq ▸ (hmem' t).mpr ht)

/-- One member may join or leave; the rest keep the property or lack of it. -/
theorem Counts.move [Decidable (p t)] [Decidable (q t)] {n' : ℕ} (h : Counts p n) (hq : ∀ u ≠ t, q u ↔ p u)
    (hn : n' + (if p t then 1 else 0) = n + if q t then 1 else 0) : Counts q n' := by
  by_cases hpt : p t <;> by_cases hqt : q t <;> simp only [hpt, hqt, if_true, if_false] at hn
  · obtain rfl : n' = n := by omega
    refine h.congr fun u => ?_
    rcases eq_or_ne u t with rfl | hu
    · exact iff_of_true hpt hqt
    · exact (hq u hu).symm
  · obtain rfl : n' = n - 1 := by omega
    refine (h.leave hpt).congr fun u => ?_
    rcases eq_or_ne u t with rfl | hu
    · exact iff_of_false (fun hu => hu.1 rfl) hqt
    · rw [hq u hu, and_iff_right hu]
  · obtain rfl : n' = n + 1 := by omega
    refine (h.join hpt).congr fun u => ?_
    rcases eq_or_ne u t with rfl | hu
    · exact iff_of_true (.inl rfl) hqt
    · rw [hq u hu, or_iff_right hu]
  · obtain rfl : n' = n := by omega
    refine h.congr fun u => ?_
    rcases eq_or_ne u t with rfl | hu
    · exact iff_of_false hpt hqt
    · exact (hq u hu).symm

end Pclsync.Lib.Census
