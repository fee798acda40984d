import Mathlib.Data.List.Nodup
import Mathlib.Data.List.Range
import Mathlib.Data.Nat.Notation
import Mathlib.Tactic.Common

/-! `group_results_by_col` of `pdiff.c`: two results are reordered so that their rows of one key come
first, in the same places. -/
namespace Pclsync.Syncs.Pairing

variable {A K : Type}

/-- Two rows of a result change places. -/
def exchange (r : List A) (i j : ℕ) : List A :=
  match r[i]?, r[j]? with
  | some a, some b => (r.set i b).set j a
  | _, _ => r

structure Grouping (A : Type) where
  r1 : List A
  r2 : List A
  l : ℕ

def Grouping.step [DecidableEq K] (key : A → K) (g : Grouping A) (i j : ℕ) : Grouping A :=
  if g.r1[i]?.map key = g.r2[j]?.map key then ⟨exchange g.r1 i g.l, exchange g.r2 j g.l, g.l + 1⟩ else g

/-! ## Exchanges -/

theorem getElem?_exchange {r : List A} {i j k : ℕ} (hi : i < r.length) (hj : j < r.length) :
    (exchange r i j)[k]? = if k = j then r[i]? else if k = i then r[j]? else r[k]? := by
  unfold exchange
  rw [List.getElem?_eq_getElem hi, List.getElem?_eq_getElem hj]
  simp only [List.getElem?_set, List.length_set]
  by_cases hkj : k = j
  · simp only [hkj, if_true, hj]
  · rw [if_neg (Ne.symm hkj), if_neg hkj]
    by_cases hki : k = i
    · simp only [hki, if_true, hi]
    · rw [if_neg (Ne.symm hki), if_neg hki]

theorem exchange_perm {r : List A} {i j : ℕ} : (exchange r i j).Perm r := by
  unfold exchange
  cases hi : r[i]? with
  | none => exact .refl r
  | some a =>
    cases hj : r[j]? with
    | none => exact .refl r
    | some b =>
      obtain ⟨hilt, rfl⟩ := List.getElem?_eq_some_iff.mp hi
      obtain ⟨hjlt, rfl⟩ := List.getElem?_eq_some_iff.mp hj
      exact List.set_set_perm hilt hjlt

/-! ## The loops -/

variable {key : A → K} {r1 r2 : List A} {g : Grouping A} {i j : ℕ}

/-- The first `i` rows of the first result are done. -/
structure Grouped (key : A → K) (r1 r2 : List A) (i : ℕ) (g : Grouping A) : Prop where
  perm1 : g.r1.Perm r1
  perm2 : g.r2.Perm r2
  le : g.l ≤ i
  le2 : g.l ≤ g.r2.length
  paired : ∀ k < g.l, g.r1[k]?.map key = g.r2[k]?.map key
  alone : ∀ k, g.l ≤ k → k < i → ∀ a, g.r1[k]? = some a → key a ∉ g.r2.map key

/-- Two places of a result with the same key are one. -/
theorem eq_of_key {r : List A} (h : (r.map key).Nodup) (hi : i < r.length) (hkey : r[i]?.map key = r[j]?.map key) :
    i = j := by
  refine (List.getElem?_inj (by rwa [List.length_map]) h).mp ?_
  rw [List.getElem?_map, List.getElem?_map, hkey]

/-- The pair of a row is found, and the row is done. -/
theorem Grouped.pair (hkeys1 : (r1.map key).Nodup) (h : Grouped key r1 r2 i g) (hi : i < r1.length) (hj : j < r2.length)
    (hkey : g.r1[i]?.map key = g.r2[j]?.map key) :
    Grouped key r1 r2 (i + 1) ⟨exchange g.r1 i g.l, exchange g.r2 j g.l, g.l + 1⟩ ∧ g.l ≤ j := by
  have hi' : i < g.r1.length := h.perm1.length_eq.symm ▸ hi
  have hj' : j < g.r2.length := h.perm2.length_eq.symm ▸ hj
  have hnodup1 : (g.r1.map key).Nodup := (h.perm1.map key).nodup_iff.mpr hkeys1
  have hlj : g.l ≤ j := by
    by_contra hlt
    have hsame := (h.paired j (not_le.mp hlt)).trans hkey.symm
    have hij := eq_of_key hnodup1 (by have := h.le; omega) hsame
    have := h.le
    omega
  have hl1 : g.l < g.r1.length := lt_of_le_of_lt h.le hi'
  have hl2 : g.l < g.r2.length := lt_of_le_of_lt hlj hj'
  refine ⟨⟨exchange_perm.trans h.perm1, exchange_perm.trans h.perm2, Nat.succ_le_succ h.le, ?_, ?_, ?_⟩, hlj⟩
  · rw [exchange_perm.length_eq]
    exact hl2
  · intro k hk
    have hle := h.le
    simp only at hk ⊢
    rw [getElem?_exchange hi' hl1, getElem?_exchange hj' hl2]
    by_cases hkl : k = g.l
    · rw [if_pos hkl, if_pos hkl, hkey]
    · rw [if_neg hkl, if_neg hkl, if_neg (by omega), if_neg (by omega)]
      exact h.paired k (by omega)
  · intro k hlk hki a ha hmem
    simp only at hlk ha hmem
    rw [(exchange_perm.map key).mem_iff] at hmem
    rw [getElem?_exchange hi' hl1, if_neg (by omega)] at ha
    by_cases hik : k = i
    · rw [if_pos hik] at ha
      exact h.alone g.l le_rfl (by omega) a ha hmem
    · rw [if_neg hik] at ha
      exact h.alone k (by omega) (by omega) a ha hmem

/-- Within the second loop: the row has not met its pair, or it is done. -/
def Meeting (key : A → K) (r1 r2 : List A) (i j : ℕ) (g : Grouping A) : Prop :=
  (Grouped key r1 r2 i g ∧ ∀ k < j, g.r1[i]?.map key ≠ g.r2[k]?.map key) ∨
    (Grouped key r1 r2 (i + 1) g ∧ g.l ≤ j)

/-- A row that is done meets no other one. -/
theorem Grouped.unmet (hkeys2 : (r2.map key).Nodup) (h : Grouped key r1 r2 (i + 1) g) (hl : g.l ≤ j) (hi : i < r1.length)
    (hj : j < r2.length) : g.r1[i]?.map key ≠ g.r2[j]?.map key := by
  have hi' : i < g.r1.length := h.perm1.length_eq.symm ▸ hi
  have hj' : j < g.r2.length := h.perm2.length_eq.symm ▸ hj
  intro hkey
  by_cases hil : i < g.l
  · -- The row has its pair in the same place.
    have hsame := (h.paired i hil).symm.trans hkey
    have hnodup2 : (g.r2.map key).Nodup := (h.perm2.map key).nodup_iff.mpr hkeys2
    have hij := eq_of_key hnodup2 (lt_of_lt_of_le hil h.le2) hsame
    omega
  · refine h.alone i (not_lt.mp hil) (Nat.lt_succ_self i) _ (List.getElem?_eq_getElem hi') ?_
    rw [List.getElem?_eq_getElem hi', List.getElem?_eq_getElem hj'] at hkey
    exact List.mem_map.mpr ⟨_, List.getElem_mem hj', (Option.some.inj hkey).symm⟩

/-- Rows that meet are not yet in a pair. -/
theorem Meeting.le_of_meet (hkeys1 : (r1.map key).Nodup) (hkeys2 : (r2.map key).Nodup) (h : Meeting key r1 r2 i j g)
    (hi : i < r1.length) (hj : j < r2.length) (hkey : g.r1[i]?.map key = g.r2[j]?.map key) : g.l ≤ i ∧ g.l ≤ j := by
  rcases h with ⟨hgrouped, _⟩ | ⟨hgrouped, hl⟩
  · exact ⟨hgrouped.le, (hgrouped.pair hkeys1 hi hj hkey).2⟩
  · exact absurd hkey (hgrouped.unmet hkeys2 hl hi hj)

theorem Meeting.step [DecidableEq K] (hkeys1 : (r1.map key).Nodup) (hkeys2 : (r2.map key).Nodup) 
    (h : Meeting key r1 r2 i j g) (hi : i < r1.length) (hj : j < r2.length) :
    Meeting key r1 r2 i (j + 1) (g.step key i j) := by
  unfold Grouping.step
  rcases h with ⟨hgrouped, hfree⟩ | ⟨hgrouped, hl⟩
  · split_ifs with hkey
    · obtain ⟨hdone, hlj⟩ := hgrouped.pair hkeys1 hi hj hkey
      exact .inr ⟨hdone, Nat.succ_le_succ hlj⟩
    · refine .inl ⟨hgrouped, fun k hk => ?_⟩
      rcases Nat.lt_succ_iff_lt_or_eq.mp hk with hlt | rfl
      · exact hfree k hlt
      · exact hkey
  · rw [if_neg (hgrouped.unmet hkeys2 hl hi hj)]
    exact .inr ⟨hgrouped, hl.trans (Nat.le_succ j)⟩

theorem Meeting.run [DecidableEq K] (hkeys1 : (r1.map key).Nodup) (hkeys2 : (r2.map key).Nodup) 
    (h : Grouped key r1 r2 i g) (hi : i < r1.length) {n : ℕ} (hn : n ≤ r2.length) :
    Meeting key r1 r2 i n ((List.range n).foldl (fun g j => g.step key i j) g) := by
  induction n with
  | zero => exact .inl ⟨h, nofun⟩
  | succ n ih =>
    rw [List.range_succ, List.foldl_append]
    exact (ih (Nat.le_of_succ_le hn)).step hkeys1 hkeys2 hi hn

theorem Grouped.round [DecidableEq K] (hkeys1 : (r1.map key).Nodup) (hkeys2 : (r2.map key).Nodup) 
    (h : Grouped key r1 r2 i g) (hi : i < r1.length) :
    Grouped key r1 r2 (i + 1) ((List.range r2.length).foldl (fun g j => g.step key i j) g) := by
  rcases Meeting.run hkeys1 hkeys2 h hi le_rfl with ⟨hgrouped, hfree⟩ | ⟨hgrouped, _⟩
  · refine { hgrouped with le := hgrouped.le.trans (Nat.le_succ i), alone := fun k hlk hki a ha hmem => ?_ }
    rcases Nat.lt_succ_iff_lt_or_eq.mp hki with hlt | rfl
    · exact hgrouped.alone k hlk hlt a ha hmem
    · obtain ⟨b, hb, hkey⟩ := List.mem_map.mp hmem
      obtain ⟨j, hj⟩ := List.mem_iff_getElem?.mp hb
      have hjlt : j < r2.length := hgrouped.perm2.length_eq ▸ (List.getElem?_eq_some_iff.mp hj).1
      refine hfree j hjlt ?_
      rw [ha, hj, Option.map_some, Option.map_some, hkey]
  · exact hgrouped

end Pclsync.Syncs.Pairing
