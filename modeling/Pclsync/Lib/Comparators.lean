import Mathlib.Data.List.Sort
import Mathlib.Tactic.Common

/-! Three-way comparisons, as `qsort` takes them, and lists of which the end is cut off. -/
namespace Pclsync.Lib.Comparators

variable {α β κ : Type}

/-- A comparison is a total preorder on a list. -/
structure Consistent (cmp : α → α → ℤ) (l : List α) : Prop where
  swap : ∀ a ∈ l, ∀ b ∈ l, 0 < cmp a b ↔ cmp b a < 0
  trans : ∀ a ∈ l, ∀ b ∈ l, ∀ c ∈ l, cmp a b ≤ 0 → cmp b c ≤ 0 → cmp a c ≤ 0

/-- It is the order of a key. -/
def ByKey [LinearOrder κ] (cmp : α → α → ℤ) (key : α → κ) (l : List α) : Prop :=
  ∀ a ∈ l, ∀ b ∈ l, (cmp a b < 0 ↔ key a < key b) ∧ (0 < cmp a b ↔ key b < key a)

/-- What is promised of `qsort`: where the comparison is consistent the elements are in order. -/
structure Sorts (sort : (α → α → ℤ) → List α → List α) : Prop where
  perm : ∀ cmp l, (sort cmp l).Perm l
  sorted : ∀ cmp l, Consistent cmp l → (sort cmp l).Pairwise fun a b => cmp a b ≤ 0

/-- Of a list `kept` has `k` elements, and none of the others has a higher key than one of them. -/
structure Reserves [LinearOrder κ] (key : α → κ) (k : ℕ) (l rest kept : List α) : Prop where
  perm : l.Perm (rest ++ kept)
  length : kept.length = k
  highest : ∀ a ∈ rest, ∀ b ∈ kept, key a ≤ key b

variable [LinearOrder κ] {cmp : α → α → ℤ} {key : α → κ} {l l' : List α} {sort : (α → α → ℤ) → List α → List α}

theorem Consistent.subset (h : Consistent cmp l) (hsub : l' ⊆ l) : Consistent cmp l' where
  swap a ha b hb := h.swap a (hsub ha) b (hsub hb)
  trans a ha b hb c hc := h.trans a (hsub ha) b (hsub hb) c (hsub hc)

theorem Consistent.self (h : Consistent cmp l) {a : α} (ha : a ∈ l) : cmp a a ≤ 0 := by
  have hself := h.swap a ha a ha
  omega

theorem Consistent.symm (h : Consistent cmp l) {a b : α} (ha : a ∈ l) (hb : b ∈ l) (hab : cmp a b = 0) : cmp b a = 0 := by
  have hswap := h.swap a ha b hb
  have hswap' := h.swap b hb a ha
  omega

theorem Consistent.equal_trans (h : Consistent cmp l) {a b c : α} (ha : a ∈ l) (hb : b ∈ l) (hc : c ∈ l) (hab : cmp a b = 0)
    (hbc : cmp b c = 0) : cmp a c = 0 := by
  have hac := h.trans a ha b hb c hc hab.le hbc.le
  have hca := h.trans c hc b hb a ha (h.symm hb hc hbc).le (h.symm ha hb hab).le
  have hswap := h.swap c hc a ha
  omega

theorem Consistent.head (h : Consistent cmp l) {a b : α} (ha : a ∈ l) (hl' : (a :: l').Pairwise fun a b => cmp a b ≤ 0) (hb : b ∈ a :: l') :
    cmp a b ≤ 0 := by
  rcases List.mem_cons.mp hb with rfl | hb
  · exact h.self ha
  · exact (List.pairwise_cons.mp hl').1 b hb

theorem ByKey.le_iff (h : ByKey cmp key l) {a b : α} (ha : a ∈ l) (hb : b ∈ l) : cmp a b ≤ 0 ↔ key a ≤ key b := by
  rw [← not_lt, ← not_lt, (h a ha b hb).2]

theorem ByKey.consistent (h : ByKey cmp key l) : Consistent cmp l where
  swap a ha b hb := by rw [(h a ha b hb).2, (h b hb a ha).1]
  trans a ha b hb c hc hab hbc := by
    rw [h.le_iff ha hb] at hab
    rw [h.le_iff hb hc] at hbc
    rw [h.le_iff ha hc]
    exact le_trans hab hbc

/-- The last elements of a list in order are those with the highest keys. -/
theorem reserves_of_sorts (hsort : Sorts sort) (h : ByKey cmp key l) {k : ℕ} (hk : k ≤ l.length) :
    Reserves key k l ((sort cmp l).take (l.length - k)) ((sort cmp l).drop (l.length - k)) where
  perm := by
    rw [List.take_append_drop]
    exact (hsort.perm cmp l).symm
  length := by
    rw [List.length_drop, (hsort.perm cmp l).length_eq]
    omega
  highest a ha b hb := by
    have hsorted := hsort.sorted cmp l h.consistent
    rw [← List.take_append_drop (l.length - k) (sort cmp l)] at hsorted
    have hle := (List.pairwise_append.mp hsorted).2.2 a ha b hb
    have hmem : ∀ c ∈ sort cmp l, c ∈ l := fun c hc => (hsort.perm cmp l).mem_iff.mp hc
    exact (h.le_iff (hmem a (List.mem_of_mem_take ha)) (hmem b (List.mem_of_mem_drop hb))).mp hle

theorem Reserves.mem_rest {k : ℕ} {rest kept : List α} (h : Reserves key k l rest kept) {a : α} (ha : a ∈ rest) : a ∈ l :=
  h.perm.mem_iff.mpr (List.mem_append_left _ ha)

theorem Reserves.length_rest {k : ℕ} {rest kept : List α} (h : Reserves key k l rest kept) : rest.length + k = l.length := by
  rw [← h.length, ← List.length_append, h.perm.length_eq]

/-- A list that is made anew from another has its elements, in some order. -/
theorem exists_perm_of_map {f : α → β} {m : List β} (h : m.Perm (l.map f)) :
    ∃ l' : List α, l'.Perm l ∧ l'.map f = m := by
  induction l generalizing m with
  | nil => exact ⟨[], .refl _, h.eq_nil.symm⟩
  | cons a l ih =>
    rw [List.map_cons] at h
    obtain ⟨before, after, rfl⟩ := List.append_of_mem (h.mem_iff.mpr (.head _))
    have hperm : (before ++ after).Perm (l.map f) := (List.perm_middle.symm.trans h).cons_inv
    obtain ⟨l', hl', hmap⟩ := ih hperm
    obtain ⟨b, c, rfl, rfl, rfl⟩ := List.map_eq_append_iff.mp hmap
    exact ⟨b ++ a :: c, List.perm_middle.trans (hl'.cons a), by rw [List.map_append, List.map_cons]⟩

/-- What is kept of the images is kept of the elements. -/
theorem Reserves.of_map {f : α → β} {key' : β → κ} {k : ℕ} {rest kept : List β} (h : Reserves key' k (l.map f) rest kept)
    (hkey : ∀ a ∈ l, key' (f a) = key a) :
    ∃ rest' kept', rest'.map f = rest ∧ Reserves key k l rest' kept' := by
  obtain ⟨l', hl', hmap⟩ := exists_perm_of_map h.perm.symm
  obtain ⟨rest', kept', rfl, rfl, rfl⟩ := List.map_eq_append_iff.mp hmap
  refine ⟨rest', kept', rfl, hl'.symm, (List.length_map f).symm.trans h.length, fun a ha b hb => ?_⟩
  rw [← hkey a (hl'.mem_iff.mp (List.mem_append_left _ ha)), ← hkey b (hl'.mem_iff.mp (List.mem_append_right _ hb))]
  exact h.highest _ (List.mem_map_of_mem ha) _ (List.mem_map_of_mem hb)

/-- Insertion, on the elements of the list. -/
def sortBy (cmp : α → α → ℤ) (l : List α) : List α := (l.attach.insertionSort fun a b => cmp a.1 b.1 ≤ 0).map Subtype.val

theorem sortBy_sorts : Sorts (sortBy (α := α)) where
  perm cmp l := by
    have hperm := (List.perm_insertionSort (fun a b : { a // a ∈ l } => cmp a.1 b.1 ≤ 0) l.attach).map Subtype.val
    rwa [List.attach_map_subtype_val] at hperm
  sorted cmp l h := by
    have htotal : Std.Total fun a b : { a // a ∈ l } => cmp a.1 b.1 ≤ 0 := ⟨fun a b => by
      rw [← not_lt, ← not_lt, h.swap a.1 a.2 b.1 b.2]
      omega⟩
    have htrans : IsTrans { a // a ∈ l } fun a b => cmp a.1 b.1 ≤ 0 :=
      ⟨fun a b c => h.trans a.1 a.2 b.1 b.2 c.1 c.2⟩
    exact (List.pairwise_insertionSort (fun a b : { a // a ∈ l } => cmp a.1 b.1 ≤ 0) l.attach).map Subtype.val fun _ _ h => h

end Pclsync.Lib.Comparators
