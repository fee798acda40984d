import Pclsync.PageCache.Pages
import Mathlib.Algebra.Order.BigOperators.Group.Finset

/-! The counters of the read cache count what they should as long as no page leaves a list
without its counter. Where a page is is counted, so that the order of the lists plays no part. -/
namespace Pclsync.PageCache
open Lib.Machine Lib.Transition

variable {P : Type} [DecidableEq P] {n : ℕ}

/-- The number of pages in all buckets. -/
def State.total (s : State P n) : ℕ := ∑ h, (s.cacheHash h).length

/-- Each page is in one place. -/
def State.Once (s : State P n) : Prop := ∀ p, s.freePages.count p + s.inHash p + s.held.count p = 1

/-- `cache_pages_in_hash` still counts `k` pages that have left their buckets. -/
structure State.Ahead (s : State P n) (k : ℕ) : Prop where
  free : s.cachePagesFree = s.freePages.length
  inHash : s.cachePagesInHash = s.total + k
  once : s.Once

theorem sub32_of_le {a b : ℕ} (hle : b ≤ a) (ha : a < 2 ^ 32) : sub32 a b = a - b := by
  rw [sub32, u32_of_lt (x := b) (by omega), u32]
  omega

section
variable [Fintype P]

theorem length_eq_sum_count (l : List P) : l.length = ∑ p, l.count p := by
  rw [← List.sum_toFinset_count_eq_length]
  exact Finset.sum_subset (Finset.subset_univ _) fun p _ hp => List.count_eq_zero.mpr (by simpa using hp)

theorem State.total_eq (s : State P n) : s.total = ∑ p, s.inHash p := by
  simp only [total, inHash, length_eq_sum_count]
  exact Finset.sum_comm

theorem State.Once.lengths {s : State P n} (h : s.Once) :
    s.freePages.length + s.total + s.held.length = Fintype.card P := by
  rw [length_eq_sum_count, s.total_eq, length_eq_sum_count, ← Finset.sum_add_distrib, ← Finset.sum_add_distrib,
    Finset.sum_congr rfl fun p _ => h p]
  simp

end

theorem inHash_ne_zero {s : State P n} {p : P} {i : Fin n} (h : p ∈ s.cacheHash i) : s.inHash p ≠ 0 := by
  have hle : (s.cacheHash i).count p ≤ s.inHash p :=
    Finset.single_le_sum (f := fun h => (s.cacheHash h).count p) (fun _ _ => Nat.zero_le _) (Finset.mem_univ i)
  have := List.count_pos_iff.mpr h
  omega

/-! ### One page -/

variable {s : State P n} {p : P} {k : ℕ}

theorem State.Once.of_hash (h : s.Once) (hp : s.inHash p ≠ 0) : s.inHash p = 1 ∧ p ∉ s.freePages ∧ p ∉ s.held := by
  have := h p
  refine ⟨by omega, ?_, ?_⟩ <;> rw [← List.count_eq_zero] <;> omega

/-- The page leaves the one bucket where it is. -/
theorem listDel_inHash (h : s.Once) (hp : s.inHash p ≠ 0) (q : P) :
    (s.listDel p).inHash q = if q = p then 0 else s.inHash q := by
  show ∑ i, ((s.cacheHash i).erase p).count q = _
  by_cases hq : q = p
  · subst hq
    rw [if_pos rfl, Finset.sum_eq_zero]
    intro i _
    have hle : (s.cacheHash i).count q ≤ s.inHash q :=
      Finset.single_le_sum (f := fun h => (s.cacheHash h).count q) (fun _ _ => Nat.zero_le _) (Finset.mem_univ i)
    rw [List.count_erase_self]
    have := (h.of_hash hp).1
    omega
  · rw [if_neg hq]
    exact Finset.sum_congr rfl fun i _ => List.count_erase_of_ne hq

theorem listDel_freePages (h : s.Once) (hp : s.inHash p ≠ 0) : (s.listDel p).freePages = s.freePages :=
  List.erase_of_not_mem (h.of_hash hp).2.1

theorem toFree_freePages (h : s.Once) (hp : s.inHash p ≠ 0) : (s.toFree p).freePages = p :: s.freePages :=
  congrArg (p :: ·) (listDel_freePages h hp)

theorem toFree_inHash (h : s.Once) (hp : s.inHash p ≠ 0) (q : P) :
    (s.toFree p).inHash q = if q = p then 0 else s.inHash q :=
  listDel_inHash h hp q

theorem toFree_once (h : s.Once) (hp : s.inHash p ≠ 0) : (s.toFree p).Once := by
  intro q
  have hq := h q
  rw [toFree_freePages h hp, toFree_inHash h hp, show (s.toFree p).held = s.held from rfl, List.count_cons]
  by_cases hqp : q = p
  · subst hqp
    have := (h.of_hash hp).1
    simp
    omega
  · simpa [hqp, Ne.symm hqp] using hq

theorem addTail_inHash [NeZero n] (q : P) : (s.addTail p).inHash q = s.inHash q + if q = p then 1 else 0 := by
  let i : Fin n := pagehash (s.page p).hash (s.page p).pageid
  have hcount : ∀ j, (Function.update s.cacheHash i (s.cacheHash i ++ [p]) j).count q
      = (s.cacheHash j).count q + if j = i then (if q = p then 1 else 0) else 0 := by
    intro j
    by_cases hj : j = i
    · subst hj
      by_cases hq : q = p
      · simp [hq]
      · simp [hq, Ne.symm hq]
    · simp [hj]
  show ∑ j, (Function.update s.cacheHash i (s.cacheHash i ++ [p]) j).count q = _
  rw [Finset.sum_congr rfl fun j _ => hcount j, Finset.sum_add_distrib, Finset.sum_ite_eq' Finset.univ i]
  simp [State.inHash]

/-- The counter catches up with `j` of the pages. -/
theorem lower_ahead {j : ℕ} (h : s.Ahead (k + j)) (hlt : s.total + (k + j) < 2 ^ 32) :
    ({ s with cachePagesInHash := sub32 s.cachePagesInHash j } : State P n).Ahead k where
  free := h.free
  inHash := by
    have := h.inHash
    show sub32 s.cachePagesInHash j = s.total + k
    rw [sub32_of_le (by omega) (by omega)]
    omega
  once := h.once

/-! ### The pages of a type -/

theorem count_ofType (s : State P n) (type : PageType) (p : P) :
    (s.ofType type).count p = if (s.page p).type = type then s.inHash p else 0 := by
  rw [State.ofType, List.count_flatMap, ← Fin.sum_univ_def]
  by_cases ht : (s.page p).type = type
  · rw [if_pos ht]
    exact Finset.sum_congr rfl fun i _ => List.count_filter (by simpa using ht)
  · rw [if_neg ht]
    exact Finset.sum_eq_zero fun i _ => List.count_eq_zero.mpr fun hm => ht (by simpa using (List.mem_filter.mp hm).2)

theorem ofType_nodup (h : s.Once) (type : PageType) : (s.ofType type).Nodup := by
  rw [List.nodup_iff_count_le_one]
  intro p
  have := h p
  rw [count_ofType]
  split <;> omega

theorem mem_ofType {type : PageType} : p ∈ s.ofType type ↔ (s.page p).type = type ∧ s.inHash p ≠ 0 := by
  rw [← List.count_pos_iff, count_ofType]
  split <;> simp_all [Nat.pos_iff_ne_zero]

/-! ### Freeing the pages of a list -/

theorem discard_inHash (s : State P n) (p : P) : (s.discard p).inHash = (s.toFree p).inHash :=
  funext fun q => by rw [State.inHash, State.discard]; rfl

/-- What `flush_pages` does with the pages of a list: each becomes free. -/
structure Freed (s s' : State P n) (l : List P) : Prop where
  inHash : ∀ q, s'.inHash q = if q ∈ l then 0 else s.inHash q
  page : s'.page = s.page

/-- `f` frees a page, and the counter is `d` further ahead afterwards. -/
theorem foldl_freed {f : State P n → P → State P n} {d j : ℕ}
    (hf : ∀ {s j p}, s.Ahead (d * j) → s.inHash p ≠ 0 →
      (f s p).Ahead (d * (j + 1)) ∧ (f s p).inHash = (s.toFree p).inHash ∧ (f s p).page = s.page)
    {l : List P} (hnodup : l.Nodup) (hl : ∀ p ∈ l, s.inHash p ≠ 0) (h : s.Ahead (d * j)) :
    (l.foldl f s).Ahead (d * (j + l.length)) ∧ Freed s (l.foldl f s) l := by
  induction l generalizing s j with
  | nil => exact ⟨h, by simp, rfl⟩
  | cons p l ih =>
    obtain ⟨hahead, hinHash, hpage⟩ := hf h (hl p List.mem_cons_self)
    have hrest : ∀ q, (f s p).inHash q = if q = p then 0 else s.inHash q := fun q => by
      rw [hinHash, toFree_inHash h.once (hl p List.mem_cons_self)]
    obtain ⟨hnot, hnodup⟩ := List.nodup_cons.mp hnodup
    have hl' : ∀ q ∈ l, (f s p).inHash q ≠ 0 := by
      intro q hq
      rw [hrest, if_neg (fun heq : q = p => hnot (heq ▸ hq))]
      exact hl q (List.mem_cons_of_mem p hq)
    obtain ⟨hahead', hfreed⟩ := ih hnodup hl' hahead
    refine ⟨?_, fun q => ?_, hfreed.page.trans hpage⟩
    · rw [List.length_cons, Nat.add_comm l.length, ← Nat.add_assoc]
      exact hahead'
    · rw [List.foldl_cons, hfreed.inHash, hrest]
      by_cases hq : q = p
      · simp [hq]
      · simp [hq]

section
variable [Fintype P]

theorem toFree_total (h : s.Once) (hp : s.inHash p ≠ 0) : (s.toFree p).total + 1 = s.total := by
  have hrest : ∑ q ∈ Finset.univ.erase p, (s.toFree p).inHash q = ∑ q ∈ Finset.univ.erase p, s.inHash q :=
    Finset.sum_congr rfl fun q hq => by rw [toFree_inHash h hp, if_neg (Finset.ne_of_mem_erase hq)]
  rw [State.total_eq, State.total_eq, ← Finset.add_sum_erase _ _ (Finset.mem_univ p), hrest,
    ← Finset.add_sum_erase Finset.univ s.inHash (Finset.mem_univ p), toFree_inHash h hp, if_pos rfl, (h.of_hash hp).1]
  omega

theorem addTail_total [NeZero n] : (s.addTail p).total = s.total + 1 := by
  rw [State.total_eq, State.total_eq, Finset.sum_congr rfl fun q _ => addTail_inHash q, Finset.sum_add_distrib]
  simp

theorem toFree_ahead (hcard : Fintype.card P < 2 ^ 32) (h : s.Ahead k) (hp : s.inHash p ≠ 0) : (s.toFree p).Ahead (k + 1) where
  free := by
    have hlen : (s.toFree p).freePages.length = s.freePages.length + 1 := by rw [toFree_freePages h.once hp]; rfl
    have := (toFree_once h.once hp).lengths
    rw [hlen, show (s.toFree p).cachePagesFree = u32 (s.cachePagesFree + 1) from rfl, h.free, u32_of_lt (by omega)]
  inHash := by
    have := toFree_total h.once hp
    have := h.inHash
    show s.cachePagesInHash = _
    omega
  once := toFree_once h.once hp

variable (hcard : Fintype.card P < 2 ^ 32) {l : List P}
include hcard

theorem toFree_freed (hnodup : l.Nodup) (hl : ∀ p ∈ l, s.inHash p ≠ 0) (h : s.Ahead 0) :
    (l.foldl State.toFree s).Ahead l.length ∧ Freed s (l.foldl State.toFree s) l := by
  have := foldl_freed (f := State.toFree) (d := 1) (j := 0)
    (fun h hp => ⟨by rw [Nat.one_mul] at h ⊢; exact toFree_ahead hcard h hp, rfl, rfl⟩) hnodup hl h
  rwa [Nat.one_mul, Nat.zero_add] at this

theorem discard_ahead (h : s.Ahead 0) (hp : s.inHash p ≠ 0) : (s.discard p).Ahead 0 := by
  have := toFree_total h.once hp
  have := h.once.lengths
  exact lower_ahead (toFree_ahead hcard h hp) (by omega)

theorem discard_freed (hnodup : l.Nodup) (hl : ∀ p ∈ l, s.inHash p ≠ 0) (h : s.Ahead 0) :
    (l.foldl State.discard s).Ahead 0 ∧ Freed s (l.foldl State.discard s) l := by
  have := foldl_freed (f := State.discard) (d := 0) (j := 0)
    (fun h hp => ⟨by rw [Nat.zero_mul] at h ⊢; exact discard_ahead hcard h hp, discard_inHash .., rfl⟩) hnodup hl h
  rwa [Nat.zero_mul] at this

end

end Pclsync.PageCache
