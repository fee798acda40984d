import Pclsync.Lib.Intervals
import Mathlib.Data.Set.Pairwise.Basic

/-! A set divided into free intervals and used ones, and what taking an interval and giving
it back do to the division. -/
namespace Pclsync.Lib.Partition
open Intervals

variable {α : Type} [LinearOrder α] {whole : Set α} {free : List (α × α)} {used : Set (α × α)}

structure Parts (whole : Set α) (free : List (α × α)) (used : Set (α × α)) : Prop where
  separated : Separated free
  nonempty : ∀ i ∈ used, i.1 < i.2
  apart : used.Pairwise fun i j => Disjoint (Set.Ico i.1 i.2) (Set.Ico j.1 j.2)
  unused : ∀ i ∈ used, Disjoint (points free) (Set.Ico i.1 i.2)
  cover : whole = points free ∪ {x | ∃ i ∈ used, x ∈ Set.Ico i.1 i.2}

theorem Parts.points_subset (h : Parts whole free used) : points free ⊆ whole := by
  rw [h.cover]
  exact Set.subset_union_left

theorem Parts.used_subset (h : Parts whole free used) {i : α × α} (hi : i ∈ used) : Set.Ico i.1 i.2 ⊆ whole := by
  rw [h.cover]
  exact fun x hx => .inr ⟨i, hi, hx⟩

theorem Parts.take (h : Parts whole free used) {f t : α} (hft : f < t) (hin : Set.Ico f t ⊆ points free) :
    Parts whole (remove f t free) (insert (f, t) used) := by
  obtain ⟨hsep, hpoints⟩ := remove_spec hft h.separated
  refine ⟨hsep, ?_, ?_, ?_, ?_⟩
  · exact Set.forall_mem_insert.mpr ⟨hft, h.nonempty⟩
  · refine Set.Pairwise.insert h.apart fun i hi _ => ?_
    have hapart : Disjoint (Set.Ico f t) (Set.Ico i.1 i.2) := (h.unused i hi).mono_left hin
    exact ⟨hapart, hapart.symm⟩
  · rw [hpoints]
    refine Set.forall_mem_insert.mpr ⟨Set.disjoint_sdiff_left, fun i hi => ?_⟩
    exact (h.unused i hi).mono_left Set.sdiff_subset
  · rw [h.cover, hpoints]
    ext x
    simp only [Set.mem_union, Set.mem_sdiff, Set.mem_ofPred_eq, Set.exists_mem_insert]
    have hx : x ∈ Set.Ico f t → x ∈ points free := fun hx => hin hx
    tauto

theorem Parts.give (h : Parts whole free used) {i : α × α} (hi : i ∈ used) :
    Parts whole (add i.1 i.2 free) (used \ {i}) := by
  obtain ⟨hsep, hpoints⟩ := add_spec (h.nonempty i hi) h.separated
  refine ⟨hsep, fun j hj => h.nonempty j hj.1, Set.Pairwise.mono Set.sdiff_subset h.apart, ?_, ?_⟩
  · rintro j ⟨hj, hne⟩
    rw [hpoints, Set.disjoint_union_left]
    exact ⟨h.apart hi hj (Ne.symm hne), h.unused j hj⟩
  · rw [h.cover, hpoints]
    ext x
    simp only [Set.mem_union, Set.mem_ofPred_eq, Set.mem_sdiff, Set.mem_singleton_iff]
    constructor
    · rintro (hx | ⟨j, hj, hx⟩)
      · exact .inl (.inr hx)
      · by_cases hne : j = i
        · exact .inl (.inl (hne ▸ hx))
        · exact .inr ⟨j, ⟨hj, hne⟩, hx⟩
    · rintro ((hx | hx) | ⟨j, ⟨hj, -⟩, hx⟩)
      · exact .inr ⟨i, hi, hx⟩
      · exact .inl hx
      · exact .inr ⟨j, hj, hx⟩

/-- A separated list whose set is one interval is that interval. -/
theorem eq_singleton {a b : α} (hab : a < b) (hsep : Separated free) (hpoints : points free = Set.Ico a b) :
    free = [(a, b)] := by
  cases free with
  | nil =>
    have hmem : a ∈ points ([] : List (α × α)) := hpoints ▸ Set.left_mem_Ico.mpr hab
    simp at hmem
  | cons i rest =>
    obtain ⟨hi, hgap, -⟩ := separated_cons.mp hsep
    have hrest : rest = [] := by
      refine List.eq_nil_iff_forall_not_mem.mpr fun j hj => ?_
      -- the gap after the first interval would be in the set
      have hstart : i.1 ∈ Set.Ico a b := hpoints ▸ ⟨i, List.mem_cons_self .., le_refl _, hi⟩
      have hnext : j.1 ∈ Set.Ico a b :=
        hpoints ▸ ⟨j, List.mem_cons_of_mem _ hj, le_refl _, hsep.nonempty j (List.mem_cons_of_mem _ hj)⟩
      have hmem : i.2 ∈ points (i :: rest) :=
        hpoints ▸ ⟨hstart.1.trans hi.le, (hgap j hj).trans hnext.2⟩
      obtain ⟨k, hk, hle, hlt⟩ := hmem
      rcases List.mem_cons.mp hk with rfl | hk
      · exact lt_irrefl _ hlt
      · exact not_le_of_gt (hgap k hk) hle
    subst hrest
    have hsame : Set.Ico i.1 i.2 = Set.Ico a b := by simpa using hpoints
    obtain ⟨hleft, hright⟩ := (Set.Ico_eq_Ico_iff (.inr hab)).mp hsame
    rw [← hleft, ← hright]

/-- With nothing used the free list is the whole. -/
theorem Parts.all_free {a b : α} (h : Parts (Set.Ico a b) free ∅) (hab : a < b) : free = [(a, b)] := by
  refine eq_singleton hab h.separated ?_
  have hnone : {x | ∃ i ∈ (∅ : Set (α × α)), x ∈ Set.Ico i.1 i.2} = ∅ := by
    ext x
    simp
  rw [h.cover, hnone, Set.union_empty]

/-- A free interval that is the whole leaves nothing used. -/
theorem Parts.none_used {a b : α} (h : Parts (Set.Ico a b) free used) (hfree : (a, b) ∈ free) : used = ∅ := by
  refine Set.eq_empty_iff_forall_notMem.mpr fun i hi => ?_
  have hstart : i.1 ∈ Set.Ico i.1 i.2 := ⟨le_refl _, h.nonempty i hi⟩
  have hin : i.1 ∈ points free := ⟨(a, b), hfree, h.used_subset hi hstart⟩
  exact Set.disjoint_left.mp (h.unused i hi) hin hstart

end Pclsync.Lib.Partition
