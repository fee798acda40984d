import Pclsync.LockedMemory.Ranges
import Mathlib.Data.List.Pairwise

/-! Where the live blocks are: every one in a range, and every range divided into its blocks
and its free intervals. -/
namespace Pclsync.LockedMemory
open Lib.Intervals Lib.Partition

/-- The pointers that were returned and not freed, with the sizes they were asked for. -/
abbrev Live := ℕ → Option ℕ

/-- The blocks that start in a range, as intervals of offsets. -/
def blocks (live : Live) (r : Range) : Set (ℕ × ℕ) :=
  {i | i.1 < r.size ∧ ∃ size, live (r.mem + i.1 + sizeofSizeT) = some size ∧ i.2 = i.1 + withOverhead size}

/-- A block at the offset gives a pointer that is aligned. -/
def Aligned (offset : ℕ) : Prop := (offset + sizeofSizeT) % lmAlignTo = 0

instance (offset : ℕ) : Decidable (Aligned offset) := inferInstanceAs (Decidable (_ = _))

theorem Aligned.next {offset : ℕ} (h : Aligned offset) (size : ℕ) : Aligned (offset + withOverhead size) := by
  have hsize := withOverhead_aligned size
  unfold Aligned at *
  unfold lmAlignTo sizeofSizeT at *
  omega

structure Range.Divided (live : Live) (r : Range) : Prop where
  parts : Parts (Set.Ico lmRangeOverhead r.size) r.freeintervals (blocks live r)
  starts : ∀ i ∈ r.freeintervals, Aligned i.1
  aligned : ∀ i ∈ blocks live r, Aligned i.1

variable {live live' : Live} {r r' : Range} {ranges : List Range} {offset size : ℕ}

theorem blocks_congr (hmem : r'.mem = r.mem) (hsize : r'.size = r.size)
    (hlive : ∀ offset < r.size, live' (r.mem + offset + sizeofSizeT) = live (r.mem + offset + sizeofSizeT)) :
    blocks live' r' = blocks live r := by
  ext i
  unfold blocks
  rw [Set.mem_ofPred_eq, Set.mem_ofPred_eq, hmem, hsize]
  refine and_congr_right fun hlt => ?_
  rw [hlive i.1 hlt]

theorem Range.Divided.congr (h : r.Divided live) (hsize : r'.size = r.size)
    (hfree : r'.freeintervals = r.freeintervals) (hblocks : blocks live' r' = blocks live r) : r'.Divided live' where
  parts := by
    rw [hsize, hfree, hblocks]
    exact h.parts
  starts := by
    rw [hfree]
    exact h.starts
  aligned := by
    rw [hblocks]
    exact h.aligned

/-- Free offsets are in the range, and no block starts there. -/
theorem Range.Divided.free_offset (h : r.Divided live) (hin : offset ∈ points r.freeintervals) :
    lmRangeOverhead ≤ offset ∧ offset < r.size ∧ ∀ i ∈ blocks live r, i.1 ≠ offset := by
  have hwhole := h.parts.points_subset hin
  refine ⟨hwhole.1, hwhole.2, ?_⟩
  rintro i hi rfl
  exact Set.disjoint_left.mp (h.parts.unused i hi) hin ⟨le_refl _, h.parts.nonempty i hi⟩

theorem blocks_take (hlt : offset < r.size) (hnone : ∀ i ∈ blocks live r, i.1 ≠ offset) :
    blocks (Function.update live (r.mem + offset + sizeofSizeT) (some size)) r =
      insert (offset, offset + withOverhead size) (blocks live r) := by
  ext i
  rw [Set.mem_insert_iff]
  by_cases hi : i.1 = offset
  · constructor
    · rintro ⟨-, n, hn, hend⟩
      rw [hi, Function.update_self] at hn
      rw [← Option.some_inj.mp hn, hi] at hend
      exact .inl (Prod.ext hi hend)
    · rintro (rfl | hmem)
      · exact ⟨hlt, size, Function.update_self .., rfl⟩
      · exact absurd hi (hnone i hmem)
  · have hne : r.mem + i.1 + sizeofSizeT ≠ r.mem + offset + sizeofSizeT := by omega
    have hsame : i ∈ blocks (Function.update live (r.mem + offset + sizeofSizeT) (some size)) r ↔ i ∈ blocks live r := by
      unfold blocks
      rw [Set.mem_ofPred_eq, Set.mem_ofPred_eq, Function.update_of_ne hne]
    rw [hsame]
    refine ⟨.inr, ?_⟩
    rintro (rfl | hmem)
    · exact absurd rfl hi
    · exact hmem

theorem blocks_give {i : ℕ × ℕ} (hi : i ∈ blocks live r) :
    blocks (Function.update live (r.mem + i.1 + sizeofSizeT) none) r = blocks live r \ {i} := by
  obtain ⟨hlt, size, hlive, hend⟩ := hi
  ext j
  by_cases hj : j.1 = i.1
  · constructor
    · rintro ⟨-, n, hn, -⟩
      rw [hj, Function.update_self] at hn
      exact nomatch hn
    · rintro ⟨⟨-, n, hn, hend'⟩, hne⟩
      rw [hj, hlive] at hn
      rw [hj, ← Option.some_inj.mp hn, ← hend] at hend'
      exact absurd (Prod.ext hj hend') hne
  · have hne : r.mem + j.1 + sizeofSizeT ≠ r.mem + i.1 + sizeofSizeT := by omega
    unfold blocks
    rw [Set.mem_sdiff, Set.mem_ofPred_eq, Set.mem_ofPred_eq, Function.update_of_ne hne, Set.mem_singleton_iff]
    refine ⟨fun h => ⟨h, ?_⟩, And.left⟩
    rintro rfl
    exact hj rfl

theorem withOverhead_pos (hfits : Fits size) : 0 < withOverhead size :=
  Nat.lt_of_lt_of_le (by decide) ((Nat.le_add_left ..).trans (withOverhead_ge hfits))

/-- A block taken from a free interval. -/
theorem Range.Divided.take (h : r.Divided live) (hfits : Fits size) (haligned : Aligned offset)
    (hin : Set.Ico offset (offset + withOverhead size) ⊆ points r.freeintervals) :
    ({ r with freeintervals := remove offset (offset + withOverhead size) r.freeintervals } : Range).Divided
      (Function.update live (r.mem + offset + sizeofSizeT) (some size)) := by
  have hlt : offset < offset + withOverhead size := Nat.lt_add_of_pos_right (withOverhead_pos hfits)
  obtain ⟨-, hbound, hnone⟩ := h.free_offset (hin ⟨le_refl _, hlt⟩)
  have hblocks := @blocks_take _ _ _ size hbound hnone
  refine ⟨?_, fun i hi => ?_, ?_⟩
  · exact hblocks ▸ h.parts.take hlt hin
  · rcases fst_of_mem_remove hi with heq | ⟨j, hj, heq⟩
    · exact heq ▸ haligned.next size
    · exact heq ▸ h.starts j hj
  · change ∀ i ∈ blocks _ r, Aligned i.1
    rw [hblocks]
    exact Set.forall_mem_insert.mpr ⟨haligned, h.aligned⟩

/-- A block given back. -/
theorem Range.Divided.give (h : r.Divided live) {i : ℕ × ℕ} (hi : i ∈ blocks live r) :
    ({ r with freeintervals := add i.1 i.2 r.freeintervals } : Range).Divided
      (Function.update live (r.mem + i.1 + sizeofSizeT) none) := by
  have hblocks := blocks_give hi
  refine ⟨?_, fun j hj => ?_, ?_⟩
  · exact hblocks ▸ h.parts.give hi
  · rcases fst_of_mem_add hj with heq | ⟨k, hk, heq⟩
    · exact heq ▸ h.aligned i hi
    · exact heq ▸ h.starts k hk
  · change ∀ i ∈ blocks _ r, Aligned i.1
    rw [hblocks]
    exact fun j hj => h.aligned j hj.1

/-! ### All ranges -/

structure Placed (live : Live) (ranges : List Range) : Prop where
  apart : Apart ranges
  divided : ∀ r ∈ ranges, r.Divided live
  held : ∀ r ∈ ranges, (blocks live r).Nonempty
  inside : ∀ ptr size, live ptr = some size →
    Fits size ∧ ∃ r ∈ ranges, ∃ offset < r.size, ptr = r.mem + offset + sizeofSizeT

theorem Placed.pos (h : Placed live ranges) (hr : r ∈ ranges) : 0 < r.size := by
  obtain ⟨i, hi⟩ := h.held r hr
  exact Nat.zero_lt_of_lt hi.1

theorem Range.Clear.ne (h : r.Clear r') (hpos : 0 < r.size) (hpos' : 0 < r'.size) : r.mem ≠ r'.mem := by
  unfold Range.Clear Range.end_ at h
  omega

/-- Two ranges are one or clear of each other. -/
theorem Apart.eq_or_clear (h : Apart ranges) (hr : r ∈ ranges) (hr' : r' ∈ ranges) : r = r' ∨ r.Clear r' := by
  by_cases heq : r = r'
  · exact .inl heq
  · have hclear : ranges.Pairwise Range.Clear := h.imp fun hle => .inl hle
    have : Std.Symm Range.Clear := ⟨fun _ _ hclear => hclear.symm⟩
    exact .inr (hclear.forall hr hr' heq)

theorem Placed.eq_of_mem (h : Placed live ranges) (hr : r ∈ ranges) (hr' : r' ∈ ranges) (hmem : r.mem = r'.mem) : r = r' := by
  rcases h.apart.eq_or_clear hr hr' with heq | hclear
  · exact heq
  · exact absurd hmem (hclear.ne (h.pos hr) (h.pos hr'))

/-- A pointer into one range is none into another. -/
theorem Range.Clear.ptr_ne (h : r.Clear r') {offset' : ℕ} (hlt : offset < r.size) (hlt' : offset' < r'.size) :
    r.mem + offset + sizeofSizeT ≠ r'.mem + offset' + sizeofSizeT := by
  unfold Range.Clear Range.end_ at h
  omega

/-- A change of one pointer is no change to the ranges it is not in. -/
theorem blocks_elsewhere (hclear : r.Clear r') (hlt : offset < r'.size) {v : Option ℕ} :
    blocks (Function.update live (r'.mem + offset + sizeofSizeT) v) r = blocks live r :=
  blocks_congr rfl rfl fun _ hoffset => Function.update_of_ne (hclear.ptr_ne hoffset hlt) _ _

/-- The block that a live pointer is for. -/
theorem Placed.block (h : Placed live ranges) {ptr : ℕ} (hptr : live ptr = some size) :
    Fits size ∧ ∃ r ∈ ranges, ∃ i ∈ blocks live r, ptr = r.mem + i.1 + sizeofSizeT ∧ i.2 = i.1 + withOverhead size := by
  obtain ⟨hfits, r, hr, offset, hlt, rfl⟩ := h.inside ptr size hptr
  exact ⟨hfits, r, hr, (offset, offset + withOverhead size), ⟨hlt, size, hptr, rfl⟩, rfl, rfl⟩

/-- The range that starts at `mem`, changed. -/
def changeAt (mem : ℕ) (f : Range → Range) (r : Range) : Range := if r.mem = mem then f r else r

/-- The ranges with the one that starts at `mem` changed. -/
def updateRange (mem : ℕ) (f : Range → Range) (ranges : List Range) : List Range := ranges.map (changeAt mem f)

/-- A change that leaves a range where it is. -/
def Stays (f : Range → Range) : Prop := ∀ r, (f r).mem = r.mem ∧ (f r).size = r.size

variable {f : Range → Range} {mem : ℕ}

theorem Stays.changeAt (hf : Stays f) (mem : ℕ) : Stays (changeAt mem f) := fun r => by
  unfold LockedMemory.changeAt
  split_ifs
  · exact hf r
  · exact ⟨rfl, rfl⟩

theorem Stays.end_ (hf : Stays f) (r : Range) : (f r).end_ = r.end_ := by
  unfold Range.end_
  rw [(hf r).1, (hf r).2]

theorem Apart.update (h : Apart ranges) (hf : Stays f) : Apart (updateRange mem f ranges) := by
  refine List.pairwise_map.mpr (h.imp fun {r r'} hle => ?_)
  rw [(hf.changeAt mem).end_ r, (hf.changeAt mem r').1]
  exact hle

theorem Placed.mem_update (h : Placed live ranges) (hr : r ∈ ranges) (hmem : r' ∈ updateRange r.mem f ranges) :
    r' = f r ∨ r' ∈ ranges ∧ r'.Clear r := by
  obtain ⟨r₁, hr₁, rfl⟩ := List.mem_map.mp hmem
  unfold changeAt
  split_ifs with hsame
  · rw [h.eq_of_mem hr₁ hr hsame]
    exact .inl rfl
  · refine .inr ⟨hr₁, ?_⟩
    rcases h.apart.eq_or_clear hr₁ hr with rfl | hclear
    · exact absurd rfl hsame
    · exact hclear

theorem Placed.update (h : Placed live ranges) (hr : r ∈ ranges) (hf : Stays f) (hlt : offset < r.size) {v : Option ℕ}
    (hdivided : (f r).Divided (Function.update live (r.mem + offset + sizeofSizeT) v))
    (hheld : (blocks (Function.update live (r.mem + offset + sizeofSizeT) v) r).Nonempty) (hv : ∀ size ∈ v, Fits size) :
    Placed (Function.update live (r.mem + offset + sizeofSizeT) v) (updateRange r.mem f ranges) where
  apart := h.apart.update hf
  divided r' hr' := by
    rcases h.mem_update hr hr' with rfl | ⟨hr', hclear⟩
    · exact hdivided
    · exact (h.divided r' hr').congr rfl rfl (blocks_elsewhere hclear hlt)
  held r' hr' := by
    rcases h.mem_update hr hr' with rfl | ⟨hr', hclear⟩
    · rwa [blocks_congr (hf r).1 (hf r).2 fun _ _ => rfl]
    · rw [blocks_elsewhere hclear hlt]
      exact h.held r' hr'
  inside ptr size hptr := by
    have hmoved : ∀ r₁ ∈ ranges, changeAt r.mem f r₁ ∈ updateRange r.mem f ranges := fun r₁ hr₁ => List.mem_map_of_mem hr₁
    have hstays := hf.changeAt r.mem
    by_cases hsame : ptr = r.mem + offset + sizeofSizeT
    · subst hsame
      rw [Function.update_self] at hptr
      refine ⟨hv size hptr, _, hmoved r hr, offset, ?_, ?_⟩
      · rwa [(hstays r).2]
      · rw [(hstays r).1]
    · rw [Function.update_of_ne hsame] at hptr
      obtain ⟨hfits, r₁, hr₁, offset₁, hlt₁, rfl⟩ := h.inside ptr size hptr
      refine ⟨hfits, _, hmoved r₁ hr₁, offset₁, ?_, ?_⟩
      · rwa [(hstays r₁).2]
      · rw [(hstays r₁).1]

/-- Where a range is locked or not does not matter. -/
theorem Placed.relock (h : Placed live ranges) (locked : Bool) :
    Placed live (updateRange mem (fun r => { r with locked := locked }) ranges) := by
  have hstays := Stays.changeAt (f := fun r => { r with locked := locked }) (fun _ => ⟨rfl, rfl⟩) mem
  have hfree : ∀ r, (changeAt mem (fun r => { r with locked := locked }) r).freeintervals = r.freeintervals := fun r => by
    unfold changeAt
    split_ifs <;> rfl
  refine ⟨h.apart.update fun _ => ⟨rfl, rfl⟩, fun r hr => ?_, fun r hr => ?_, fun ptr size hptr => ?_⟩
  · obtain ⟨r, hr', rfl⟩ := List.mem_map.mp hr
    exact (h.divided r hr').congr (hstays r).2 (hfree r) (blocks_congr (hstays r).1 (hstays r).2 fun _ _ => rfl)
  · obtain ⟨r, hr', rfl⟩ := List.mem_map.mp hr
    rw [blocks_congr (hstays r).1 (hstays r).2 fun _ _ => rfl]
    exact h.held r hr'
  · obtain ⟨hfits, r, hr, offset, hlt, rfl⟩ := h.inside ptr size hptr
    refine ⟨hfits, _, List.mem_map_of_mem hr, offset, ?_, ?_⟩
    · rwa [(hstays r).2]
    · rw [(hstays r).1]

/-- A block taken from the free intervals of a range. -/
theorem Placed.take (h : Placed live ranges) (hr : r ∈ ranges) (hfits : Fits size) (haligned : Aligned offset)
    (hin : Set.Ico offset (offset + withOverhead size) ⊆ points r.freeintervals) :
    Placed (Function.update live (r.mem + offset + sizeofSizeT) (some size))
      (updateRange r.mem (fun r => { r with freeintervals := remove offset (offset + withOverhead size) r.freeintervals })
        ranges) := by
  have hstart : offset ∈ Set.Ico offset (offset + withOverhead size) :=
    ⟨le_refl _, Nat.lt_add_of_pos_right (withOverhead_pos hfits)⟩
  obtain ⟨-, hlt, hnone⟩ := (h.divided r hr).free_offset (hin hstart)
  have hstays : Stays fun r : Range =>
      { r with freeintervals := remove offset (offset + withOverhead size) r.freeintervals } := fun _ => ⟨rfl, rfl⟩
  refine h.update hr hstays hlt ((h.divided r hr).take hfits haligned hin) ?_ ?_
  · rw [blocks_take hlt hnone]
    exact Set.insert_nonempty ..
  · exact fun n hn => Option.some_inj.mp hn ▸ hfits

/-- A block given back to a range that keeps others. -/
theorem Placed.give (h : Placed live ranges) (hr : r ∈ ranges) {i : ℕ × ℕ} (hi : i ∈ blocks live r)
    (hheld : (blocks live r \ {i}).Nonempty) :
    Placed (Function.update live (r.mem + i.1 + sizeofSizeT) none)
      (updateRange r.mem (fun r => { r with freeintervals := add i.1 i.2 r.freeintervals }) ranges) := by
  have hstays : Stays fun r : Range => { r with freeintervals := add i.1 i.2 r.freeintervals } := fun _ => ⟨rfl, rfl⟩
  refine h.update hr hstays hi.1 ((h.divided r hr).give hi) ?_ fun n hn => nomatch hn
  rwa [blocks_give hi]

/-- The last block of a range given back, and the range released. -/
theorem Placed.release (h : Placed live ranges) (hr : r ∈ ranges) {i : ℕ × ℕ} (hi : i ∈ blocks live r)
    (hlast : blocks live r \ {i} = ∅) :
    Placed (Function.update live (r.mem + i.1 + sizeofSizeT) none) (ranges.filter fun r' => r'.mem ≠ r.mem) := by
  have hkept : ∀ r' ∈ ranges.filter fun r' => r'.mem ≠ r.mem, r' ∈ ranges ∧ r'.Clear r := fun r' hr' => by
    obtain ⟨hr', hne⟩ := List.mem_filter.mp hr'
    refine ⟨hr', ?_⟩
    rcases h.apart.eq_or_clear hr' hr with rfl | hclear
    · exact absurd rfl (of_decide_eq_true hne)
    · exact hclear
  refine ⟨h.apart.filter _, fun r' hr' => ?_, fun r' hr' => ?_, fun ptr size hptr => ?_⟩
  · obtain ⟨hr', hclear⟩ := hkept r' hr'
    exact (h.divided r' hr').congr rfl rfl (blocks_elsewhere hclear hi.1)
  · obtain ⟨hr', hclear⟩ := hkept r' hr'
    rw [blocks_elsewhere hclear hi.1]
    exact h.held r' hr'
  · have hne : ptr ≠ r.mem + i.1 + sizeofSizeT := by
      rintro rfl
      rw [Function.update_self] at hptr
      exact nomatch hptr
    rw [Function.update_of_ne hne] at hptr
    obtain ⟨hfits, r', hr', j, hj, rfl, -⟩ := h.block hptr
    refine ⟨hfits, r', List.mem_filter.mpr ⟨hr', decide_eq_true fun hmem => ?_⟩, j.1, hj.1, rfl⟩
    obtain rfl := h.eq_of_mem hr' hr hmem
    have hrest : j ∈ blocks live r' \ {i} := ⟨hj, fun hij => hne (by rw [Set.mem_singleton_iff.mp hij])⟩
    rw [hlast] at hrest
    exact hrest

/-- A new range, with its first block. -/
theorem Placed.grow (h : Placed live ranges) (hclear : ∀ r' ∈ ranges, r.Clear r') (hfits : Fits size) (hlt : offset < r.size)
    (hdivided : r.Divided (Function.update live (r.mem + offset + sizeofSizeT) (some size))) :
    Placed (Function.update live (r.mem + offset + sizeofSizeT) (some size)) (insertRange r ranges) := by
  have helsewhere : ∀ r' ∈ ranges, blocks (Function.update live (r.mem + offset + sizeofSizeT) (some size)) r' = blocks live r' :=
    fun r' hr' => blocks_elsewhere (hclear r' hr').symm hlt
  refine ⟨h.apart.insert (Nat.zero_lt_of_lt hlt) hclear, fun r' hr' => ?_, fun r' hr' => ?_, fun ptr n hptr => ?_⟩
  · rcases mem_insertRange.mp hr' with rfl | hr'
    · exact hdivided
    · exact (h.divided r' hr').congr rfl rfl (helsewhere r' hr')
  · rcases mem_insertRange.mp hr' with rfl | hr'
    · exact ⟨(offset, offset + withOverhead size), hlt, size, Function.update_self .., rfl⟩
    · rw [helsewhere r' hr']
      exact h.held r' hr'
  · by_cases hsame : ptr = r.mem + offset + sizeofSizeT
    · subst hsame
      rw [Function.update_self] at hptr
      exact ⟨Option.some_inj.mp hptr ▸ hfits, r, mem_insertRange.mpr (.inl rfl), offset, hlt, rfl⟩
    · rw [Function.update_of_ne hsame] at hptr
      obtain ⟨hfits', r', hr', hoffset⟩ := h.inside ptr n hptr
      exact ⟨hfits', r', mem_insertRange.mpr (.inr hr'), hoffset⟩

/-- A block ends in its range. -/
theorem Placed.block_end (h : Placed live ranges) (hr : r ∈ ranges) {i : ℕ × ℕ} (hi : i ∈ blocks live r) :
    i.1 < i.2 ∧ i.2 ≤ r.size := by
  have hparts := (h.divided r hr).parts
  have hlt := hparts.nonempty i hi
  exact ⟨hlt, ((Set.Ico_subset_Ico_iff hlt).mp (hparts.used_subset hi)).2⟩

/-- The blocks of two pointers have no byte in common. -/
theorem Placed.blocks_apart (h : Placed live ranges) {p q m n : ℕ} (hp : live p = some m) (hq : live q = some n)
    (hne : p ≠ q) : p + withOverhead m ≤ q ∨ q + withOverhead n ≤ p := by
  obtain ⟨-, r, hr, i, hi, rfl, hiend⟩ := h.block hp
  obtain ⟨-, r', hr', j, hj, rfl, hjend⟩ := h.block hq
  obtain ⟨hilt, hile⟩ := h.block_end hr hi
  obtain ⟨hjlt, hjle⟩ := h.block_end hr' hj
  rcases h.apart.eq_or_clear hr hr' with rfl | hclear
  · have hij : i ≠ j := fun hij => hne (by rw [hij])
    have hdisjoint := (h.divided r hr).parts.apart hi hj hij
    have hnot : ¬(i.1 ≤ j.1 ∧ j.1 < i.2) := fun hin => Set.disjoint_left.mp hdisjoint hin ⟨le_refl _, hjlt⟩
    have hnot' : ¬(j.1 ≤ i.1 ∧ i.1 < j.2) := fun hin => Set.disjoint_left.mp hdisjoint ⟨le_refl _, hilt⟩ hin
    omega
  · unfold Range.Clear Range.end_ at hclear
    omega

end Pclsync.LockedMemory
