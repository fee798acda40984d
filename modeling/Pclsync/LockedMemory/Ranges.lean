import Pclsync.LockedMemory.Blocks
import Pclsync.Lib.BinaryTree
import Pclsync.Lib.Partition

/-! The ranges of the allocator: the search for the best fit, and the descents in the tree of
ranges. -/
namespace Pclsync.LockedMemory
open Lib.BinaryTree Lib.Intervals

/-- `allocator_range`. -/
structure Range where
  mem : ℕ
  size : ℕ
  freeintervals : List (ℕ × ℕ)
  locked : Bool
deriving DecidableEq, Repr

def Range.end_ (r : Range) : ℕ := r.mem + r.size

/-- The ranges of a walk of the tree go up and are apart. -/
def Apart (ranges : List Range) : Prop := ranges.Pairwise fun r r' => r.end_ ≤ r'.mem

/-! ### The best fit -/

/-- `brange` and `boffset`. -/
structure Fit where
  range : Range
  boffset : ℕ
deriving DecidableEq, Repr

/-- The two loops of `psync_locked_malloc` over what is left of the free intervals of all ranges. -/
def bestFit (size : ℕ) : List (Range × ℕ × ℕ) → (bestsize : ℕ) → Option Fit → Option Fit
  | [], _, best => best
  | (range, from_, to_) :: rest, bestsize, best =>
    let intsize := to_ - from_
    if size ≤ intsize ∧ intsize < bestsize then
      if intsize = size then some ⟨range, from_⟩ else bestFit size rest intsize (some ⟨range, from_⟩)
    else bestFit size rest bestsize best

def freeIntervals (ranges : List Range) : List (Range × ℕ × ℕ) :=
  ranges.flatMap fun range => range.freeintervals.map fun i => (range, i)

def findFit (ranges : List Range) (size : ℕ) : Option Fit := bestFit size (freeIntervals ranges) (sizeTValues - 1) none

/-- An interval starts at the fit and has room for it. -/
def Fit.Holds (f : Fit) (ranges : List Range) (size : ℕ) : Prop :=
  f.range ∈ ranges ∧ ∃ i ∈ f.range.freeintervals, i.1 = f.boffset ∧ size ≤ i.2 - i.1

theorem bestFit_holds {ranges : List Range} {size bestsize : ℕ} {list : List (Range × ℕ × ℕ)} {best : Option Fit} {f : Fit}
    (hlist : ∀ p ∈ list, p.1 ∈ ranges ∧ p.2 ∈ p.1.freeintervals) (hbest : ∀ f ∈ best, f.Holds ranges size)
    (hf : bestFit size list bestsize best = some f) : f.Holds ranges size := by
  induction list generalizing bestsize best with
  | nil => exact hbest f hf
  | cons p rest ih =>
    obtain ⟨range, from_, to_⟩ := p
    obtain ⟨⟨hrange, hi⟩, hrest⟩ := List.forall_mem_cons.mp hlist
    rw [bestFit] at hf
    have hnew : size ≤ to_ - from_ → Fit.Holds ⟨range, from_⟩ ranges size := fun hsize =>
      ⟨hrange, (from_, to_), hi, rfl, hsize⟩
    split_ifs at hf with hbetter hexact
    · obtain rfl := Option.some_inj.mp hf
      exact hnew hbetter.1
    · exact ih hrest (fun f hf => Option.some_inj.mp hf ▸ hnew hbetter.1) hf
    · exact ih hrest hbest hf

theorem findFit_holds {ranges : List Range} {size : ℕ} {f : Fit} (hf : findFit ranges size = some f) :
    f.Holds ranges size := by
  refine bestFit_holds (fun p hp => ?_) (fun f hf => absurd hf (by simp)) hf
  obtain ⟨range, hrange, hp⟩ := List.mem_flatMap.mp hp
  obtain ⟨i, hi, rfl⟩ := List.mem_map.mp hp
  exact ⟨hrange, hi⟩

/-! ### The descents -/

/-- The loop of `psync_locked_free`: the range of an address. -/
def rangeOf (cptr : ℕ) : BinTree Range → Option Range
  | .nil => none
  | .node left range right =>
    if cptr < range.mem then rangeOf cptr left
    else if range.end_ ≤ cptr then rangeOf cptr right
    else some range

def Range.Has (r : Range) (a : ℕ) : Prop := r.mem ≤ a ∧ a < r.end_

instance (r : Range) (a : ℕ) : Decidable (r.Has a) := inferInstanceAs (Decidable (_ ∧ _))

/-- The ranges of a walk with a new one in its place. -/
def insertRange (brange : Range) : List Range → List Range
  | [] => [brange]
  | range :: ranges => if brange.mem < range.mem then brange :: range :: ranges else range :: insertRange brange ranges

theorem mem_insertRange {brange r : Range} {ranges : List Range} :
    r ∈ insertRange brange ranges ↔ r = brange ∨ r ∈ ranges := by
  induction ranges with
  | nil => simp [insertRange]
  | cons r' ranges ih =>
    rw [insertRange]
    split_ifs
    · exact List.mem_cons
    · rw [List.mem_cons, ih, List.mem_cons]
      tauto

/-- Two ranges have no byte in common. -/
def Range.Clear (r r' : Range) : Prop := r.end_ ≤ r'.mem ∨ r'.end_ ≤ r.mem

instance (r r' : Range) : Decidable (r.Clear r') := inferInstanceAs (Decidable (_ ∨ _))

theorem Range.Clear.symm {r r' : Range} (h : r.Clear r') : r'.Clear r := Or.symm h

/-- On which side a range that is not empty is clear of another. -/
theorem Range.Clear.side {r brange : Range} (h : brange.Clear r) (hpos : 0 < brange.size) :
    if brange.mem < r.mem then brange.end_ ≤ r.mem else r.end_ ≤ brange.mem := by
  unfold Range.Clear Range.end_ at h
  unfold Range.end_
  split_ifs <;> omega

theorem Apart.insert {brange : Range} {ranges : List Range} (h : Apart ranges) (hpos : 0 < brange.size)
    (hclear : ∀ r ∈ ranges, brange.Clear r) : Apart (insertRange brange ranges) := by
  induction ranges with
  | nil => exact List.pairwise_singleton ..
  | cons r ranges ih =>
    obtain ⟨hr, hrest⟩ := List.forall_mem_cons.mp hclear
    obtain ⟨hafter, hranges⟩ := List.pairwise_cons.mp h
    have hside := hr.side hpos
    rw [insertRange]
    split_ifs at hside ⊢ with hlt
    · refine List.pairwise_cons.mpr ⟨List.forall_mem_cons.mpr ⟨hside, fun r' hr' => ?_⟩, h⟩
      exact hside.trans ((Nat.le_add_right ..).trans (hafter r' hr'))
    · refine List.pairwise_cons.mpr ⟨fun r' hr' => ?_, ih hranges hrest⟩
      rcases mem_insertRange.mp hr' with rfl | hr'
      · exact hside
      · exact hafter r' hr'

/-- The loop of `psync_locked_malloc`: a range as a new leaf, where no assertion fails. -/
def addLeaf (brange : Range) : BinTree Range → Option (BinTree Range)
  | .nil => some (.node .nil brange .nil)
  | .node left range right =>
    if brange.mem < range.mem then
      if brange.end_ ≤ range.mem then (addLeaf brange left).map fun left => .node left range right else none
    else
      if range.end_ ≤ brange.mem then (addLeaf brange right).map fun right => .node left range right else none

end Pclsync.LockedMemory
