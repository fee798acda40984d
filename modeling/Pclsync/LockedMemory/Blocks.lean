import Pclsync.Lib.Files
import Mathlib.Data.Nat.Init

/-! The blocks of `psync_locked_malloc`: their sizes, and what is written around the bytes of
the caller.

A block starts with a `size_t` and ends with one. A debug build keeps the requested size in
the first, and marks the bytes between the caller's last and the end; a release build keeps
the size of the whole block. -/
namespace Pclsync.LockedMemory
open Lib.Files

/-- `sizeof(size_t)`. -/
def sizeofSizeT : ℕ := 8

/-- The number of values of a `size_t`. -/
def sizeTValues : ℕ := 256 ^ sizeofSizeT

def lmAlignTo : ℕ := sizeofSizeT * 2
def lmOverhead : ℕ := sizeofSizeT * 2
def lmRangeOverhead : ℕ := lmAlignTo - sizeofSizeT
def lmEndMarker : ℕ := sizeTValues - 1

/-- The size of a block for `size` bytes. -/
def withOverhead (size : ℕ) : ℕ :=
  ((size + lmAlignTo - 1) % sizeTValues / lmAlignTo * lmAlignTo + lmOverhead) % sizeTValues

/-- The size of the range that is mapped for a block. -/
def rangeSize (pageSize size : ℕ) : ℕ := (size + lmRangeOverhead + pageSize - 1) % sizeTValues / pageSize * pageSize

/-- The sum with the overhead stays in a `size_t`. -/
def Fits (size : ℕ) : Prop := size + lmAlignTo - 1 + lmOverhead < sizeTValues

instance (size : ℕ) : Decidable (Fits size) := inferInstanceAs (Decidable (_ < _))

theorem withOverhead_aligned (size : ℕ) : withOverhead size % lmAlignTo = 0 := by
  unfold withOverhead sizeTValues lmAlignTo lmOverhead sizeofSizeT
  omega

theorem withOverhead_lt (size : ℕ) : withOverhead size < sizeTValues := Nat.mod_lt _ (by decide)

theorem withOverhead_ge {size : ℕ} (h : Fits size) : size + lmOverhead ≤ withOverhead size := by
  unfold Fits at h
  unfold withOverhead
  unfold sizeTValues lmAlignTo lmOverhead sizeofSizeT at *
  omega

/-- A multiple of the page, rounded up, is no less. -/
theorem le_roundUp {n m : ℕ} (hm : 0 < m) : n ≤ (n + m - 1) / m * m := by
  have hrest := Nat.div_add_mod (n + m - 1) m
  have hlt := Nat.mod_lt (n + m - 1) hm
  rw [Nat.mul_comm] at hrest
  omega

/-- A range that could be mapped has room for the block. -/
theorem rangeSize_ge {pageSize size : ℕ} (hpos : 0 < rangeSize pageSize size) (hsize : size < sizeTValues)
    (haligned : size % lmAlignTo = 0) : size + lmRangeOverhead ≤ rangeSize pageSize size := by
  have hroom : size + lmRangeOverhead ≤ sizeTValues := by
    unfold sizeTValues lmRangeOverhead lmAlignTo sizeofSizeT at *
    omega
  unfold rangeSize at *
  generalize hneed : size + lmRangeOverhead = need at *
  have hpage : 0 < pageSize := Nat.pos_of_ne_zero fun h => by simp [h] at hpos
  have hle : pageSize ≤ (need + pageSize - 1) % sizeTValues := (Nat.div_pos_iff.mp (Nat.pos_of_mul_pos_right hpos)).2
  have hsum : (need + pageSize - 1) % sizeTValues = need + pageSize - 1 := by
    refine Nat.mod_eq_of_lt ?_
    by_contra hwrap
    -- a sum that wraps is less than a page
    have hmod : (need + pageSize - 1) % sizeTValues ≤ need + pageSize - 1 - sizeTValues := by
      rw [Nat.mod_eq_sub_mod (Nat.le_of_not_lt hwrap)]
      exact Nat.mod_le ..
    omega
  rw [hsum]
  exact le_roundUp hpage

/-! ### Bytes in memory -/

abbrev Memory := ℕ → UInt8

def load (mem : Memory) (a : ℕ) : ℕ := toNat ((List.range sizeofSizeT).map fun i => mem (a + i))

def store (a v : ℕ) (mem : Memory) : Memory := fun x =>
  if a ≤ x ∧ x < a + sizeofSizeT then (ofNat sizeofSizeT v).getD (x - a) 0 else mem x

theorem load_congr {mem mem' : Memory} {a : ℕ} (h : ∀ x, a ≤ x → x < a + sizeofSizeT → mem' x = mem x) :
    load mem' a = load mem a := by
  refine congrArg toNat (List.map_congr_left fun i hi => ?_)
  exact h _ (Nat.le_add_right ..) (Nat.add_lt_add_left (List.mem_range.mp hi) a)

theorem store_other {mem : Memory} {a v x : ℕ} (h : x < a ∨ a + sizeofSizeT ≤ x) : store a v mem x = mem x :=
  if_neg (by omega)

theorem load_store {mem : Memory} {a v : ℕ} (hv : v < sizeTValues) : load (store a v mem) a = v := by
  have hbytes : (List.range sizeofSizeT).map (fun i => store a v mem (a + i)) = ofNat sizeofSizeT v := by
    refine List.ext_getElem (by simp) fun i hi hi' => ?_
    have hlt : i < sizeofSizeT := by simpa using hi
    rw [List.getElem_map, List.getElem_range, store, if_pos ⟨Nat.le_add_right .., Nat.add_lt_add_left hlt a⟩,
      Nat.add_sub_cancel_left, List.getD_eq_getElem]
  rw [load, hbytes]
  exact toNat_ofNat hv

/-- The mark of byte `i` when the caller has `size` bytes. -/
def alignmentByte (size i : ℕ) : UInt8 := UInt8.ofNat (0xff + size - i)

/-- `mark_aligment_bytes`. -/
def markAlignmentBytes (ptr size to_ : ℕ) (mem : Memory) : Memory := fun x =>
  if ptr + size ≤ x ∧ x < ptr + to_ then alignmentByte size (x - ptr) else mem x

section Build
-- `IS_DEBUG`
variable (debug : Bool)

/-- What is kept in the first word of a block. -/
def header (size : ℕ) : ℕ := if debug then size else withOverhead size

/-- The size of a block, from its first word. -/
def sizeOf (word : ℕ) : ℕ := if debug then withOverhead word else word

theorem sizeOf_header (size : ℕ) : sizeOf debug (header debug size) = withOverhead size := by
  cases debug <;> rfl

/-- What `psync_locked_malloc` writes in a block at `ret` for `size` bytes. -/
def writeBlock (ret size : ℕ) (mem : Memory) : Memory :=
  let mem := store ret (header debug size) mem
  let mem := store (ret + withOverhead size - sizeofSizeT) lmEndMarker mem
  if debug then markAlignmentBytes (ret + sizeofSizeT) size (withOverhead size - lmOverhead) mem else mem

/-- What `psync_locked_free` asserts of the block at `cptr` with a first word. -/
def Intact (mem : Memory) (cptr word : ℕ) : Prop :=
  (debug = true → ∀ i < withOverhead word - lmOverhead, word ≤ i → mem (cptr + sizeofSizeT + i) = alignmentByte word i) ∧
    load mem (cptr + sizeOf debug word - sizeofSizeT) = lmEndMarker

instance (mem : Memory) (cptr word : ℕ) : Decidable (Intact debug mem cptr word) :=
  inferInstanceAs (Decidable (_ ∧ _))

/-- The block at `cptr` is as it was written for `size` bytes. -/
def Written (mem : Memory) (cptr size : ℕ) : Prop :=
  load mem cptr = header debug size ∧ Intact debug mem cptr (header debug size)

variable {debug} {mem mem' : Memory} {cptr size : ℕ}

theorem writeBlock_other (hfits : Fits size) {x : ℕ} (hx : x < cptr ∨ cptr + withOverhead size ≤ x) :
    writeBlock debug cptr size mem x = mem x := by
  have hroom := withOverhead_ge hfits
  have hstored : store (cptr + withOverhead size - sizeofSizeT) lmEndMarker (store cptr (header debug size) mem) x = mem x := by
    unfold lmOverhead at hroom
    rw [store_other (by omega), store_other (by omega)]
  unfold writeBlock
  split
  · rw [markAlignmentBytes, if_neg (by unfold lmOverhead at *; omega), hstored]
  · exact hstored

theorem written_writeBlock (hfits : Fits size) : Written debug (writeBlock debug cptr size mem) cptr size := by
  have hroom := withOverhead_ge hfits
  have hheader : header debug size < sizeTValues := by
    unfold header
    split
    · unfold lmOverhead at hroom
      exact Nat.lt_of_le_of_lt (Nat.le_of_add_right_le hroom) (withOverhead_lt size)
    · exact withOverhead_lt size
  have hstart : ∀ x, cptr ≤ x → x < cptr + sizeofSizeT →
      writeBlock debug cptr size mem x = store cptr (header debug size) mem x := fun x hx hlt => by
    unfold lmOverhead at hroom
    unfold writeBlock
    split
    · rw [markAlignmentBytes, if_neg (by omega), store_other (by omega)]
    · rw [store_other (by omega)]
  have hend : ∀ x, cptr + withOverhead size - sizeofSizeT ≤ x → writeBlock debug cptr size mem x =
      store (cptr + withOverhead size - sizeofSizeT) lmEndMarker (store cptr (header debug size) mem) x := fun x hx => by
    unfold lmOverhead at hroom
    unfold writeBlock
    split
    · rw [markAlignmentBytes, if_neg (by unfold lmOverhead; omega)]
    · rfl
  refine ⟨?_, fun hdebug i hlt hi => ?_, ?_⟩
  · rw [load_congr hstart, load_store hheader]
  · subst hdebug
    unfold lmOverhead at *
    rw [header, if_pos rfl] at *
    rw [writeBlock, if_pos rfl, markAlignmentBytes, if_pos (by unfold lmOverhead; omega), Nat.add_sub_cancel_left]
  · rw [sizeOf_header, load_congr fun x hx _ => hend x hx, load_store (by decide)]

/-- What happens outside the block, and to the bytes of the caller, does not matter. -/
theorem Written.frame (h : Written debug mem cptr size) (hfits : Fits size)
    (hsame : ∀ x, cptr ≤ x → x < cptr + withOverhead size → (x < cptr + sizeofSizeT ∨ cptr + sizeofSizeT + size ≤ x) →
      mem' x = mem x) : Written debug mem' cptr size := by
  have hroom := withOverhead_ge hfits
  unfold lmOverhead at hroom
  obtain ⟨hheader, hmarks, hend⟩ := h
  refine ⟨?_, fun hdebug i hlt hi => ?_, ?_⟩
  · rw [load_congr fun x hx hlt => hsame x hx (by omega) (.inl hlt), hheader]
  · rw [← hmarks hdebug i hlt hi]
    subst hdebug
    rw [header, if_pos rfl] at hi hlt
    unfold lmOverhead at hlt
    exact hsame _ (by omega) (by omega) (.inr (by omega))
  · rw [sizeOf_header] at *
    rw [load_congr fun x hx hlt => hsame x (by omega) (by omega) (.inr (by omega)), hend]

end Build

end Pclsync.LockedMemory
