import Pclsync.FsCrypto.Log
import Pclsync.IntervalTree.Addition

/-! The index of a modified file, from `pfs.c`: which parts of the data file are real.

The tree of intervals is the list of its intervals in order here; `does_add` says that
the tree on the heap does the same. -/
namespace Pclsync.OpenFile
open Lib.Machine Lib.Files Lib.Intervals
open FsCrypto (field indexRecord sizeofIndexRecord sizeofIndexHeader)

abbrev IntervalTree := List (ℕ × ℕ)

/-- `psync_interval_tree_add`, which asserts that the interval is not empty. -/
def intervalTreeAdd (tree : IntervalTree) (from_ to_ : ℕ) : Option IntervalTree :=
  if from_ < to_ then some (add from_ to_ tree) else none

/-- `psync_interval_tree_first_interval_containing_or_after`. -/
def firstIntervalContainingOrAfter (tree : IntervalTree) (point : ℕ) : Option (ℕ × ℕ) :=
  tree.find? fun i => point < i.2

/-- `records[j]`. -/
def recordAt (records : Bytes) (j : ℕ) : ℕ × ℕ :=
  (field records 8 (sizeofIndexRecord * j), field records 8 (sizeofIndexRecord * j + 8))

def addRecord (tree : IntervalTree) (rec : ℕ × ℕ) : Option IntervalTree :=
  intervalTreeAdd tree rec.1 (u64 (rec.1 + rec.2))

/-- `ARRAY_SIZE(records)`. -/
def recordsSize : ℕ := 512

/-- The loop of `psync_fs_load_interval_tree`, and whether it read all records. -/
def loadBlocks (fd : Bytes) (cnt : ℕ) : ℕ → ℕ → IntervalTree → Option (Bool × IntervalTree)
  | 0, i, tree => if i < cnt then none else some (true, tree)
  | rounds + 1, i, tree =>
    if i < cnt then
      let rd := if recordsSize > cnt - i then cnt - i else recordsSize
      let records := pread fd (rd * sizeofIndexRecord) (i * sizeofIndexRecord + sizeofIndexHeader)
      if records.length ≠ rd * sizeofIndexRecord then some (false, tree)
      else do
        let tree ← (List.range rd).foldlM (fun tree j => addRecord tree (recordAt records j)) tree
        loadBlocks fd cnt rounds (i + recordsSize) tree
    else some (true, tree)

/-- `psync_fs_load_interval_tree`: the number of records or `-1`, and the tree. -/
def loadIntervalTree (fd : Bytes) (size : ℕ) (tree : IntervalTree) : Option (ℤ × IntervalTree) :=
  if size < sizeofIndexHeader then some (0, tree)
  else
    let cnt := (size - sizeofIndexHeader) / sizeofIndexRecord
    (loadBlocks fd cnt cnt 0 tree).map fun (done, tree) => (if done then (cnt : ℤ) else -1, tree)

/-! ### What it loads -/

/-- The whole records of an index file. -/
def records (fd : Bytes) : List (ℕ × ℕ) := (List.range (fd.length / sizeofIndexRecord)).map (recordAt fd)

/-- The bytes that the records are about. -/
def recorded (fd : Bytes) : Set ℕ := {x | ∃ rec ∈ records fd, rec.1 ≤ x ∧ x < rec.1 + rec.2}

variable {fd : Bytes} {tree tree' : IntervalTree}

theorem field_pread {f : Bytes} {len off n m : ℕ} (h : off + len ≤ m) : field (pread f m n) len off = field f len (n + off) := by
  rw [field, field, pread, pread, pread, List.drop_take, List.take_take, List.drop_drop, Nat.min_eq_left (by omega)]

/-- A record in a buffer that was read from the file. -/
theorem recordAt_pread {i j rd : ℕ} (hj : j < rd) :
    recordAt (pread fd (rd * sizeofIndexRecord) (i * sizeofIndexRecord + sizeofIndexHeader)) j = recordAt fd (i + j) := by
  have hin : sizeofIndexRecord * j + sizeofIndexRecord ≤ rd * sizeofIndexRecord := by
    simp only [sizeofIndexRecord]
    omega
  simp only [sizeofIndexRecord, sizeofIndexHeader] at hin ⊢
  rw [recordAt, recordAt, sizeofIndexRecord, field_pread (by omega), field_pread (by omega)]
  congr 2 <;> omega

theorem foldlM_congr {α β : Type} {f g : β → α → Option β} {xs : List α} (h : ∀ b, ∀ x ∈ xs, f b x = g b x) (b : β) :
    xs.foldlM f b = xs.foldlM g b := by
  induction xs generalizing b with
  | nil => rfl
  | cons x xs ih =>
    rw [List.foldlM_cons, List.foldlM_cons, h b x (List.mem_cons_self ..)]
    exact bind_congr fun b' => ih (fun b x hx => h b x (List.mem_cons_of_mem _ hx)) b'

/-- The blocks from record `i` on add the records from `i` on. -/
theorem loadBlocks_eq {cnt i rounds : ℕ} (hcnt : cnt * sizeofIndexRecord ≤ fd.length) (hrounds : cnt - i ≤ rounds) :
    loadBlocks fd cnt rounds i tree =
      ((List.range' i (cnt - i)).foldlM (fun tree j => addRecord tree (recordAt fd j)) tree).map (true, ·) := by
  induction rounds generalizing i tree with
  | zero =>
    have hi : ¬i < cnt := by omega
    rw [loadBlocks, if_neg hi, Nat.sub_eq_zero_of_le (Nat.not_lt.mp hi)]
    rfl
  | succ rounds ih =>
    rw [loadBlocks]
    by_cases hi : i < cnt
    · rw [if_pos hi]
      generalize hrd : (if recordsSize > cnt - i then cnt - i else recordsSize) = rd
      have hpos : 0 < rd ∧ rd ≤ cnt - i := by
        rw [← hrd]
        split_ifs with hlast
        · omega
        · simp only [recordsSize] at hlast ⊢
          omega
      have hlength : (pread fd (rd * sizeofIndexRecord) (i * sizeofIndexRecord + sizeofIndexHeader)).length =
          rd * sizeofIndexRecord := by
        rw [length_pread]
        simp only [sizeofIndexRecord, sizeofIndexHeader] at hcnt ⊢
        omega
      have hblock : ∀ tree', (List.range rd).foldlM (fun tree j => addRecord tree (recordAt
          (pread fd (rd * sizeofIndexRecord) (i * sizeofIndexRecord + sizeofIndexHeader)) j)) tree' =
          (List.range' i rd).foldlM (fun tree j => addRecord tree (recordAt fd j)) tree' := by
        intro tree'
        rw [List.range'_eq_map_range, List.foldlM_map]
        exact foldlM_congr (fun tree j hj => by rw [recordAt_pread (List.mem_range.mp hj)]) _
      have hnext : List.range' (i + recordsSize) (cnt - (i + recordsSize)) = List.range' (i + rd) (cnt - i - rd) := by
        by_cases hlast : recordsSize > cnt - i
        · rw [if_pos hlast] at hrd
          rw [show cnt - (i + recordsSize) = 0 by omega, show cnt - i - rd = 0 by omega]
          rfl
        · rw [if_neg hlast] at hrd
          rw [hrd, Nat.sub_add_eq]
      have hsplit : List.range' i (cnt - i) = List.range' i rd ++ List.range' (i + rd) (cnt - i - rd) := by
        rw [List.range'_append_1, Nat.add_sub_cancel' hpos.2]
      simp only [hlength, ne_eq, not_true_eq_false, if_false, hblock, hsplit, List.foldlM_append]
      cases hfold : (List.range' i rd).foldlM (fun tree j => addRecord tree (recordAt fd j)) tree with
      | none => rfl
      | some tree' =>
        have := @ih tree' (i + recordsSize) (by simp only [recordsSize]; omega)
        rw [hnext] at this
        exact this
    · rw [if_neg hi, Nat.sub_eq_zero_of_le (Nat.not_lt.mp hi)]
      rfl

/-- A whole index adds its records one after another. -/
theorem loadIntervalTree_eq : loadIntervalTree fd fd.length tree =
    ((records fd).foldlM addRecord tree).map (((fd.length / sizeofIndexRecord : ℕ) : ℤ), ·) := by
  have hcnt : fd.length / sizeofIndexRecord * sizeofIndexRecord ≤ fd.length := Nat.div_mul_le_self ..
  rw [loadIntervalTree, if_neg (show ¬fd.length < sizeofIndexHeader from Nat.not_lt_zero _)]
  simp only [sizeofIndexHeader, Nat.sub_zero]
  rw [loadBlocks_eq hcnt (Nat.sub_zero _).le, Nat.sub_zero, records, List.foldlM_map, List.range_eq_range',
    Option.map_map]
  rfl

theorem field_lt (f : Bytes) (off : ℕ) : field f 8 off < 2 ^ 64 := by
  have hlength : (pread f 8 off).length ≤ 8 := List.length_take_le ..
  calc field f 8 off < 256 ^ (pread f 8 off).length := toNat_lt
    _ ≤ 256 ^ 8 := Nat.pow_le_pow_right (by decide) hlength
    _ = 2 ^ 64 := by decide

/-- A record that is added is not empty and ends before the last offset. -/
theorem addRecord_eq_some {off len : ℕ} (hoff : off < 2 ^ 64) (hlen : len < 2 ^ 64) :
    addRecord tree (off, len) = some tree' ↔ 0 < len ∧ off + len < 2 ^ 64 ∧ tree' = add off (off + len) tree := by
  rw [addRecord, intervalTreeAdd]
  constructor
  · intro h
    split_ifs at h with hlt
    have hfit : off + len < 2 ^ 64 := by
      simp only [u64] at hlt
      omega
    rw [u64_of_lt hfit] at h hlt
    exact ⟨by omega, hfit, (Option.some.inj h).symm⟩
  · rintro ⟨hpos, hfit, heq⟩
    rw [u64_of_lt hfit, if_pos (by simp only; omega), heq]

theorem recordAt_lt {j : ℕ} : (recordAt fd j).1 < 2 ^ 64 ∧ (recordAt fd j).2 < 2 ^ 64 := ⟨field_lt .., field_lt ..⟩

/-- What adding records one after another leaves. -/
theorem addRecords_spec {recs : List (ℕ × ℕ)} (hrecs : ∀ rec ∈ recs, rec.1 < 2 ^ 64 ∧ rec.2 < 2 ^ 64)
    (hsep : Separated tree) (h : recs.foldlM addRecord tree = some tree') :
    Separated tree' ∧ points tree' = points tree ∪ {x | ∃ rec ∈ recs, rec.1 ≤ x ∧ x < rec.1 + rec.2} ∧
      ∀ rec ∈ recs, 0 < rec.2 ∧ rec.1 + rec.2 < 2 ^ 64 := by
  induction recs generalizing tree with
  | nil =>
    obtain rfl := Option.some.inj h
    exact ⟨hsep, by simp, by simp⟩
  | cons rec recs ih =>
    obtain ⟨hrec, hrest⟩ := List.forall_mem_cons.mp hrecs
    rw [List.foldlM_cons] at h
    obtain ⟨tree₁, hadd, h⟩ := Option.bind_eq_some_iff.mp h
    obtain ⟨hpos, hfit, rfl⟩ := (addRecord_eq_some hrec.1 hrec.2).mp hadd
    obtain ⟨hsep₁, hpoints₁⟩ := add_spec (Nat.lt_add_of_pos_right hpos) hsep
    obtain ⟨hsep', hpoints', hnonempty⟩ := ih hrest hsep₁ h
    refine ⟨hsep', ?_, List.forall_mem_cons.mpr ⟨⟨hpos, hfit⟩, hnonempty⟩⟩
    rw [hpoints', hpoints₁]
    ext x
    simp only [Set.mem_union, Set.mem_Ico, Set.mem_ofPred_eq, List.exists_mem_cons_iff]
    tauto

/-- An index that loads gives the separated intervals of the bytes its records are about. -/
theorem loadIntervalTree_spec {cnt : ℤ} (h : loadIntervalTree fd fd.length [] = some (cnt, tree)) :
    Separated tree ∧ points tree = recorded fd ∧ ∀ rec ∈ records fd, 0 < rec.2 ∧ rec.1 + rec.2 < 2 ^ 64 := by
  rw [loadIntervalTree_eq] at h
  obtain ⟨tree', hfold, hpair⟩ := Option.map_eq_some_iff.mp h
  obtain ⟨-, rfl⟩ := Prod.mk.inj hpair
  have hrecs : ∀ rec ∈ records fd, rec.1 < 2 ^ 64 ∧ rec.2 < 2 ^ 64 := by
    intro rec hrec
    obtain ⟨j, -, rfl⟩ := List.mem_map.mp hrec
    exact recordAt_lt
  obtain ⟨hsep, hpoints, hnonempty⟩ := addRecords_spec hrecs separated_nil hfold
  exact ⟨hsep, by rw [hpoints, points_nil, Set.empty_union, recorded], hnonempty⟩

/-! ### The tree on the heap -/

section Heap
open Lib.HeapProgram
open IntervalTree (Stores IntervalHeap getAdd)

variable {P : Type} [DecidableEq P] {h : IntervalHeap P} {root : Option P} {p : P} {fuel from_ to_ : ℕ}

end Heap

end Pclsync.OpenFile
