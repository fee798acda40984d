import Pclsync.OpenFile.Index

/-! Handles of files that are open for writing and not encrypted, from `pfs.c`: the local
data file, its index, and what is read from both. -/
namespace Pclsync.OpenFile
open Lib.Machine Lib.Files Lib.Intervals
open FsCrypto (indexRecord sizeofIndexRecord sizeofIndexHeader)

/-- `psync_openfile_t`. A file that is not open is `none`. -/
structure Handle where
  initialsize : ℕ
  currentsize : ℕ
  indexoff : ℕ
  modified : Bool
  newfile : Bool
  writeintervals : IntervalTree
  datafile : Option Bytes
  indexfile : Option Bytes
deriving DecidableEq, Repr

/-- `EIO`. -/
def eio : ℤ := 5

/-! ### Calls of the file system -/

/-- How a `psync_file_pwrite` goes. -/
inductive Fate where
  | whole
  | short (count : ℕ)
  | error
deriving DecidableEq, Repr

/-- What a write takes of its bytes. -/
def Fate.taken (data : Bytes) : Fate → Option Bytes
  | .whole => some data
  | .short count => some (data.take count)
  | .error => none

/-- How much a write takes of `len` bytes. -/
def Fate.count (len : ℕ) : Fate → Option ℕ
  | .whole => some len
  | .short count => some (min count len)
  | .error => none

/-- `psync_file_pwrite`: the count or an error, and the file. -/
def filePwrite (file : Option Bytes) (data : Bytes) (off : ℕ) (fate : Fate) : Option ℕ × Option Bytes :=
  match file, fate.taken data with
  | some f, some bytes => (some bytes.length, some (pwrite f bytes off))
  | _, _ => (none, file)

/-- `psync_file_seek` and `psync_file_truncate`. -/
def fileSetSize (file : Option Bytes) (size : ℕ) (succeeds : Bool) : Bool × Option Bytes :=
  match file, succeeds with
  | some f, true => (true, some (truncate f size))
  | _, _ => (false, file)

/-- How the calls of a write or of a truncation go. -/
structure Fates where
  /-- The data file is made longer. -/
  extends_ : Bool
  /-- The record of that. -/
  extension : Fate
  data : Fate
  /-- The record of the data. -/
  record : Fate
  /-- The data file is made shorter. -/
  cuts : Bool
deriving DecidableEq, Repr

/-- All calls succeed. -/
def Fates.whole : Fates := ⟨true, .whole, .whole, .whole, true⟩

/-! ### Writing -/

/-- A record at the next slot of the index. -/
def writeRecord (of : Handle) (rec : ℕ × ℕ) (fate : Fate) : Bool × Handle :=
  let (wr, indexfile) :=
    filePwrite of.indexfile (indexRecord rec) (sizeofIndexRecord * of.indexoff + sizeofIndexHeader) fate
  (wr = some sizeofIndexRecord, { of with indexoff := of.indexoff + 1, indexfile := indexfile })

/-- The record of an extension in `psync_fs_modfile_check_size_ok`. -/
def recordExtension (of : Handle) (size : ℕ) (fate : Fate) : Option (Bool × Handle) :=
  let (written, of) := writeRecord of (of.currentsize, size - of.currentsize) fate
  if ¬written then some (false, of)
  else do
    let tree ← intervalTreeAdd of.writeintervals of.currentsize size
    some (true, { of with writeintervals := tree, currentsize := size })

/-- `psync_fs_modfile_check_size_ok`. -/
def modfileCheckSizeOk (of : Handle) (size : ℕ) (fates : Fates) : Option (Bool × Handle) :=
  if of.currentsize < size then
    let (set, datafile) := fileSetSize of.datafile size fates.extends_
    let of := { of with datafile := datafile }
    if ¬set then some (false, of)
    else if of.newfile then some (true, of)
    else recordExtension of size fates.extension
  else some (true, of)

/-- The data and its record in `psync_fs_write_modified`. The slot of the record is taken
before the data is written. -/
def writeData (of : Handle) (buf : Bytes) (offset : ℕ) (fates : Fates) : Option (ℤ × Handle) :=
  match filePwrite of.datafile buf offset fates.data with
  | (none, datafile) => some (-eio, { of with datafile := datafile, indexoff := of.indexoff + 1 })
  | (some bw, datafile) =>
    let (written, of) := writeRecord { of with datafile := datafile } (offset, bw) fates.record
    if ¬written then some (-eio, of)
    else do
      let tree ← intervalTreeAdd of.writeintervals offset (offset + bw)
      let currentsize := if of.currentsize < offset + buf.length then offset + buf.length else of.currentsize
      some (bw, { of with writeintervals := tree, currentsize := currentsize })

/-- `psync_fs_write_modified`. -/
def writeModified (of : Handle) (buf : Bytes) (offset : ℕ) (fates : Fates) : Option (ℤ × Handle) := do
  let (ok, of) ← modfileCheckSizeOk of offset fates
  if ¬ok then some (-eio, of) else writeData of buf offset fates

/-- `psync_fs_write_newfile`, with the error that `psync_fs_write` makes of `-1`. -/
def writeNewfile (of : Handle) (buf : Bytes) (offset : ℕ) (fates : Fates) : ℤ × Handle :=
  match filePwrite of.datafile buf offset fates.data with
  | (none, datafile) => (-eio, { of with datafile := datafile })
  | (some bw, datafile) =>
    let currentsize := if of.currentsize < offset + buf.length then offset + buf.length else of.currentsize
    (bw, { of with datafile := datafile, currentsize := currentsize })

/-- `psync_fs_ftruncate_of_locked` for a file that is new or modified. -/
def ftruncateOf (of : Handle) (size : ℕ) (fates : Fates) : Option (ℤ × Handle) :=
  if of.currentsize = size then some (0, of)
  else do
    let (ok, of) ← modfileCheckSizeOk of size fates
    if ¬ok then some (-eio, of)
    else if of.currentsize ≠ size then
      let (set, datafile) := fileSetSize of.datafile size fates.cuts
      let of := { of with datafile := datafile }
      if ¬set then some (-eio, of) else some (0, { of with currentsize := size })
    else some (0, of)

/-! ### Reading -/

/-- The intervals from `psync_interval_tree_first_interval_containing_or_after` on. -/
def intervalsFrom (tree : IntervalTree) (point : ℕ) : IntervalTree := tree.dropWhile fun i => i.2 ≤ point

/-- The loop of `psync_pagecache_read_modified_locked`: the count and the buffer. -/
def readIntervals (datafile : Bytes) (size offset : ℕ) : IntervalTree → ℕ × Bytes → ℕ × Bytes
  | [], result => result
  | (from_, to_) :: rest, (rd, buf) =>
    if from_ < offset + size then
      let ioffset := if from_ < offset then offset else from_
      let isize := if from_ < offset then to_ - from_ - (offset - from_) else to_ - from_
      let isize := if ioffset + isize > offset + size then offset + size - ioffset else isize
      let bytes := pread datafile isize ioffset
      let end_ := bytes.length + ioffset - offset
      let rd := if rd ≠ size ∧ end_ > rd then end_ else rd
      readIntervals datafile size offset rest (rd, pwrite buf bytes (ioffset - offset))
    else (rd, buf)

/-- `psync_pagecache_read_modified_locked`, into `buf` and with reads that succeed.
`psync_pagecache_read_unmodified_locked` reads `remote`. -/
def readModified (of : Handle) (remote buf : Bytes) (size offset : ℕ) : Option Bytes := do
  let datafile ← of.datafile
  let intervals := intervalsFrom of.writeintervals offset
  if ∃ fi ∈ intervals.head?, fi.1 ≤ offset ∧ fi.2 ≥ offset + size then some (pread datafile size offset)
  else
    let bytes := pread remote size offset
    let (rd, buf) := readIntervals datafile size offset intervals (bytes.length, pwrite buf bytes 0)
    some (buf.take rd)

/-- `psync_read_newfile`. -/
def readNewfile (of : Handle) (size offset : ℕ) : Option Bytes := of.datafile.map fun f => pread f size offset

/-! ### What the calls leave -/

variable {f d : Bytes} {of : Handle} {fates : Fates}

theorem pwrite_end {data : Bytes} : pwrite f data f.length = f ++ data := by
  rw [pwrite]
  split_ifs with hdata
  · rw [hdata, List.append_nil]
  · simp

@[simp] theorem length_indexRecord (rec : ℕ × ℕ) : (indexRecord rec).length = sizeofIndexRecord := by
  rw [indexRecord, List.length_append, length_ofNat, length_ofNat]
  rfl

/-- What a write leaves of a file. -/
theorem filePwrite_some (f data : Bytes) (off : ℕ) (fate : Fate) :
    filePwrite (some f) data off fate =
      (fate.count data.length, some (pwrite f (data.take ((fate.count data.length).getD 0)) off)) := by
  cases fate with
  | whole => simp [filePwrite, Fate.taken, Fate.count]
  | short count => simp [filePwrite, Fate.taken, Fate.count, ← List.take_eq_take_min]
  | error => simp [filePwrite, Fate.taken, Fate.count, pwrite]

theorem Fate.count_le {len count : ℕ} {fate : Fate} (h : fate.count len = some count) : count ≤ len := by
  cases fate with
  | whole => exact (Option.some.inj h).ge
  | short k => exact (Option.some.inj h) ▸ min_le_right ..
  | error => cases h

theorem writeRecord_eq (h : of.indexfile = some f) (rec : ℕ × ℕ) (fate : Fate) :
    writeRecord of rec fate = (decide (fate.count sizeofIndexRecord = some sizeofIndexRecord),
      { of with
        indexoff := of.indexoff + 1
        indexfile := some (pwrite f ((indexRecord rec).take ((fate.count sizeofIndexRecord).getD 0))
          (sizeofIndexRecord * of.indexoff)) }) := by
  rw [writeRecord, h, filePwrite_some, length_indexRecord]
  rfl

theorem recordExtension_whole {size : ℕ} {fate : Fate} (h : of.indexfile = some f)
    (hwhole : fate.count sizeofIndexRecord = some sizeofIndexRecord) (hgrows : of.currentsize < size) :
    recordExtension of size fate = some (true, { of with
      indexoff := of.indexoff + 1
      indexfile := some (pwrite f (indexRecord (of.currentsize, size - of.currentsize)) (sizeofIndexRecord * of.indexoff))
      writeintervals := add of.currentsize size of.writeintervals
      currentsize := size }) := by
  simp only [recordExtension, writeRecord_eq h, hwhole, decide_true, not_true_eq_false, if_false, intervalTreeAdd, hgrows,
    if_true, Option.getD_some]
  rw [List.take_of_length_le (length_indexRecord _).le]
  rfl

/-- An extension of the data file that does not fail records it. -/
theorem modfileCheckSizeOk_extends {size : ℕ} (hnew : of.newfile = false) (hdata : of.datafile = some d)
    (hgrows : of.currentsize < size)
    (hextends : fates.extends_ = true) : modfileCheckSizeOk of size fates =
      recordExtension { of with datafile := some (truncate d size) } size fates.extension := by
  rw [modfileCheckSizeOk, if_pos hgrows, hdata, hextends]
  show (if of.newfile = true then _ else _) = _
  rw [if_neg (by rw [hnew]; exact Bool.false_ne_true)]

/-- A write that succeeds adds the interval of its bytes. -/
theorem writeData_whole (hdata : of.datafile = some d) (hindex : of.indexfile = some f) (buf : Bytes) (offset : ℕ) :
    writeData of buf offset .whole = (intervalTreeAdd of.writeintervals offset (offset + buf.length)).map fun tree =>
      ((buf.length : ℤ), { of with
        indexoff := of.indexoff + 1
        indexfile := some (pwrite f (indexRecord (offset, buf.length)) (sizeofIndexRecord * of.indexoff))
        datafile := some (pwrite d buf offset)
        writeintervals := tree
        currentsize := if of.currentsize < offset + buf.length then offset + buf.length else of.currentsize }) := by
  have hindex' : { of with datafile := some (pwrite d buf offset) }.indexfile = some f := hindex
  rw [writeData, hdata, filePwrite_some]
  simp only [Fates.whole, Fate.count, Option.getD_some, List.take_length, writeRecord_eq hindex', decide_true,
    not_true_eq_false, if_false]
  rw [List.take_of_length_le (length_indexRecord _).le]
  cases intervalTreeAdd of.writeintervals offset (offset + buf.length) with
  | none => rfl
  | some tree => rfl

end Pclsync.OpenFile
