import Pclsync.FsCrypto.Offsets
import Pclsync.OpenFile.Index

/-! Reads of a modified file that is encrypted, from `pfscrypto.c`: each sector comes from the local
copy or from the remote one.

A byte of the buffer is where it came from. What other threads do while the mutex is not held is
the difference between `now` and `later`. -/
namespace Pclsync.OpenFile.Merged
open FsCrypto (sectorSize maxSectorid dataSectoridBySectorid)
open Lib.Intervals

inductive Origin where
  | unset
  | remote (position : ℕ)
  | sector (sectorid index : ℕ)
deriving DecidableEq

abbrev Buffer : Type := ℕ → Origin

/-- What the log and the data file hold when sectors are read. -/
structure LocalCopy where
  /-- `hdr.length` of the record of a sector that is in `sectorsinlog`. -/
  logged : ℕ → Option ℕ
  /-- How much is in the data file, if `psync_file_size` tells. -/
  plainsize : Option ℕ
  /-- Whether a sector is read from its file in full, and decoded. -/
  readable : ℕ → Bool
  logged_le : ∀ sectorid length, logged sectorid = some length → length ≤ sectorSize

/-- What the call sees of the file when it takes the mutex. -/
structure Opened where
  currentsize : ℕ
  writeintervals : IntervalTree
  separated : Separated writeintervals

structure Call where
  size : ℕ
  offset : ℕ
  now : Opened
  initialsize : ℕ
  /-- The error of the read from remote, where one is made. -/
  remote : Option {e : ℤ // e < 0}
  /-- What `psync_fs_crypto_wait_extender_after_locked` returns. -/
  extender : ℤ
  /-- When the mutex is taken again, or the extender was waited for. -/
  later : Opened
  /-- What is then in the memory of the interval that the first loop found last. -/
  node : ℕ × ℕ
  copy : LocalCopy

/-- A read of a sector: what was asked and what came. -/
structure Read where
  sectorid : ℕ
  asked : ℕ
  got : ℤ

structure Result where
  ret : ℤ
  locks : ℕ
  unlocks : ℕ
  reads : List Read
  buf : Buffer
  /-- The read from remote failed, or the extender that is waited for. -/
  elsewhere : Bool

def eio : ℤ := 5

def einval : ℤ := 22

/-! ### Sectors of the local copy -/

/-- `psync_fs_crypto_read_newfile_full_sector`. -/
def fullSector (copy : LocalCopy) (sectorid : ℕ) : ℤ :=
  match copy.logged sectorid with
  | some length => if copy.readable sectorid then length else -eio
  | none =>
    match copy.plainsize with
    | none => -eio
    | some plainsize =>
      if plainsize ≤ sectorid * sectorSize then 0
      else if copy.readable sectorid then ((min sectorSize (plainsize - sectorid * sectorSize) : ℕ) : ℤ) else -eio

/-- `psync_fs_crypto_read_newfile_partial_sector`. -/
def partialSector (copy : LocalCopy) (sectorid size offset : ℕ) : ℤ :=
  let rd := fullSector copy sectorid
  if rd ≤ 0 then rd else if rd ≤ offset then 0 else min (rd - offset) size

/-- The part of a sector that a read takes. -/
def readSector (copy : LocalCopy) (sectorid : ℕ) (piece : ℕ × ℕ) : ℤ :=
  if piece.2 = sectorSize then fullSector copy sectorid else partialSector copy sectorid piece.2 piece.1

/-- The buffer when so much of a sector was copied to `base`. -/
def copyInto (buf : Buffer) (base sectorid offset : ℕ) (rd : ℤ) : Buffer := fun i =>
  if base ≤ i ∧ (i : ℤ) < base + rd then .sector sectorid (offset + (i - base)) else buf i

/-! ### Reads from the local copy only -/

/-- What `psync_fs_crypto_read_newfile_locked` reads of the sectors, one after the other: a part of
the first one, whole ones, and a part of the last one. -/
def newfilePieces (size offset : ℕ) : List (ℕ × ℕ) :=
  let off2 := offset % sectorSize
  let offdiff := if off2 = 0 then 0 else min (sectorSize - off2) size
  let size := size - offdiff
  (if off2 = 0 then [] else [(off2, offdiff)]) ++ List.replicate (size / sectorSize) (0, sectorSize) ++
    if size % sectorSize = 0 then [] else [(0, size % sectorSize)]

def readPieces (copy : LocalCopy) : List (ℕ × ℕ) → ℕ → ℕ → List Read → Buffer → ℤ × List Read × Buffer
  | [], _, rd, reads, buf => (rd, reads, buf)
  | piece :: pieces, sectorid, rd, reads, buf =>
    let ret := readSector copy sectorid piece
    let reads := reads ++ [⟨sectorid, piece.2, ret⟩]
    let buf := copyInto buf rd sectorid piece.1 ret
    if ret = piece.2 then readPieces copy pieces (sectorid + 1) (rd + piece.2) reads buf
    else (if ret < 0 then ret else ret + rd, reads, buf)

/-- `psync_fs_unlock_ret`, before anything was read. -/
def unlockRet (ret : ℤ) : Result := ⟨ret, 0, 1, [], fun _ => .unset, false⟩

def tooFar (size offset : ℕ) : Prop := maxSectorid < (size + offset + sectorSize - 1) / sectorSize

instance (size offset : ℕ) : Decidable (tooFar size offset) := inferInstanceAs (Decidable (_ < _))

/-- `psync_fs_crypto_read_newfile_locked`. -/
def Call.readNewfileLocked (c : Call) (size : ℕ) : Result :=
  if tooFar size c.offset then unlockRet (-einval)
  else if c.extender ≠ 0 then { unlockRet c.extender with elsewhere := true }
  else if size = 0 ∨ c.later.currentsize ≤ c.offset then unlockRet 0
  else
    let size := if c.offset + size > c.later.currentsize then c.later.currentsize - c.offset else size
    let (ret, reads, buf) := readPieces c.copy (newfilePieces size c.offset) (c.offset / sectorSize) 0 [] fun _ => .unset
    ⟨ret, 0, 1, reads, buf, false⟩

/-! ### Reads from remote -/

/-- `psync_pagecache_read_unmodified_encrypted_locked`, behind the unlock. -/
def Call.readUnmodified (c : Call) (size : ℕ) : ℤ × Buffer :=
  if c.initialsize ≤ c.offset then (0, fun _ => .unset)
  else
    match c.remote with
    | some e => (e, fun _ => .unset)
    | none =>
      let size := if c.offset + size > c.initialsize then c.initialsize - c.offset else size
      (size, fun i => if i < size then .remote (c.offset + i) else .unset)

/-! ### Both -/

def eoffset (sectorid : ℕ) : ℕ := dataSectoridBySectorid sectorid * sectorSize

/-- An interval that the loops go on with. -/
def covers (itr : Option (ℕ × ℕ)) (sectorid : ℕ) : Bool := itr.any fun i => i.1 ≤ eoffset sectorid ∧ eoffset sectorid < i.2

/-- An interval that was looked up for a sector. -/
def startsBefore (itr : Option (ℕ × ℕ)) (sectorid : ℕ) : Bool := itr.any fun i => i.1 ≤ eoffset sectorid

/-- The first loop: the bits of `rfr`, and the interval that it leaves. -/
def classify (tree : IntervalTree) : List ℕ → Option (ℕ × ℕ) → Bool × Bool × Option (ℕ × ℕ)
  | [], itr => (false, false, itr)
  | sectorid :: sectors, itr =>
    if covers itr sectorid then
      let (_, remote, last) := classify tree sectors itr
      (true, remote, last)
    else
      let itr := firstIntervalContainingOrAfter tree (eoffset sectorid)
      let (localOnes, remote, last) := classify tree sectors itr
      if startsBefore itr sectorid then (true, remote, last) else (localOnes, true, last)

/-- The sectors from `firstsectorid` to `lastsectorid`. -/
def sectorsOf (size offset : ℕ) : List ℕ :=
  List.range' (offset / sectorSize) ((offset + size - 1) / sectorSize + 1 - offset / sectorSize)

/-- What the second loop takes of a sector: from where, and how much. -/
def mergedPiece (size offset sectorid : ℕ) : ℕ × ℕ :=
  if sectorid = offset / sectorSize ∧ offset % sectorSize ≠ 0 then (offset % sectorSize, min (sectorSize - offset % sectorSize) size)
  else (0, if sectorid = (offset + size - 1) / sectorSize ∧ (offset + size) % sectorSize ≠ 0 then (offset + size) % sectorSize else sectorSize)

/-- Where in the buffer it goes. -/
def mergedBase (offset sectorid : ℕ) : ℕ :=
  if sectorid = offset / sectorSize ∧ offset % sectorSize ≠ 0 then 0
  else (sectorid - offset / sectorSize) * sectorSize - offset % sectorSize

/-- Where the second loop is. -/
structure Merge where
  itr : Option (ℕ × ℕ)
  unlocks : ℕ
  reads : List Read
  buf : Buffer

/-- A round of the second loop. A sector that is not read gives the mutex back, and the loop goes on. -/
def Call.mergeSector (c : Call) (size : ℕ) (m : Merge) (sectorid : ℕ) : Merge :=
  let itr := if covers m.itr sectorid then m.itr else firstIntervalContainingOrAfter c.later.writeintervals (eoffset sectorid)
  if startsBefore itr sectorid then
    let piece := mergedPiece size c.offset sectorid
    let rfr := readSector c.copy sectorid piece
    { itr := itr
      unlocks := if rfr ≠ piece.2 then m.unlocks + 1 else m.unlocks
      reads := m.reads ++ [⟨sectorid, piece.2, rfr⟩]
      buf := copyInto m.buf (mergedBase c.offset sectorid) sectorid piece.1 rfr }
  else { m with itr := itr }

/-- A read that is partly local, with the interval of the first loop. -/
def Call.readMerged (c : Call) (size : ℕ) (itr : Option (ℕ × ℕ)) : Result :=
  let (rfr, buf) := c.readUnmodified size
  if rfr < 0 then ⟨rfr, 0, 1, [], buf, true⟩
  else if c.offset + size > c.later.currentsize ∧ c.later.currentsize ≤ c.offset then ⟨0, 1, 2, [], buf, false⟩
  else
    let size := if c.offset + size > c.later.currentsize then c.later.currentsize - c.offset else size
    let m := (sectorsOf size c.offset).foldl (c.mergeSector size) ⟨itr.map fun _ => c.node, 0, [], buf⟩
    ⟨size, 1, 2 + m.unlocks, m.reads, m.buf, false⟩

/-- `psync_fs_crypto_read_modified_locked`. -/
def Call.readModifiedLocked (c : Call) : Result :=
  if tooFar c.size c.offset then unlockRet (-einval)
  else if c.size = 0 ∨ c.now.currentsize ≤ c.offset then unlockRet 0
  else
    let size := if c.offset + c.size > c.now.currentsize then c.now.currentsize - c.offset else c.size
    match classify c.now.writeintervals (sectorsOf size c.offset) none with
    | (true, false, _) => c.readNewfileLocked size
    | (false, true, _) =>
      let (ret, buf) := c.readUnmodified size
      ⟨ret, 0, 1, [], buf, decide (ret < 0)⟩
    | (_, _, itr) => c.readMerged size itr

/-! ### What is asked -/

/-- A sector is in `writeintervals`. -/
def Opened.Local (o : Opened) (sectorid : ℕ) : Prop := eoffset sectorid ∈ points o.writeintervals

/-- The size that the call starts with. -/
def Call.within (c : Call) : ℕ := min c.size (c.now.currentsize - c.offset)

def Call.AllLocal (c : Call) : Prop := ∀ s ∈ sectorsOf c.within c.offset, c.now.Local s

def Call.AllRemote (c : Call) : Prop := ∀ s ∈ sectorsOf c.within c.offset, ¬c.now.Local s

open Classical in
/-- The state of the file that the call goes by. -/
noncomputable def Call.seen (c : Call) : Opened := if c.AllRemote then c.now else c.later

/-- The size that is left of the request. -/
noncomputable def Call.count (c : Call) : ℕ := min c.within (c.seen.currentsize - c.offset)

/-- The origin of a byte is the local copy of its sector if it is local, and the remote one otherwise. -/
def Call.Right (c : Call) (i : ℕ) (origin : Origin) : Prop :=
  (c.seen.Local ((c.offset + i) / sectorSize) → origin = .sector ((c.offset + i) / sectorSize) ((c.offset + i) % sectorSize)) ∧
  (¬c.seen.Local ((c.offset + i) / sectorSize) → origin = .remote (c.offset + i))

/-- Failing reads of sectors are reported, and otherwise the buffer is right. -/
structure Call.Meets (c : Call) : Prop where
  unlocked : c.readModifiedLocked.unlocks = c.readModifiedLocked.locks + 1
  failed : ∀ q ∈ c.readModifiedLocked.reads, q.got ≠ q.asked →
    (q.got < 0 → c.readModifiedLocked.ret = q.got) ∧ c.readModifiedLocked.ret ≠ c.count
  done : (∀ q ∈ c.readModifiedLocked.reads, q.got = q.asked) → c.readModifiedLocked.elsewhere = false →
    c.readModifiedLocked.ret = c.count ∧ ∀ i < c.count, c.Right i (c.readModifiedLocked.buf i)

/-- A sector of the request is read from the local copy as far as the request goes. -/
def Call.Reads (c : Call) (s : ℕ) : Prop :=
  readSector c.copy s (mergedPiece c.count c.offset s) = (mergedPiece c.count c.offset s).2

/-- The remote read, where one is made, succeeds. -/
def Call.Answered (c : Call) : Prop := c.offset < c.initialsize → c.remote = none

/-- The interval that the first loop leaves. -/
def Call.found (c : Call) : Option (ℕ × ℕ) := (classify c.now.writeintervals (sectorsOf c.within c.offset) none).2.2

/-- When failing reads are reported and the buffer is right. -/
structure Call.Proper (c : Call) : Prop where
  near : ¬tooFar c.size c.offset
  /-- All sectors are local, and are so when they are read. -/
  onlyLocal : 0 < c.count → c.AllLocal → c.extender = 0 → (∀ s ∈ sectorsOf c.count c.offset, c.Reads s) →
    ∀ s ∈ sectorsOf c.count c.offset, c.later.Local s
  /-- None is, and all bytes are of the remote file. -/
  onlyRemote : 0 < c.count → c.AllRemote → c.Answered → c.offset + c.count ≤ c.initialsize
  /-- The interval that is gone on with is there still; every local sector is read; the other bytes are of the remote file. -/
  both : 0 < c.count → ¬c.AllLocal → ¬c.AllRemote → c.Answered →
    (∀ s ∈ (sectorsOf c.count c.offset).takeWhile (covers (c.found.map fun _ => c.node)), c.later.Local s) ∧
    (∀ s ∈ sectorsOf c.count c.offset, c.later.Local s → c.Reads s) ∧
    ∀ i < c.count, ¬c.later.Local ((c.offset + i) / sectorSize) → c.offset + i < c.initialsize

end Pclsync.OpenFile.Merged
