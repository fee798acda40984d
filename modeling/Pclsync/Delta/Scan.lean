import Pclsync.Delta.Adler
import Pclsync.Delta.Checksums

/-! The scan of a local file for blocks of a remote one, byte by byte over a buffer of two
halves, and the matches it takes.

The buffer is read half by half, one half ahead of the window. The matches are described
without the buffer: the first one at or after a position, then the first at or after its
end. -/
namespace Pclsync.Delta
open Lib.Files Lib.Machine

/-- `psync_upload_range_list_t`. -/
structure UploadRange where
  uploadoffset : ℕ
  off : ℕ
  len : ℕ
deriving DecidableEq, Repr

/-- `PSYNC_COPY_BUFFER_SIZE`. -/
def copyBufferSize : ℕ := 64 * 1024

/-- The variables of the loop of `check_range_for_blocks`. -/
structure Scan where
  buff : ℕ → UInt8
  /-- The position of `fd`. -/
  position : ℕ
  bufferlen : ℕ
  inbyteoff : ℕ
  outbyteoff : ℕ
  buffoff : ℕ
  adler : ℕ
  /-- `none` is -1. -/
  skipbytes : Option ℕ
  /-- The last one first; `ur` is the first of the list. -/
  nr : List UploadRange

/-- How a part of the loop ends. -/
inductive Turn where
  | stop (nr : List UploadRange)
  | go (s : Scan)

section Code
variable (sha1 : Bytes → Bytes) (hash : ChecksumHash) (cs : Checksums) (off len : ℕ) (file : Bytes)

def buffersize : ℕ :=
  if u32 (cs.blocksize * 2) > copyBufferSize ∨ len < copyBufferSize then u32 (cs.blocksize * 2) else copyBufferSize

def hbuffersize : ℕ := buffersize cs len / 2

/-- Bytes of the buffer. -/
def bytesAt (buff : ℕ → UInt8) (start count : ℕ) : Bytes := (List.range count).map fun i => buff (start + i)

/-- The bytes that a half is filled with, `psync_file_read` and `memset` together, and `rd`. -/
def readHalf (s : Scan) (start : ℕ) : (ℕ → UInt8) × ℕ :=
  let half := hbuffersize cs len
  let rd := min half (file.length - s.position)
  let filled := if rd = half then rd else (rd + cs.blocksize - 1) / cs.blocksize * cs.blocksize
  (fun x =>
    if start ≤ x ∧ x < start + rd then get file (s.position + (x - start))
    else if start + rd ≤ x ∧ x < start + filled then 0 else s.buff x,
    rd)

/-- The bytes that `psync_sha1` is computed of. -/
def Scan.hashed (s : Scan) : Bytes :=
  if s.outbyteoff < s.inbyteoff then bytesAt s.buff s.outbyteoff cs.blocksize
  else bytesAt s.buff s.outbyteoff (buffersize cs len - s.outbyteoff) ++ bytesAt s.buff 0 s.inbyteoff

/-- `blockidx`: the lookup of the window. -/
def Scan.lookup (s : Scan) : Option ℕ :=
  (hashHasAdler hash cs s.adler).bind fun has =>
    if has then hashHasAdlerAndSha1 hash cs s.adler (sha1 (s.hashed cs len)) else some 0

/-- A match of a block is added to the ranges. -/
def addRange (nr : List UploadRange) (uploadoffset blockoff blen : ℕ) : List UploadRange :=
  match nr with
  | ur :: rest =>
    if ur.off + ur.len = blockoff then { ur with len := ur.len + blen } :: rest
    else ⟨uploadoffset, blockoff, blen⟩ :: nr
  | [] => [⟨uploadoffset, blockoff, blen⟩]

/-- The body of `if (blockidx)`. -/
def Scan.found (s : Scan) (blockidx : ℕ) : Turn :=
  let p := s.buffoff + s.outbyteoff
  let blen := if p + cs.blocksize ≤ len then cs.blocksize else len - s.buffoff - s.outbyteoff
  let nr := addRange s.nr (off + s.buffoff + s.outbyteoff) (u32 ((blockidx - 1) * cs.blocksize)) blen
  if blen ≠ cs.blocksize then .stop nr
  else
    let left := cs.blocksize - (s.inbyteoff &&& (cs.blocksize - 1))
    let left := if left = cs.blocksize then 0 else left
    .go { s with
      nr := nr, skipbytes := some (cs.blocksize - left)
      inbyteoff := s.inbyteoff + left, outbyteoff := s.outbyteoff + left }

/-- At the end of a block of the buffer: the next half is read where it is needed. -/
def Scan.refill (s : Scan) : Option Scan :=
  let size := buffersize cs len
  let half := hbuffersize cs len
  let s := if s.outbyteoff ≥ size then { s with outbyteoff := s.outbyteoff - size, buffoff := s.buffoff + size } else s
  if s.inbyteoff = s.bufferlen then
    if s.bufferlen ≠ size then none
    else
      let s := { s with inbyteoff := 0 }
      let (buff, rd) := readHalf cs len file s 0
      let s := { s with buff := buff, position := s.position + rd }
      if rd = half then some s
      else if rd = 0 then none
      else some { s with bufferlen := (rd + cs.blocksize - 1) / cs.blocksize * cs.blocksize }
  else if s.inbyteoff = half then
    let (buff, rd) := readHalf cs len file s half
    let s := { s with buff := buff, position := s.position + rd }
    if rd = half then some s
    else if rd = 0 then none
    else some { s with bufferlen := (rd + cs.blocksize - 1) / cs.blocksize * cs.blocksize + half }
  else some s

/-- The window is put to its next place: past a match, with a new checksum. -/
def Scan.skip (s : Scan) (skipbytes : ℕ) : Scan :=
  let s := { s with inbyteoff := s.inbyteoff + skipbytes, outbyteoff := s.outbyteoff + skipbytes, skipbytes := none }
  { s with
    adler :=
      if s.outbyteoff < s.inbyteoff then adler32 adler32Initial (bytesAt s.buff s.outbyteoff cs.blocksize)
      else adler32 (adler32 adler32Initial (bytesAt s.buff s.outbyteoff (buffersize cs len - s.outbyteoff)))
        (bytesAt s.buff 0 s.inbyteoff) }

/-- The window goes on by a byte. -/
def Scan.roll (s : Scan) : Scan :=
  { s with
    adler := adler32Roll s.adler (s.buff s.outbyteoff) (s.buff s.inbyteoff) cs.blocksize
    outbyteoff := s.outbyteoff + 1, inbyteoff := s.inbyteoff + 1 }

/-- What follows the lookup. -/
def Scan.advance (s : Scan) : Turn :=
  if s.inbyteoff &&& (cs.blocksize - 1) = 0 then
    match s.refill cs len file with
    | none => .stop s.nr
    | some s =>
      match s.skipbytes with
      | some skipbytes => .go (s.skip cs len skipbytes)
      | none => .go (s.roll cs)
  else .go (s.roll cs)

/-- A turn of the loop. -/
def Scan.turn (s : Scan) : Option Turn :=
  (s.lookup sha1 hash cs len).map fun blockidx =>
    if blockidx = 0 then s.advance cs len file
    else
      match s.found cs off len blockidx with
      | .stop nr => .stop nr
      | .go s => s.advance cs len file

def scanLoop : (fuel : ℕ) → Scan → Option (List UploadRange)
  | 0, _ => none
  | fuel + 1, s =>
    if s.buffoff + s.outbyteoff < len then
      match s.turn sha1 hash cs off len file with
      | none => none
      | some (.stop nr) => some nr
      | some (.go s) => scanLoop fuel s
    else some s.nr

/-- The variables before the loop, unless the file is too short to be scanned. -/
def scanStart : Option Scan :=
  let half := hbuffersize cs len
  let start : Scan := ⟨fun _ => 0, off, 0, 0, 0, 0, 0, none, []⟩
  let (buff, rd) := readHalf cs len file start 0
  if rd < half then none
  else some { start with
    buff := buff, position := off + rd, bufferlen := buffersize cs len
    adler := adler32 adler32Initial (bytesAt buff 0 cs.blocksize), inbyteoff := cs.blocksize }

/-- `check_range_for_blocks`, with the ranges it leaves in `nr`. `seeks` is whether `psync_file_seek`
succeeds. -/
def checkRangeForBlocks (fuel : ℕ) (seeks : Bool) : Option (Bool × List UploadRange) :=
  if seeks then
    match scanStart cs off len file with
    | none => some (true, [])
    | some s => (scanLoop sha1 hash cs off len file fuel s).map fun nr => (true, nr.reverse)
  else some (false, [])

end Code

end Pclsync.Delta
