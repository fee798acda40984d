import Pclsync.Lib.Buffers
import Pclsync.Lib.Files
import Pclsync.Lib.Machine
import Pclsync.Lib.Transition
import Mathlib.Data.List.Pairwise

/-! `psync_pagecache_read_unmodified_locked` of `ppagecache.c`: pages of one revision come from
memory, from the cache file, or from the threads that download them.

The loop that looks for the pages has the lock of the waiters. What was not found is brought
afterwards, in any order, while the reader waits for one page after the other. -/
namespace Pclsync.PageCache.PlainReads
open Lib.Buffers Lib.Files Lib.Machine Lib.Transition

/-- `PSYNC_FS_PAGE_SIZE`. -/
def pageSize : ℕ := 4096

/-- The bytes of a page of a file. -/
def filePage (f : Bytes) (pageid : ℕ) : Bytes := pread f pageSize (pageid * pageSize)

/-- A row of the table `pagecache` that has the type `PAGE_TYPE_READ`. -/
structure Row where
  id : ℕ
  hash : ℕ
  pageid : ℕ
  size : ℕ
  crc : Option ℕ
deriving DecidableEq

/-! ### Looking for a page -/

section
variable (crc32c : Bytes → ℕ) (pagehash : ℕ → ℕ → ℕ)

/-- The part of `size` bytes at `off` that a page of `dsize` bytes has. -/
def clip (size off dsize : ℕ) : ℕ := if size + off > dsize then (if off > dsize then 0 else dsize - off) else size

theorem clip_eq {size off dsize : ℕ} : clip size off dsize = min size (dsize - off) := by
  unfold clip
  split_ifs <;> omega

/-! ### Waiting -/

end

section
variable (answer : ℕ → Except ReadError Bytes) (pageoff : ℕ)

end

end Pclsync.PageCache.PlainReads
