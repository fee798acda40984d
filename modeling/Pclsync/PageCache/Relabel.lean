import Pclsync.OpenFile.Index
import Pclsync.PageCache.PlainReads

/-! What becomes of the cached pages of a revision when a modification of it was uploaded:
`psync_pagecache_modify_to_cache` of `ppagecache.c`.

Pages that no interval touches get the hash of the new revision, in memory or in the database.
The others are put together from the data file and the old pages. -/
namespace Pclsync.PageCache.Relabel
open Lib.Files Lib.Intervals OpenFile
open PlainReads (pageSize filePage Row clip)

/-- `psync_cache_page_t`, with the bytes up to its `size`. -/
structure CachePage where
  hash : ℕ
  pageid : ℕ
  isRead : Bool
  page : Bytes
deriving DecidableEq

/-- The buckets, the rows of the table `pagecache` of type `PAGE_TYPE_READ`, and the cache file. -/
structure Cache where
  cacheHash : ℕ → List CachePage
  pagecache : List Row
  readcache : Bytes

/-- What others do, by the moment. -/
structure Env where
  crc32c : Bytes → ℕ
  pagehash : ℕ → ℕ → ℕ
  /-- What other threads make of the cache. -/
  others : ℕ → Cache → Cache
  /-- Whether there is a `psync_page_wait_t`. -/
  waits : ℕ → ℕ → ℕ → Bool
  /-- What is in a free page. -/
  freePage : ℕ → Bytes
  /-- `psync_file_pread` of the data file: up to how many bytes it reads, and `none` for an error. -/
  reads : ℕ → Option ℕ

section
variable (env : Env)

/-- `switch_memory_page_to_hash`. -/
def switchMemoryPageToHash (c : Cache) (oldhash newhash pageid : ℕ) : Option Cache :=
  let ho := env.pagehash oldhash pageid
  let hn := env.pagehash newhash pageid
  ((c.cacheHash ho).find? fun page => page.hash = oldhash ∧ page.pageid = pageid ∧ page.isRead).map fun page =>
    let cacheHash := Function.update c.cacheHash ho ((c.cacheHash ho).erase page)
    { c with cacheHash := Function.update cacheHash hn (cacheHash hn ++ [{ page with hash := newhash }]) }

/-- `UPDATE OR IGNORE`, for one page: no second row may get the hash and the page id. -/
def switchRow (hash oldhash : ℕ) (rows : List Row) (pageid : ℕ) : List Row :=
  if rows.any fun row => row.hash = hash ∧ row.pageid = pageid then rows
  else rows.map fun row => if row.hash = oldhash ∧ row.pageid = pageid then { row with hash := hash } else row

def switchPageids (c : Cache) (hash oldhash : ℕ) (pageids : List ℕ) : Cache :=
  { c with pagecache := pageids.foldl (switchRow hash oldhash) c.pagecache }

/-- `mark_page_free`. -/
def markPageFree (c : Cache) (pagecacheid : ℕ) : Cache := { c with pagecache := c.pagecache.filter fun row => row.id ≠ pagecacheid }

/-- `check_page_in_database_by_hash` for the start of a page, where `buff` is the page that it fills. -/
def checkPageInDatabaseByHash (c : Cache) (hash pageid : ℕ) (buff : Bytes) (size : ℕ) : Option ℕ × Bytes × Cache :=
  match c.pagecache.find? fun row => row.hash = hash ∧ row.pageid = pageid with
  | none => (none, buff, c)
  | some row =>
    let size := clip size 0 row.size
    let read := pread c.readcache size (row.id * pageSize)
    let buff := pwrite buff read 0
    if read.length ≠ size then (none, buff, markPageFree c row.id)
    else if row.crc.isSome ∧ size = row.size ∧ row.crc ≠ some (env.crc32c read) then (none, buff, markPageFree c row.id)
    else (some size, buff, c)

/-- `psync_pagecache_add_page_if_not_exists`. -/
def addPageIfNotExists (clock : ℕ) (c : Cache) (page : CachePage) : Cache :=
  let h := env.pagehash page.hash page.pageid
  if ((c.cacheHash h).any fun pg => pg.isRead ∧ pg.hash = page.hash ∧ pg.pageid = page.pageid) ∨ env.waits clock page.hash page.pageid ∨
      c.pagecache.any fun row => row.hash = page.hash ∧ row.pageid = page.pageid then c
  else { c with cacheHash := Function.update c.cacheHash h (c.cacheHash h ++ [page]) }

/-- `psync_file_pread`. -/
def filePread (clock : ℕ) (fd : Bytes) (len off : ℕ) : Option Bytes := (env.reads clock).map fun k => pread fd (min len k) off

end

/-- The variables of the loop; `tree` goes on from `interval`. -/
structure Loop where
  cache : Cache
  tree : IntervalTree
  pageids : List ℕ
  clock : ℕ

/-- Others go on. -/
def Loop.tick (env : Env) (s : Loop) : Loop := { s with cache := env.others s.clock s.cache, clock := s.clock + 1 }

inductive Round where
  | goes (s : Loop)
  /-- `break`. -/
  | breaks (s : Loop)

section
variable (env : Env) (fd : Bytes) (hash oldhash : ℕ)

/-- A page is ready: a page of the read cache. -/
def Loop.add (s : Loop) (pageid : ℕ) (page : Bytes) : Loop :=
  let s := s.tick env
  { s with cache := addPageIfNotExists env s.clock s.cache ⟨hash, pageid, true, page⟩ }

/-- The `ARRAY_SIZE` of `pageids`. -/
def pageidsSize : ℕ := 64

/-- A page that no interval touches. -/
def fullOldPage (s : Loop) (pageid : ℕ) : Round :=
  let off := pageid * pageSize
  if off + pageSize > fd.length then
    let (pdb, buff, cache) := checkPageInDatabaseByHash env s.cache oldhash pageid (env.freePage s.clock) (fd.length - off)
    let s := { s with cache := cache }
    match pdb with
    | none => .breaks s
    | some pdb => .breaks (s.add env hash pageid (buff.take pdb))
  else
    match switchMemoryPageToHash env s.cache oldhash hash pageid with
    | some cache => .goes { s with cache := cache }
    | none =>
      let pageids := s.pageids ++ [pageid]
      if pageids.length = pageidsSize then .goes { s with cache := switchPageids s.cache hash oldhash pageids, pageids := [] }
      else .goes { s with pageids := pageids }

/-- A page inside of an interval. -/
def fullNewPage (s : Loop) (pageid : ℕ) : Round :=
  let off := pageid * pageSize
  match filePread env s.clock fd pageSize off with
  | none => .breaks s
  | some rd => if rd.length < pageSize ∧ off + rd.length ≠ fd.length then .breaks s else .goes (s.add env hash pageid rd)

/-- What the loop over the intervals of a page leaves: `interval`, the page, `pdb`, and whether `ret` is 0. -/
structure Filled where
  tree : IntervalTree
  buff : Bytes
  pdb : ℕ
  good : Bool

/-- `interval` is `NULL`, or begins behind the page. -/
def beyond (off : ℕ) : IntervalTree → Bool
  | [] => true
  | (from_, _) :: _ => from_ ≥ off + pageSize

/-- The loop over the intervals of a page. An assertion that fails is `none`. -/
def fillPage (clock off : ℕ) : IntervalTree → Bytes → ℕ → Option Filled
  | [], buff, pdb => some ⟨[], buff, pdb, true⟩
  | (from_, to_) :: rest, buff, pdb =>
    let roff := if from_ > off then from_ - off else 0
    let rdoff := if from_ > off then from_ else off
    let rdlen := if to_ < off + pageSize then to_ - rdoff else pageSize - roff
    if roff + rdlen ≤ pageSize then
      let rd := filePread env (clock + rest.length) fd rdlen rdoff
      if rd.map List.length ≠ some rdlen then some ⟨(from_, to_) :: rest, pwrite buff (rd.getD []) roff, pdb, false⟩
      else
        let buff := pwrite buff (rd.getD []) roff
        let pdb := if roff + rdlen > pdb then roff + rdlen else pdb
        if to_ > off + pageSize then some ⟨(from_, to_) :: rest, buff, pdb, true⟩
        else if beyond off rest then some ⟨rest, buff, pdb, true⟩
        else fillPage clock off rest buff pdb
    else none

/-- A page with both old and new fragments, where the first interval is `(from_, to_)`. -/
def mixedPage (s : Loop) (pageid from_ to_ : ℕ) : Option Round :=
  let off := pageid * pageSize
  if (to_ > off ∧ to_ ≤ off + pageSize) ∨ (from_ ≥ off ∧ from_ < off + pageSize) then
    let (pdb, buff, cache) := checkPageInDatabaseByHash env s.cache oldhash pageid (env.freePage s.clock) pageSize
    let s := { s with cache := cache }
    match pdb with
    | none => some (.goes s)
    | some pdb => do
      let filled ← fillPage env fd s.clock off s.tree buff pdb
      let s := { s with tree := filled.tree }
      if ¬filled.good then some (.goes s)
      else if filled.pdb + off > fd.length then
        if fd.length > off then some (.goes (s.add env hash pageid (filled.buff.take (fd.length - off)))) else none
      else some (.goes (s.add env hash pageid (filled.buff.take filled.pdb)))
  else none

/-- A round of the loop over the pages. -/
def nextPage (s : Loop) (pageid : ℕ) : Option Round :=
  let off := pageid * pageSize
  let s := s.tick env
  let s := { s with tree := s.tree.dropWhile fun i => i.2 ≤ off }
  match s.tree with
  | [] => some (fullOldPage env fd hash oldhash s pageid)
  | (from_, to_) :: _ =>
    if from_ ≥ off + pageSize then some (fullOldPage env fd hash oldhash s pageid)
    else if from_ ≤ off ∧ (to_ ≥ off + pageSize ∨ to_ ≥ fd.length) then some (fullNewPage env fd hash s pageid)
    else mixedPage env fd hash oldhash s pageid from_ to_

/-- The next `todo` pages. -/
def pagesLoop : ℕ → ℕ → Loop → Option Loop
  | 0, pageid, s => if pageid * pageSize < fd.length then none else some s
  | todo + 1, pageid, s =>
    if pageid * pageSize < fd.length then do
      match ← nextPage env fd hash oldhash s pageid with
      | .goes s => pagesLoop todo (pageid + 1) s
      | .breaks s => some s
    else some s

end

/-- Which of the calls before the loop succeed. -/
structure Calls where
  openIndex : Bool
  indexReads : Bool
  openData : Bool
  dataSize : Bool

/-- `psync_pagecache_modify_to_cache`, with the index file and the data file. -/
def modifyToCache (env : Env) (calls : Calls) (hash oldhash : ℕ) (index fd : Bytes) (c : Cache) : Option Cache :=
  if ¬calls.openIndex ∨ ¬calls.indexReads then some c
  else do
    let (cnt, tree) ← loadIntervalTree index index.length []
    if cnt = -1 ∨ ¬calls.openData ∨ ¬calls.dataSize then some c
    else do
      let s ← pagesLoop env fd hash oldhash (fd.length / pageSize + 1) 0 ⟨c, tree, [], 0⟩
      let s := s.tick env
      some (switchPageids s.cache hash oldhash s.pageids)

end Pclsync.PageCache.Relabel
