import Pclsync.Lib.Machine
import Pclsync.Lib.Transition
import Mathlib.Algebra.BigOperators.Fin
import Mathlib.Data.Fintype.Basic

/-! The pages of the read cache, from `ppagecache.c`: the list of free pages, the buckets of
`cache_hash`, and the two counters.

An event is what a thread does while it has `cache_mutex`. Only one thread flushes at a time,
with `flush_cache_mutex`; it gives `cache_mutex` back while it sorts and writes its pages. -/
namespace Pclsync.PageCache
open Lib.Machine

/-- `CACHE_PAGES`. -/
def cachePages : ℕ := 64 * 1024 * 1024 / 4096

/-- `CACHE_HASH`. -/
def cacheHash : ℕ := cachePages / 2

instance : NeZero cacheHash := ⟨by decide⟩

/-- `PAGE_TYPE_READ` and `PAGE_TYPE_CACHE`. -/
inductive PageType where
  | read
  | cache
deriving DecidableEq, Repr

/-- What `psync_cache_page_t` says of the page's content. -/
structure Info where
  hash : ℕ
  pageid : ℕ
  type : PageType
deriving DecidableEq, Repr

/-- Where the thread that flushes is, and its `pages_to_flush`. -/
inductive Flush (P : Type) where
  | idle
  /-- It sorts the pages of a full disk. -/
  | discarding (pages : List P)
  /-- It writes the pages to the cache file. -/
  | writing (pages : List P)
  /-- It is between the pages that it puts in the database. -/
  | updating (pages : List P) (pagecnt updates nosleep : ℕ)

def Flush.pages {P : Type} : Flush P → List P
  | idle => []
  | discarding pages => pages
  | writing pages => pages
  | updating pages _ _ _ => pages

/-- The variables that `cache_mutex` guards, for `n` buckets. `held` are the pages that
threads took and have not given back or put in a bucket. -/
structure State (P : Type) (n : ℕ) where
  freePages : List P
  cacheHash : Fin n → List P
  held : List P
  page : P → Info
  cachePagesFree : ℕ
  cachePagesInHash : ℕ
  cachePagesReset : Bool
  flush : Flush P

/-- A difference of `uint32_t`. -/
def sub32 (a b : ℕ) : ℕ := u32 (a + (2 ^ 32 - u32 b))

section
variable {P : Type} [DecidableEq P] {n : ℕ} [NeZero n]

/-- `pagehash_by_hash_and_pageid`. -/
def pagehash (hash pageid : ℕ) : Fin n := Fin.ofNat n (u64 (hash + pageid))

namespace State

/-- `psync_list_del`. -/
def listDel (s : State P n) (p : P) : State P n :=
  { s with freePages := s.freePages.erase p, cacheHash := fun h => (s.cacheHash h).erase p }

/-- `psync_list_add_head` to `free_pages`, with the counter. -/
def addFree (s : State P n) (p : P) : State P n :=
  { s with freePages := p :: s.freePages, cachePagesFree := u32 (s.cachePagesFree + 1) }

/-- A page of a bucket becomes free. -/
def toFree (s : State P n) (p : P) : State P n := (s.listDel p).addFree p

/-- `psync_list_add_tail` to the bucket of the page. -/
def addTail (s : State P n) (p : P) : State P n :=
  let h := pagehash (s.page p).hash (s.page p).pageid
  { s with cacheHash := Function.update s.cacheHash h (s.cacheHash h ++ [p]) }

def dropHeld (s : State P n) (p : P) : State P n := { s with held := s.held.erase p }

def setInfo (s : State P n) (p : P) (info : Info) : State P n := { s with page := Function.update s.page p info }

/-! ### Taking pages and giving them back -/

/-- `psync_pagecache_get_free_page_if_available`. -/
def getFreePageIfAvailable (s : State P n) : State P n :=
  match s.freePages with
  | [] => s
  | p :: rest => { s with freePages := rest, held := p :: s.held }

/-- The end of `psync_pagecache_get_free_page`, which waits for a page. -/
def getFreePage (s : State P n) : Option (State P n) :=
  match s.freePages with
  | [] => none
  | p :: rest =>
    some { s with freePages := rest, held := p :: s.held, cachePagesFree := sub32 s.cachePagesFree 1 }

/-- `psync_pagecache_return_free_page`. -/
def returnFreePage (s : State P n) (p : P) : Option (State P n) :=
  if p ∈ s.held then some ((s.dropHeld p).addFree p) else none

/-- A page that was read is put in its bucket. -/
def insert (s : State P n) (p : P) (info : Info) : Option (State P n) :=
  if p ∈ s.held then
    some { ((s.dropHeld p).setInfo p info).addTail p with cachePagesInHash := u32 (s.cachePagesInHash + 1) }
  else none

/-- `psync_pagecache_add_page_if_not_exists`. `elsewhere` is that somebody waits for the page, or
that it is in the database. -/
def addPageIfNotExists (s : State P n) (p : P) (info : Info) (elsewhere : Bool) : Option (State P n) :=
  let hasit := (s.cacheHash (pagehash info.hash info.pageid)).any fun pg => s.page pg = { info with type := .read }
  if hasit || elsewhere then (s.setInfo p info).returnFreePage p else s.insert p info

/-! ### Looking pages up -/

/-- The page that `check_page_in_memory_by_hash` drops: the first one with a bad CRC. -/
def dropped (s : State P n) (hash pageid : ℕ) (bad : P → Bool) : Option P :=
  (s.cacheHash (pagehash hash pageid)).find? fun p => (s.page p).hash = hash ∧ (s.page p).pageid = pageid ∧ bad p

/-- `check_page_in_memory_by_hash`. `bad` is whose CRC does not match. -/
def checkPageInMemoryByHash (s : State P n) (hash pageid : ℕ) (bad : P → Bool) : State P n :=
  match s.dropped hash pageid bad with
  | none => s
  | some p => { s.toFree p with cachePagesInHash := sub32 s.cachePagesInHash 1 }

/-- `switch_memory_page_to_hash`. -/
def switchMemoryPageToHash (s : State P n) (oldhash newhash pageid : ℕ) : State P n :=
  match (s.cacheHash (pagehash oldhash pageid)).find? fun p => s.page p = ⟨oldhash, pageid, .read⟩ with
  | none => s
  | some p => ((s.listDel p).setInfo p ⟨newhash, pageid, .read⟩).addTail p

/-! ### Flushing -/

/-- The pages of a type, bucket by bucket. -/
def ofType (s : State P n) (type : PageType) : List P :=
  (List.finRange n).flatMap fun h => (s.cacheHash h).filter fun p => (s.page p).type = type

/-- A page is discarded: it becomes free and the counter follows. -/
def discard (s : State P n) (p : P) : State P n :=
  { s.toFree p with cachePagesInHash := sub32 s.cachePagesInHash 1 }

/-- What `flush_pages` does first when the disk is full. -/
def startDiscard (s : State P n) : State P n :=
  { (s.ofType .cache).foldl discard s with flush := .discarding (s.ofType .read) }

/-- How `flush_pages` collects the pages to flush. -/
def collect (s : State P n) : State P n :=
  if s.cachePagesInHash = 0 then { s with flush := .idle }
  else
    let reads := s.ofType .read
    { (s.ofType .cache).foldl toFree s with
      cachePagesReset := false
      cachePagesInHash := u32 reads.length
      flush := if reads.isEmpty then .idle else .writing reads }

/-- `flush_pages` up to where it first gives `cache_mutex` back. -/
def flushStart (s : State P n) (diskfull : Bool) : Option (State P n) :=
  match s.flush with
  | .idle => some (if diskfull then s.startDiscard else s.collect)
  | _ => none

/-- `flush_pages` discards the first half of its sorted pages, at least one. -/
def flushDiscard (s : State P n) (pages : ℕ) (sorted : List P) : Option (State P n) :=
  match s.flush with
  | .discarding old =>
    if sorted.Perm old then some ((sorted.take (max 1 (pages / 2))).foldl discard s).collect else none
  | _ => none

/-- `flush_pages` has written its sorted pages, those for which there are rows in the database. -/
def flushWritten (s : State P n) (sorted : List P) (rows updates nosleep : ℕ) : Option (State P n) :=
  match s.flush with
  | .writing old =>
    if sorted.Perm old then
      some { s with flush := if (sorted.take rows).isEmpty then .idle else .updating (sorted.take rows) 0 updates nosleep }
    else none
  | _ => none

/-- A write to the cache file has failed. -/
def flushFailed (s : State P n) : Option (State P n) :=
  match s.flush with
  | .writing _ => some { s with flush := .idle }
  | _ => none

/-- The pages that are put in the database up to the next pause, and whether a row was
changed for each. -/
def updateLoop (nosleep : ℕ) : State P n → List P → List Bool → ℕ → ℕ → Option (State P n)
  | s, [], [], pagecnt, _ =>
    some { s with cachePagesInHash := sub32 s.cachePagesInHash pagecnt, flush := .idle }
  | s, p :: rest, affected :: outcomes, pagecnt, updates =>
    let s := s.toFree p
    let pagecnt := if affected then pagecnt + 1 else pagecnt
    let updates := if affected then updates + 1 else updates
    if nosleep ≠ 1 ∧ updates % 64 = 0 then
      if outcomes = [] then some { s with flush := .updating rest pagecnt updates nosleep } else none
    else updateLoop nosleep s rest outcomes pagecnt updates
  | _, _, _, _, _ => none

def flushUpdate (s : State P n) (affected : List Bool) : Option (State P n) :=
  match s.flush with
  | .updating pages pagecnt updates nosleep => updateLoop nosleep s pages affected pagecnt updates
  | _ => none

/-- Whether the timer resets the whole buffer. -/
def resets (s : State P n) (pages : ℕ) : Bool := s.cachePagesFree = pages ∧ !s.cachePagesReset

/-- `psync_pagecache_flush_timer`. -/
def flushTimer (s : State P n) (pages : ℕ) : State P n :=
  if s.resets pages then { s with cachePagesReset := true } else s

end State

/-! ### Runs -/

inductive Event (P : Type) where
  | getFreePageIfAvailable
  | getFreePage
  | returnFreePage (p : P)
  | insert (p : P) (info : Info)
  | addPageIfNotExists (p : P) (info : Info) (elsewhere : Bool)
  | checkPageInMemoryByHash (hash pageid : ℕ) (bad : P → Bool)
  | switchMemoryPageToHash (oldhash newhash pageid : ℕ)
  | flushStart (diskfull : Bool)
  | flushDiscard (sorted : List P)
  | flushWritten (sorted : List P) (rows updates nosleep : ℕ)
  | flushFailed
  | flushUpdate (affected : List Bool)
  | flushTimer

variable [Fintype P]

def State.run (s : State P n) : Event P → Option (State P n)
  | .getFreePageIfAvailable => some s.getFreePageIfAvailable
  | .getFreePage => s.getFreePage
  | .returnFreePage p => s.returnFreePage p
  | .insert p info => s.insert p info
  | .addPageIfNotExists p info elsewhere => s.addPageIfNotExists p info elsewhere
  | .checkPageInMemoryByHash hash pageid bad => some (s.checkPageInMemoryByHash hash pageid bad)
  | .switchMemoryPageToHash oldhash newhash pageid => some (s.switchMemoryPageToHash oldhash newhash pageid)
  | .flushStart diskfull => s.flushStart diskfull
  | .flushDiscard sorted => s.flushDiscard (Fintype.card P) sorted
  | .flushWritten sorted rows updates nosleep => s.flushWritten sorted rows updates nosleep
  | .flushFailed => s.flushFailed
  | .flushUpdate affected => s.flushUpdate affected
  | .flushTimer => some (s.flushTimer (Fintype.card P))

def step (s : State P n) (e : Event P) (s' : State P n) : Prop := s.run e = some s'

/-- As `psync_pagecache_init` leaves it. -/
structure Initial (s : State P n) : Prop where
  free : ∀ p, s.freePages.count p = 1
  hash : ∀ h, s.cacheHash h = []
  held : s.held = []
  cachePagesFree : s.cachePagesFree = Fintype.card P
  cachePagesInHash : s.cachePagesInHash = 0
  flush : s.flush = .idle

/-- How often a page is in a bucket. -/
def State.inHash (s : State P n) (p : P) : ℕ := ∑ h, (s.cacheHash h).count p

/-- Both counters count what they should, and each page is in one place. -/
structure Accounted (s : State P n) : Prop where
  free : s.cachePagesFree = s.freePages.length
  inHash : s.cachePagesInHash = ∑ h, (s.cacheHash h).length
  once : ∀ p, s.freePages.count p + s.inHash p + s.held.count p = 1

/-- What makes the counters wrong. -/
def Drifts (s : State P n) : Event P → Prop
  -- a free page is taken, and `cache_pages_free` does not follow
  | .getFreePageIfAvailable => s.freePages ≠ []
  -- a page that a lookup dropped in the meantime is freed again
  | .flushDiscard sorted => ∃ p ∈ sorted.take (max 1 (Fintype.card P / 2)), s.inHash p = 0
  -- the same, or a row does not change, or the flush pauses between its pages
  | .flushUpdate affected => (∃ p ∈ s.flush.pages, s.inHash p = 0) ∨ false ∈ affected ∨ match s.flush with
    | .updating pages _ updates nosleep => nosleep ≠ 1 ∧ 64 ≤ updates % 64 + pages.length
    | _ => False
  | _ => False

end

end Pclsync.PageCache
