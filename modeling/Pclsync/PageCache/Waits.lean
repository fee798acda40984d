import Mathlib.Data.List.Flatten
import Mathlib.Logic.Function.Basic
import Mathlib.Data.Nat.Notation
import Pclsync.Lib.Transition

/-! Pages that readers wait for, from `ppagecache.c`: the entries of `wait_page_hash`, the waiters
linked to them, the requests that are to fetch their pages, and `psync_fs_update_openfile`, which
gives an open file another hash.

An event is what a reader does while it has `wait_page_mutex`, what a thread of
`psync_pagecache_read_unmodified_thread` does with one page, or what happened in between. What
the lookups in memory and in the database answer is left open: an event lists the pages that
were not found. Offsets and lengths count pages. -/
namespace Pclsync.PageCache.Waits

/-- `psync_request_range_t`. -/
structure Range where
  offset : ℕ
  length : ℕ
deriving DecidableEq, Repr

def Range.pages (r : Range) : List ℕ := List.range' r.offset r.length

def pagesOf (ranges : List Range) : List ℕ := ranges.flatMap Range.pages

/-- A page that follows the last range makes it longer. -/
def addRange (ranges : List Range) (pageid : ℕ) : List Range :=
  match ranges.getLast? with
  | none => [⟨pageid, 1⟩]
  | some range =>
    if range.offset + range.length = pageid then ranges.dropLast ++ [{ range with length := range.length + 1 }]
    else ranges ++ [⟨pageid, 1⟩]

/-- The hash and the page an entry is for. -/
abbrev Key := ℕ × ℕ

/-- The bytes that the server sends for a page of a revision, known by both. -/
abbrev Bytes := ℕ × ℕ

/-- `psync_cache_page_t`, with the bytes it was filled with. -/
structure Page where
  hash : ℕ
  pageid : ℕ
  bytes : Bytes
deriving DecidableEq, Repr

/-- `psync_page_waiter_t`. `waitingFor` is what its entry is for. It is counted how often it became
ready and how often it was freed, and `late` is that it was written after that. -/
structure Waiter (T : Type) where
  owner : T
  waitingFor : Key
  ready : ℕ
  error : Bool
  bytes : Option Bytes
  freed : ℕ
  late : Bool

/-- What a reader waits for next. -/
inductive Stage where
  /-- A data page, or an auth sector: of its waiters, `waiter` is the last one. -/
  | sector (waiters : List ℕ)
  /-- The auth sectors above another one. -/
  | chain (sectors : List (List ℕ))
deriving DecidableEq, Repr

/-- `psync_pagecache_read_unmodified_locked`, `psync_pagecache_read_unmodified_encrypted_locked`
and `psync_pagecache_readv_locked`. -/
inductive Kind where
  | unmodified
  | encrypted
  | readv
deriving DecidableEq, Repr

/-- A reader that puts together its request. -/
structure Building (F : Type) where
  kind : Kind
  of : F
  hash : ℕ
  ranges : List Range
  waiting : List ℕ
  stages : List Stage

/-- A reader that waits. `failed` is that `ret` is an error. -/
structure Reading where
  waiting : List ℕ
  stages : List Stage
  failed : Bool

inductive Reader (F : Type) where
  | outside
  | building (b : Building F)
  | reading (r : Reading)

/-- The waiters of its list `waiting`. -/
def Reader.waiting {F : Type} : Reader F → List ℕ
  | .outside => []
  | .building b => b.waiting
  | .reading r => r.waiting

/-- `psync_request_t` in its thread. `todo` are the pages it is about to receive, and `page` was
received, but is not in the cache yet. -/
structure Request (F : Type) where
  of : F
  hash : ℕ
  ranges : List Range
  todo : List ℕ
  page : Option Page

/-- Waiters and requests are numbered as they are allocated. `wait` is the hash table
`wait_page_hash`: the waiters of an entry, if there is one. -/
structure State (F T : Type) where
  ofHash : F → ℕ
  reader : T → Reader F
  waiters : ℕ
  waiter : ℕ → Waiter T
  wait : Key → Option (List ℕ)
  requests : ℕ
  request : ℕ → Option (Request F)
  cache : List Page

variable {F T : Type} [DecidableEq T]

/-- `page` is what a download brings, or nothing where it sends an error. -/
def Waiter.answer (w : Waiter T) (page : Option Bytes) : Waiter T :=
  { w with
    ready := w.ready + 1
    error := page.isNone
    bytes := page.or w.bytes
    late := w.late || w.freed != 0 }

namespace State

def setReader (s : State F T) (t : T) (r : Reader F) : State F T := { s with reader := Function.update s.reader t r }

def setRequest (s : State F T) (i : ℕ) (q : Option (Request F)) : State F T :=
  { s with request := Function.update s.request i q }

/-- `add_page_waiter`. -/
def addPageWaiter (s : State F T) (t : T) (pageid : ℕ) : State F T :=
  match s.reader t with
  | .building b =>
    let key := (b.hash, pageid)
    let ranges := if (s.wait key).isSome then b.ranges else addRange b.ranges pageid
    { s with
      waiters := s.waiters + 1
      waiter := Function.update s.waiter s.waiters ⟨t, key, 0, false, none, 0, false⟩
      wait := Function.update s.wait key (some ((s.wait key).getD [] ++ [s.waiters]))
      reader := Function.update s.reader t
        (.building { b with ranges, waiting := b.waiting ++ [s.waiters] }) }
  | _ => s

/-- `check_or_request_page`, or one page of `psync_pagecache_read_unmodified_readahead`. -/
def checkOrRequestPage (s : State F T) (t : T) (pageid : ℕ) : State F T :=
  match s.reader t with
  | .building b =>
    if (s.wait (b.hash, pageid)).isSome then s
    else
      { s with
        wait := Function.update s.wait (b.hash, pageid) (some [])
        reader := Function.update s.reader t (.building { b with ranges := addRange b.ranges pageid }) }
  | _ => s

/-- `add_page_waiter` for one page after the other. -/
def addPages (s : State F T) (t : T) (pages : List ℕ) : State F T := pages.foldl (·.addPageWaiter t ·) s

/-- The waiters that were added are to be waited for. -/
def addStages (s : State F T) (t : T) (stages : List Stage) : State F T :=
  match s.reader t with
  | .building b => s.setReader t (.building { b with stages := b.stages ++ stages })
  | _ => s

/-- `psync_pagecache_send_page_wait_page`, or `psync_pagecache_send_error_page_wait`, for the entry of
a key, if there is one. -/
def complete (s : State F T) (key : Key) (page : Option Bytes) : State F T :=
  match s.wait key with
  | some waiters =>
    { s with
      wait := Function.update s.wait key none
      waiter := fun w => if w ∈ waiters then (s.waiter w).answer page else s.waiter w }
  | none => s

/-- `psync_pagecache_send_range_error` for pages of a request. -/
def sendError (s : State F T) (of : F) (pages : List ℕ) : State F T :=
  pages.foldl (fun s p => s.complete (s.ofHash of, p) none) s

/-- A waiter that is not ready leaves its entry, which goes when it was the last. -/
def unlink (s : State F T) (w : ℕ) : State F T :=
  let key := (s.waiter w).waitingFor
  match s.wait key with
  | some waiters =>
    let rest := waiters.filter (· ≠ w)
    { s with wait := Function.update s.wait key (if rest = [] then none else some rest) }
  | none => s

/-- `psync_free_page_waiter`. -/
def free (s : State F T) (w : ℕ) : State F T :=
  { s with waiter := Function.update s.waiter w { s.waiter w with freed := (s.waiter w).freed + 1 } }

/-- One turn of `free_waiters`. -/
def freeWaiter (s : State F T) (w : ℕ) : State F T := (if (s.waiter w).ready = 0 then s.unlink w else s).free w

/-- `free_waiters`, which leaves the list as it is. -/
def freeWaiters (s : State F T) (waiting : List ℕ) : State F T := waiting.foldl freeWaiter s

/-- `psync_list_for_each_element_call` of the list `waiting`. -/
def freeAll (s : State F T) (waiting : List ℕ) : State F T := waiting.foldl free s

end State

/-- The auth sector of some data pages, by what was not found: of the sector itself, of each
sector above it that is to be checked, and of each of the data pages. -/
structure Group where
  auth : List ℕ
  chain : List (List ℕ)
  data : List (List ℕ)
deriving DecidableEq, Repr

def authPages (groups : List Group) : List ℕ := groups.flatMap fun g => g.auth ++ g.chain.flatten

def dataPages (groups : List Group) : List ℕ := groups.flatMap (·.data.flatten)

/-- The waiters of some sectors, from `n` on. -/
def number : ℕ → List (List ℕ) → List (List ℕ)
  | _, [] => []
  | n, pages :: sectors => List.range' n pages.length :: number (n + pages.length) sectors

/-- The waiters of the auth sectors are numbered from `n` on, those of the data pages from `m` on. -/
def encryptedStages : ℕ → ℕ → List Group → List Stage
  | _, _, [] => []
  | n, m, g :: groups =>
    .sector (List.range' n g.auth.length) :: .chain (number (n + g.auth.length) g.chain) ::
      (number m g.data).map .sector ++
        encryptedStages (n + (g.auth ++ g.chain.flatten).length) (m + g.data.flatten.length) groups

/-- Data pages, one after the other. -/
def dataStages (n count : ℕ) : List Stage := (List.range' n count).map fun w => .sector [w]

inductive Event (F T : Type) where
  /-- A read takes the hash of an open file. -/
  | start (t : T) (kind : Kind) (of : F)
  /-- The loop over the pages. -/
  | readUnmodified (t : T) (pages : List ℕ)
  /-- The loops over the auth sectors and the data pages. -/
  | readEncrypted (t : T) (groups : List Group)
  /-- They end at `err0`, having added some pages. -/
  | encryptedError (t : T) (pages : List ℕ)
  /-- `psync_pagecache_readv_locked` does not find a page. -/
  | readv (t : T) (pageid : ℕ)
  /-- It finds one that is short. -/
  | readvShort (t : T) (pageid : ℕ)
  | readahead (t : T) (pageid : ℕ)
  /-- The request gets its thread, if there is something to request. -/
  | runThread (t : T) (needkey : Bool)
  /-- `wait_waiter` has returned. -/
  | waitWaiter (t : T)
  /-- The chain is checked. -/
  | checkChain (t : T)
  /-- There was an error, so the chain is not checked. -/
  | skipChain (t : T)
  /-- There is no key, a check of the chain fails or a page cannot be decoded. -/
  | setError (t : T)
  | leave (t : T)
  /-- The thread reads its ranges from the first one on. -/
  | retry (i : ℕ)
  /-- It receives a page. -/
  | receive (i : ℕ)
  /-- It puts the page into the cache. -/
  | addToCache (i : ℕ)
  /-- `get_urls` has read a range. -/
  | rangeRead (i : ℕ)
  | finish (i : ℕ)
  /-- `psync_pagecache_send_error`. -/
  | sendError (i : ℕ)
  /-- `psync_fs_update_openfile`. -/
  | updateOpenfile (of : F) (hash : ℕ)

namespace State

/-- The pages of an event of a reader that is putting together its request. -/
def withPages (s : State F T) (t : T) (kind : Kind) (pages : List ℕ) (stages : List Stage) : Option (State F T) :=
  match s.reader t with
  | .building b => if b.kind = kind then some ((s.addPages t pages).addStages t stages) else none
  | _ => none

variable [DecidableEq F]

def run (s : State F T) : Event F T → Option (State F T)
  | .start t kind of =>
    match s.reader t with
    | .outside => some (s.setReader t (.building ⟨kind, of, s.ofHash of, [], [], []⟩))
    | _ => none
  | .readUnmodified t pages => s.withPages t .unmodified pages (dataStages s.waiters pages.length)
  | .readEncrypted t groups =>
    s.withPages t .encrypted (authPages groups ++ dataPages groups)
      (encryptedStages s.waiters (s.waiters + (authPages groups).length) groups)
  | .encryptedError t pages =>
    match s.reader t with
    | .building b =>
      if b.kind = .encrypted ∧ b.ranges = [] ∧ b.waiting = [] then
        let s := s.addPages t pages
        let waiting := (s.reader t).waiting
        -- the waiters are freed at `err0`, and again at `ret0`
        some (((s.freeWaiters waiting).freeAll waiting).setReader t .outside)
      else none
    | _ => none
  | .readv t pageid => s.withPages t .readv [pageid] (dataStages s.waiters 1)
  | .readvShort t pageid => (s.freeWaiters (s.reader t).waiting).withPages t .readv [pageid] (dataStages s.waiters 1)
  | .readahead t pageid =>
    match s.reader t with
    | .building b => if b.kind = .readv then none else some (s.checkOrRequestPage t pageid)
    | _ => none
  | .runThread t needkey =>
    match s.reader t with
    | .building b =>
      let s := s.setReader t (.reading ⟨b.waiting, b.stages, false⟩)
      if b.ranges ≠ [] ∨ needkey then
        some ({ s with requests := s.requests + 1 }.setRequest s.requests
          (some ⟨b.of, b.hash, b.ranges, pagesOf b.ranges, none⟩))
      else some s
    | _ => none
  | .waitWaiter t =>
    match s.reader t with
    | .reading ⟨waiting, .sector waiters :: stages, failed⟩ =>
      match waiters.getLast? with
      | none => some (s.setReader t (.reading ⟨waiting, stages, failed⟩))
      | some w =>
        if (s.waiter w).ready ≠ 0 then some (s.setReader t (.reading ⟨waiting, stages, failed || (s.waiter w).error⟩))
        else none
    | _ => none
  | .checkChain t =>
    match s.reader t with
    | .reading ⟨waiting, .chain sectors :: stages, false⟩ =>
      some (s.setReader t (.reading ⟨waiting, sectors.map .sector ++ stages, false⟩))
    | _ => none
  | .skipChain t =>
    match s.reader t with
    | .reading ⟨waiting, .chain _ :: stages, true⟩ => some (s.setReader t (.reading ⟨waiting, stages, true⟩))
    | _ => none
  | .setError t =>
    match s.reader t with
    | .reading r => some (s.setReader t (.reading { r with failed := true }))
    | _ => none
  | .leave t =>
    match s.reader t with
    | .reading ⟨waiting, [], _⟩ => some ((s.freeAll waiting).setReader t .outside)
    | _ => none
  | .retry i =>
    match s.request i with
    | some q => some (s.setRequest i (some { q with todo := pagesOf q.ranges }))
    | none => none
  | .receive i =>
    match s.request i with
    | some ⟨of, hash, ranges, p :: todo, none⟩ =>
      let page : Page := ⟨s.ofHash of, p, (hash, p)⟩
      some ((s.complete (page.hash, page.pageid) (some page.bytes)).setRequest i
        (some ⟨of, hash, ranges, todo, some page⟩))
    | _ => none
  | .addToCache i =>
    match s.request i with
    | some ⟨of, hash, ranges, todo, some page⟩ =>
      some ({ s with cache := page :: s.cache }.setRequest i (some ⟨of, hash, ranges, todo, none⟩))
    | _ => none
  | .rangeRead i =>
    match s.request i with
    | some ⟨of, hash, _ :: ranges, todo, none⟩ =>
      if todo = pagesOf ranges then some (s.setRequest i (some ⟨of, hash, ranges, todo, none⟩)) else none
    | _ => none
  | .finish i =>
    match s.request i with
    | some ⟨_, _, _, [], none⟩ => some (s.setRequest i none)
    | _ => none
  | .sendError i =>
    match s.request i with
    | some ⟨of, _, ranges, _, none⟩ => some ((s.sendError of (pagesOf ranges)).setRequest i none)
    | _ => none
  | .updateOpenfile of hash => some { s with ofHash := Function.update s.ofHash of hash }

end State

variable [DecidableEq F]

def step (s : State F T) (e : Event F T) (s' : State F T) : Prop := s.run e = some s'

/-- Nobody reads yet, and the cache has pages of earlier runs. -/
structure Initial (s : State F T) : Prop where
  outside : ∀ t, s.reader t = .outside
  noWaiters : s.waiters = 0
  noAnswers : ∀ w, (s.waiter w).ready = 0 ∧ (s.waiter w).freed = 0 ∧ (s.waiter w).late = false
  noEntries : ∀ key, s.wait key = none
  noRequests : ∀ i, s.request i = none
  cached : ∀ page ∈ s.cache, page.bytes = (page.hash, page.pageid)

/-- The ranges of a reader's request, or of one that runs, cover a page. -/
def State.Covers (s : State F T) (key : Key) : T ⊕ ℕ → Prop
  | .inl t => ∃ b, s.reader t = .building b ∧ b.hash = key.1 ∧ key.2 ∈ pagesOf b.ranges
  | .inr i => ∃ q, s.request i = some q ∧ q.hash = key.1 ∧ key.2 ∈ pagesOf q.ranges

/-- A request that covers a page has not received it. -/
def State.Awaits (s : State F T) (key : Key) : T ⊕ ℕ → Prop
  | .inl t => ∃ b, s.reader t = .building b ∧ b.hash = key.1 ∧ key.2 ∈ pagesOf b.ranges
  | .inr i => ∃ q, s.request i = some q ∧ q.hash = key.1 ∧ key.2 ∈ q.todo

end Pclsync.PageCache.Waits
