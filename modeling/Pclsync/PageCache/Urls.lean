import Pclsync.Lib.Counting
import Pclsync.Lib.Machine
import Pclsync.Lib.SearchTree
import Pclsync.Lib.Transition

/-! The download links, from `ppagecache.c`: the entries of `url_cache_tree`, their counts, and
the links that `psync_cache` keeps when nobody uses them.

An event is what a thread of `psync_pagecache_read_unmodified_thread` does while it has
`url_cache_mutex`, or what happened since. An event that changes the tree says what shape the
rebalancing gave it. -/
namespace Pclsync.PageCache.Urls
open Lib.BinaryTree Lib.Census Lib.Machine

/-- The values `0`, `1` and `2` of `status`. -/
inductive Status where
  | pending
  | usable
  | dead
deriving DecidableEq, Repr

/-- `psync_urls_t`. A result is known by its number. -/
structure Entry where
  hash : ℕ
  refcnt : ℕ
  status : Status
  urls : Option ℕ
deriving DecidableEq, Repr

/-- Where a thread is. It serves a request for `hash`, and `tries` counts its retries. -/
inductive Phase where
  | idle
  /-- It goes back to `retry`. -/
  | retrying (hash tries : ℕ)
  /-- It waits while an entry is pending. -/
  | waiting (urls hash tries : ℕ)
  /-- It has put an entry in the tree. -/
  | creating (urls hash tries : ℕ)
  /-- It is in `get_urls`, as `psync_cache` has no links. -/
  | asking (urls hash tries : ℕ)
  /-- `get_urls_for_request` has returned an entry. -/
  | using (urls hash tries : ℕ)
deriving DecidableEq, Repr

/-- Entries and results are numbered as they are allocated, and it is counted how often each
was freed. `cache` are the pairs of a hash and a result that `psync_cache` keeps. -/
structure State (T : Type) where
  phase : T → Phase
  heap : ℕ → Entry
  entries : ℕ
  freed : ℕ → ℕ
  results : ℕ
  freedResults : ℕ → ℕ
  urlCacheTree : BinTree ℕ
  cache : List (ℕ × ℕ)

/-- `d` of `get_urls_for_request`. -/
def difference (a b : ℕ) : ℤ := s64 (a - b)

/-- Where a hash lies relative to another. -/
def compareHash (a b : ℕ) : Ordering :=
  if difference a b = 0 then .eq else if difference a b < 0 then .lt else .gt

variable {T : Type} [DecidableEq T]

namespace State

def setPhase (s : State T) (t : T) (p : Phase) : State T := { s with phase := Function.update s.phase t p }

def setEntry (s : State T) (e : ℕ) (entry : Entry) : State T := { s with heap := Function.update s.heap e entry }

/-- The tree has changed. -/
def setTree (s : State T) (list : List ℕ) (tree : BinTree ℕ) : Option (State T) :=
  if tree.toList = list then some { s with urlCacheTree := tree } else none

/-- `psync_tree_del`. -/
def treeDel (s : State T) (e : ℕ) (tree : BinTree ℕ) : Option (State T) := s.setTree (s.urlCacheTree.toList.erase e) tree

/-- `psync_free` of an entry. -/
def free (s : State T) (e : ℕ) : State T := { s with freed := Function.update s.freed e (s.freed e + 1) }

/-- `psync_free` of a result, or of `NULL`. -/
def freeResult (s : State T) : Option ℕ → State T
  | none => s
  | some r => { s with freedResults := Function.update s.freedResults r (s.freedResults r + 1) }

/-- `psync_cache_add`, which frees a result when two are there for its hash. -/
def cacheAdd (s : State T) (hash : ℕ) : Option ℕ → State T
  | none => s
  | some r =>
    if 2 ≤ s.cache.countP (·.1 = hash) then s.freeResult (some r) else { s with cache := (hash, r) :: s.cache }

/-- `set_urls` with a result. -/
def setUrls (s : State T) (e r : ℕ) : State T :=
  let entry := s.heap e
  s.setEntry e { entry with status := .usable, urls := some r, refcnt := entry.refcnt + 1 }

/-- `set_urls` with `NULL`. -/
def setUrlsNull (s : State T) (e : ℕ) (tree : BinTree ℕ) : Option (State T) :=
  (s.treeDel e tree).map fun s =>
    if (s.heap e).refcnt ≠ 0 then s.setEntry e { s.heap e with status := .dead } else s.free e

/-- Where a hash lies relative to an entry. -/
def side (s : State T) (hash e : ℕ) : Ordering := compareHash hash (s.heap e).hash

/-- `get_urls_for_request` where an entry is not, or no longer, pending. -/
def wake (s : State T) (t : T) (e hash tries : ℕ) : Option (State T) :=
  let entry := s.heap e
  match entry.status with
  | .pending => none
  | .usable => some (s.setPhase t (.using e hash tries))
  | .dead =>
    let s := (s.setEntry e { entry with refcnt := entry.refcnt - 1 }).setPhase t .idle
    some (if entry.refcnt - 1 = 0 then s.free e else s)

/-- `get_urls_for_request` up to where it waits, or leaves the mutex. -/
def getUrlsForRequest (s : State T) (t : T) (hash tries : ℕ) (tree : BinTree ℕ) : Option (State T) :=
  match s.urlCacheTree.search (s.side hash) with
  | some e =>
    let s := s.setEntry e { s.heap e with refcnt := (s.heap e).refcnt + 1 }
    if (s.heap e).status = .pending then some (s.setPhase t (.waiting e hash tries)) else s.wake t e hash tries
  | none =>
    let e := s.entries
    let list := (s.urlCacheTree.addLeaf (s.side hash) e).toList
    let created : State T := { s with entries := e + 1 }.setEntry e ⟨hash, 0, .pending, none⟩
    (created.setTree list tree).map (·.setPhase t (.creating e hash tries))

/-- `release_urls`. `late` is that the links expire late enough to be kept. -/
def releaseUrls (s : State T) (e : ℕ) (late : Bool) (tree : BinTree ℕ) : Option (State T) :=
  let entry := s.heap e
  let s := s.setEntry e { entry with refcnt := entry.refcnt - 1 }
  if entry.refcnt - 1 = 0 then
    if entry.status = .usable then
      (s.treeDel e tree).map fun s =>
        if late then ((s.cacheAdd entry.hash entry.urls).setEntry e { entry with refcnt := 0, urls := none }).free e
        else (s.freeResult entry.urls).free e
    else some ((s.freeResult entry.urls).free e)
  else some s

/-- `release_bad_urls`. -/
def releaseBadUrls (s : State T) (e : ℕ) (tree : BinTree ℕ) : Option (State T) :=
  let entry := s.heap e
  (if entry.status = .usable then (s.setEntry e { entry with status := .dead }).treeDel e tree else some s).map fun s =>
    let s := s.setEntry e { s.heap e with refcnt := entry.refcnt - 1 }
    if entry.refcnt - 1 ≠ 0 then s else (s.freeResult entry.urls).free e

end State

inductive Event (T : Type) where
  | start (t : T) (hash : ℕ)
  | getUrlsForRequest (t : T) (tree : BinTree ℕ)
  | wake (t : T)
  /-- `psync_cache_get`. -/
  | cacheGet (t : T)
  /-- `get_urls` got the links, or failed before. -/
  | getUrls (t : T) (ok : Bool) (tree : BinTree ℕ)
  /-- `psync_cloud_crypto_get_file_encoder` fails. -/
  | keyError (t : T)
  /-- `psync_http_request` fails, and there is another try. -/
  | requestFailed (t : T)
  /-- The links are bad, and there is another try. -/
  | badUrls (t : T) (tree : BinTree ℕ)
  /-- The other exits: all was read before, `ok1`, `err1` and `err0`. -/
  | finish (t : T) (late : Bool) (tree : BinTree ℕ)
  /-- `psync_cache` drops an element. -/
  | expire (element : ℕ × ℕ)

/-- The elements of the cache are compared by both parts. -/
instance lawfulElements : LawfulBEq (ℕ × ℕ) := inferInstance

def State.run (s : State T) : Event T → Option (State T)
  | .start t hash => if s.phase t = .idle then some (s.setPhase t (.retrying hash 0)) else none
  | .getUrlsForRequest t tree =>
    match s.phase t with
    | .retrying hash tries => s.getUrlsForRequest t hash tries tree
    | _ => none
  | .wake t =>
    match s.phase t with
    | .waiting e hash tries => s.wake t e hash tries
    | _ => none
  | .cacheGet t =>
    match s.phase t with
    | .creating e hash tries =>
      match s.cache.find? (·.1 = hash) with
      | some (_, r) => some (({ s with cache := s.cache.erase (hash, r) }.setUrls e r).setPhase t (.using e hash tries))
      | none => some (s.setPhase t (.asking e hash tries))
    | _ => none
  | .getUrls t ok tree =>
    match s.phase t with
    | .asking e hash tries =>
      if ok then some (({ s with results := s.results + 1 }.setUrls e s.results).setPhase t (.using e hash tries))
      else (s.setUrlsNull e tree).map (·.setPhase t .idle)
    | _ => none
  | .keyError t =>
    match s.phase t with
    | .using .. => some (s.setPhase t .idle)
    | _ => none
  | .requestFailed t =>
    match s.phase t with
    | .using _ hash tries => if tries < 5 then some (s.setPhase t (.retrying hash (tries + 1))) else none
    | _ => none
  | .badUrls t tree =>
    match s.phase t with
    | .using e hash tries =>
      if tries < 5 then (s.releaseBadUrls e tree).map (·.setPhase t (.retrying hash (tries + 1))) else none
    | _ => none
  | .finish t late tree =>
    match s.phase t with
    | .using e _ _ => (s.releaseUrls e late tree).map (·.setPhase t .idle)
    | _ => none
  | .expire element =>
    if element ∈ s.cache then some ({ s with cache := s.cache.erase element }.freeResult (some element.2)) else none

def step (s : State T) (e : Event T) (s' : State T) : Prop := s.run e = some s'

structure Initial (s : State T) : Prop where
  phase : ∀ t, s.phase t = .idle
  entries : s.entries = 0
  freed : ∀ e, s.freed e = 0
  results : s.results = 0
  freedResults : ∀ r, s.freedResults r = 0
  urlCacheTree : s.urlCacheTree = .nil
  cache : s.cache = []

/-! ### What is counted -/

/-- The thread has a reference of `get_urls_for_request` that it has to give back. -/
def Phase.Refers (p : Phase) (e : ℕ) : Prop :=
  match p with
  | .waiting e' _ _ => e' = e
  | .using e' _ _ => e' = e
  | _ => False

/-- The thread has yet to call `set_urls`. -/
def Phase.Creates (p : Phase) (e : ℕ) : Prop :=
  match p with
  | .creating e' _ _ => e' = e
  | .asking e' _ _ => e' = e
  | _ => False

instance (p : Phase) (e : ℕ) : Decidable (p.Refers e) :=
  match p with
  | .waiting e' _ _ => inferInstanceAs (Decidable (e' = e))
  | .using e' _ _ => inferInstanceAs (Decidable (e' = e))
  | .idle | .retrying .. | .creating .. | .asking .. => inferInstanceAs (Decidable False)

/-- An entry that has been allocated and not freed. -/
def State.Alive (s : State T) (e : ℕ) : Prop := e < s.entries ∧ s.freed e = 0

instance (s : State T) (e : ℕ) : Decidable (s.Alive e) := inferInstanceAs (Decidable (_ ∧ _))

/-- Each reference is counted and given back once; the tree has one entry for a hash, pending or
usable; entries and results are freed once, when nobody has them. -/
structure Kept (s : State T) : Prop where
  counted : ∀ {e}, s.Alive e → Counts (fun t => (s.phase t).Refers e) (s.heap e).refcnt
  refers : ∀ {t e}, (s.phase t).Refers e ∨ (s.phase t).Creates e → s.Alive e
  freed : ∀ {e}, e < s.entries → s.freed e = 0 ∧ (∃ t, (s.phase t).Refers e ∨ (s.phase t).Creates e) ∨ s.freed e = 1
  inTree : ∀ {e}, e ∈ s.urlCacheTree.toList → s.Alive e ∧ (s.heap e).status ≠ .dead
  unique : (s.urlCacheTree.toList.map fun e => (s.heap e).hash).Nodup
  results : ∀ {r}, r < s.results → ∃ k, Counts (fun e => s.Alive e ∧ (s.heap e).urls = some r) k ∧
    k + (s.cache.map Prod.snd).count r + s.freedResults r = 1

/-- The sign of the difference orders the hashes. -/
def Ordered (hashes : List ℕ) : Prop :=
  ∀ a ∈ hashes, ∀ b ∈ hashes, ∀ c ∈ hashes, compareHash a b = .lt → compareHash b c = .lt → compareHash a c = .lt

/-- What loses a reference or an entry. -/
def Drifts (s : State T) : Event T → Prop
  -- the hash does not lie on one side of each entry
  | .getUrlsForRequest t _ => match s.phase t with
    | .retrying hash _ => ¬Ordered (hash :: s.urlCacheTree.toList.map fun e => (s.heap e).hash)
    | _ => False
  -- the links have turned bad between a wait and its end, and nobody else has them
  | .wake t => match s.phase t with
    | .waiting e _ _ => (s.heap e).status = .dead ∧ (s.heap e).urls ≠ none ∧ (s.heap e).refcnt = 1
    | _ => False
  -- the thread forgets its reference
  | .keyError _ => True
  | .requestFailed _ => True
  | _ => False

end Pclsync.PageCache.Urls
