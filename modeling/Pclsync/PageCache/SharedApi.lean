import Mathlib.Data.List.Basic
import Mathlib.Logic.Function.Basic
import Pclsync.Lib.Transition

/-! The connections on which pages are read from the API, from `ppagecache.c`.

A thread takes a connection from the pool, sends its requests and reads the responses. While
it reads, others send theirs on the same connection, one at a time with `sharedapi_mutex`, and
wait until the connection is passed to them. -/
namespace Pclsync.PageCache.SharedApi

/-- What became of a connection: `psync_apipool_release` puts it back in the pool,
`psync_apipool_release_bad` closes it. -/
inductive Status where
  | unused
  | pooled
  | taken
  | closed
deriving DecidableEq, Repr

/-- Where a thread is. A request is a `getfilelink`, a `crypto_getfilekey` or a `readfile`. -/
inductive Phase (C R : Type) where
  | idle
  /-- It sends on a connection of its own. -/
  | sending (api : C) (sent todo : List R)
  /-- It reads, on its own connection or on one that was passed to it. -/
  | reading (api : C) (done todo : List R) (passed : Bool)
  /-- It sends on the shared connection, with `sharedapi_mutex`. -/
  | sharing (api : C) (sent todo : List R)
  /-- It is in `wait_shared_api`. `api` is `none` for `NULL` and `some none` for `-1`. -/
  | waiting (capi : C) (sent : List R) (api : Option (Option C))
deriving DecidableEq, Repr

/-- `outstanding` are the requests of a connection whose responses were not yet read. -/
structure State (T C R : Type) where
  phase : T → Phase C R
  status : C → Status
  outstanding : C → List (T × R)
  sharedapiMutex : Option T
  sharedapi : Option C
  sharedapiwaiters : List T

/-- What `psync_pagecache_read_range_from_api` returns: `0`, `-1` or `-2`. -/
inductive Outcome where
  | read
  | failed
  | refused
deriving DecidableEq, Repr

inductive Event (T C R : Type) where
  /-- `psync_apipool_get`, and `psync_apipool_get_from_cache`. -/
  | take (t : T) (api : C) (requests : List R)
  | send (t : T) (ok : Bool)
  | markApiShared (t : T)
  | read (t : T) (outcome : Outcome)
  | passSharedApi (t : T)
  | getSharedApi (t : T) (requests : List R)
  | sendShared (t : T) (ok : Bool)
  | waitSharedApi (t : T)
  | wake (t : T)
deriving Repr

variable {T C R : Type} [DecidableEq T] [DecidableEq C]

namespace State

def setPhase (s : State T C R) (t : T) (p : Phase C R) : State T C R :=
  { s with phase := Function.update s.phase t p }

def setStatus (s : State T C R) (api : C) (status : Status) : State T C R :=
  { s with status := Function.update s.status api status }

def setOutstanding (s : State T C R) (api : C) (l : List (T × R)) : State T C R :=
  { s with outstanding := Function.update s.outstanding api l }

/-- A request is sent. -/
def sendOn (s : State T C R) (api : C) (t : T) (r : R) : State T C R :=
  s.setOutstanding api (s.outstanding api ++ [(t, r)])

/-- `signal_all_waiters`. -/
def signalAllWaiters (s : State T C R) : State T C R :=
  { s with
    sharedapiwaiters := []
    phase := fun t => match s.phase t with
      | .waiting capi sent api => .waiting capi sent (if t ∈ s.sharedapiwaiters then some none else api)
      | p => p }

/-- `mark_shared_api_bad`, and `release_bad_shared_api` up to the mutex. -/
def markSharedApiBad (s : State T C R) (api : C) : State T C R :=
  if s.sharedapi = some api then { s.signalAllWaiters with sharedapi := none } else s

/-- `waiter->api = api`. -/
def handOver (s : State T C R) (waiter : T) (api : C) : State T C R :=
  match s.phase waiter with
  | .waiting capi sent _ => s.setPhase waiter (.waiting capi sent (some (some api)))
  | _ => s

/-- `pass_shared_api`, and the release of a connection that nobody wants. -/
def passSharedApi (s : State T C R) (t : T) (api : C) : State T C R :=
  let s := s.setPhase t .idle
  if s.sharedapi ≠ some api then s.setStatus api .pooled
  else match s.sharedapiwaiters with
    | [] => { s with sharedapi := none }.setStatus api .pooled
    | waiter :: rest => { s with sharedapiwaiters := rest }.handOver waiter api

/-- `psync_apipool_release_bad`, which a thread that the connection was passed to leaves out
when its first range cannot be read. -/
def readFailed (s : State T C R) (t : T) (api : C) (done : List R) (passed : Bool) (refused : Bool) : State T C R :=
  let s := (s.markSharedApiBad api).setPhase t .idle
  if passed ∧ refused ∧ done.isEmpty then s else s.setStatus api .closed

def run (s : State T C R) : Event T C R → Option (State T C R)
  | .take t api requests =>
    match s.phase t, s.status api with
    | .idle, .unused | .idle, .pooled => some ((s.setStatus api .taken).setPhase t (.sending api [] requests))
    | _, _ => none
  | .send t ok =>
    match s.phase t with
    | .sending api sent (r :: todo) =>
      if ok then some ((s.sendOn api t r).setPhase t (.sending api (sent ++ [r]) todo))
      else some ((s.setStatus api .closed).setPhase t .idle)
    | _ => none
  | .markApiShared t =>
    match s.phase t, s.sharedapiMutex with
    | .sending api sent [], none =>
      some ({ s with sharedapi := s.sharedapi <|> some api }.setPhase t (.reading api [] sent false))
    | _, _ => none
  | .read t outcome =>
    match s.phase t with
    | .reading api done (r :: todo) passed =>
      if outcome = .read then match s.outstanding api with
        | [] => none
        | _ :: rest =>
          some ((s.setOutstanding api rest).setPhase t (.reading api (done ++ [r]) todo passed))
      else if s.sharedapiMutex = none then some (s.readFailed t api done passed (outcome = .refused))
      else none
    | _ => none
  | .passSharedApi t =>
    match s.phase t, s.sharedapiMutex with
    | .reading api _ [] _, none => some (s.passSharedApi t api)
    | _, _ => none
  | .getSharedApi t requests =>
    match s.phase t, s.sharedapiMutex, s.sharedapi with
    | .idle, none, some api => some ({ s with sharedapiMutex := some t }.setPhase t (.sharing api [] requests))
    | _, _, _ => none
  | .sendShared t ok =>
    match s.phase t with
    | .sharing api sent (r :: todo) =>
      if ok then some ((s.sendOn api t r).setPhase t (.sharing api (sent ++ [r]) todo))
      else some ({ s.markSharedApiBad api with sharedapiMutex := none }.setPhase t .idle)
    | _ => none
  | .waitSharedApi t =>
    match s.phase t, s.sharedapi with
    | .sharing _ sent [], some capi =>
      some ({ s with sharedapiwaiters := s.sharedapiwaiters ++ [t], sharedapiMutex := none }.setPhase t
        (.waiting capi sent none))
    | _, _ => none
  | .wake t =>
    match s.phase t, s.sharedapiMutex with
    | .waiting capi sent (some api), none =>
      some (s.setPhase t (if api = some capi then .reading capi [] sent true else .idle))
    | _, _ => none

end State

def step (s : State T C R) (e : Event T C R) (s' : State T C R) : Prop := s.run e = some s'

structure Initial (s : State T C R) : Prop where
  phase : ∀ t, s.phase t = .idle
  status : ∀ api, s.status api = .unused
  outstanding : ∀ api, s.outstanding api = []
  sharedapiMutex : s.sharedapiMutex = none
  sharedapi : s.sharedapi = none
  sharedapiwaiters : s.sharedapiwaiters = []

/-- The thread is the one that has to release the connection. -/
def Phase.Holds (p : Phase C R) (api : C) : Prop :=
  match p with
  | .sending a _ _ => a = api
  | .reading a _ _ _ => a = api
  | .waiting _ _ (some (some a)) => a = api
  | _ => False

/-- What comes next on a connection is what its reader waits for; a connection that is taken is
released by one thread, and no other is released; nothing is left on a connection of the pool. -/
structure InStep (s : State T C R) : Prop where
  own : ∀ {t api done r todo passed}, s.phase t = .reading api done (r :: todo) passed →
    ∃ rest, s.outstanding api = (t, r) :: rest
  taken : ∀ {api}, s.status api = .taken → ∃! t, (s.phase t).Holds api
  held : ∀ {t api}, (s.phase t).Holds api → s.status api = .taken
  pooled : ∀ {api}, s.status api = .pooled → s.outstanding api = []

/-- What brings a connection out of step. -/
def Drifts (s : State T C R) : Event T C R → Prop
  -- a sender declares the connection bad on which it or a waiting thread has sent a request
  | .sendShared t false => match s.phase t with
    | .sharing _ sent _ => sent ≠ [] ∨ s.sharedapiwaiters ≠ []
    | _ => False
  -- the first range cannot be read on a connection that was passed to the thread
  | .read t .refused => match s.phase t with
    | .reading _ [] _ passed => passed = true
    | _ => False
  | _ => False

end Pclsync.PageCache.SharedApi
