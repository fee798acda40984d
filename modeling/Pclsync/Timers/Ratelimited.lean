import Pclsync.Lib.Transition
import Pclsync.Timers.Rounds
import Mathlib.Data.List.Perm.Basic

/-! Calls of `prunratelimit.c`: a callback runs at once, and then not before a period is over.

The tree of the callbacks is the list of its nodes. A registered timer fires when it is due,
in the thread of the timers, which puts it back when its callback returns. -/
namespace Pclsync.Timers.Ratelimited
open Lib.Transition

/-- `psync_rr_tree_node`, less its place in the tree and its name. -/
structure Node (C : Type) where
  call : C
  scheduled : Bool

/-- A timer of `psync_run_ratelimited_timer`. -/
structure Timer (N : Type) where
  node : N
  numsec : ℕ
  runat : ℕ
deriving DecidableEq

/-- A call of `psync_run_ratelimited` that added a node and has yet to register its timer. -/
structure Caller (C N : Type) where
  id : ℕ
  node : N
  call : C
  minintervalsec : ℕ
  started : Bool
deriving DecidableEq

/-- Where the thread of the timers is. -/
inductive Thread (C N : Type) where
  | idle
  /-- In the callback, before the mutex. -/
  | called (timer : Timer N)
  /-- Before `psync_run_thread`. -/
  | running (timer : Timer N) (call : C)
  /-- Before `psync_timer_stop`, with a node that is not in the tree any more. -/
  | stopping (timer : Timer N)
  /-- Before `psync_free`. -/
  | freeing (node : N)
  /-- Behind the callback, with a timer that was not stopped. -/
  | returned (timer : Timer N)

/-- What happened. -/
inductive Past (C : Type) where
  | request (id : ℕ) (call : C)
  /-- A start of a callback, with the period of the timer of its node. -/
  | start (call : C) (numsec time : ℕ)

structure State (C N : Type) where
  /-- `psync_current_time`. -/
  now : ℕ
  heap : N → Option (Node C)
  tasks : List N
  callers : List (Caller C N)
  timers : List (Timer N)
  thread : Thread C N
  /-- The number of the next request. -/
  next : ℕ
  past : List (Past C)
  /-- A node was used that was not there, or freed while it was in the tree. -/
  fault : Bool

def State.init {C N : Type} (now : ℕ) : State C N := ⟨now, fun _ => none, [], [], [], .idle, 0, [], false⟩

inductive Action (C N : Type) where
  /-- `psync_run_ratelimited` with the mutex held; `new` is the node that `psync_new` would answer. -/
  | request (call : C) (minintervalsec : ℕ) (new : N)
  | callerStart (caller : Caller C N)
  | callerRegister (caller : Caller C N)
  | tick
  | fire (timer : Timer N)
  | timerLock
  | timerRun
  | timerStop
  | timerFree
  | timerReturn

section
variable {C N : Type} [DecidableEq C] [DecidableEq N]

/-- What the node says, if it is there. -/
def State.callOf (s : State C N) (n : N) : Option C := (s.heap n).map (·.call)

/-- The search in the tree. -/
def State.find (s : State C N) (call : C) : Option N := s.tasks.find? fun n => s.callOf n = some call

/-- The nodes of the tree are there. -/
def State.readable (s : State C N) : Bool := s.tasks.all fun n => (s.heap n).isSome

def State.schedule (s : State C N) (n : N) (scheduled : Bool) : State C N :=
  { s with heap := Function.update s.heap n ((s.heap n).map fun node => { node with scheduled := scheduled }) }

/-- The period of a timer that is registered. -/
def numsecOf (minintervalsec : ℕ) : ℕ := (levelFor minintervalsec).2

def State.request (s : State C N) (call : C) (minintervalsec : ℕ) (new : N) : Option (State C N) :=
  let asked := { s with fault := s.fault || !s.readable, next := s.next + 1, past := .request s.next call :: s.past }
  match s.find call with
  | some n => some (asked.schedule n true)
  | none =>
    if s.heap new = none then
      some { asked with
        heap := Function.update s.heap new (some ⟨call, false⟩)
        tasks := new :: s.tasks
        callers := ⟨s.next, new, call, minintervalsec, false⟩ :: s.callers }
    else none

def State.timerLock (s : State C N) (timer : Timer N) : State C N :=
  match s.heap timer.node with
  | none => { s with fault := true }
  | some node =>
    if node.scheduled then { s.schedule timer.node false with thread := .running timer node.call }
    else { s with tasks := s.tasks.erase timer.node, thread := .stopping timer, fault := s.fault || !s.readable }

def run (s : State C N) : Action C N → Option (State C N)
  | .request call minintervalsec new => if 1 ≤ minintervalsec then s.request call minintervalsec new else none
  | .callerStart caller =>
    if caller ∈ s.callers ∧ caller.started = false then
      some { s with
        callers := { caller with started := true } :: s.callers.erase caller
        past := .start caller.call (numsecOf caller.minintervalsec) s.now :: s.past }
    else none
  | .callerRegister caller =>
    if caller ∈ s.callers ∧ caller.started then
      let numsec := numsecOf caller.minintervalsec
      some { s with callers := s.callers.erase caller, timers := ⟨caller.node, numsec, s.now + numsec⟩ :: s.timers }
    else none
  | .tick =>
    match s.thread with
    | .idle => some { s with now := s.now + 1 }
    | _ => none
  | .fire timer =>
    match s.thread with
    | .idle => if timer ∈ s.timers ∧ timer.runat ≤ s.now then some { s with timers := s.timers.erase timer, thread := .called timer } else none
    | _ => none
  | .timerLock =>
    match s.thread with
    | .called timer => some (s.timerLock timer)
    | _ => none
  | .timerRun =>
    match s.thread with
    | .running timer call => some { s with thread := .returned timer, past := .start call timer.numsec s.now :: s.past }
    | _ => none
  | .timerStop =>
    match s.thread with
    | .stopping timer => some { s with thread := .freeing timer.node }
    | _ => none
  | .timerFree =>
    match s.thread with
    | .freeing n => some { s with
        heap := Function.update s.heap n none
        thread := .idle
        fault := s.fault || (s.heap n).isNone || decide (n ∈ s.tasks) }
    | _ => none
  | .timerReturn =>
    match s.thread with
    | .returned timer => some { s with timers := { timer with runat := s.now + timer.numsec } :: s.timers, thread := .idle }
    | _ => none

def step (s : State C N) (a : Action C N) (s' : State C N) : Prop := run s a = some s'

def Start (s : State C N) : Prop := ∃ now, s = .init now

/-! ### What is asked -/

/-- The requests that no start of their callback has followed. -/
def unserved : List (Past C) → List (ℕ × C)
  | [] => []
  | .request id call :: past => (id, call) :: unserved past
  | .start call _ _ :: past => (unserved past).filter fun r => r.2 ≠ call

/-- The starts of a callback, the last one first, as period and time. -/
def starts (call : C) : List (Past C) → List (ℕ × ℕ)
  | [] => []
  | .request _ _ :: past => starts call past
  | .start call' numsec time :: past => if call' = call then (numsec, time) :: starts call past else starts call past

/-- The nodes whose timer is registered, or taken out by the thread to be called or put back. -/
def Thread.owner : Thread C N → List N
  | .called timer => [timer.node]
  | .running timer _ => [timer.node]
  | .returned timer => [timer.node]
  | _ => []

/-- The caller of a request is about to start its callback. -/
def State.Starting (s : State C N) (id : ℕ) (call : C) : Prop := ∃ k ∈ s.callers, k.id = id ∧ k.call = call ∧ k.started = false

/-- The timer of a node is registered, or about to be. -/
def State.Timed (s : State C N) (n : N) : Prop := n ∈ s.callers.map (·.node) ∨ n ∈ s.timers.map (·.node) ∨ n ∈ s.thread.owner

/-- The node of a callback is scheduled. -/
def State.Scheduled (s : State C N) (call : C) : Prop := ∃ n ∈ s.tasks, s.heap n = some ⟨call, true⟩ ∧ s.Timed n

/-- The timer that fired is about to start the callback. -/
def State.Running (s : State C N) (call : C) : Prop := ∃ timer, s.thread = .running timer call

/-- Two starts are a period of the first one's timer apart; the later one comes first. -/
def Apart (later earlier : ℕ × ℕ) : Prop := earlier.2 + earlier.1 ≤ later.2

end

end Pclsync.Timers.Ratelimited
