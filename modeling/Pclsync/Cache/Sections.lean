import Pclsync.Lib.Machine
import Pclsync.Lib.Transition
import Mathlib.Logic.Function.Basic
import Mathlib.Data.List.Nodup

/-! The cache of `pcache.c`: sections under a bucket's mutex, and the timers of its elements.

An element is in a bucket, or with the one call that took it out, or with the callback of its
timer. A call that finds the timer queued cannot stop it: it waits for the callback, which
then leaves the element to the call. Memory is what is allocated: an access to an element or
a timer that is not has no result. -/
namespace Pclsync.Cache
open Lib.Machine

/-- `CACHE_HASH_SIZE`. -/
def cacheHashSize : ℕ := 2048
/-- `CACHE_LOCKS`. -/
def cacheLocks : ℕ := 8

def hashToBucket (h : ℕ) : ℕ := h % cacheHashSize
def hashToLock (h : ℕ) : ℕ := u32 (h * cacheLocks) / cacheHashSize % cacheLocks

/-- A C string. -/
abbrev Key := List UInt8
abbrev Addr := ℕ

/-- `hash_func`. -/
def hashFunc (seed : ℕ) (key : Key) : ℕ :=
  let hash := key.foldl (fun hash c => u32 (c.toNat + u32 (hash <<< 5) + hash)) seed
  let hash := u32 (hash + u32 (hash <<< 3))
  hash ^^^ (hash >>> 11)

/-- What is given to `psync_cache_add`: a value and the function that frees it. -/
structure Item (V F : Type) where
  key : Key
  value : V
  free : F

/-- `hash_element`; `ticket` is the number of the call that added it. -/
structure Element (V F : Type) where
  item : Item V F
  hash : ℕ
  timer : Addr
  /-- `CACHE_WAIT_FOR_TIMER`. -/
  wait : Bool
  /-- `CACHE_TIMER_CALLED`. -/
  called : Bool
  ticket : ℕ

/-- A timer that calls `cache_timer` with an element. -/
structure Timer where
  he : Addr
  /-- `PTIMER_IS_RUNNING`. -/
  queued : Bool
  /-- `PTIMER_STOP_AFTER_RUN`. -/
  stopAfterRun : Bool

/-- What an element was taken out for. -/
inductive Purpose where
  | get
  | del (key : Key)

/-- Where a thread is in a call. -/
inductive Call where
  /-- In `pthread_cond_wait`. -/
  | waiting (he : Addr) (purpose : Purpose)
  /-- After the section, with an element. -/
  | holding (he : Addr) (purpose : Purpose)
  /-- At `restart`. -/
  | deleting (key : Key)
  /-- At a bucket, cleaning all elements or those that start with one of some prefixes. -/
  | cleaning (h : ℕ) (prefixes : Option (List Key))

/-- Where `timer_process_timers` is. -/
inductive TimerCall where
  | idle
  /-- Before the next callback. -/
  | calling
  /-- In the callback of a timer, with its element. -/
  | owning (timer he : Addr)
  /-- Before the callback's `psync_timer_stop`. -/
  | stopping (timer : Addr)

structure State (T V F : Type) where
  elements : Addr → Option (Element V F)
  timers : Addr → Option Timer
  cacheHash : ℕ → List Addr
  calls : T → Option Call
  /-- The timers that are queued and will be called. -/
  run : List Addr
  /-- The timers that were called. -/
  ran : List Addr
  timerCall : TimerCall
  /-- All calls of `psync_cache_add` so far. -/
  added : List (Item V F)
  /-- What `psync_cache_get` returned, with the number of the call that added it. -/
  returned : List (ℕ × V)
  /-- The calls of free functions. -/
  freed : List (ℕ × F × V)

variable {T V F : Type}

def State.init : State T V F := ⟨fun _ => none, fun _ => none, fun _ => [], fun _ => none, [], [], .idle, [], [], []⟩

def Element.freeing (e : Element V F) : ℕ × F × V := (e.ticket, e.item.free, e.item.value)

/-- `psync_list_del`. -/
def State.unlink (s : State T V F) (he : Addr) : State T V F :=
  { s with cacheHash := fun h => (s.cacheHash h).filter (· ≠ he) }

def State.setElement (s : State T V F) (he : Addr) (e : Option (Element V F)) : State T V F :=
  { s with elements := Function.update s.elements he e }

/-- `psync_timer_stop`. -/
def State.timerStop (s : State T V F) (timer : Addr) : Option (State T V F × Bool) :=
  (s.timers timer).map fun t =>
    if t.queued then ({ s with timers := Function.update s.timers timer (some { t with stopAfterRun := true }) }, true)
    else ({ s with timers := Function.update s.timers timer none }, false)

section

variable (seed : ℕ)

def State.hits (s : State T V F) (key : Key) (he : Addr) : Bool :=
  match s.elements he with
  | some e => e.hash == hashFunc seed key && e.item.key == key
  | none => false

/-- The element that a lookup finds. -/
def State.find (s : State T V F) (key : Key) : Option Addr :=
  (s.cacheHash (hashToBucket (hashFunc seed key))).find? (s.hits seed key)

/-- `psync_cache_add`, with the memory it allocates. -/
def State.add (s : State T V F) (item : Item V F) (maxkeys : ℕ) (he timer : Addr) : State T V F :=
  let h := hashFunc seed item.key
  let lst := s.cacheHash (hashToBucket h)
  if maxkeys ≠ 0 ∧ maxkeys ≤ lst.countP (s.hits seed item.key) then
    { s with added := s.added ++ [item], freed := (s.added.length, item.free, item.value) :: s.freed }
  else
    { s with
      elements := Function.update s.elements he (some ⟨item, h, timer, false, false, s.added.length⟩)
      timers := Function.update s.timers timer (some ⟨he, false, false⟩)
      cacheHash := Function.update s.cacheHash (hashToBucket h) (he :: lst)
      added := s.added ++ [item] }

end

/-- `psync_cache_clean_starting_with_one_of` takes an element, `psync_cache_clean_all` any. -/
def selects (prefixes : Option (List Key)) (key : Key) : Bool :=
  match prefixes with
  | none => true
  | some prefixes => prefixes.any (·.isPrefixOf key)

/-- The body of the loop of cleaning. -/
def State.cleanOne (s : State T V F) (prefixes : Option (List Key)) (he : Addr) : Option (State T V F) :=
  (s.elements he).bind fun e =>
    if selects prefixes e.item.key then
      (s.timerStop e.timer).map fun (s, running) =>
        if running then s else { (s.unlink he).setElement he none with freed := e.freeing :: s.freed }
    else some s

variable [DecidableEq T]

def State.setCall (s : State T V F) (t : T) (call : Option Call) : State T V F :=
  { s with calls := Function.update s.calls t call }

/-- An element that was found is taken out of its bucket. -/
def State.takeOut (s : State T V F) (t : T) (purpose : Purpose) (he : Addr) : Option (State T V F) :=
  (s.elements he).bind fun e =>
    ((s.unlink he).timerStop e.timer).map fun (s, running) =>
      if running then (s.setElement he (some { e with wait := true })).setCall t (some (.waiting he purpose))
      else s.setCall t (some (.holding he purpose))

/-- The section of `psync_cache_get` and of `psync_cache_del`. -/
def State.lookUp (s : State T V F) (seed : ℕ) (t : T) (purpose : Purpose) (key : Key) : Option (State T V F) :=
  match s.find seed key with
  | none => some (s.setCall t none)
  | some he => s.takeOut t purpose he

/-- Waking up in the loop of `pthread_cond_wait`. -/
def State.resume (s : State T V F) (t : T) (he : Addr) (purpose : Purpose) : Option (State T V F) :=
  (s.elements he).map fun e => if e.called then s.setCall t (some (.holding he purpose)) else s

/-- After the section: the value is returned or freed, and the element is freed. -/
def State.finish (s : State T V F) (t : T) (he : Addr) (purpose : Purpose) : Option (State T V F) :=
  (s.elements he).map fun e =>
    match purpose with
    | .get => { (s.setElement he none).setCall t none with returned := (e.ticket, e.item.value) :: s.returned }
    | .del key => { (s.setElement he none).setCall t (some (.deleting key)) with freed := e.freeing :: s.freed }

/-! ### The timer thread -/

/-- `timer_prepare_timers` takes out some timers. -/
def State.queue (s : State T V F) (timers : List Addr) : State T V F :=
  { s with
    timers := fun timer => (s.timers timer).map fun t => if timer ∈ timers then { t with queued := true } else t
    run := timers, timerCall := .calling }

/-- The section of `cache_timer`. -/
def State.cacheTimer (s : State T V F) (timer he : Addr) : Option (State T V F) :=
  (s.elements he).map fun e =>
    if e.wait then s.setElement he (some { e with called := true })
    else { s.unlink he with timerCall := .owning timer he }

/-- The next callback. -/
def State.callback (s : State T V F) (timer : Addr) (rest : List Addr) : Option (State T V F) :=
  (s.timers timer).bind fun t => { s with run := rest, ran := timer :: s.ran }.cacheTimer timer t.he

/-- `cache_timer` frees the value and the element. -/
def State.release (s : State T V F) (timer he : Addr) : Option (State T V F) :=
  (s.elements he).map fun e =>
    { s.setElement he none with freed := e.freeing :: s.freed, timerCall := .stopping timer }

/-- `cache_timer` stops its timer. -/
def State.stopSelf (s : State T V F) (timer : Addr) : Option (State T V F) :=
  (s.timerStop timer).map fun (s, _) => { s with timerCall := .calling }

/-- `timer_process_timers` after the callbacks. -/
def State.process (s : State T V F) : State T V F :=
  { s with
    timers := fun timer =>
      if timer ∈ s.ran then (s.timers timer).bind fun t => if t.stopAfterRun then none else some { t with queued := false }
      else s.timers timer
    ran := [], timerCall := .idle }

/-! ### Steps -/

inductive Action (T V F : Type) where
  | get (t : T) (key : Key)
  | del (t : T) (key : Key)
  | delNext (t : T)
  | resume (t : T)
  | finish (t : T)
  | add (item : Item V F) (maxkeys : ℕ)
  | clean (t : T) (prefixes : Option (List Key))
  | cleanNext (t : T)
  | queue
  | callback
  | release
  | stopSelf
  | process

/-- Some calls of `psync_cache_add`. -/
inductive Adds (seed : ℕ) : State T V F → State T V F → Prop where
  | none {s : State T V F} : Adds seed s s
  | next {s s' : State T V F} {item : Item V F} {maxkeys : ℕ} {he timer : Addr} : s.elements he = none → s.timers timer = none →
      Adds seed (s.add seed item maxkeys he timer) s' → Adds seed s s'

/-- The section of cleaning a bucket. The mutexes are recursive: a free function may add to the
cache, as closing a connection adds its session. -/
inductive Cleans (seed : ℕ) (prefixes : Option (List Key)) : State T V F → List Addr → Option (State T V F) → Prop where
  | done {s : State T V F} : Cleans seed prefixes s [] (some s)
  | next {s s₁ s₂ : State T V F} {he : Addr} {rest : List Addr} {r : Option (State T V F)} : s.cleanOne prefixes he = some s₁ →
      Adds seed s₁ s₂ → Cleans seed prefixes s₂ rest r → Cleans seed prefixes s (he :: rest) r
  | faults {s : State T V F} {he : Addr} {rest : List Addr} : s.cleanOne prefixes he = none → Cleans seed prefixes s (he :: rest) none

/-- A step and its result, which is none after an access to memory that is not allocated. -/
inductive Acts (seed : ℕ) (s : State T V F) : Action T V F → Option (State T V F) → Prop where
  | get {t : T} {key : Key} : s.calls t = none → Acts seed s (.get t key) (s.lookUp seed t .get key)
  | del {t : T} {key : Key} : s.calls t = none → Acts seed s (.del t key) (some (s.setCall t (some (.deleting key))))
  | delNext {t : T} {key : Key} : s.calls t = some (.deleting key) → Acts seed s (.delNext t) (s.lookUp seed t (.del key) key)
  | resume {t : T} {he : Addr} {purpose : Purpose} : s.calls t = some (.waiting he purpose) →
      Acts seed s (.resume t) (s.resume t he purpose)
  | finish {t : T} {he : Addr} {purpose : Purpose} : s.calls t = some (.holding he purpose) →
      Acts seed s (.finish t) (s.finish t he purpose)
  | add {item : Item V F} {maxkeys : ℕ} {he timer : Addr} : s.elements he = none → s.timers timer = none →
      Acts seed s (.add item maxkeys) (some (s.add seed item maxkeys he timer))
  | clean {t : T} {prefixes : Option (List Key)} : s.calls t = none →
      Acts seed s (.clean t prefixes) (some (s.setCall t (some (.cleaning 0 prefixes))))
  | cleanNext {t : T} {h : ℕ} {prefixes : Option (List Key)} {r : Option (State T V F)} : s.calls t = some (.cleaning h prefixes) →
      h < cacheHashSize → Cleans seed prefixes s (s.cacheHash h) r →
      Acts seed s (.cleanNext t) (r.map fun s => s.setCall t (some (.cleaning (h + 1) prefixes)))
  | cleanEnd {t : T} {h : ℕ} {prefixes : Option (List Key)} : s.calls t = some (.cleaning h prefixes) → ¬h < cacheHashSize →
      Acts seed s (.cleanNext t) (some (s.setCall t none))
  | queue {timers : List Addr} : s.timerCall = .idle → timers.Nodup →
      (∀ timer ∈ timers, ∃ t, s.timers timer = some t ∧ t.queued = false) → Acts seed s .queue (some (s.queue timers))
  | callback {timer : Addr} {rest : List Addr} : s.timerCall = .calling → s.run = timer :: rest →
      Acts seed s .callback (s.callback timer rest)
  | release {timer he : Addr} : s.timerCall = .owning timer he → Acts seed s .release (s.release timer he)
  | stopSelf {timer : Addr} : s.timerCall = .stopping timer → Acts seed s .stopSelf (s.stopSelf timer)
  | process : s.timerCall = .calling → s.run = [] → Acts seed s .process (some s.process)

def Step (seed : ℕ) (s : State T V F) (a : Action T V F) (s' : State T V F) : Prop := Acts seed s a (some s')

end Pclsync.Cache
