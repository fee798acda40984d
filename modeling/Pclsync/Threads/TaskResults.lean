import Pclsync.Lib.Counting
import Pclsync.Lib.Transition
import Mathlib.Data.Int.Notation
import Mathlib.Data.Fintype.Card
import Mathlib.Logic.Function.Basic

/-! Tasks that hand a result to their owner (`psync_task_*` in `plibs.c`).

The owner asks for the results of some tasks and frees the manager; each task runs in a
thread of its own. A step is one section under the mutex, but the release of a reference is
two: a thread still holds the mutex when the count is down. A wait on a condition may end
at any time, so that no step has to tell who is signalled. -/
namespace Pclsync.Threads
open Lib.Census Lib.Transition

/-- What a `void *` points to; `NULL` is `0`. -/
abbrev Ptr := ℕ

/-- `PSYNC_TASK_STATUS_*`. -/
inductive Status where
  | running
  | ready
  | done
  | returned
deriving DecidableEq, Repr

/-- `PSYNC_WAIT_NOBODY`. -/
def waitNobody : ℤ := -2

/-- `PSYNC_WAIT_FREED`. -/
def waitFreed : ℤ := -3

/-- What changes of a `struct psync_task_t_`. -/
structure Task where
  param : Ptr
  status : Status
deriving DecidableEq, Repr

/-- `struct psync_task_manager_t_` of `n` tasks. -/
structure Manager (n : ℕ) where
  refcnt : ℤ
  waitfor : ℤ
  tasks : Fin n → Task

variable {n : ℕ}

def Manager.setTask (tm : Manager n) (id : Fin n) (task : Task) : Manager n :=
  { tm with tasks := Function.update tm.tasks id task }

/-- `psync_task_run_tasks`. -/
def psyncTaskRunTasks (params : Fin n → Ptr) : Manager n :=
  ⟨n + 1, waitNobody, fun id => ⟨params id, .running⟩⟩

/-- `psync_task_get_result` up to its wait; `none` if it waits. -/
def getResult (tm : Manager n) (id : Fin n) : Manager n × Option Ptr :=
  match (tm.tasks id).status with
  | .running => ({ tm with waitfor := id.val }, none)
  | .ready => (tm.setTask id { tm.tasks id with status := .done }, some (tm.tasks id).param)
  | _ => (tm, some 0)

/-- `psync_task_get_result` from the end of its wait on. -/
def getResultWoken (tm : Manager n) (id : Fin n) : Manager n × Option Ptr :=
  let tm := { tm with waitfor := waitNobody }
  if (tm.tasks id).status = .running then ({ tm with waitfor := id.val }, none)
  else (tm.setTask id { tm.tasks id with status := .done }, some (tm.tasks id).param)

/-- The section of `psync_task_free`. -/
def freeSection (tm : Manager n) : Manager n where
  refcnt := tm.refcnt - 1
  waitfor := waitFreed
  tasks := fun id => if (tm.tasks id).status = .ready then { tm.tasks id with status := .returned } else tm.tasks id

/-- `psync_task_complete` up to its wait; `none` if it waits. -/
def complete (tm : Manager n) (id : Fin n) (data : Ptr) : Manager n × Option ℤ :=
  if tm.waitfor = id.val then (tm.setTask id ⟨data, .ready⟩, some 0)
  else if tm.waitfor = waitNobody ∨ tm.waitfor ≥ 0 then (tm.setTask id ⟨data, .ready⟩, none)
  else (tm, some (-1))

/-- `psync_task_complete` from the end of its wait on. -/
def completeWoken (tm : Manager n) (id : Fin n) : Option ℤ :=
  match (tm.tasks id).status with
  | .ready => none
  | .returned => some (-1)
  | _ => some 0

/-! ### Threads -/

/-- Where the thread of a task is. -/
inductive TaskAt where
  /-- In its callback, `psync_task_complete` not called. -/
  | working
  /-- In the wait of `psync_task_complete`. -/
  | parked
  /-- In its callback, `psync_task_complete` has returned. -/
  | back
  /-- In `psync_task_dec_refcnt`, still with the mutex; what was left of the count. -/
  | leaving (refcnt : ℤ)
  | left
deriving DecidableEq, Repr

inductive OwnerAt (n : ℕ) where
  | calling
  /-- In the wait of `psync_task_get_result`. -/
  | waits (id : Fin n)
  /-- In `psync_task_free`, before the mutex. -/
  | freeing
  | gone
deriving DecidableEq, Repr

/-- The manager with its threads, and the record of what the functions were called with and
have returned. -/
structure State (n : ℕ) where
  tm : Manager n
  at' : Fin n → TaskAt
  owner : OwnerAt n
  /-- The tasks that the owner has asked for. -/
  asked : Fin n → Bool
  /-- What `psync_task_get_result` returned for a task. -/
  got : Fin n → List Ptr
  /-- What `psync_task_complete` was called with. -/
  given : Fin n → Option Ptr
  /-- What `psync_task_complete` returned. -/
  answer : Fin n → Option ℤ
  /-- How many times `psync_task_destroy` was called. -/
  destroyed : ℕ

def State.init (params : Fin n → Ptr) : State n :=
  ⟨psyncTaskRunTasks params, fun _ => .working, .calling, fun _ => false, fun _ => [], fun _ => none, fun _ => none, 0⟩

/-- Nobody holds the mutex. -/
def State.Unlocked (s : State n) : Prop := ∀ id refcnt, s.at' id ≠ .leaving refcnt

/-- `if (!refcnt) psync_task_destroy(tm)`. -/
def State.destroyIf (s : State n) (refcnt : ℤ) : State n :=
  { s with destroyed := if refcnt = 0 then s.destroyed + 1 else s.destroyed }

/-- `psync_task_get_result` returns to the owner, or waits. -/
def State.answerOwner (s : State n) (id : Fin n) : Manager n × Option Ptr → State n
  | (tm, none) => { s with tm := tm, owner := .waits id }
  | (tm, some ret) => { s with tm := tm, owner := .calling, got := Function.update s.got id (s.got id ++ [ret]) }

/-- `psync_task_complete` returns to the task, or waits. -/
def State.answerTask (s : State n) (id : Fin n) : Option ℤ → State n
  | none => { s with at' := Function.update s.at' id .parked }
  | some ret => { s with at' := Function.update s.at' id .back, answer := Function.update s.answer id (some ret) }

inductive Action (n : ℕ) where
  | complete (id : Fin n) (data : Ptr)
  | wakeTask (id : Fin n)
  | leave (id : Fin n)
  | unlock (id : Fin n)
  | getResult (id : Fin n)
  | wakeOwner
  | free
  | freeLocked
deriving DecidableEq, Repr

inductive Step (s : State n) : Action n → State n → Prop where
  | complete {id : Fin n} {data : Ptr} : s.at' id = .working → s.Unlocked →
      Step s (.complete id data)
        ({ s with tm := (complete s.tm id data).1, given := Function.update s.given id (some data) }.answerTask id
          (complete s.tm id data).2)
  | wakeTask {id : Fin n} : s.at' id = .parked → s.Unlocked →
      Step s (.wakeTask id) (s.answerTask id (completeWoken s.tm id))
  | leave {id : Fin n} : s.at' id = .working ∨ s.at' id = .back → s.Unlocked →
      Step s (.leave id) { s with
        tm := { s.tm with refcnt := s.tm.refcnt - 1 }
        at' := Function.update s.at' id (.leaving (s.tm.refcnt - 1)) }
  | unlock {id : Fin n} {refcnt : ℤ} : s.at' id = .leaving refcnt →
      Step s (.unlock id) ({ s with at' := Function.update s.at' id .left }.destroyIf refcnt)
  | getResult {id : Fin n} : s.owner = .calling → s.asked id = false → s.Unlocked →
      Step s (.getResult id)
        ({ s with asked := Function.update s.asked id true }.answerOwner id (getResult s.tm id))
  | wakeOwner {id : Fin n} : s.owner = .waits id → s.Unlocked →
      Step s .wakeOwner (s.answerOwner id (getResultWoken s.tm id))
  /-- `psync_task_free` reads the count before it has the mutex. -/
  | freeLast : s.owner = .calling → s.tm.refcnt = 1 →
      Step s .free { s with owner := .gone, destroyed := s.destroyed + 1 }
  | free : s.owner = .calling → s.tm.refcnt ≠ 1 → Step s .free { s with owner := .freeing }
  | freeLocked : s.owner = .freeing → s.Unlocked →
      Step s .freeLocked ({ s with tm := freeSection s.tm, owner := .gone }.destroyIf (freeSection s.tm).refcnt)

/-- The owner frees the manager while a task that has given the last but one reference back
still holds the mutex. -/
def Hasty (s : State n) (a : Action n) : Prop := a = .free ∧ s.tm.refcnt = 1 ∧ ∃ id refcnt, s.at' id = .leaving refcnt

/-- What is handed over, and how the manager ends. -/
structure HandedOver (s : State n) : Prop where
  /-- A task that has its answer gave its data to the owner, at once or in the wait that the
  owner is in, or to nobody. -/
  answered : ∀ id ret, s.answer id = some ret → ∃ data, s.given id = some data ∧
    (ret = 0 ∧ (s.got id = [data] ∨ s.owner = .waits id ∧ s.got id = [] ∧ s.tm.tasks id = ⟨data, .ready⟩) ∨
      ret = -1 ∧ s.got id = [] ∧ s.owner = .gone)
  /-- What the owner got is the data of the task, once, and the task will not hear otherwise. -/
  got : ∀ id, s.got id ≠ [] → ∃ data, s.given id = some data ∧ s.got id = [data] ∧
    (s.answer id = some 0 ∨ s.at' id = .parked ∧ (s.tm.tasks id).status = .done)
  /-- Without an owner, a task in its wait is about to hear what became of its data. -/
  told : ∀ id, s.at' id = .parked → s.owner = .gone → ∃ data, s.given id = some data ∧
    ((s.tm.tasks id).status = .done ∧ s.got id = [data] ∨ (s.tm.tasks id).status = .returned ∧ s.got id = [])
  destroyed_once : s.destroyed ≤ 1
  destroyed_last : s.destroyed ≠ 0 → s.owner = .gone ∧ ∀ id, s.at' id = .left
  destroyed : s.owner = .gone → (∀ id, s.at' id = .left) → s.destroyed = 1

/-! ### One task -/

/-- What has become of one task and its data: its entry, where it is, what the owner got,
what it gave, what it was answered and whether the owner asked. -/
inductive Fate (owner : OwnerAt n) (id : Fin n) : Task → TaskAt → List Ptr → Option Ptr → Option ℤ → Bool → Prop where
  | silent {param : Ptr} {at' : TaskAt} {asked : Bool} : at' ≠ .parked → at' ≠ .back → (asked = true ↔ owner = .waits id) →
      Fate owner id ⟨param, .running⟩ at' [] none none asked
  | waiting {data : Ptr} : owner ≠ .gone → owner ≠ .waits id → Fate owner id ⟨data, .ready⟩ .parked [] (some data) none false
  | taken {data : Ptr} : owner ≠ .waits id → Fate owner id ⟨data, .done⟩ .parked [data] (some data) none true
  | dropped {data : Ptr} {asked : Bool} : owner = .gone →
      Fate owner id ⟨data, .returned⟩ .parked [] (some data) none asked
  | handing {data : Ptr} {at' : TaskAt} : at' ≠ .working → at' ≠ .parked → owner = .waits id →
      Fate owner id ⟨data, .ready⟩ at' [] (some data) (some 0) true
  | handed {data : Ptr} {at' : TaskAt} : at' ≠ .working → at' ≠ .parked → owner ≠ .waits id →
      Fate owner id ⟨data, .done⟩ at' [data] (some data) (some 0) true
  | refused {task : Task} {data : Ptr} {at' : TaskAt} {asked : Bool} : at' ≠ .working → at' ≠ .parked → owner = .gone →
      task.status ≠ .ready → Fate owner id task at' [] (some data) (some (-1)) asked

/-- The task has a reference. -/
def TaskAt.Inside (at' : TaskAt) : Prop := at' = .working ∨ at' = .parked ∨ at' = .back

instance (at' : TaskAt) : Decidable at'.Inside := inferInstanceAs (Decidable (_ ∨ _))

variable {owner owner' : OwnerAt n} {id : Fin n} {task : Task} {at' : TaskAt} {got : List Ptr} {given : Option Ptr}
  {answer : Option ℤ} {asked : Bool}

/-- The owner moves, but has nothing to do with this task. -/
theorem Fate.owner_moves (h : Fate owner id task at' got given answer asked) (hwaits : owner = .waits id ↔ owner' = .waits id)
    (hgone : owner = .gone ↔ owner' = .gone) : Fate owner' id task at' got given answer asked := by
  cases h with
  | silent hp hb hasked => exact .silent hp hb (hasked.trans hwaits)
  | waiting hg hw => exact .waiting (mt hgone.mpr hg) (mt hwaits.mpr hw)
  | taken hw => exact .taken (mt hwaits.mpr hw)
  | dropped hg => exact .dropped (hgone.mp hg)
  | handing hw hp ho => exact .handing hw hp (hwaits.mp ho)
  | handed hw hp ho => exact .handed hw hp (mt hwaits.mpr ho)
  | refused hw hp hg hr => exact .refused hw hp (hgone.mp hg) hr

/-- A task that goes out, or whose thread ends, has been answered or was never to be. -/
theorem Fate.goes {out : TaskAt} (h : Fate owner id task at' got given answer asked) (hparked : at' ≠ .parked)
    (hout : out ≠ .working ∧ out ≠ .parked ∧ out ≠ .back) : Fate owner id task out got given answer asked := by
  cases h with
  | silent hp hb hasked => exact .silent hout.2.1 hout.2.2 hasked
  | waiting | taken | dropped => exact absurd rfl hparked
  | handing hw hp ho => exact .handing hout.1 hout.2.1 ho
  | handed hw hp ho => exact .handed hout.1 hout.2.1 ho
  | refused hw hp hg hr => exact .refused hout.1 hout.2.1 hg hr

/-! ### All of them -/

/-- The references are those of the tasks that are not out and of the owner, and the manager
is gone when all of them are. -/
structure Counted (refcnt : ℤ) (at' : Fin n → TaskAt) (gone : Prop) (destroyed : ℕ) : Prop where
  refs : destroyed = 0 → ∃ k : ℕ, Counts (fun id => (at' id).Inside) k ∧ (gone → refcnt = k) ∧ (¬gone → refcnt = k + 1)
  leaving : ∀ id r, at' id = .leaving r → r = refcnt ∧ ∀ id' r', at' id' = .leaving r' → id' = id
  destroyed : destroyed = 0 ∧ ¬(gone ∧ ∀ id, at' id = .left) ∨ destroyed = 1 ∧ gone ∧ ∀ id, at' id = .left

/-- Whom the manager says the owner waits for. -/
def WaitsFor (waitfor : ℤ) (at' : Fin n → TaskAt) : OwnerAt n → Prop
  | .calling | .freeing => waitfor = waitNobody
  | .waits id => waitfor = id.val
  | .gone => waitfor = waitFreed ∨ ∀ id, ¬(at' id).Inside

/-- What holds in every state. -/
structure State.Sound (s : State n) : Prop where
  fate : ∀ id, Fate s.owner id (s.tm.tasks id) (s.at' id) (s.got id) (s.given id) (s.answer id) (s.asked id)
  waits : WaitsFor s.tm.waitfor s.at' s.owner
  counted : Counted s.tm.refcnt s.at' (s.owner = .gone) s.destroyed

variable {s s' : State n} {a : Action n}

theorem init_sound (params : Fin n → Ptr) : (State.init params).Sound where
  fate _ := .silent nofun nofun ⟨nofun, nofun⟩
  waits := rfl
  counted := by
    refine ⟨fun _ => ⟨n, ?_, nofun, fun _ => rfl⟩, nofun, .inl ⟨rfl, nofun⟩⟩
    exact ⟨Finset.univ, Finset.card_fin n, fun id => iff_of_true (Finset.mem_univ id) (.inl rfl)⟩

theorem Fate.answered {ret : ℤ} (h : Fate owner id task at' got given (some ret) asked) : ∃ data, given = some data ∧
    (ret = 0 ∧ (got = [data] ∨ owner = .waits id ∧ got = [] ∧ task = ⟨data, .ready⟩) ∨
      ret = -1 ∧ got = [] ∧ owner = .gone) := by
  cases h with
  | handing hw hp ho => exact ⟨_, rfl, .inl ⟨rfl, .inr ⟨ho, rfl, rfl⟩⟩⟩
  | handed hw hp ho => exact ⟨_, rfl, .inl ⟨rfl, .inl rfl⟩⟩
  | refused hw hp hg hr => exact ⟨_, rfl, .inr ⟨rfl, rfl, hg⟩⟩

theorem Fate.got_data (h : Fate owner id task at' got given answer asked) (hgot : got ≠ []) :
    ∃ data, given = some data ∧ got = [data] ∧ (answer = some 0 ∨ at' = .parked ∧ task.status = .done) := by
  cases h with
  | taken hw => exact ⟨_, rfl, rfl, .inr ⟨rfl, rfl⟩⟩
  | handed hw hp ho => exact ⟨_, rfl, rfl, .inl rfl⟩
  | silent | waiting | dropped | handing | refused => exact absurd rfl hgot

theorem Fate.told (h : Fate .gone id task .parked got given answer asked) : ∃ data, given = some data ∧
    (task.status = .done ∧ got = [data] ∨ task.status = .returned ∧ got = []) := by
  cases h with
  | taken hw => exact ⟨_, rfl, .inl ⟨rfl, rfl⟩⟩
  | dropped hg => exact ⟨_, rfl, .inr ⟨rfl, rfl⟩⟩
  | waiting hg => exact absurd rfl hg
  | silent hp | handing _ hp | handed _ hp | refused _ hp => exact absurd rfl hp

/-- What is claimed follows. -/
theorem State.Sound.handed_over (h : s.Sound) : HandedOver s where
  answered id ret hret := by
    have hfate := h.fate id
    rw [hret] at hfate
    exact hfate.answered
  got id hgot := (h.fate id).got_data hgot
  told id hat hgone := by
    have hfate := h.fate id
    rw [hat, hgone] at hfate
    exact hfate.told
  destroyed_once := by
    rcases h.counted.destroyed with ⟨hd, -⟩ | ⟨hd, -⟩ <;> omega
  destroyed_last hd := by
    rcases h.counted.destroyed with ⟨hd', -⟩ | ⟨-, hlast⟩
    · exact absurd hd' hd
    · exact hlast
  destroyed hgone hleft := by
    rcases h.counted.destroyed with ⟨-, hnot⟩ | ⟨hd, -⟩
    · exact absurd ⟨hgone, hleft⟩ hnot
    · exact hd

/-! ### Steps of a task -/

/-- A task that was never in `psync_task_complete`. -/
theorem Fate.fresh (h : Fate owner id task .working got given answer asked) :
    task.status = .running ∧ got = [] ∧ given = none ∧ answer = none ∧ (asked = true ↔ owner = .waits id) := by
  cases h with
  | silent hp hb hasked => exact ⟨rfl, rfl, rfl, rfl, hasked⟩
  | handing hw | handed hw | refused hw => exact absurd rfl hw

/-- The three routes of `psync_task_complete`. -/
theorem complete_routes (h : s.Sound) (hat : s.at' id = .working) (data : Ptr) :
    s.owner = .waits id ∧ complete s.tm id data = (s.tm.setTask id ⟨data, .ready⟩, some 0) ∨
    s.owner ≠ .waits id ∧ s.owner ≠ .gone ∧ complete s.tm id data = (s.tm.setTask id ⟨data, .ready⟩, none) ∨
    s.owner = .gone ∧ complete s.tm id data = (s.tm, some (-1)) := by
  have hwaits := h.waits
  have hid : (0 : ℤ) ≤ id.val := Int.natCast_nonneg _
  have hnobody : s.tm.waitfor = waitNobody → complete s.tm id data = (s.tm.setTask id ⟨data, .ready⟩, none) := by
    intro hnobody
    rw [complete, if_neg, if_pos (.inl hnobody)]
    rw [hnobody, waitNobody]
    omega
  cases hown : s.owner with
  | calling | freeing =>
    rw [hown] at hwaits
    exact .inr (.inl ⟨nofun, nofun, hnobody hwaits⟩)
  | waits j =>
    rw [hown] at hwaits
    have hj : s.tm.waitfor = j.val := hwaits
    rcases eq_or_ne j id with rfl | hne
    · exact .inl ⟨rfl, by rw [complete, if_pos hj]⟩
    · refine .inr (.inl ⟨fun heq => hne (OwnerAt.waits.inj heq), nofun, ?_⟩)
      rw [complete, if_neg, if_pos (.inr (by rw [hj]; exact Int.natCast_nonneg _))]
      intro heq
      rw [hj] at heq
      exact hne (Fin.ext (Int.ofNat_inj.mp heq))
  | gone =>
    rw [hown] at hwaits
    have hfreed : s.tm.waitfor = waitFreed := hwaits.resolve_right fun hout => hout id (.inl hat)
    refine .inr (.inr ⟨rfl, ?_⟩)
    rw [complete, if_neg, if_neg]
    · rw [hfreed, waitFreed, waitNobody]
      omega
    · rw [hfreed, waitFreed]
      omega

/-! ### References -/

variable {refcnt : ℤ} {places : Fin n → TaskAt} {gone : Prop} {destroyed : ℕ} {to' : TaskAt}

theorem not_inside_left : ¬TaskAt.left.Inside := by decide

theorem not_inside_leaving (r : ℤ) : ¬(TaskAt.leaving r).Inside := by simp [TaskAt.Inside]

/-- A manager with a task inside of it lives. -/
theorem Counted.lives (h : Counted refcnt places gone destroyed) (hid : places id ≠ .left) : destroyed = 0 := by
  rcases h.destroyed with ⟨hzero, -⟩ | ⟨-, -, hleft⟩
  · exact hzero
  · exact absurd (hleft id) hid

/-- A task moves within its callback. -/
theorem Counted.moves (h : Counted refcnt places gone destroyed) (hin : (places id).Inside) (hin' : to'.Inside) :
    Counted refcnt (Function.update places id to') gone destroyed := by
  have hne : ∀ {at' : TaskAt}, at'.Inside → at' ≠ .left ∧ ∀ r, at' ≠ .leaving r := by
    rintro at' (rfl | rfl | rfl) <;> exact ⟨nofun, nofun⟩
  have hself : Function.update places id to' id = to' := Function.update_self ..
  refine ⟨fun hzero => ?_, fun j r hj => ?_, .inl ⟨h.lives (hne hin).1, fun hall => ?_⟩⟩
  · obtain ⟨k, hk, hrefcnt⟩ := h.refs hzero
    refine ⟨k, hk.move (t := id) (fun u hu => by rw [Function.update_of_ne hu]) ?_, hrefcnt⟩
    rw [if_pos hin, hself, if_pos hin']
  · have hold : ∀ {j r}, Function.update places id to' j = .leaving r → places j = .leaving r := by
      intro j r hj
      rcases eq_or_ne j id with rfl | hne'
      · rw [hself] at hj
        exact absurd hj ((hne hin').2 r)
      · rwa [Function.update_of_ne hne'] at hj
    obtain ⟨hr, hone⟩ := h.leaving j r (hold hj)
    exact ⟨hr, fun id' r' hid' => hone id' r' (hold hid')⟩
  · exact (hne hin').1 (hself.symm.trans (hall.2 id))

/-- A task gives its reference back, with the mutex. -/
theorem Counted.leave (h : Counted refcnt places gone destroyed) (hin : (places id).Inside)
    (hunlocked : ∀ j r, places j ≠ .leaving r) :
    Counted (refcnt - 1) (Function.update places id (.leaving (refcnt - 1))) gone destroyed := by
  have hself : Function.update places id (.leaving (refcnt - 1)) id = .leaving (refcnt - 1) := Function.update_self ..
  have hlives : places id ≠ .left := fun hleft => not_inside_left (hleft ▸ hin)
  refine ⟨fun hzero => ?_, fun j r hj => ?_, .inl ⟨h.lives hlives, fun hall => ?_⟩⟩
  · obtain ⟨k, hk, hgone, hnot⟩ := h.refs hzero
    have hpos := hk.pos (p := fun id => (places id).Inside) hin
    refine ⟨k - 1, hk.move (t := id) (fun u hu => by rw [Function.update_of_ne hu]) ?_, fun hg => ?_, fun hg => ?_⟩
    · rw [if_pos hin, hself, if_neg (not_inside_leaving _)]
      omega
    · rw [hgone hg]
      omega
    · rw [hnot hg]
      omega
  · have hold : ∀ {j r}, Function.update places id (.leaving (refcnt - 1)) j = .leaving r → j = id := by
      intro j r hj
      by_contra hne
      rw [Function.update_of_ne hne] at hj
      exact hunlocked j r hj
    obtain rfl := hold hj
    rw [hself] at hj
    exact ⟨(TaskAt.leaving.inj hj).symm, fun id' r' hid' => hold hid'⟩
  · have := hall.2 id
    rw [hself] at this
    cases this

/-- Without a thread inside and the mutex free, all have left. -/
theorem all_left {k : ℕ} (hk : Counts (fun j => (places j).Inside) k) (hunlocked : ∀ j r, places j ≠ .leaving r) :
    k = 0 ↔ ∀ j, places j = .left := by
  have hpos := hk.pos_iff
  constructor
  · intro hzero j
    have hout : ¬(places j).Inside := fun hj => by
      have := hpos.mpr ⟨j, hj⟩
      omega
    cases hj : places j with
    | left => rfl
    | leaving r => exact absurd hj (hunlocked j r)
    | working | parked | back => exact absurd (by rw [hj]; decide) hout
  · intro hleft
    by_contra hne
    obtain ⟨j, hj⟩ := hpos.mp (Nat.pos_of_ne_zero hne)
    rw [hleft j] at hj
    exact not_inside_left hj

/-- The mutex goes free; the last reference takes the manager with it. -/
theorem Counted.unlock {r : ℤ} (h : Counted refcnt places gone destroyed) (hat : places id = .leaving r) :
    Counted refcnt (Function.update places id .left) gone (if r = 0 then destroyed + 1 else destroyed) := by
  have hself : Function.update places id .left id = .left := Function.update_self ..
  obtain ⟨hr, hone⟩ := h.leaving id r hat
  have hlives : destroyed = 0 := h.lives (by rw [hat]; exact nofun : places id ≠ .left)
  obtain ⟨k, hk, hgone, hnot⟩ := h.refs hlives
  have hk' : Counts (fun j => (Function.update places id .left j).Inside) k := by
    refine hk.move (t := id) (fun u hu => by rw [Function.update_of_ne hu]) ?_
    rw [hat, hself, if_neg (not_inside_leaving r), if_neg not_inside_left]
  have hquiet : ∀ j r', Function.update places id .left j ≠ .leaving r' := by
    intro j r' hj
    rcases eq_or_ne j id with rfl | hne
    · rw [hself] at hj
      cases hj
    · rw [Function.update_of_ne hne] at hj
      exact hne (hone j r' hj)
  have hall := all_left hk' hquiet
  refine ⟨fun hzero => ?_, fun j r' hj => absurd hj (hquiet j r'), ?_⟩
  · exact ⟨k, hk', hgone, hnot⟩
  · by_cases hg : gone
    · have hrk : r = k := hr.trans (hgone hg)
      by_cases hzero : k = 0
      · rw [if_pos (by omega), hlives]
        exact .inr ⟨rfl, hg, hall.mp hzero⟩
      · rw [if_neg (by omega), hlives]
        exact .inl ⟨rfl, fun hend => hzero (hall.mpr hend.2)⟩
    · have hrk : r = k + 1 := hr.trans (hnot hg)
      rw [if_neg (by omega), hlives]
      exact .inl ⟨rfl, fun hend => hg hend.1⟩

/-- The owner frees the manager. -/
theorem Counted.free (h : Counted refcnt places gone destroyed) (hgone : ¬gone) (hunlocked : ∀ j r, places j ≠ .leaving r) :
    Counted (refcnt - 1) places True (if refcnt - 1 = 0 then destroyed + 1 else destroyed) := by
  have hlives : destroyed = 0 := by
    rcases h.destroyed with ⟨hzero, -⟩ | ⟨-, hg, -⟩
    · exact hzero
    · exact absurd hg hgone
  obtain ⟨k, hk, -, hnot⟩ := h.refs hlives
  have hrefcnt := hnot hgone
  refine ⟨fun _ => ⟨k, hk, fun _ => by omega, fun h => absurd trivial h⟩, fun j r hj => absurd hj (hunlocked j r), ?_⟩
  have hall := all_left hk hunlocked
  by_cases hzero : k = 0
  · rw [if_pos (by omega), hlives]
    exact .inr ⟨rfl, trivial, hall.mp hzero⟩
  · rw [if_neg (by omega), hlives]
    exact .inl ⟨rfl, fun hend => hzero (hall.mpr hend.2)⟩

/-- The owner finds that its reference is the last one. -/
theorem Counted.free_last (h : Counted refcnt places gone destroyed) (hgone : ¬gone) (hone : refcnt = 1)
    (hunlocked : ∀ j r, places j ≠ .leaving r) : Counted refcnt places True (destroyed + 1) := by
  have hfree := h.free hgone hunlocked
  rw [if_pos (by omega)] at hfree
  exact ⟨fun hzero => absurd hzero (Nat.succ_ne_zero _), fun j r hj => absurd hj (hunlocked j r), hfree.destroyed⟩

theorem Counted.congr {gone' : Prop} (h : Counted refcnt places gone destroyed) (hg : gone ↔ gone') :
    Counted refcnt places gone' destroyed := by
  rwa [← propext hg]

/-! ### Steps -/

theorem WaitsFor.mono {waitfor : ℤ} (h : WaitsFor waitfor places owner)
    (hout : (∀ j, ¬(places j).Inside) → ∀ j, ¬(Function.update places id to' j).Inside) :
    WaitsFor waitfor (Function.update places id to') owner := by
  cases owner with
  | calling | freeing | waits => exact h
  | gone => exact h.imp_right hout

/-- Fates after a step that concerns one task only. -/
theorem fates_update {tasks : Fin n → Task} {places : Fin n → TaskAt} {gots : Fin n → List Ptr}
    {givens : Fin n → Option Ptr} {answers : Fin n → Option ℤ} {askeds : Fin n → Bool}
    (h : ∀ j, Fate owner j (tasks j) (places j) (gots j) (givens j) (answers j) (askeds j))
    (hmoves : ∀ j ≠ id, (owner = .waits j ↔ owner' = .waits j) ∧ (owner = .gone ↔ owner' = .gone))
    (hid : Fate owner' id task at' got given answer asked) (j : Fin n) :
    Fate owner' j (Function.update tasks id task j) (Function.update places id at' j) (Function.update gots id got j)
      (Function.update givens id given j) (Function.update answers id answer j) (Function.update askeds id asked j) := by
  rcases eq_or_ne j id with rfl | hne
  · simpa only [Function.update_self] using hid
  · simp only [Function.update_of_ne hne]
    exact (h j).owner_moves (hmoves j hne).1 (hmoves j hne).2

theorem inside_of_update (hin' : to'.Inside → (places id).Inside) (hout : ∀ j, ¬(places j).Inside) (j : Fin n) :
    ¬(Function.update places id to' j).Inside := by
  rcases eq_or_ne j id with rfl | hne
  · rw [Function.update_self]
    exact fun h => hout j (hin' h)
  · rw [Function.update_of_ne hne]
    exact hout j

theorem complete_sound (h : s.Sound) (hat : s.at' id = .working) (data : Ptr) :
    ({ s with tm := (complete s.tm id data).1, given := Function.update s.given id (some data) }.answerTask id
      (complete s.tm id data).2).Sound := by
  have hin : (s.at' id).Inside := .inl hat
  have hfate := h.fate id
  rw [hat] at hfate
  obtain ⟨hstatus, hgot, -, hanswer, hasked⟩ := hfate.fresh
  have hstay : ∀ j ≠ id, (s.owner = .waits j ↔ s.owner = .waits j) ∧ (s.owner = .gone ↔ s.owner = .gone) :=
    fun _ _ => ⟨Iff.rfl, Iff.rfl⟩
  have hwaits : ∀ to' : TaskAt, WaitsFor s.tm.waitfor (Function.update s.at' id to') s.owner := fun to' =>
    h.waits.mono (inside_of_update fun _ => hin)
  rcases complete_routes h hat data with ⟨how, hroute⟩ | ⟨hnot, hgone, hroute⟩ | ⟨hgone, hroute⟩
  · rw [hroute]
    have hnew : Fate s.owner id ⟨data, .ready⟩ .back (s.got id) (some data) (some 0) (s.asked id) := by
      rw [hgot, hasked.mpr how]
      exact .handing nofun nofun how
    refine ⟨fun j => ?_, hwaits _, h.counted.moves hin (by decide)⟩
    have hfates := fates_update h.fate hstay hnew j
    simp only [Function.update_eq_self] at hfates
    exact hfates
  · rw [hroute]
    have hnew : Fate s.owner id ⟨data, .ready⟩ .parked (s.got id) (some data) (s.answer id) (s.asked id) := by
      rw [hgot, hanswer, Bool.eq_false_of_not_eq_true (mt hasked.mp hnot)]
      exact .waiting hgone hnot
    refine ⟨fun j => ?_, hwaits _, h.counted.moves hin (by decide)⟩
    have hfates := fates_update h.fate hstay hnew j
    simp only [Function.update_eq_self] at hfates
    exact hfates
  · rw [hroute]
    have hnew : Fate s.owner id (s.tm.tasks id) .back (s.got id) (some data) (some (-1)) (s.asked id) := by
      rw [hgot]
      exact .refused nofun nofun hgone (by rw [hstatus]; exact nofun)
    refine ⟨fun j => ?_, hwaits _, h.counted.moves hin (by decide)⟩
    have hfates := fates_update h.fate hstay hnew j
    simp only [Function.update_eq_self] at hfates
    exact hfates

theorem wakeTask_sound (h : s.Sound) (hat : s.at' id = .parked) : (s.answerTask id (completeWoken s.tm id)).Sound := by
  have hin : (s.at' id).Inside := .inr (.inl hat)
  have hstay : ∀ j ≠ id, (s.owner = .waits j ↔ s.owner = .waits j) ∧ (s.owner = .gone ↔ s.owner = .gone) :=
    fun _ _ => ⟨Iff.rfl, Iff.rfl⟩
  have hfate := h.fate id
  rw [hat] at hfate
  -- the task waits on, or hears what became of its data
  have hnew : (completeWoken s.tm id = none ∧ Fate s.owner id (s.tm.tasks id) .parked (s.got id) (s.given id) (s.answer id) (s.asked id)) ∨
      ∃ ret, completeWoken s.tm id = some ret ∧
        Fate s.owner id (s.tm.tasks id) .back (s.got id) (s.given id) (some ret) (s.asked id) := by
    rw [completeWoken]
    generalize s.tm.tasks id = task at hfate ⊢
    generalize s.got id = got at hfate ⊢
    generalize s.given id = given at hfate ⊢
    generalize s.answer id = answer at hfate ⊢
    generalize s.asked id = asked at hfate ⊢
    cases hfate with
    | silent hp | handing _ hp | handed _ hp | refused _ hp => exact absurd rfl hp
    | waiting hg hw => exact .inl ⟨rfl, .waiting hg hw⟩
    | taken hw => exact .inr ⟨0, rfl, .handed nofun nofun hw⟩
    | dropped hg => exact .inr ⟨-1, rfl, .refused nofun nofun hg nofun⟩
  rcases hnew with ⟨hret, hnew⟩ | ⟨ret, hret, hnew⟩ <;> rw [hret] <;>
    refine ⟨fun j => ?_, h.waits.mono (inside_of_update fun _ => hin), h.counted.moves hin (by decide)⟩ <;>
    have hfates := fates_update h.fate hstay hnew j <;>
    simp only [Function.update_eq_self] at hfates <;>
    exact hfates

theorem leave_sound (h : s.Sound) (hat : s.at' id = .working ∨ s.at' id = .back) (hunlocked : s.Unlocked) :
    State.Sound { s with
      tm := { s.tm with refcnt := s.tm.refcnt - 1 }
      at' := Function.update s.at' id (.leaving (s.tm.refcnt - 1)) } := by
  have hin : (s.at' id).Inside := hat.imp_right .inr
  have hparked : s.at' id ≠ .parked := by rcases hat with hat | hat <;> rw [hat] <;> exact nofun
  have hstay : ∀ j ≠ id, (s.owner = .waits j ↔ s.owner = .waits j) ∧ (s.owner = .gone ↔ s.owner = .gone) :=
    fun _ _ => ⟨Iff.rfl, Iff.rfl⟩
  have hnew := @Fate.goes _ _ _ _ _ _ _ _ _ (.leaving (s.tm.refcnt - 1)) (h.fate id) hparked ⟨nofun, nofun, nofun⟩
  refine ⟨fun j => ?_, h.waits.mono (inside_of_update fun _ => hin), h.counted.leave hin hunlocked⟩
  have hfates := fates_update h.fate hstay hnew j
  simp only [Function.update_eq_self] at hfates
  exact hfates

theorem unlock_sound {r : ℤ} (h : s.Sound) (hat : s.at' id = .leaving r) :
    ({ s with at' := Function.update s.at' id .left }.destroyIf r).Sound := by
  have hstay : ∀ j ≠ id, (s.owner = .waits j ↔ s.owner = .waits j) ∧ (s.owner = .gone ↔ s.owner = .gone) :=
    fun _ _ => ⟨Iff.rfl, Iff.rfl⟩
  have hnew := @Fate.goes _ _ _ _ _ _ _ _ _ .left (h.fate id) (by rw [hat]; exact nofun) ⟨nofun, nofun, nofun⟩
  refine ⟨fun j => ?_, h.waits.mono (inside_of_update fun hin => absurd hin not_inside_left), h.counted.unlock hat⟩
  have hfates := fates_update h.fate hstay hnew j
  simp only [Function.update_eq_self] at hfates
  exact hfates

/-! ### Steps of the owner -/

/-- While the owner neither waits nor is gone, its next wait is nobody else's matter. -/
theorem owner_stays {owner owner' : OwnerAt n} (h : owner = .calling ∨ owner = .waits id) (h' : owner' = .calling ∨ owner' = .waits id) :
    ∀ j ≠ id, (owner = .waits j ↔ owner' = .waits j) ∧ (owner = .gone ↔ owner' = .gone) := by
  intro j hj
  have hnot : ∀ o : OwnerAt n, o = .calling ∨ o = .waits id → o ≠ .waits j ∧ o ≠ .gone := by
    rintro o (rfl | rfl)
    · exact ⟨nofun, nofun⟩
    · exact ⟨fun heq => hj (OwnerAt.waits.inj heq).symm, nofun⟩
  exact ⟨iff_of_false (hnot _ h).1 (hnot _ h').1, iff_of_false (hnot _ h).2 (hnot _ h').2⟩

theorem getResult_sound (h : s.Sound) (hown : s.owner = .calling) (hasked : s.asked id = false) :
    ({ s with asked := Function.update s.asked id true }.answerOwner id (getResult s.tm id)).Sound := by
  have hfate := h.fate id
  rw [hown, hasked] at hfate
  have hwaits : s.tm.waitfor = waitNobody := by
    have := h.waits
    rwa [hown] at this
  -- the task has not called yet, or waits with its data
  have hnew : (getResult s.tm id = ({ s.tm with waitfor := id.val }, none) ∧
        Fate (.waits id) id (s.tm.tasks id) (s.at' id) (s.got id) (s.given id) (s.answer id) true) ∨
      ∃ ret, getResult s.tm id = (s.tm.setTask id { s.tm.tasks id with status := .done }, some ret) ∧
        Fate .calling id { s.tm.tasks id with status := .done } (s.at' id) (s.got id ++ [ret]) (s.given id) (s.answer id) true := by
    rw [getResult]
    generalize s.tm.tasks id = task at hfate ⊢
    generalize s.at' id = at' at hfate ⊢
    generalize s.got id = got at hfate ⊢
    generalize s.given id = given at hfate ⊢
    generalize s.answer id = answer at hfate ⊢
    cases hfate with
    | silent hp hb hw => exact .inl ⟨rfl, .silent hp hb (iff_of_true rfl rfl)⟩
    | waiting hg hw => exact .inr ⟨_, rfl, .taken nofun⟩
    | dropped hg => cases hg
    | refused hw hp hg => cases hg
  have hcounted : ∀ owner' : OwnerAt n, owner' ≠ .gone → Counted s.tm.refcnt s.at' (owner' = .gone) s.destroyed := by
    intro owner' hg
    exact h.counted.congr (iff_of_false (by rw [hown]; exact nofun) hg)
  rcases hnew with ⟨hret, hnew⟩ | ⟨ret, hret, hnew⟩
  · rw [hret]
    refine ⟨fun j => ?_, rfl, hcounted _ nofun⟩
    have hfates := fates_update h.fate (owner_stays (.inl hown) (.inr rfl)) hnew j
    simp only [Function.update_eq_self] at hfates
    exact hfates
  · rw [hret]
    refine ⟨fun j => ?_, hwaits, hcounted _ nofun⟩
    have hfates := fates_update h.fate (owner_stays (.inl hown) (.inl rfl)) hnew j
    simp only [Function.update_eq_self] at hfates
    exact hfates

theorem wakeOwner_sound (h : s.Sound) (hown : s.owner = .waits id) : (s.answerOwner id (getResultWoken s.tm id)).Sound := by
  have hfate := h.fate id
  rw [hown] at hfate
  -- a wake-up for no reason, or the data of the task
  have hnew : (getResultWoken s.tm id = ({ s.tm with waitfor := id.val }, none) ∧
        Fate (.waits id) id (s.tm.tasks id) (s.at' id) (s.got id) (s.given id) (s.answer id) (s.asked id)) ∨
      ∃ ret, getResultWoken s.tm id =
          ({ s.tm with waitfor := waitNobody }.setTask id { s.tm.tasks id with status := .done }, some ret) ∧
        Fate .calling id { s.tm.tasks id with status := .done } (s.at' id) (s.got id ++ [ret]) (s.given id) (s.answer id)
          (s.asked id) := by
    rw [getResultWoken]
    simp only
    generalize s.tm.tasks id = task at hfate ⊢
    generalize s.at' id = at' at hfate ⊢
    generalize s.got id = got at hfate ⊢
    generalize s.given id = given at hfate ⊢
    generalize s.answer id = answer at hfate ⊢
    generalize s.asked id = asked at hfate ⊢
    cases hfate with
    | silent hp hb hw => exact .inl ⟨rfl, .silent hp hb hw⟩
    | handing hw hp ho => exact .inr ⟨_, rfl, .handed hw hp nofun⟩
    | waiting hg hw => exact absurd rfl hw
    | taken hw => exact absurd rfl hw
    | handed hw hp ho => exact absurd rfl ho
    | dropped hg => cases hg
    | refused hw hp hg => cases hg
  have hcounted : ∀ owner' : OwnerAt n, owner' ≠ .gone → Counted s.tm.refcnt s.at' (owner' = .gone) s.destroyed := by
    intro owner' hg
    exact h.counted.congr (iff_of_false (by rw [hown]; exact nofun) hg)
  rcases hnew with ⟨hret, hnew⟩ | ⟨ret, hret, hnew⟩
  · rw [hret]
    refine ⟨fun j => ?_, rfl, hcounted _ nofun⟩
    have hfates := fates_update h.fate (owner_stays (.inr hown) (.inr rfl)) hnew j
    simp only [Function.update_eq_self] at hfates
    exact hfates
  · rw [hret]
    refine ⟨fun j => ?_, rfl, hcounted _ nofun⟩
    have hfates := fates_update h.fate (owner_stays (.inr hown) (.inl rfl)) hnew j
    simp only [Function.update_eq_self] at hfates
    exact hfates

theorem free_sound (h : s.Sound) (hown : s.owner = .calling) : State.Sound { s with owner := .freeing } where
  fate j := by
    have hfate := h.fate j
    rw [hown] at hfate
    exact hfate.owner_moves (iff_of_false nofun nofun) (iff_of_false nofun nofun)
  waits := by
    have := h.waits
    rwa [hown] at this
  counted := h.counted.congr (iff_of_false (by rw [hown]; exact nofun) nofun)

/-- Without the owner, the data of a task is taken or dropped. -/
theorem Fate.freed (h : Fate owner id task at' got given answer asked) (hown : owner = .calling ∨ owner = .freeing) :
    Fate .gone id (if task.status = .ready then { task with status := .returned } else task) at' got given answer asked := by
  have hnot : owner ≠ .waits id ∧ owner ≠ .gone := by rcases hown with rfl | rfl <;> exact ⟨nofun, nofun⟩
  cases h with
  | silent hp hb hasked => exact .silent hp hb (iff_of_false (mt hasked.mp hnot.1) nofun)
  | waiting hg hw => exact .dropped rfl
  | taken hw => exact .taken nofun
  | dropped hg => exact absurd hg hnot.2
  | handing hw hp ho => exact absurd ho hnot.1
  | handed hw hp ho => exact .handed hw hp nofun
  | refused hw hp hg => exact absurd hg hnot.2

theorem freeLocked_sound (h : s.Sound) (hown : s.owner = .freeing) (hunlocked : s.Unlocked) :
    ({ s with tm := freeSection s.tm, owner := .gone }.destroyIf (freeSection s.tm).refcnt).Sound where
  fate j := (h.fate j).freed (.inr hown)
  waits := .inl rfl
  counted := (h.counted.free (by rw [hown]; exact nofun) hunlocked).congr (iff_of_true trivial rfl)

/-- No task that has left has data for an owner that does not wait. -/
theorem Fate.not_ready (h : Fate .calling id task .left got given answer asked) : task.status ≠ .ready := by
  cases h with
  | silent | handed => exact nofun
  | handing hw hp ho => cases ho
  | refused hw hp hg => cases hg

/-- The owner has the last reference, and nobody the mutex. -/
theorem freeLast_sound (h : s.Sound) (hown : s.owner = .calling) (hone : s.tm.refcnt = 1) (hunlocked : s.Unlocked) :
    State.Sound { s with owner := .gone, destroyed := s.destroyed + 1 } := by
  have hcounted := h.counted.free_last (by rw [hown]; exact nofun) hone hunlocked
  have hleft : ∀ j, s.at' j = .left := by
    rcases hcounted.destroyed with ⟨hzero, -⟩ | ⟨-, -, hleft⟩
    · exact absurd hzero (Nat.succ_ne_zero _)
    · exact hleft
  refine ⟨fun j => ?_, .inr fun j hin => ?_, hcounted.congr (iff_of_true trivial rfl)⟩
  · have hfate := (h.fate j).freed (.inl hown)
    have hold := h.fate j
    rw [hleft j, hown] at hold
    rwa [if_neg hold.not_ready] at hfate
  · rw [hleft j] at hin
    exact not_inside_left hin

theorem Step.sound (h : s.Sound) (hstep : Step s a s') (hsafe : ¬Hasty s a) : s'.Sound := by
  cases hstep with
  | complete hat hunlocked => exact complete_sound h hat _
  | wakeTask hat hunlocked => exact wakeTask_sound h hat
  | leave hat hunlocked => exact leave_sound h hat hunlocked
  | unlock hat => exact unlock_sound h hat
  | getResult hown hasked hunlocked => exact getResult_sound h hown hasked
  | wakeOwner hown hunlocked => exact wakeOwner_sound h hown
  | freeLast hown hone => exact freeLast_sound h hown hone fun id r hid => hsafe ⟨rfl, hone, id, r, hid⟩
  | free hown hmore => exact free_sound h hown
  | freeLocked hown hunlocked => exact freeLocked_sound h hown hunlocked

/-- **Results are handed over once**, and the manager goes with the last that leaves it, in
every run in which the owner does not read the count as the last one while a task still has
the mutex; a step that does so takes the manager from under that task. -/
theorem tasks_handed_over (s : State n)
    (h : Reachable (fun s => ∃ params, s = State.init params) (Avoiding Step Hasty) s) :
    HandedOver s ∧ ∀ a s', Hasty s a → Step s a s' → ¬HandedOver s' := by
  have hsound : s.Sound := by
    induction h with
    | start h =>
      obtain ⟨params, rfl⟩ := h
      exact init_sound params
    | next _ hstep ih => exact hstep.1.sound ih hstep.2
  refine ⟨hsound.handed_over, ?_⟩
  rintro a s' ⟨rfl, hone, id, r, hid⟩ hstep hover
  cases hstep with
  | freeLast hown _ =>
    have hleft := (hover.destroyed_last (Nat.succ_ne_zero _)).2 id
    rw [show s.at' id = .left from hleft] at hid
    cases hid
  | free hown hmore => exact hmore hone

def TaskAt.holdsMutex : TaskAt → Bool
  | leaving _ => true
  | _ => false

theorem unlocked_one {s : State 1} (h : (s.at' 0).holdsMutex = false) : s.Unlocked := by
  intro id r hid
  rw [Subsingleton.elim id 0] at hid
  rw [hid] at h
  cases h

/-- The owner waits for a task, has its data and frees the manager when the task has left. -/
theorem tasks_handed_over_one : ∃ s : State 1, s.got 0 = [7] ∧ s.answer 0 = some 0 ∧ s.destroyed = 1 ∧ HandedOver s := by
  have hquiet : ∀ (s : State 1) (a : Action 1), (s.at' 0).holdsMutex = false → ¬Hasty s a := by
    rintro s a hat ⟨-, -, id, r, hid⟩
    exact unlocked_one hat id r hid
  have h : Reachable (fun s => ∃ params, s = State.init params) (Avoiding Step Hasty) (State.init fun _ : Fin 1 => 0) :=
    .start ⟨_, rfl⟩
  have h := h.next (a := .getResult 0) ⟨.getResult rfl rfl (unlocked_one rfl), hquiet _ _ rfl⟩
  have h := h.next (a := .complete 0 7) ⟨.complete rfl (unlocked_one rfl), hquiet _ _ rfl⟩
  have h := h.next (a := .wakeOwner) ⟨@Step.wakeOwner _ _ 0 rfl (unlocked_one rfl), hquiet _ _ rfl⟩
  have h := h.next (a := .leave 0) ⟨.leave (.inr rfl) (unlocked_one rfl), hquiet _ _ rfl⟩
  have h := h.next (a := .unlock 0) ⟨.unlock rfl, fun hasty => nomatch hasty.1⟩
  have h := h.next (a := .free) ⟨.freeLast rfl rfl, hquiet _ _ rfl⟩
  exact ⟨_, rfl, rfl, rfl, (tasks_handed_over _ h).1⟩

/-- The task has given its reference back, but not the mutex, when the owner destroys both. -/
theorem manager_destroyed_early :
    ¬∀ s : State 1, Reachable (fun s => ∃ params, s = State.init params) Step s → HandedOver s := by
  intro hall
  have h : Reachable (fun s => ∃ params, s = State.init params) Step (State.init fun _ : Fin 1 => 0) := .start ⟨_, rfl⟩
  have h := h.next (a := .getResult 0) (.getResult rfl rfl (unlocked_one rfl))
  have h := h.next (a := .complete 0 7) (.complete rfl (unlocked_one rfl))
  have h := h.next (a := .wakeOwner) (@Step.wakeOwner _ _ 0 rfl (unlocked_one rfl))
  have h := h.next (a := .leave 0) (.leave (.inr rfl) (unlocked_one rfl))
  have h := h.next (a := .free) (.freeLast rfl rfl)
  exact nomatch ((hall _ h).destroyed_last (Nat.succ_ne_zero _)).2 0

end Pclsync.Threads
