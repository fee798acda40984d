import Pclsync.Lib.Machine
import Mathlib.Data.Int.Notation

/-! The read-write lock of `plocks.c`, one thread at a time.

A function that may wait is what it does before its loop, the test of the loop, what it
does around the wait, and what it does after the loop (`Acquire`). A failed assertion is
`none` or `Entry.aborts`. -/
namespace Pclsync.Locks
open Lib.Machine

inductive Cond where
  | rcond
  | wcond
deriving DecidableEq, Repr

/-- What a thread does to the threads that wait before it unlocks the mutex. -/
inductive Wake where
  | nobody
  /-- `pthread_cond_signal(&rw->wcond)`. -/
  | signal
  | broadcast (cond : Cond)
deriving DecidableEq, Repr

/-- `psync_rwlock_t` without its mutex and condition variables, with the two bits of `opts`. -/
structure Rwlock where
  rcount : ℕ
  rwait : ℕ
  wcount : ℕ
  wwait : ℕ
  preferRead : Bool
  reserved : Bool
deriving DecidableEq, Repr

/-- `psync_rwlock_init`. -/
def init : Rwlock := ⟨0, 0, 0, 0, false, false⟩

/-- `psync_rwlock_lockcnt_t`: how many read and write locks the thread has, as `uint_halfptr_t`. -/
structure Lockcnt where
  rd : ℕ
  wr : ℕ
deriving DecidableEq, Repr

/-- `PSYNC_WR_RESERVED`. -/
def wrReserved : ℕ := 2 ^ 32 - 1

/-! ### Nested locks -/

/-- `psync_rwlock_check_rdrecursive_in`: the count if the thread has a lock already. -/
def checkRdrecursiveIn (cnt : Lockcnt) : Option (Option Lockcnt) :=
  if cnt.rd ≠ 0 then some (some { cnt with rd := u32 (cnt.rd + 1) })
  else if cnt.wr ≠ 0 then
    if cnt.wr = wrReserved then none else some (some { cnt with wr := u32 (cnt.wr + 1) })
  else some none

/-- `psync_rwlock_check_wrrecursive_in`. -/
def checkWrrecursiveIn (cnt : Lockcnt) : Option (Option Lockcnt) :=
  if cnt.rd ≠ 0 then none
  else if cnt.wr ≠ 0 then
    if cnt.wr = wrReserved then none else some (some { cnt with wr := u32 (cnt.wr + 1) })
  else some none

/-- `psync_rwlock_check_recursive_out`. -/
def checkRecursiveOut (cnt : Lockcnt) : Option (Bool × Lockcnt) :=
  if cnt.rd ≠ 0 then some (decide (cnt.rd - 1 > 0), { cnt with rd := cnt.rd - 1 })
  else if cnt.wr = 0 then none
  else some (decide (cnt.wr - 1 > 0), { cnt with wr := cnt.wr - 1 })

/-- `psync_rwlock_is_reserved_by_this_thread_clr`. -/
def isReservedByThisThreadClr (cnt : Lockcnt) : Bool × Lockcnt :=
  if cnt.wr = wrReserved then (true, { cnt with wr := 0 }) else (false, cnt)

/-! ### Functions that wait -/

/-- How a function goes on after the part before its loop. -/
inductive Entry where
  | returns (ret : ℤ) (rw : Rwlock) (cnt : Lockcnt)
  | loops (rw : Rwlock)
  | aborts

/-- The lock, the count of the thread and the wake-up after a loop. -/
structure Taken where
  rw : Rwlock
  cnt : Lockcnt
  wake : Wake

structure Acquire where
  enter : Rwlock → Lockcnt → Entry
  cond : Cond
  test : Rwlock → Bool
  park : Rwlock → Rwlock
  unpark : Rwlock → Rwlock
  take : Rwlock → Lockcnt → Option Taken

/-- A nested lock is had at once. -/
def enterNested (rw : Rwlock) : Option (Option Lockcnt) → Entry
  | none => .aborts
  | some (some cnt) => .returns 0 rw cnt
  | some none => .loops rw

def Rwlock.parkReader (rw : Rwlock) : Rwlock := { rw with rwait := rw.rwait + 1 }
def Rwlock.unparkReader (rw : Rwlock) : Rwlock := { rw with rwait := rw.rwait - 1 }
def Rwlock.parkWriter (rw : Rwlock) : Rwlock := { rw with wwait := rw.wwait + 1 }
def Rwlock.unparkWriter (rw : Rwlock) : Rwlock := { rw with wwait := rw.wwait - 1 }

def takeRead (rw : Rwlock) : Taken := ⟨{ rw with rcount := rw.rcount + 1 }, ⟨1, 0⟩, .nobody⟩
def takeWrite (rw : Rwlock) : Taken := ⟨{ rw with wcount := rw.wcount + 1 }, ⟨0, 1⟩, .nobody⟩

/-- `psync_rwlock_rdlock`. -/
def rdlock : Acquire where
  enter rw cnt := enterNested rw (checkRdrecursiveIn cnt)
  cond := .rcond
  test rw := rw.wcount != 0 || (rw.wwait != 0 && !rw.reserved)
  park := Rwlock.parkReader
  unpark := Rwlock.unparkReader
  take rw _ := some (takeRead rw)

/-- `psync_rwlock_timedrdlock`, but for what it does when the time is over. -/
def timedrdlock : Acquire := rdlock

/-- `psync_rwlock_rdlock_starvewr`. -/
def rdlockStarvewr : Acquire where
  enter rw cnt := enterNested rw (checkRdrecursiveIn cnt)
  cond := .rcond
  test rw := rw.wcount != 0
  park rw := { rw.parkReader with preferRead := true }
  unpark rw := { rw.unparkReader with preferRead := false }
  take rw _ := some (takeRead rw)

/-- `psync_rwlock_wrlock`. -/
def wrlock : Acquire where
  enter rw cnt := enterNested rw (checkWrrecursiveIn cnt)
  cond := .wcond
  test rw := rw.rcount != 0 || rw.wcount != 0
  park := Rwlock.parkWriter
  unpark := Rwlock.unparkWriter
  take rw _ := some (takeWrite rw)

/-- `psync_rwlock_timedwrlock`, but for what it does when the time is over. -/
def timedwrlock : Acquire := wrlock

/-- `psync_rwlock_rslock`. -/
def rslock : Acquire where
  enter rw cnt :=
    if cnt.rd ≠ 0 then .aborts
    else if cnt.wr ≠ 0 then
      if cnt.wr = wrReserved then .returns 0 rw { cnt with rd := u32 (cnt.rd + 1) }
      else .returns 0 rw { cnt with wr := u32 (cnt.wr + 1) }
    else .loops rw
  cond := .wcond
  test rw := rw.wcount != 0 || rw.reserved
  park := Rwlock.parkWriter
  unpark := Rwlock.unparkWriter
  take rw _ := some ⟨{ rw with rcount := rw.rcount + 1, reserved := true }, ⟨1, wrReserved⟩,
    if rw.rwait ≠ 0 then .broadcast .rcond else .nobody⟩

/-- `psync_rwlock_towrlock`. -/
def towrlock : Acquire where
  enter rw cnt :=
    if cnt.wr ≠ 0 ∧ cnt.wr ≠ wrReserved then .returns 0 rw cnt
    else if rw.rcount = 0 then .aborts
    else if rw.wcount ≠ 0 then .aborts
    else if rw.reserved ∧ cnt.wr ≠ wrReserved then .returns (-1) rw cnt
    else .loops { rw with rcount := rw.rcount - 1, reserved := true }
  cond := .wcond
  test rw := rw.rcount != 0
  park := Rwlock.parkWriter
  unpark := Rwlock.unparkWriter
  take rw cnt :=
    if rw.wcount ≠ 0 then none
    else some ⟨{ rw with wcount := rw.wcount + 1, reserved := false }, ⟨0, cnt.rd⟩, .nobody⟩

/-! ### Functions that do not wait -/

/-- A call that fails where the loop would wait. -/
def Acquire.once (f : Acquire) (rw : Rwlock) (cnt : Lockcnt) : Entry :=
  match f.enter rw cnt with
  | .loops rw =>
    if f.test rw then .returns (-1) rw cnt
    else match f.take rw cnt with
      | some k => .returns 0 k.rw k.cnt
      | none => .aborts
  | entry => entry

/-- `psync_rwlock_tryrdlock`. -/
def tryrdlock : Rwlock → Lockcnt → Entry := rdlock.once

/-- `psync_rwlock_trywrlock`. -/
def trywrlock : Rwlock → Lockcnt → Entry := wrlock.once

/-- `psync_rwlock_timedrdlock` when the time is over. -/
def timedrdlockTimeout (rw : Rwlock) : Rwlock × Wake := (rw.unparkReader, .nobody)

/-- `psync_rwlock_timedwrlock` when the time is over. -/
def timedwrlockTimeout (rw : Rwlock) : Rwlock × Wake :=
  let rw := rw.unparkWriter
  (rw, if rw.wwait ≠ 0 ∧ rw.wcount = 0 ∧ rw.rwait ≠ 0 then .broadcast .rcond else .nobody)

/-- The branch of `psync_rwlock_unlock` for a read lock. -/
def unlockRead (rw : Rwlock) (cnt : Lockcnt) : Taken :=
  let mine := rw.reserved && (isReservedByThisThreadClr cnt).1
  let cnt := if mine then (isReservedByThisThreadClr cnt).2 else cnt
  let rw := { rw with rcount := rw.rcount - 1, reserved := rw.reserved && !mine }
  ⟨rw, cnt, if rw.rcount = 0 ∧ rw.wwait ≠ 0 then if rw.reserved then .broadcast .wcond else .signal else .nobody⟩

/-- The branch for a write lock. -/
def unlockWrite (rw : Rwlock) (cnt : Lockcnt) : Option Taken :=
  let rw := { rw with wcount := rw.wcount - 1 }
  if rw.wcount ≠ 0 then some ⟨rw, cnt, .nobody⟩
  else if rw.reserved then if rw.wwait = 0 then none else some ⟨rw, cnt, .broadcast .wcond⟩
  else if rw.preferRead then
    some ⟨rw, cnt, if rw.rwait ≠ 0 then .broadcast .rcond else if rw.wwait ≠ 0 then .signal else .nobody⟩
  else some ⟨rw, cnt, if rw.wwait ≠ 0 then .signal else if rw.rwait ≠ 0 then .broadcast .rcond else .nobody⟩

/-- `psync_rwlock_unlock`. -/
def unlock (rw : Rwlock) (cnt : Lockcnt) : Option Taken :=
  (checkRecursiveOut cnt).bind fun (again, cnt) =>
    if again then some ⟨rw, cnt, .nobody⟩
    else if rw.rcount ≠ 0 ∧ rw.wcount ≠ 0 then none
    else if rw.rcount ≠ 0 then some (unlockRead rw cnt)
    else if rw.wcount = 0 then none
    else unlockWrite rw cnt

end Pclsync.Locks
