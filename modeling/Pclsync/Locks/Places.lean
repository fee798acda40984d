import Pclsync.Locks.Calls
import Pclsync.Lib.Counting
import Pclsync.Lib.Transition
import Mathlib.Logic.Function.Basic

/-! Threads on one lock.

A step is one section under the mutex, with the count of the thread that goes with it.
A wait gives the mutex up: the thread then waits for a wake-up, which a signal brings
to any one waiter, a broadcast to all, and which may also come for no reason. A wait
whose time is over hears no signal any more. A thread goes on in a later step, whenever
it gets the mutex. -/
namespace Pclsync.Locks
open Lib.Census

inductive Call where
  | rdlock
  | timedrdlock
  | rdlockStarvewr
  | wrlock
  | timedwrlock
  | rslock
  | towrlock
deriving DecidableEq, Repr

def Call.code : Call → Acquire
  | rdlock => Locks.rdlock
  | timedrdlock => Locks.timedrdlock
  | rdlockStarvewr => Locks.rdlockStarvewr
  | wrlock => Locks.wrlock
  | timedwrlock => Locks.timedwrlock
  | rslock => Locks.rslock
  | towrlock => Locks.towrlock

def Call.timeout : Call → Option (Rwlock → Rwlock × Wake)
  | timedrdlock => some timedrdlockTimeout
  | timedwrlock => some timedwrlockTimeout
  | _ => none

/-- One more nested lock does not make a count reach the reserved value. -/
def Lockcnt.Nests (cnt : Lockcnt) : Prop := cnt.rd + 1 < wrReserved ∧ (cnt.wr ≠ wrReserved → cnt.wr + 1 < wrReserved)

/-- The locks with which a thread may make a call. -/
def Call.Legal (cnt : Lockcnt) : Call → Prop
  | rdlock | timedrdlock | rdlockStarvewr => cnt.Nests
  | wrlock | timedwrlock | rslock => cnt.Nests ∧ cnt.rd = 0
  | towrlock => cnt.rd ≠ 0 ∨ cnt.wr ≠ 0

inductive Phase where
  | blocked
  | woken
  | expired
deriving DecidableEq, Repr

/-- A thread in the loop of a call. -/
structure Waiting where
  call : Call
  phase : Phase
deriving DecidableEq, Repr

structure State (T : Type) where
  rw : Rwlock
  cnt : T → Lockcnt
  waiting : T → Option Waiting
  /-- An assertion failed, which ends the program. -/
  failed : Bool

inductive Action (T : Type) where
  | call (t : T) (c : Call)
  | tryrdlock (t : T)
  | trywrlock (t : T)
  | resume (t : T)
  | spurious (t : T)
  | expire (t : T)
  | timeout (t : T)
  | unlock (t : T)

variable {T : Type} [DecidableEq T]

def State.init : State T := ⟨Locks.init, fun _ => ⟨0, 0⟩, fun _ => none, false⟩

/-- The lock and one thread changed. -/
def State.set (s : State T) (t : T) (rw : Rwlock) (cnt : Lockcnt) (waiting : Option Waiting) : State T :=
  { s with rw := rw, cnt := Function.update s.cnt t cnt, waiting := Function.update s.waiting t waiting }

def State.abort (s : State T) : State T := { s with failed := true }

def State.Blocked (s : State T) (cond : Cond) (t : T) : Prop :=
  ∃ c : Call, s.waiting t = some ⟨c, .blocked⟩ ∧ c.code.cond = cond

def State.become (s : State T) (t : T) (phase : Phase) : State T :=
  { s with waiting := Function.update s.waiting t ((s.waiting t).map fun w => { w with phase := phase }) }

def State.wakeAll (s : State T) (cond : Cond) : State T :=
  { s with waiting := fun t => (s.waiting t).map fun w =>
      if w.call.code.cond = cond ∧ w.phase = .blocked then { w with phase := .woken } else w }

inductive Wakes (s : State T) : Wake → State T → Prop where
  | nobody : Wakes s .nobody s
  | broadcast (cond : Cond) : Wakes s (.broadcast cond) (s.wakeAll cond)
  | signal {t : T} : s.Blocked .wcond t → Wakes s .signal (s.become t .woken)
  | unheard : (∀ t, ¬s.Blocked .wcond t) → Wakes s .signal s

/-- The loop of a call from its test on. -/
inductive Attempt (c : Call) (s : State T) (t : T) (rw : Rwlock) : State T → Prop where
  | waits : c.code.test rw = true → Attempt c s t rw (s.set t (c.code.park rw) (s.cnt t) (some ⟨c, .blocked⟩))
  | takes {k : Taken} {s' : State T} : c.code.test rw = false → c.code.take rw (s.cnt t) = some k →
      Wakes (s.set t k.rw k.cnt none) k.wake s' → Attempt c s t rw s'
  | aborts : c.code.test rw = false → c.code.take rw (s.cnt t) = none → Attempt c s t rw s.abort

/-- What a call that returns or aborts before its loop leaves. -/
inductive Ends (s : State T) (t : T) : Entry → State T → Prop where
  | returns {ret : ℤ} {rw : Rwlock} {cnt : Lockcnt} : Ends s t (.returns ret rw cnt) (s.set t rw cnt none)
  | aborts : Ends s t .aborts s.abort

inductive Acts (s : State T) : Action T → State T → Prop where
  | call {t : T} {c : Call} {s' : State T} : s.waiting t = none → c.Legal (s.cnt t) →
      Ends s t (c.code.enter s.rw (s.cnt t)) s' → Acts s (.call t c) s'
  | loop {t : T} {c : Call} {rw : Rwlock} {s' : State T} : s.waiting t = none → c.Legal (s.cnt t) →
      c.code.enter s.rw (s.cnt t) = .loops rw → Attempt c s t rw s' → Acts s (.call t c) s'
  | tryrdlock {t : T} {s' : State T} : s.waiting t = none → Call.rdlock.Legal (s.cnt t) →
      Ends s t (tryrdlock s.rw (s.cnt t)) s' → Acts s (.tryrdlock t) s'
  | trywrlock {t : T} {s' : State T} : s.waiting t = none → Call.wrlock.Legal (s.cnt t) →
      Ends s t (trywrlock s.rw (s.cnt t)) s' → Acts s (.trywrlock t) s'
  | resume {t : T} {c : Call} {s' : State T} : s.waiting t = some ⟨c, .woken⟩ →
      Attempt c s t (c.code.unpark s.rw) s' → Acts s (.resume t) s'
  | spurious {t : T} {c : Call} : s.waiting t = some ⟨c, .blocked⟩ → Acts s (.spurious t) (s.become t .woken)
  | expire {t : T} {c : Call} : s.waiting t = some ⟨c, .blocked⟩ → c.timeout.isSome → Acts s (.expire t) (s.become t .expired)
  | timeout {t : T} {c : Call} {late : Rwlock → Rwlock × Wake} {s' : State T} : s.waiting t = some ⟨c, .expired⟩ →
      c.timeout = some late → Wakes (s.set t (late s.rw).1 (s.cnt t) none) (late s.rw).2 s' → Acts s (.timeout t) s'
  | unlock {t : T} {k : Taken} {s' : State T} : s.waiting t = none → (s.cnt t).rd ≠ 0 ∨ (s.cnt t).wr ≠ 0 →
      unlock s.rw (s.cnt t) = some k → Wakes (s.set t k.rw k.cnt none) k.wake s' → Acts s (.unlock t) s'
  | unlockAborts {t : T} : s.waiting t = none → (s.cnt t).rd ≠ 0 ∨ (s.cnt t).wr ≠ 0 →
      unlock s.rw (s.cnt t) = none → Acts s (.unlock t) s.abort

/-- One step of one thread; there are none after a failed assertion. -/
def Step (s : State T) (a : Action T) (s' : State T) : Prop := s.failed = false ∧ Acts s a s'

end Pclsync.Locks

/-! What one section does to the thread that runs it and to the lock.

`Moved` says that the lock follows the thread from one place to another, count by count;
each function of the lock gets one lemma that says where it moves the thread. -/
namespace Pclsync.Locks
open Lib.Machine

/-- Where a thread is with respect to the loop of a call. -/
inductive Place where
  | outside
  | testing (c : Call)
  | parked (c : Call)
deriving DecidableEq, Repr

/-- The call in whose loop the thread is. -/
def Place.call : Place → Option Call
  | outside => none
  | testing c | parked c => some c

/-- The thread has a share of the lock, which it gives up for the loop of `psync_rwlock_towrlock`. -/
def Reads (cnt : Lockcnt) (place : Place) : Prop := cnt.rd ≠ 0 ∧ place.call ≠ some .towrlock

/-- The thread has the lock for itself. -/
def Writes (cnt : Lockcnt) : Prop := cnt.rd = 0 ∧ cnt.wr ≠ 0

/-- The thread is the one for which the lock is reserved. -/
def Owns (cnt : Lockcnt) (place : Place) : Prop := cnt.wr = wrReserved ∨ place.call = some .towrlock

def On (cond : Cond) : Place → Prop
  | .parked c => c.code.cond = cond
  | _ => False

instance (cnt : Lockcnt) (place : Place) : Decidable (Reads cnt place) := inferInstanceAs (Decidable (_ ∧ _))
instance (cnt : Lockcnt) : Decidable (Writes cnt) := inferInstanceAs (Decidable (_ ∧ _))
instance (cnt : Lockcnt) (place : Place) : Decidable (Owns cnt place) := inferInstanceAs (Decidable (_ ∨ _))
instance (cond : Cond) : (place : Place) → Decidable (On cond place)
  | .parked c => inferInstanceAs (Decidable (c.code.cond = cond))
  | .outside | .testing _ => isFalse id

/-- The counts that a thread may have where it is. -/
def Fits (cnt : Lockcnt) (place : Place) : Prop :=
  match place.call with
  | none => if cnt.rd = 0 then cnt.wr ≠ wrReserved else cnt.wr = 0 ∨ cnt.wr = wrReserved
  | some .towrlock => cnt.rd ≠ 0 ∧ (cnt.wr = 0 ∨ cnt.wr = wrReserved)
  | some _ => cnt = ⟨0, 0⟩

/-- What the lock says of one thread. -/
structure Local (rw : Rwlock) (cnt : Lockcnt) (place : Place) : Prop where
  fits : Fits cnt place
  deep : cnt.rd < wrReserved ∧ cnt.wr ≤ wrReserved
  rcount : Reads cnt place → 0 < rw.rcount
  wcount : Writes cnt → 0 < rw.wcount
  rwait : On .rcond place → 0 < rw.rwait
  wwait : On .wcond place → 0 < rw.wwait
  excl : rw.rcount = 0 ∨ rw.wcount = 0
  one : rw.wcount ≤ 1
  reserved : Owns cnt place → rw.reserved = true

/-- The lock follows a thread from one place to another. -/
structure Moved (rw : Rwlock) (cnt : Lockcnt) (place : Place) (rw' : Rwlock) (cnt' : Lockcnt)
    (place' : Place) : Prop where
  fits : Fits cnt' place'
  deep : cnt'.rd < wrReserved ∧ cnt'.wr ≤ wrReserved
  rcount : rw'.rcount + (if Reads cnt place then 1 else 0) = rw.rcount + if Reads cnt' place' then 1 else 0
  wcount : rw'.wcount + (if Writes cnt then 1 else 0) = rw.wcount + if Writes cnt' then 1 else 0
  rwait : rw'.rwait + (if On .rcond place then 1 else 0) = rw.rwait + if On .rcond place' then 1 else 0
  wwait : rw'.wwait + (if On .wcond place then 1 else 0) = rw.wwait + if On .wcond place' then 1 else 0
  excl : rw'.rcount = 0 ∨ rw'.wcount = 0
  one : rw'.wcount ≤ 1
  reserved : rw'.reserved = true ↔ Owns cnt' place' ∨ rw.reserved = true ∧ ¬Owns cnt place
  owner : Owns cnt' place' → Owns cnt place ∨ rw.reserved = false

theorem zero_ne_reserved : 0 ≠ wrReserved := by decide
theorem one_ne_reserved : 1 ≠ wrReserved := by decide
theorem one_lt_reserved : 1 < wrReserved := by decide

variable {rw rw' rw'' : Rwlock} {cnt cnt' cnt'' : Lockcnt} {place place' place'' : Place} {c : Call}

theorem Moved.trans (h : Moved rw cnt place rw' cnt' place') (h' : Moved rw' cnt' place' rw'' cnt'' place'') :
    Moved rw cnt place rw'' cnt'' place'' where
  fits := h'.fits
  deep := h'.deep
  rcount := by have := h.rcount; have := h'.rcount; omega
  wcount := by have := h.wcount; have := h'.wcount; omega
  rwait := by have := h.rwait; have := h'.rwait; omega
  wwait := by have := h.wwait; have := h'.wwait; omega
  excl := h'.excl
  one := h'.one
  reserved := by
    have hfalse : rw.reserved = false ↔ ¬rw.reserved = true := by simp
    have := h.reserved
    have := h'.reserved
    have := h.owner
    tauto
  owner ho := by
    have hfalse : rw.reserved = false ↔ ¬rw.reserved = true := by simp
    have hfalse' : rw'.reserved = false ↔ ¬rw'.reserved = true := by simp
    have := h.reserved
    have := h.owner
    have := h'.owner ho
    tauto

/-- A counter that follows a thread counts it where it is. -/
theorem counted {p q : Prop} [Decidable p] [Decidable q] {n n' : ℕ}
    (hnum : n' + (if p then 1 else 0) = n + if q then 1 else 0) (hp : p → 0 < n) (hq : q) : 0 < n' := by
  rw [if_pos hq] at hnum
  split_ifs at hnum with hp'
  · have := hp hp'
    omega
  · omega

/-- What the lock says of the thread where it is now. -/
theorem Moved.local (hm : Moved rw cnt place rw' cnt' place') (h : Local rw cnt place) : Local rw' cnt' place' where
  fits := hm.fits
  deep := hm.deep
  rcount := counted hm.rcount h.rcount
  wcount := counted hm.wcount h.wcount
  rwait := counted hm.rwait h.rwait
  wwait := counted hm.wwait h.wwait
  excl := hm.excl
  one := hm.one
  reserved ho := hm.reserved.mpr (.inl ho)

/-- Nothing changes but the depth of the locks. -/
theorem Local.stay (h : Local rw cnt place) (hfits : Fits cnt' place') (hdeep : cnt'.rd < wrReserved ∧ cnt'.wr ≤ wrReserved)
    (hreads : Reads cnt' place' ↔ Reads cnt place) (hwrites : Writes cnt' ↔ Writes cnt)
    (howns : Owns cnt' place' ↔ Owns cnt place) (hon : ∀ cond, On cond place' ↔ On cond place) :
    Moved rw cnt place rw cnt' place' where
  fits := hfits
  deep := hdeep
  rcount := by simp only [hreads]
  wcount := by simp only [hwrites]
  rwait := by simp only [hon]
  wwait := by simp only [hon]
  excl := h.excl
  one := h.one
  reserved := by
    rw [howns]
    have := h.reserved
    tauto
  owner ho := .inl (howns.mp ho)

/-! ### Before the loop -/

/-- What a call does before its loop; no assertion fails there. -/
def Enters (rw : Rwlock) (cnt : Lockcnt) (c : Call) : Entry → Prop
  | .returns _ rw' cnt' => Moved rw cnt .outside rw' cnt' .outside
  | .loops rw' => Moved rw cnt .outside rw' cnt (.testing c)
  | .aborts => False

/-- A thread without a lock starts on a loop that gives up nothing. -/
theorem Local.start (h : Local rw ⟨0, 0⟩ .outside) (hc : c ≠ .towrlock) :
    Moved rw ⟨0, 0⟩ .outside rw ⟨0, 0⟩ (.testing c) := by
  refine h.stay ?_ h.deep ?_ Iff.rfl ?_ fun _ => Iff.rfl
  · cases c <;> simp_all [Fits, Place.call]
  · simp [Reads]
  · simp [Owns, Place.call, hc]

theorem Local.enterRead (h : Local rw cnt .outside) (hnests : cnt.Nests) (hc : c ≠ .towrlock) :
    Enters rw cnt c (enterNested rw (checkRdrecursiveIn cnt)) := by
  obtain ⟨rd, wr⟩ := cnt
  obtain ⟨hrd, hwr⟩ : rd + 1 < wrReserved ∧ (wr ≠ wrReserved → wr + 1 < wrReserved) := hnests
  have hfits : if rd = 0 then wr ≠ wrReserved else wr = 0 ∨ wr = wrReserved := h.fits
  by_cases hr : rd = 0
  · subst hr
    by_cases hw : wr = 0
    · subst hw
      exact h.start hc
    · rw [if_pos rfl] at hfits
      have hlt := hwr hfits
      have hnest : u32 (wr + 1) = wr + 1 := u32_of_lt (hlt.trans (by decide))
      simp only [checkRdrecursiveIn, hw, hfits, ne_eq, not_true_eq_false, not_false_eq_true, if_false, if_true,
        enterNested, Enters, hnest]
      refine h.stay ?_ ⟨h.deep.1, hlt.le⟩ ?_ ?_ ?_ fun _ => Iff.rfl
      · simpa [Fits, Place.call] using hlt.ne
      · simp [Reads]
      · simp [Writes, hw]
      · simp [Owns, Place.call, hlt.ne, hfits]
  · have hnest : u32 (rd + 1) = rd + 1 := u32_of_lt (hrd.trans (by decide))
    simp only [checkRdrecursiveIn, hr, ne_eq, not_false_eq_true, if_true, enterNested, Enters, hnest]
    refine h.stay ?_ ⟨hrd, h.deep.2⟩ ?_ ?_ ?_ fun _ => Iff.rfl
    · simpa [Fits, Place.call, hr] using hfits
    · simp [Reads, hr]
    · simp [Writes, hr]
    · simp [Owns]

theorem Local.enterWrite (h : Local rw cnt .outside) (hnests : cnt.Nests) (hrd : cnt.rd = 0) (hc : c ≠ .towrlock) :
    Enters rw cnt c (enterNested rw (checkWrrecursiveIn cnt)) := by
  have hsame : checkWrrecursiveIn cnt = checkRdrecursiveIn cnt := by
    simp only [checkWrrecursiveIn, checkRdrecursiveIn, hrd, ne_eq, not_true_eq_false, if_false]
  rw [hsame]
  exact h.enterRead hnests hc

theorem Local.enterRslock (h : Local rw cnt .outside) (hnests : cnt.Nests) (hrd : cnt.rd = 0) :
    Enters rw cnt .rslock (rslock.enter rw cnt) := by
  obtain ⟨rd, wr⟩ := cnt
  obtain rfl : rd = 0 := hrd
  have hfits : wr ≠ wrReserved := by simpa [Fits, Place.call] using h.fits
  have hlt := hnests.2 hfits
  have hnest : u32 (wr + 1) = wr + 1 := u32_of_lt (hlt.trans (by decide))
  by_cases hw : wr = 0
  · subst hw
    exact h.start (by decide)
  · simp only [rslock, hw, hfits, Enters, hnest, ne_eq, not_true_eq_false, not_false_eq_true, if_false, if_true]
    refine h.stay ?_ ⟨h.deep.1, hlt.le⟩ ?_ ?_ ?_ fun _ => Iff.rfl
    · simpa [Fits, Place.call] using hlt.ne
    · simp [Reads]
    · simp [Writes, hw]
    · simp [Owns, Place.call, hlt.ne, hfits]

/-- A thread that reads keeps writers out. -/
theorem Local.no_writer (h : Local rw cnt place) (hreads : Reads cnt place) : rw.wcount = 0 :=
  h.excl.resolve_left (Nat.ne_of_gt (h.rcount hreads))

/-- The upgrade gives its share up and reserves the lock, or has it reserved already. -/
theorem Local.enterTowrlock (h : Local rw cnt .outside) (hlegal : cnt.rd ≠ 0 ∨ cnt.wr ≠ 0) :
    Enters rw cnt .towrlock (towrlock.enter rw cnt) := by
  have hfits : if cnt.rd = 0 then cnt.wr ≠ wrReserved else cnt.wr = 0 ∨ cnt.wr = wrReserved := h.fits
  have hself : Moved rw cnt .outside rw cnt .outside :=
    h.stay h.fits h.deep Iff.rfl Iff.rfl Iff.rfl fun _ => Iff.rfl
  by_cases hw : cnt.wr ≠ 0 ∧ cnt.wr ≠ wrReserved
  · simp only [towrlock, if_pos hw]
    exact hself
  have hwr : cnt.wr = 0 ∨ cnt.wr = wrReserved := by tauto
  have hrd : cnt.rd ≠ 0 := by
    intro hrd
    rw [if_pos hrd] at hfits
    tauto
  have hreads : Reads cnt .outside := ⟨hrd, nofun⟩
  have hrcount := h.rcount hreads
  have hwcount := h.no_writer hreads
  simp only [towrlock, if_neg hw, if_neg (Nat.ne_of_gt hrcount), hwcount, ne_eq, not_true_eq_false, if_false]
  by_cases hother : rw.reserved = true ∧ ¬cnt.wr = wrReserved
  · simp only [if_pos hother]
    exact hself
  · simp only [if_neg hother]
    refine ⟨⟨hrd, hwr⟩, h.deep, ?_, ?_, rfl, rfl, .inr rfl, Nat.zero_le _, ?_, ?_⟩
    · rw [if_pos hreads, if_neg fun h => h.2 rfl]
      exact Nat.sub_add_cancel hrcount
    · simp [hwcount]
    · simp [Owns, Place.call]
    · intro _
      cases hres : rw.reserved with
      | false => exact .inr rfl
      | true => exact .inl (.inl (by tauto))

theorem Local.enter (h : Local rw cnt .outside) (hlegal : c.Legal cnt) : Enters rw cnt c (c.code.enter rw cnt) := by
  cases c with
  | rdlock | timedrdlock | rdlockStarvewr => exact h.enterRead hlegal (by decide)
  | wrlock | timedwrlock => exact h.enterWrite hlegal.1 hlegal.2 (by decide)
  | rslock => exact h.enterRslock hlegal.1 hlegal.2
  | towrlock => exact h.enterTowrlock hlegal

/-- A call that returns before its loop leaves the lock as it is. -/
theorem enter_returns {ret : ℤ}
    (h : c.code.enter rw cnt = .returns ret rw' cnt') : rw' = rw := by
  have hnested : ∀ check, enterNested rw check = .returns ret rw' cnt' → rw' = rw := by
    intro check hcheck
    match check with
    | none => cases hcheck
    | some none => cases hcheck
    | some (some _) =>
      cases hcheck
      rfl
  cases c with
  | rdlock | timedrdlock | rdlockStarvewr | wrlock | timedwrlock => exact hnested _ h
  | rslock =>
    simp only [Call.code, rslock] at h
    split_ifs at h <;> cases h <;> rfl
  | towrlock =>
    simp only [Call.code, towrlock] at h
    split_ifs at h <;> cases h <;> rfl

/-- Only an upgrade changes the lock before its loop. -/
theorem enter_loops (h : c.code.enter rw cnt = .loops rw') :
    rw'.wcount = rw.wcount ∧ (c ≠ .towrlock → rw' = rw) := by
  have hnested : ∀ check, enterNested rw check = .loops rw' → rw'.wcount = rw.wcount ∧ (c ≠ .towrlock → rw' = rw) := by
    intro check hcheck
    match check with
    | none => cases hcheck
    | some none =>
      cases hcheck
      exact ⟨rfl, fun _ => rfl⟩
    | some (some _) => cases hcheck
  cases c with
  | rdlock | timedrdlock | rdlockStarvewr | wrlock | timedwrlock => exact hnested _ h
  | rslock =>
    simp only [Call.code, rslock] at h
    split_ifs at h
    cases h
    exact ⟨rfl, fun _ => rfl⟩
  | towrlock =>
    simp only [Call.code, towrlock] at h
    split_ifs at h
    cases h
    exact ⟨rfl, fun hc => absurd rfl hc⟩

/-! ### The loop -/

/-- A thread parks: it is one more that waits. -/
theorem Local.park (h : Local rw cnt (.testing c)) : Moved rw cnt (.testing c) (c.code.park rw) cnt (.parked c) := by
  have hres := h.reserved
  refine ⟨h.fits, h.deep, ?_, ?_, ?_, ?_, ?_, ?_, ?_, .inl⟩
  · cases c <;> rfl
  · cases c <;> rfl
  · cases c <;> rfl
  · cases c <;> rfl
  · cases c <;> exact h.excl
  · cases c <;> exact h.one
  · have hsame : (c.code.park rw).reserved = rw.reserved := by cases c <;> rfl
    have hown : Owns cnt (.parked c) ↔ Owns cnt (.testing c) := Iff.rfl
    rw [hsame, hown]
    tauto

theorem Local.unpark (h : Local rw cnt (.parked c)) : Moved rw cnt (.parked c) (c.code.unpark rw) cnt (.testing c) := by
  have hres := h.reserved
  have hrwait := h.rwait
  have hwwait := h.wwait
  refine ⟨h.fits, h.deep, ?_, ?_, ?_, ?_, ?_, ?_, ?_, .inl⟩
  · cases c <;> rfl
  · cases c <;> rfl
  · cases c <;> first | rfl | exact Nat.sub_add_cancel (hrwait rfl)
  · cases c <;> first | rfl | exact Nat.sub_add_cancel (hwwait rfl)
  · cases c <;> exact h.excl
  · cases c <;> exact h.one
  · have hsame : (c.code.unpark rw).reserved = rw.reserved := by cases c <;> rfl
    have hown : Owns cnt (.testing c) ↔ Owns cnt (.parked c) := Iff.rfl
    rw [hsame, hown]
    tauto

theorem Local.takeRead (h : Local rw ⟨0, 0⟩ (.testing c)) (hc : c ≠ .towrlock) (hw : rw.wcount = 0) :
    Moved rw ⟨0, 0⟩ (.testing c) (takeRead rw).rw (takeRead rw).cnt .outside := by
  refine ⟨.inl rfl, ⟨one_lt_reserved, Nat.zero_le _⟩, ?_, rfl, rfl, rfl, .inr hw, h.one, ?_, ?_⟩
  · simp [Reads, Locks.takeRead, Place.call]
  · simp [Owns, Locks.takeRead, Place.call, hc, zero_ne_reserved]
  · simp [Owns, Locks.takeRead, Place.call, zero_ne_reserved]

theorem Local.takeWrite (h : Local rw ⟨0, 0⟩ (.testing c)) (hc : c ≠ .towrlock) (hr : rw.rcount = 0)
    (hw : rw.wcount = 0) : Moved rw ⟨0, 0⟩ (.testing c) (takeWrite rw).rw (takeWrite rw).cnt .outside := by
  refine ⟨one_ne_reserved, ⟨h.deep.1, one_lt_reserved.le⟩, rfl, ?_, rfl, rfl, .inl hr, ?_, ?_, ?_⟩
  · simp [Writes, Locks.takeWrite]
  · simp [Locks.takeWrite, hw]
  · simp [Owns, Locks.takeWrite, Place.call, hc, zero_ne_reserved, one_ne_reserved]
  · simp [Owns, Locks.takeWrite, Place.call, one_ne_reserved]

theorem Local.takeReserved (h : Local rw ⟨0, 0⟩ (.testing .rslock)) (hw : rw.wcount = 0) (hres : rw.reserved = false) :
    Moved rw ⟨0, 0⟩ (.testing .rslock) { rw with rcount := rw.rcount + 1, reserved := true } ⟨1, wrReserved⟩ .outside := by
  refine ⟨.inr rfl, ⟨one_lt_reserved, Nat.le_refl _⟩, ?_, rfl, rfl, rfl, .inr hw, h.one, ?_, fun _ => .inr hres⟩
  · simp [Reads, Place.call]
  · simp [Owns]

theorem Local.upgrade (h : Local rw cnt (.testing .towrlock)) (hr : rw.rcount = 0) (hw : rw.wcount = 0) :
    Moved rw cnt (.testing .towrlock) { rw with wcount := rw.wcount + 1, reserved := false } ⟨0, cnt.rd⟩ .outside := by
  obtain ⟨hrd, hwr⟩ : cnt.rd ≠ 0 ∧ (cnt.wr = 0 ∨ cnt.wr = wrReserved) := h.fits
  refine ⟨h.deep.1.ne, ⟨Nat.zero_lt_of_lt h.deep.1, h.deep.1.le⟩, ?_, ?_, rfl, rfl, .inl hr, by rw [hw], ?_, ?_⟩
  · simp [Reads, Place.call]
  · simp [Writes, hrd]
  · simp [Owns, Place.call, h.deep.1.ne]
  · simp [Owns, Place.call]

/-- A thread leaves the loop with the lock, unless an upgrade finds a writer. -/
theorem Local.take (h : Local rw cnt (.testing c)) (htest : c.code.test rw = false) :
    (∃ k, c.code.take rw cnt = some k ∧ Moved rw cnt (.testing c) k.rw k.cnt .outside) ∨
      c = .towrlock ∧ rw.wcount ≠ 0 ∧ c.code.take rw cnt = none := by
  cases c with
  | rdlock | timedrdlock =>
    obtain rfl : cnt = ⟨0, 0⟩ := h.fits
    have hfree : rw.wcount = 0 ∧ (¬rw.wwait = 0 → rw.reserved = true) := by simpa [Call.code, rdlock, timedrdlock] using htest
    exact .inl ⟨_, rfl, h.takeRead (by decide) hfree.1⟩
  | rdlockStarvewr =>
    obtain rfl : cnt = ⟨0, 0⟩ := h.fits
    exact .inl ⟨_, rfl, h.takeRead (by decide) (by simpa [Call.code, rdlockStarvewr] using htest)⟩
  | wrlock | timedwrlock =>
    obtain rfl : cnt = ⟨0, 0⟩ := h.fits
    have hfree : rw.rcount = 0 ∧ rw.wcount = 0 := by simpa [Call.code, wrlock, timedwrlock] using htest
    exact .inl ⟨_, rfl, h.takeWrite (by decide) hfree.1 hfree.2⟩
  | rslock =>
    obtain rfl : cnt = ⟨0, 0⟩ := h.fits
    have hfree : rw.wcount = 0 ∧ rw.reserved = false := by simpa [Call.code, rslock] using htest
    exact .inl ⟨_, rfl, h.takeReserved hfree.1 hfree.2⟩
  | towrlock =>
    have hr : rw.rcount = 0 := by simpa [Call.code, towrlock] using htest
    by_cases hw : rw.wcount = 0
    · exact .inl ⟨_, if_neg (by simpa using hw), h.upgrade hr hw⟩
    · exact .inr ⟨rfl, hw, if_pos hw⟩

theorem take_wcount {k : Taken} (htest : c.code.test rw = false)
    (htake : c.code.take rw cnt = some k) :
    k.rw.wcount = rw.wcount ∨ c = .towrlock ∨ (c = .wrlock ∨ c = .timedwrlock) ∧ rw.rcount = 0 ∧ rw.wcount = 0 := by
  cases c with
  | rdlock | timedrdlock | rdlockStarvewr | rslock =>
    cases htake
    exact .inl rfl
  | wrlock | timedwrlock => exact .inr (.inr ⟨by decide, by simpa [Call.code, wrlock, timedwrlock] using htest⟩)
  | towrlock => exact .inr (.inl rfl)

/-- A thread gives up when its time is over. -/
theorem Local.leave (h : Local rw cnt (.testing c)) (hc : c ≠ .towrlock) : Moved rw cnt (.testing c) rw cnt .outside := by
  obtain rfl : cnt = ⟨0, 0⟩ := by
    have := h.fits
    cases c <;> first | exact this | exact absurd rfl hc
  refine h.stay ?_ h.deep ?_ Iff.rfl ?_ fun _ => Iff.rfl
  · simpa [Fits, Place.call] using zero_ne_reserved
  · simp [Reads]
  · simp [Owns, Place.call, hc]

/-! ### Unlock -/

theorem Local.unlockRead (h : Local rw cnt .outside) (hrd : cnt.rd = 1) :
    Moved rw cnt .outside (unlockRead rw { cnt with rd := 0 }).rw (unlockRead rw { cnt with rd := 0 }).cnt .outside := by
  obtain ⟨rd, wr⟩ := cnt
  obtain rfl : rd = 1 := hrd
  have hreads : Reads ⟨1, wr⟩ .outside := ⟨Nat.one_ne_zero, nofun⟩
  have hrcount := h.rcount hreads
  have hwcount := h.no_writer hreads
  have hwr : wr = 0 ∨ wr = wrReserved := h.fits
  rcases hwr with rfl | rfl
  · refine ⟨?_, ?_, ?_, ?_, rfl, rfl, .inr hwcount, h.one, ?_, ?_⟩ <;>
      simp only [Locks.unlockRead, isReservedByThisThreadClr, zero_ne_reserved, if_false, Bool.and_false]
    · exact zero_ne_reserved
    · exact ⟨h.deep.1.trans' Nat.zero_lt_one, Nat.zero_le _⟩
    · rw [if_pos hreads, if_neg (by simp [Reads])]
      exact Nat.sub_add_cancel hrcount
    · simp [Writes]
    · simp [Owns, Place.call, zero_ne_reserved]
    · simp [Owns, Place.call, zero_ne_reserved]
  · have hres : rw.reserved = true := h.reserved (.inl rfl)
    refine ⟨?_, ?_, ?_, ?_, rfl, rfl, .inr hwcount, h.one, ?_, ?_⟩ <;>
      simp only [Locks.unlockRead, isReservedByThisThreadClr, hres, if_true, Bool.and_true, Bool.not_true, Bool.and_false]
    · exact zero_ne_reserved
    · exact ⟨h.deep.1.trans' Nat.zero_lt_one, Nat.zero_le _⟩
    · rw [if_pos hreads, if_neg (by simp [Reads])]
      exact Nat.sub_add_cancel hrcount
    · simp [Writes]
    · simp [Owns, Place.call, zero_ne_reserved]
    · simp [Owns, Place.call, zero_ne_reserved]

/-- The write lock is free again; only whom that wakes depends on the rest. -/
theorem unlockWrite_eq (cnt : Lockcnt) (hone : rw.wcount = 1) (hwaits : rw.reserved = true → rw.wwait ≠ 0) :
    ∃ wake, unlockWrite rw cnt = some ⟨{ rw with wcount := 0 }, cnt, wake⟩ := by
  rw [unlockWrite, hone]
  cases hres : rw.reserved with
  | true => exact ⟨_, if_neg (hwaits hres)⟩
  | false => cases hpref : rw.preferRead <;> exact ⟨_, rfl⟩

theorem Local.unlockWrite (h : Local rw ⟨0, 1⟩ .outside) (hwaits : rw.reserved = true → rw.wwait ≠ 0) :
    ∃ k, unlockWrite rw ⟨0, 0⟩ = some k ∧ Moved rw ⟨0, 1⟩ .outside k.rw k.cnt .outside := by
  have hone : rw.wcount = 1 := Nat.le_antisymm h.one (h.wcount ⟨rfl, Nat.one_ne_zero⟩)
  obtain ⟨wake, hwake⟩ := unlockWrite_eq ⟨0, 0⟩ hone hwaits
  refine ⟨_, hwake, zero_ne_reserved, ⟨h.deep.1, Nat.zero_le _⟩, rfl, ?_, rfl, rfl, .inr rfl, Nat.zero_le _, ?_, ?_⟩
  · simp [Writes, hone]
  · simp [Owns, Place.call, zero_ne_reserved, one_ne_reserved]
  · simp [Owns, Place.call, zero_ne_reserved]

theorem unlock_wcount {k : Taken} (h : Locks.unlock rw cnt = some k) : k.rw.wcount ≤ rw.wcount := by
  obtain ⟨⟨again, cnt'⟩, -, h⟩ := Option.bind_eq_some_iff.mp h
  simp only at h
  split_ifs at h
  · cases h
    exact Nat.le_refl _
  · cases h
    exact Nat.le_refl _
  · simp only [Locks.unlockWrite] at h
    split_ifs at h <;> cases h <;> exact Nat.sub_le ..

/-- A thread that has a lock can give it back. -/
theorem Local.unlock (h : Local rw cnt .outside) (hlegal : cnt.rd ≠ 0 ∨ cnt.wr ≠ 0)
    (hwaits : rw.reserved = true → rw.wcount ≠ 0 → rw.wwait ≠ 0) :
    ∃ k, unlock rw cnt = some k ∧ Moved rw cnt .outside k.rw k.cnt .outside := by
  obtain ⟨rd, wr⟩ := cnt
  have hfits : if rd = 0 then wr ≠ wrReserved else wr = 0 ∨ wr = wrReserved := h.fits
  obtain ⟨hdeep, hdeep'⟩ : rd < wrReserved ∧ wr ≤ wrReserved := h.deep
  by_cases hr : rd = 0
  · subst hr
    have hw : wr ≠ 0 := hlegal.resolve_left (by simp)
    rw [if_pos rfl] at hfits
    have hwrites : Writes ⟨0, wr⟩ := ⟨rfl, hw⟩
    have hrcount : rw.rcount = 0 := h.excl.resolve_right (Nat.ne_of_gt (h.wcount hwrites))
    by_cases hmore : wr - 1 > 0
    · refine ⟨⟨rw, ⟨0, wr - 1⟩, .nobody⟩, by simp [Locks.unlock, checkRecursiveOut, hw, hmore], ?_⟩
      refine h.stay ?_ ⟨hdeep, (Nat.sub_le ..).trans hdeep'⟩ ?_ ?_ ?_ fun _ => Iff.rfl
      · simp only [Fits, Place.call, if_true]
        omega
      · simp [Reads]
      · simp [Writes]
        omega
      · simp [Owns, Place.call]
        omega
    · obtain rfl : wr = 1 := by omega
      obtain ⟨k, hk, hmoved⟩ := h.unlockWrite fun hres => hwaits hres (Nat.ne_of_gt (h.wcount hwrites))
      refine ⟨k, ?_, hmoved⟩
      simpa [Locks.unlock, checkRecursiveOut, hrcount, Nat.ne_of_gt (h.wcount hwrites)] using hk
  · have hreads : Reads ⟨rd, wr⟩ .outside := ⟨hr, nofun⟩
    by_cases hmore : rd - 1 > 0
    · refine ⟨⟨rw, ⟨rd - 1, wr⟩, .nobody⟩, by simp [Locks.unlock, checkRecursiveOut, hr, hmore], ?_⟩
      rw [if_neg hr] at hfits
      have hr' : rd - 1 ≠ 0 := Nat.ne_of_gt hmore
      refine h.stay ?_ ⟨(Nat.sub_le ..).trans_lt hdeep, hdeep'⟩ ?_ ?_ Iff.rfl fun _ => Iff.rfl
      · simpa only [Fits, Place.call, if_neg hr'] using hfits
      · simp [Reads, hr, hr']
      · simp [Writes, hr, hr']
    · obtain rfl : rd = 1 := by omega
      refine ⟨_, ?_, h.unlockRead rfl⟩
      simp [Locks.unlock, checkRecursiveOut, h.no_writer hreads, Nat.ne_of_gt (h.rcount hreads)]

end Pclsync.Locks
