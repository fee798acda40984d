import Pclsync.Locks.Exclusion

/-! What a thread is told about its own locks.

Beside the counts of the code runs a record of what each thread has, kept from the calls
and their answers alone. The count of a thread is that record, packed into two halves. -/
namespace Pclsync.Locks
open Lib.Census Lib.Transition

/-- `psync_rwlock_holding_rdlock`. -/
def holdingRdlock (cnt : Lockcnt) : Bool := cnt.rd != 0

/-- `psync_rwlock_holding_lock`. -/
def holdingLock (cnt : Lockcnt) : Bool := cnt.rd != 0 && cnt.wr != 0

/-- What a thread has, with the number of locks nested in the first one. -/
inductive Held where
  | nothing
  | read (nested : ℕ)
  | reserved (nested : ℕ)
  | write (nested : ℕ)
deriving DecidableEq, Repr

/-- A call that got its lock. An upgrade turns all nested locks into write locks. -/
def Held.gain (c : Call) : Held → Held
  | nothing => match c with
    | .rdlock | .timedrdlock | .rdlockStarvewr => read 0
    | .wrlock | .timedwrlock => write 0
    | .rslock => reserved 0
    | .towrlock => nothing
  | read n => if c = .towrlock then write n else read (n + 1)
  | reserved n => if c = .towrlock then write n else reserved (n + 1)
  | write n => if c = .towrlock then write n else write (n + 1)

/-- The last lock given back. -/
def Held.lose : Held → Held
  | read (n + 1) => read n
  | reserved (n + 1) => reserved n
  | write (n + 1) => write n
  | _ => nothing

/-- A read lock, reserved or not. -/
def Held.Reading : Held → Prop
  | read _ | reserved _ => True
  | nothing | write _ => False

/-- The two halves of the count. -/
def Held.pack : Held → Lockcnt
  | nothing => ⟨0, 0⟩
  | read n => ⟨n + 1, 0⟩
  | reserved n => ⟨n + 1, wrReserved⟩
  | write n => ⟨0, n + 1⟩

theorem holdingRdlock_iff (h : Held) : holdingRdlock h.pack = true ↔ h.Reading := by
  cases h <;> simp [holdingRdlock, Held.pack, Held.Reading]

theorem holdingLock_iff (h : Held) : holdingLock h.pack = true ↔ ∃ n, h = .reserved n := by
  cases h <;> simp [holdingLock, Held.pack, wrReserved]

/-! ### One call -/

variable {rw rw' : Rwlock} {cnt cnt' : Lockcnt} {c : Call} {h : Held}

/-- What a call returns before its loop; a loop is left with the lock. -/
def Entry.ret : Entry → ℤ
  | .returns ret _ _ => ret
  | .loops _ => 0
  | .aborts => -1

/-- A thread that writes has not the reserved count. -/
theorem Held.write_ne {n : ℕ} (hfits : Fits (Held.write n).pack .outside) : n + 1 ≠ wrReserved := hfits

theorem enterNested_pack {ret : ℤ} (hc : c ≠ .towrlock) (hnests : h.pack.Nests) (hfits : Fits h.pack .outside)
    (hback : enterNested rw (checkRdrecursiveIn h.pack) = .returns ret rw' cnt') : ret = 0 ∧ cnt' = (h.gain c).pack := by
  cases h with
  | nothing => cases hback
  | read n | reserved n =>
    have hu : Lib.Machine.u32 (n + 1 + 1) = n + 1 + 1 := Lib.Machine.u32_of_lt (hnests.1.trans (by decide))
    simp only [checkRdrecursiveIn, Held.pack, enterNested, hu, ne_eq, Nat.add_eq_zero_iff, Nat.one_ne_zero, and_false,
      not_false_eq_true, if_true, Entry.returns.injEq] at hback
    obtain ⟨rfl, -, rfl⟩ := hback
    exact ⟨rfl, by rw [Held.gain, if_neg hc]; rfl⟩
  | write n =>
    have hu : Lib.Machine.u32 (n + 1 + 1) = n + 1 + 1 :=
      Lib.Machine.u32_of_lt ((hnests.2 (Held.write_ne hfits)).trans (by decide))
    simp only [checkRdrecursiveIn, Held.pack, enterNested, hu, Held.write_ne hfits, ne_eq, not_true_eq_false, Nat.add_eq_zero_iff,
      Nat.one_ne_zero, and_false, not_false_eq_true, if_true, if_false, Entry.returns.injEq] at hback
    obtain ⟨rfl, -, rfl⟩ := hback
    exact ⟨rfl, by rw [Held.gain, if_neg hc]; rfl⟩

/-- A call that returns before its loop nests a lock, or changes nothing. -/
theorem enter_pack {ret : ℤ} (hlegal : c.Legal h.pack) (hfits : Fits h.pack .outside)
    (hback : c.code.enter rw h.pack = .returns ret rw' cnt') :
    cnt' = (if ret = 0 then h.gain c else h).pack := by
  have hnested : h.pack.Nests → c ≠ .towrlock → enterNested rw (checkRdrecursiveIn h.pack) = .returns ret rw' cnt' →
      cnt' = (if ret = 0 then h.gain c else h).pack := by
    intro hnests hc hback
    obtain ⟨rfl, hcnt⟩ := enterNested_pack hc hnests hfits hback
    simpa using hcnt
  cases c with
  | rdlock | timedrdlock | rdlockStarvewr => exact hnested hlegal (by decide) hback
  | wrlock | timedwrlock =>
    have hsame : checkWrrecursiveIn h.pack = checkRdrecursiveIn h.pack := by
      simp only [checkWrrecursiveIn, checkRdrecursiveIn, hlegal.2, ne_eq, not_true_eq_false, if_false]
    exact hnested hlegal.1 (by decide) (hsame ▸ hback)
  | rslock =>
    have hrd := hlegal.2
    cases h with
    | nothing => cases hback
    | read n | reserved n => cases hrd
    | write n =>
      have hu : Lib.Machine.u32 (n + 1 + 1) = n + 1 + 1 :=
        Lib.Machine.u32_of_lt ((hlegal.1.2 (Held.write_ne hfits)).trans (by decide))
      simp only [Call.code, rslock, Held.pack, hu, Held.write_ne hfits, ne_eq, not_true_eq_false, if_false,
        Nat.add_eq_zero_iff, Nat.one_ne_zero, and_false, not_false_eq_true, if_true] at hback
      obtain ⟨rfl, -, rfl⟩ := Entry.returns.inj hback
      rfl
  | towrlock =>
    simp only [Call.code, towrlock] at hback
    split_ifs at hback with hw hr hwc hother
    · obtain ⟨rfl, -, rfl⟩ := Entry.returns.inj hback
      cases h with
      | nothing | read n => exact absurd rfl hw.1
      | reserved n => exact absurd rfl hw.2
      | write n => rfl
    · obtain ⟨rfl, -, rfl⟩ := Entry.returns.inj hback
      rfl

/-- The loop of a call is entered without a lock, but for an upgrade. -/
theorem take_pack {k : Taken} (hfits : Fits h.pack (.testing c)) (htake : c.code.take rw h.pack = some k) :
    k.cnt = (h.gain c).pack := by
  have hnothing : c ≠ .towrlock → h = .nothing := by
    intro hc
    have hzero : h.pack = ⟨0, 0⟩ := by cases c <;> first | exact hfits | exact absurd rfl hc
    cases h with
    | nothing => rfl
    | read n | reserved n | write n => simp [Held.pack] at hzero
  cases c with
  | rdlock | timedrdlock | rdlockStarvewr | wrlock | timedwrlock | rslock =>
    obtain rfl := hnothing (by decide)
    cases htake
    rfl
  | towrlock =>
    have hrd : h.pack.rd ≠ 0 := hfits.1
    simp only [Call.code, towrlock] at htake
    split_ifs at htake
    cases htake
    cases h with
    | nothing | write n => exact absurd rfl hrd
    | read n | reserved n => rfl

/-- A call that fails where it would wait nests a lock, has a first one or changes nothing. -/
theorem once_pack {ret : ℤ} (hlocal : Local rw h.pack .outside) (hlegal : c.Legal h.pack)
    (hback : c.code.once rw h.pack = .returns ret rw' cnt') : cnt' = (if ret = 0 then h.gain c else h).pack := by
  have henter := hlocal.enter hlegal
  cases hentry : c.code.enter rw h.pack with
  | returns ret rw' cnt' =>
    simp only [Acquire.once, hentry] at hback
    cases hback
    exact enter_pack hlegal hlocal.fits hentry
  | aborts =>
    simp only [Acquire.once, hentry] at hback
    cases hback
  | loops rw' =>
    rw [hentry] at henter
    simp only [Acquire.once, hentry] at hback
    split_ifs at hback with htest
    · cases hback
      rfl
    · cases htake : c.code.take rw' h.pack with
      | none =>
        rw [htake] at hback
        cases hback
      | some k =>
        rw [htake] at hback
        cases hback
        exact take_pack henter.fits htake

theorem unlockWrite_cnt {k : Taken} (hunlock : unlockWrite rw cnt = some k) : k.cnt = cnt := by
  simp only [unlockWrite] at hunlock
  split_ifs at hunlock <;> cases hunlock <;> rfl

theorem unlock_pack {k : Taken} (hlocal : Local rw h.pack .outside) (hunlock : unlock rw h.pack = some k) :
    k.cnt = h.lose.pack := by
  have hread : Reads h.pack .outside → rw.rcount ≠ 0 ∧ rw.wcount = 0 := fun hreads =>
    ⟨Nat.ne_of_gt (hlocal.rcount hreads), hlocal.no_writer hreads⟩
  cases h with
  | nothing => cases hunlock
  | read n =>
    obtain ⟨hr, hw⟩ := hread ⟨Nat.succ_ne_zero n, nofun⟩
    cases n with
    | zero =>
      have hlast : unlock rw ⟨1, 0⟩ = some (unlockRead rw ⟨0, 0⟩) := by simp [unlock, checkRecursiveOut, hr, hw]
      obtain rfl := Option.some.inj (hlast.symm.trans hunlock)
      simp [unlockRead, isReservedByThisThreadClr, zero_ne_reserved, Held.lose, Held.pack]
    | succ n =>
      cases hunlock
      rfl
  | reserved n =>
    obtain ⟨hr, hw⟩ := hread ⟨Nat.succ_ne_zero n, nofun⟩
    have hres : rw.reserved = true := hlocal.reserved (.inl rfl)
    cases n with
    | zero =>
      have hlast : unlock rw ⟨1, wrReserved⟩ = some (unlockRead rw ⟨0, wrReserved⟩) := by
        simp [unlock, checkRecursiveOut, hr, hw]
      obtain rfl := Option.some.inj (hlast.symm.trans hunlock)
      simp [unlockRead, isReservedByThisThreadClr, hres, Held.lose, Held.pack]
    | succ n =>
      cases hunlock
      rfl
  | write n =>
    have hw : rw.wcount ≠ 0 := Nat.ne_of_gt (hlocal.wcount ⟨rfl, Nat.succ_ne_zero n⟩)
    have hr : rw.rcount = 0 := hlocal.excl.resolve_right hw
    cases n with
    | zero =>
      have hlast : unlock rw ⟨0, 1⟩ = unlockWrite rw ⟨0, 0⟩ := by simp [unlock, checkRecursiveOut, hr, hw]
      exact unlockWrite_cnt (hlast.symm.trans hunlock)
    | succ n =>
      cases hunlock
      rfl

/-! ### Runs -/

variable {T : Type} [DecidableEq T]

/-- The threads with the record of what each has. -/
structure Watched (T : Type) where
  lock : State T
  held : T → Held

def Action.thread : Action T → T
  | .call t _ | .tryrdlock t | .trywrlock t | .resume t | .spurious t | .expire t | .timeout t | .unlock t => t

/-- What the thread of a step has after it: a call counts once it returns `0` to its thread. -/
def told (s s' : State T) (held : Held) : Action T → Held
  | .call t c => if s'.waiting t = none ∧ (c.code.enter s.rw (s.cnt t)).ret = 0 then held.gain c else held
  | .tryrdlock t => if (tryrdlock s.rw (s.cnt t)).ret = 0 then held.gain .rdlock else held
  | .trywrlock t => if (trywrlock s.rw (s.cnt t)).ret = 0 then held.gain .wrlock else held
  | .resume t => match s.waiting t with
    | some w => if s'.waiting t = none then held.gain w.call else held
    | none => held
  | .unlock _ => held.lose
  | .spurious _ | .expire _ | .timeout _ => held

/-- A failed assertion tells nobody anything. -/
def learned (s s' : State T) (held : Held) (a : Action T) : Held := if s'.failed then held else told s s' held a

def Watched.init : Watched T := ⟨.init, fun _ => .nothing⟩

def WatchedStep (x : Watched T) (a : Action T) (y : Watched T) : Prop :=
  Step x.lock a y.lock ∧ y.held = Function.update x.held a.thread (learned x.lock y.lock (x.held a.thread) a)

theorem Step.watch {x : Watched T} {a : Action T} {s' : State T} (h : Step x.lock a s') :
    WatchedStep x a ⟨s', Function.update x.held a.thread (learned x.lock s' (x.held a.thread) a)⟩ := ⟨h, rfl⟩

/-- Each count is the record of its thread. -/
structure Recorded (x : Watched T) : Prop where
  sound : x.lock.Sound
  packed : ∀ t, x.lock.cnt t = (x.held t).pack

variable {x y : Watched T} {a : Action T} {t : T} {s s' : State T}

theorem Changes.waiting_none {rw' : Rwlock} {cnt' : Lockcnt} (hc : Changes s t rw' cnt' .outside s') :
    s'.waiting t = none := by
  have hplace : s'.place t = .outside := by rw [hc.place_eq, Function.update_self]
  cases hw : s'.waiting t with
  | none => rfl
  | some w =>
    rw [place_of_some hw] at hplace
    cases hplace

/-- A loop from its test on: the thread parks with the count it has, or returns with the new one. -/
theorem Attempt.packed {rw : Rwlock} (hpack : s.cnt t = h.pack) (hfits : Fits h.pack (.testing c))
    (ha : Attempt c s t rw s') :
    s'.failed = s.failed ∧
      (s'.waiting t ≠ none ∧ s'.cnt = s.cnt ∨ s'.waiting t = none ∧ s'.cnt = Function.update s.cnt t (h.gain c).pack) ∨
      s' = s.abort := by
  cases ha with
  | waits =>
    have hwaits : (s.set t (c.code.park rw) (s.cnt t) (some ⟨c, .blocked⟩)).waiting t = some ⟨c, .blocked⟩ :=
      Function.update_self ..
    refine .inl ⟨rfl, .inl ⟨?_, Function.update_eq_self t s.cnt⟩⟩
    rw [hwaits]
    exact nofun
  | takes htest htake hwakes =>
    have hc := hwakes.changes (place_out ..)
    rw [hpack] at htake
    exact .inl ⟨hc.failed_eq, .inr ⟨hc.waiting_none, by rw [hc.cnt_eq, take_pack hfits htake]⟩⟩
  | aborts => exact .inr rfl

/-- The thread of a call that does not go into a loop. -/
theorem Ends.packed {entry : Entry} (hends : Ends s t entry s') {gained : Held}
    (hreturns : ∀ ret rw cnt, entry = .returns ret rw cnt → cnt = (if ret = 0 then gained else h).pack) :
    s'.failed = s.failed ∧ s'.waiting t = none ∧
      s'.cnt = Function.update s.cnt t (if entry.ret = 0 then gained else h).pack ∨ s' = s.abort := by
  cases hends with
  | returns =>
    refine .inl ⟨rfl, Function.update_self .., ?_⟩
    rw [Entry.ret, ← hreturns _ _ _ rfl]
    rfl
  | aborts => exact .inr rfl

/-- What a step does to the count of its thread. -/
theorem Acts.packed (hs : s.Sound) (hok : s.failed = false) (hpack : s.cnt a.thread = h.pack) (ha : Acts s a s') :
    s'.cnt = Function.update s.cnt a.thread (learned s s' h a).pack := by
  have hlocal := hs.local a.thread
  have hstay : Function.update s.cnt a.thread h.pack = s.cnt := by rw [← hpack, Function.update_eq_self]
  have htold : s'.failed = s.failed → learned s s' h a = told s s' h a := by
    intro hfailed
    rw [learned, hfailed, hok, if_neg nofun]
  have habort : s' = s.abort → s'.cnt = Function.update s.cnt a.thread (learned s s' h a).pack := by
    rintro rfl
    exact hstay.symm
  cases ha with
  | @call t c _ hout hlegal hends =>
    rw [Action.thread, place_of_none hout] at hlocal
    rw [Action.thread] at hpack
    rw [hpack] at hlocal hlegal
    rcases hends.packed fun _ _ _ hentry => enter_pack hlegal hlocal.fits (hpack ▸ hentry) with
      ⟨hfailed, hwaiting, hcnt⟩ | hs'
    · rw [htold hfailed]
      simpa only [told, hwaiting, true_and, Action.thread] using hcnt
    · exact habort hs'
  | @loop t c rw _ hout hlegal hloop hattempt =>
    rw [Action.thread, place_of_none hout] at hlocal
    have henter := hlocal.enter hlegal
    rw [hloop] at henter
    rcases hattempt.packed hpack (hpack ▸ henter.fits) with ⟨hfailed, ⟨hwaiting, hcnt⟩ | ⟨hwaiting, hcnt⟩⟩ | hs'
    · rw [htold hfailed, told, if_neg fun hret => hwaiting hret.1, hstay, hcnt]
    · rw [htold hfailed, told, if_pos ⟨hwaiting, by rw [hloop, Entry.ret]⟩]
      exact hcnt
    · exact habort hs'
  | @tryrdlock t _ hout hlegal hends =>
    rw [Action.thread, place_of_none hout] at hlocal
    rw [Action.thread] at hpack
    rw [hpack] at hlocal hlegal
    rcases hends.packed fun _ _ _ hback => once_pack hlocal hlegal (hpack ▸ hback) with ⟨hfailed, -, hcnt⟩ | hs'
    · rw [htold hfailed]
      exact hcnt
    · exact habort hs'
  | @trywrlock t _ hout hlegal hends =>
    rw [Action.thread, place_of_none hout] at hlocal
    rw [Action.thread] at hpack
    rw [hpack] at hlocal hlegal
    rcases hends.packed fun _ _ _ hback => once_pack hlocal hlegal (hpack ▸ hback) with ⟨hfailed, -, hcnt⟩ | hs'
    · rw [htold hfailed]
      exact hcnt
    · exact habort hs'
  | @resume t c _ hwaits hattempt =>
    rw [Action.thread, place_of_some hwaits] at hlocal
    rw [Action.thread] at hpack hstay ⊢
    rcases hattempt.packed hpack (hpack ▸ hlocal.fits) with ⟨hfailed, ⟨hwaiting, hcnt⟩ | ⟨hwaiting, hcnt⟩⟩ | hs'
    · simp only [htold hfailed, told, hwaits, if_neg hwaiting]
      rw [hstay, hcnt]
    · simp only [htold hfailed, told, hwaits, if_pos hwaiting]
      exact hcnt
    · exact habort hs'
  | spurious | expire =>
    rw [htold rfl]
    exact hstay.symm
  | timeout _ _ hwakes =>
    have hc := hwakes.changes (place_out ..)
    rw [Action.thread] at hpack
    rw [htold hc.failed_eq, hc.cnt_eq, hpack]
    rfl
  | @unlock t k _ hout hlegal hunlock hwakes =>
    rw [Action.thread, place_of_none hout] at hlocal
    rw [Action.thread] at hpack
    rw [hpack] at hlocal hunlock
    have hc := hwakes.changes (place_out ..)
    rw [htold hc.failed_eq, hc.cnt_eq, unlock_pack hlocal hunlock]
    rfl
  | unlockAborts => exact habort rfl

theorem WatchedStep.recorded (h : Recorded x) (hstep : WatchedStep x a y) : Recorded y where
  sound := hstep.1.2.sound h.sound
  packed u := by
    rw [hstep.1.2.packed h.sound hstep.1.1 (h.packed _), hstep.2]
    rcases eq_or_ne u a.thread with rfl | hu
    · rw [Function.update_self, Function.update_self]
    · rw [Function.update_of_ne hu, Function.update_of_ne hu, h.packed u]

theorem run_recorded (h : Reachable (· = Watched.init) WatchedStep x) : Recorded x := by
  induction h with
  | start h =>
    subst h
    exact ⟨init_sound, fun _ => rfl⟩
  | next _ hstep ih => exact hstep.recorded ih

/-- What every thread should see, and what the counters of the lock should count. -/
structure ViewRight (x : Watched T) : Prop where
  holding_rdlock : ∀ t, holdingRdlock (x.lock.cnt t) = true ↔ (x.held t).Reading
  holding_lock : ∀ t, holdingLock (x.lock.cnt t) = true ↔ x.held t ≠ .nothing
  rcount : Counts (fun t => (x.lock.cnt t).rd ≠ 0) x.lock.rw.rcount
  wcount : Counts (fun t => Writes (x.lock.cnt t)) x.lock.rw.wcount

omit [DecidableEq T] in
/-- Read locks are always seen. -/
theorem Recorded.reading (h : Recorded x) (t : T) : holdingRdlock (x.lock.cnt t) = true ↔ (x.held t).Reading := by
  rw [h.packed, holdingRdlock_iff]

omit [DecidableEq T] in
/-- Only a reserved lock is seen as a lock. -/
theorem Recorded.locked (h : Recorded x) (t : T) :
    holdingLock (x.lock.cnt t) = true ↔ ∃ n, x.held t = .reserved n := by
  rw [h.packed, holdingLock_iff]

omit [DecidableEq T] in
/-- A thread that waits for an upgrade has given its share up, though its count has not. -/
theorem Recorded.readers (h : Recorded x) :
    Counts (fun t => (x.lock.cnt t).rd ≠ 0) x.lock.rw.rcount ↔ ∀ t, x.lock.place t ≠ .parked .towrlock := by
  have hcall : ∀ t, (x.lock.place t).call = some .towrlock ↔ x.lock.place t = .parked .towrlock := by
    intro t
    cases hw : x.lock.waiting t with
    | none => simp [place_of_none hw, Place.call]
    | some w => simp [place_of_some hw, Place.call]
  constructor
  · intro hcounts t hup
    have hfits := h.sound.fits t
    rw [hup] at hfits
    have hrd : (x.lock.cnt t).rd ≠ 0 := hfits.1
    have hreads := h.sound.rcount.eq_of_imp hcounts (fun _ hreads => hreads.1) hrd
    exact hreads.2 ((hcall t).mpr hup)
  · intro hnone
    exact h.sound.rcount.congr fun t => and_iff_left fun hup => hnone t ((hcall t).mp hup)

/-- **A thread's own view.** `psync_rwlock_holding_lock` asks for both halves of the count
where one is enough: the views and the counters are right exactly while every thread has
nothing or a reserved lock and none waits for an upgrade. -/
theorem view_right_iff (x : Watched T) (h : Reachable (· = Watched.init) WatchedStep x) :
    ViewRight x ↔ (∀ t, x.held t = .nothing ∨ ∃ n, x.held t = .reserved n) ∧
      ∀ t, x.lock.place t ≠ .parked .towrlock := by
  have hrec := run_recorded h
  constructor
  · intro hview
    refine ⟨fun t => ?_, hrec.readers.mp hview.rcount⟩
    by_cases hnothing : x.held t = .nothing
    · exact .inl hnothing
    · exact .inr ((hrec.locked t).mp ((hview.holding_lock t).mpr hnothing))
  · rintro ⟨hheld, hnone⟩
    refine ⟨hrec.reading, fun t => ?_, hrec.readers.mpr hnone, hrec.sound.wcount⟩
    rw [hrec.locked]
    constructor
    · rintro ⟨n, hn⟩ hnothing
      rw [hn] at hnothing
      cases hnothing
    · exact (hheld t).resolve_left

/-- A thread reserves the lock. -/
theorem view_right_iff_reserved : ∃ x : Watched (Fin 1), x.held 0 = .reserved 0 ∧ ViewRight x := by
  have hstep : Step (Watched.init : Watched (Fin 1)).lock (.call 0 .rslock) _ :=
    ⟨rfl, Acts.loop (c := .rslock) rfl ⟨nests_zero, rfl⟩ rfl (.takes rfl rfl .nobody)⟩
  have h : Reachable (· = Watched.init) WatchedStep _ := .next (.start rfl) hstep.watch
  refine ⟨_, rfl, (view_right_iff _ h).mpr ⟨fun t => .inr ⟨0, ?_⟩, fun t => ?_⟩⟩
  · obtain rfl : t = 0 := Subsingleton.elim ..
    rfl
  · obtain rfl : t = 0 := Subsingleton.elim ..
    nofun

/-- A thread with a read lock is told that it has none. -/
theorem reader_without_lock :
    ¬∀ x : Watched (Fin 1), Reachable (· = Watched.init) WatchedStep x → ViewRight x := by
  intro hall
  have hstep : Step (Watched.init : Watched (Fin 1)).lock (.call 0 .rdlock) _ :=
    ⟨rfl, Acts.loop (c := .rdlock) rfl (by exact nests_zero) rfl (.takes rfl rfl .nobody)⟩
  have hview := hall _ (.next (.start rfl) hstep.watch)
  have htrue : holdingLock _ = true := (hview.holding_lock 0).mpr nofun
  cases htrue

end Pclsync.Locks
