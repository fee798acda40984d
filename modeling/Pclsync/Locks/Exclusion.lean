import Pclsync.Locks.Places

/-! The lock excludes, as long as no writer comes in before a thread that upgrades. -/
namespace Pclsync.Locks
open Lib.Census Lib.Transition

variable {T : Type} [DecidableEq T]

def State.place (s : State T) (t : T) : Place :=
  match s.waiting t with
  | none => .outside
  | some w => .parked w.call

/-- The counters count the threads, and one thread at most owns the reservation. -/
structure Inv (rw : Rwlock) (cnt : T → Lockcnt) (place : T → Place) : Prop where
  fits : ∀ t, Fits (cnt t) (place t)
  deep : ∀ t, (cnt t).rd < wrReserved ∧ (cnt t).wr ≤ wrReserved
  rcount : Counts (fun t => Reads (cnt t) (place t)) rw.rcount
  wcount : Counts (fun t => Writes (cnt t)) rw.wcount
  rwait : Counts (fun t => On .rcond (place t)) rw.rwait
  wwait : Counts (fun t => On .wcond (place t)) rw.wwait
  excl : rw.rcount = 0 ∨ rw.wcount = 0
  one : rw.wcount ≤ 1
  reserved : rw.reserved = true ↔ ∃ t, Owns (cnt t) (place t)
  owner : ∀ t u, Owns (cnt t) (place t) → Owns (cnt u) (place u) → t = u

variable {rw rw' : Rwlock} {cnt : T → Lockcnt} {place : T → Place} {cnt' : Lockcnt} {place' : Place} {t : T}

omit [DecidableEq T] in
theorem Inv.local (h : Inv rw cnt place) (t : T) : Local rw (cnt t) (place t) where
  fits := h.fits t
  deep := h.deep t
  rcount := h.rcount.pos (p := fun t => Reads (cnt t) (place t))
  wcount := h.wcount.pos (p := fun t => Writes (cnt t))
  rwait := h.rwait.pos (p := fun t => On .rcond (place t))
  wwait := h.wwait.pos (p := fun t => On .wcond (place t))
  excl := h.excl
  one := h.one
  reserved ho := h.reserved.mpr ⟨t, ho⟩

theorem Inv.moved (h : Inv rw cnt place) (hm : Moved rw (cnt t) (place t) rw' cnt' place') :
    Inv rw' (Function.update cnt t cnt') (Function.update place t place') := by
  have hother : ∀ {u}, u ≠ t →
      Function.update cnt t cnt' u = cnt u ∧ Function.update place t place' u = place u := fun hu =>
    ⟨Function.update_of_ne hu .., Function.update_of_ne hu ..⟩
  have hself : Function.update cnt t cnt' t = cnt' ∧ Function.update place t place' t = place' :=
    ⟨Function.update_self .., Function.update_self ..⟩
  have howns : ∀ u, Owns (Function.update cnt t cnt' u) (Function.update place t place' u) ↔
      if u = t then Owns cnt' place' else Owns (cnt u) (place u) := by
    intro u
    split_ifs with hu
    · rw [hu, hself.1, hself.2]
    · rw [(hother hu).1, (hother hu).2]
  refine ⟨fun u => ?_, fun u => ?_, ?_, ?_, ?_, ?_, hm.excl, hm.one, ?_, ?_⟩
  · rcases eq_or_ne u t with rfl | hu
    · rw [hself.1, hself.2]
      exact hm.fits
    · rw [(hother hu).1, (hother hu).2]
      exact h.fits u
  · rcases eq_or_ne u t with rfl | hu
    · rw [hself.1]
      exact hm.deep
    · rw [(hother hu).1]
      exact h.deep u
  · exact h.rcount.move (t := t) (fun u hu => by rw [(hother hu).1, (hother hu).2]) (by simpa only [hself] using hm.rcount)
  · exact h.wcount.move (t := t) (fun u hu => by rw [(hother hu).1]) (by simpa only [hself] using hm.wcount)
  · exact h.rwait.move (t := t) (fun u hu => by rw [(hother hu).2]) (by simpa only [hself] using hm.rwait)
  · exact h.wwait.move (t := t) (fun u hu => by rw [(hother hu).2]) (by simpa only [hself] using hm.wwait)
  · rw [hm.reserved, h.reserved]
    constructor
    · rintro (ho | ⟨⟨u, hu⟩, hnot⟩)
      · exact ⟨t, (howns t).mpr (by rwa [if_pos rfl])⟩
      · have hne : u ≠ t := by
          rintro rfl
          exact hnot hu
        exact ⟨u, (howns u).mpr (by rwa [if_neg hne])⟩
    · rintro ⟨u, hu⟩
      rw [howns] at hu
      split_ifs at hu with heq
      · exact .inl hu
      · by_cases ho : Owns (cnt t) (place t)
        · exact absurd (h.owner u t hu ho) heq
        · exact .inr ⟨⟨u, hu⟩, ho⟩
  · -- another owner would be one beside the thread, which then took over no reservation
    have hclash : ∀ u ≠ t, Owns cnt' place' → ¬Owns (cnt u) (place u) := by
      intro u hne ho hu
      rcases hm.owner ho with hold | hfree
      · exact hne (h.owner u t hu hold)
      · rw [h.reserved.mpr ⟨u, hu⟩] at hfree
        cases hfree
    intro u v hu hv
    rw [howns] at hu hv
    split_ifs at hu hv with heq heq' heq'
    · exact heq.trans heq'.symm
    · exact absurd hv (hclash v heq' hu)
    · exact absurd hu (hclash u heq hv)
    · exact h.owner u v hu hv

/-! ### Steps -/

def State.Sound (s : State T) : Prop := Inv s.rw s.cnt s.place

variable {s s' : State T} {a : Action T} {c : Call}

/-- One thread moved, and some may have been woken. -/
structure Changes (s : State T) (t : T) (rw' : Rwlock) (cnt' : Lockcnt) (place' : Place) (s' : State T) : Prop where
  rw_eq : s'.rw = rw'
  cnt_eq : s'.cnt = Function.update s.cnt t cnt'
  place_eq : s'.place = Function.update s.place t place'
  failed_eq : s'.failed = s.failed

theorem place_out (s : State T) (t : T) (rw' : Rwlock) (cnt' : Lockcnt) :
    Changes s t rw' cnt' .outside (s.set t rw' cnt' none) := by
  refine ⟨rfl, rfl, funext fun u => ?_, rfl⟩
  rcases eq_or_ne u t with rfl | hu <;> simp [State.place, State.set, *]

theorem place_parked (s : State T) (t : T) (rw' : Rwlock) (c : Call) :
    Changes s t rw' (s.cnt t) (.parked c) (s.set t rw' (s.cnt t) (some ⟨c, .blocked⟩)) := by
  refine ⟨rfl, rfl, funext fun u => ?_, rfl⟩
  rcases eq_or_ne u t with rfl | hu <;> simp [State.place, State.set, *]

theorem place_become (s : State T) (t : T) (phase : Phase) : (s.become t phase).place = s.place := by
  funext u
  rcases eq_or_ne u t with rfl | hu
  · cases h : s.waiting u <;> simp [State.place, State.become, h]
  · simp [State.place, State.become, hu]

omit [DecidableEq T] in
theorem place_wakeAll (s : State T) (cond : Cond) : (s.wakeAll cond).place = s.place := by
  funext u
  cases h : s.waiting u with
  | none => simp [State.place, State.wakeAll, h]
  | some w =>
    simp only [State.place, State.wakeAll, h, Option.map_some]
    split <;> rfl

/-- Being woken is no move. -/
theorem Wakes.changes {w : Wake} {s₀ : State T} (h : Wakes s w s') (hc : Changes s₀ t rw' cnt' place' s) :
    Changes s₀ t rw' cnt' place' s' := by
  cases h with
  | nobody | unheard => exact hc
  | broadcast cond => exact ⟨hc.rw_eq, hc.cnt_eq, (place_wakeAll s cond).trans hc.place_eq, hc.failed_eq⟩
  | signal => exact ⟨hc.rw_eq, hc.cnt_eq, (place_become s _ _).trans hc.place_eq, hc.failed_eq⟩

theorem Changes.sound (hc : Changes s t rw' cnt' place' s') (h : s.Sound)
    (hm : Moved s.rw (s.cnt t) (s.place t) rw' cnt' place') : s'.Sound := by
  rw [State.Sound, hc.rw_eq, hc.cnt_eq, hc.place_eq]
  exact h.moved hm

omit [DecidableEq T] in
theorem place_of_none (h : s.waiting t = none) : s.place t = .outside := by rw [State.place, h]

omit [DecidableEq T] in
theorem place_of_some {w : Waiting} (h : s.waiting t = some w) : s.place t = .parked w.call := by rw [State.place, h]

omit [DecidableEq T] in
theorem State.Sound.stays (h : s.Sound) (t : T) :
    Moved s.rw (s.cnt t) (s.place t) s.rw (s.cnt t) (s.place t) :=
  (h.local t).stay (h.fits t) (h.deep t) Iff.rfl Iff.rfl Iff.rfl fun _ => Iff.rfl

theorem State.becomes (s : State T) (t : T) (phase : Phase) :
    Changes s t s.rw (s.cnt t) (s.place t) (s.become t phase) where
  rw_eq := rfl
  cnt_eq := (Function.update_eq_self t s.cnt).symm
  place_eq := (place_become s t phase).trans (Function.update_eq_self t s.place).symm
  failed_eq := rfl

omit [DecidableEq T] in
/-- Without readers, the lock is reserved for a thread that waits to upgrade. -/
theorem State.Sound.upgrader (h : s.Sound) (hres : s.rw.reserved = true) (hr : s.rw.rcount = 0) :
    ∃ t phase, s.waiting t = some ⟨.towrlock, phase⟩ := by
  obtain ⟨u, hu⟩ := h.reserved.mp hres
  have hlocal := h.local u
  cases hplace : s.waiting u with
  | none =>
    rw [place_of_none hplace] at hu hlocal
    have hwr : (s.cnt u).wr = wrReserved := hu.resolve_right nofun
    have hrd : (s.cnt u).rd ≠ 0 := by
      intro hrd
      have hfits : if (s.cnt u).rd = 0 then (s.cnt u).wr ≠ wrReserved else _ := hlocal.fits
      rw [if_pos hrd] at hfits
      exact hfits hwr
    exact absurd hr (Nat.ne_of_gt (hlocal.rcount ⟨hrd, nofun⟩))
  | some w =>
    obtain ⟨c, phase⟩ := w
    rw [place_of_some hplace] at hu hlocal
    refine ⟨u, phase, hplace.trans ?_⟩
    have hfits := hlocal.fits
    rcases hu with hwr | hcall
    · cases c
      all_goals first | rfl | (rw [show s.cnt u = ⟨0, 0⟩ from hfits] at hwr; cases hwr)
    · obtain rfl : c = .towrlock := Option.some.inj hcall
      rfl

omit [DecidableEq T] in
/-- A reservation lasts through a writer only for a thread that waits to upgrade. -/
theorem State.Sound.upgrader_waits (h : s.Sound) (hres : s.rw.reserved = true) (hw : s.rw.wcount ≠ 0) :
    s.rw.wwait ≠ 0 := by
  obtain ⟨u, phase, hu⟩ := h.upgrader hres (h.excl.resolve_right hw)
  have hlocal := h.local u
  rw [place_of_some hu] at hlocal
  exact Nat.ne_of_gt (hlocal.wwait rfl)

/-- The thread asks for the write lock in its own name, not to upgrade. -/
def Asks (s : State T) : Action T → Prop
  | .call _ c => c = .wrlock ∨ c = .timedwrlock
  | .trywrlock _ => True
  | .resume t => s.place t = .parked .wrlock ∨ s.place t = .parked .timedwrlock
  | _ => False

/-- A loop from its test on: the thread parks or has the lock, or an upgrade meets a writer. -/
theorem Attempt.spec {rw : Rwlock} (h : Local rw (s.cnt t) (.testing c)) (ha : Attempt c s t rw s') :
    (∃ rw' cnt' place', Moved rw (s.cnt t) (.testing c) rw' cnt' place' ∧ Changes s t rw' cnt' place' s' ∧
      (place' = .outside ∨ place' = .parked c ∧ rw'.wcount = rw.wcount) ∧
      (rw'.wcount = rw.wcount ∨ c = .towrlock ∨ (c = .wrlock ∨ c = .timedwrlock) ∧ rw.rcount = 0 ∧ rw.wcount = 0)) ∨
      s' = s.abort ∧ c = .towrlock ∧ rw.wcount ≠ 0 := by
  cases ha with
  | waits htest =>
    have hw : (c.code.park rw).wcount = rw.wcount := by cases c <;> rfl
    exact .inl ⟨_, _, _, h.park, place_parked .., .inr ⟨rfl, hw⟩, .inl hw⟩
  | takes htest htake hwakes =>
    rcases h.take htest with ⟨k, hk, hmoved⟩ | ⟨-, -, hnone⟩
    · obtain rfl := Option.some.inj (hk.symm.trans htake)
      exact .inl ⟨_, _, _, hmoved, hwakes.changes (place_out ..), .inl rfl, take_wcount htest htake⟩
    · rw [hnone] at htake
      cases htake
  | aborts htest hnone =>
    rcases h.take htest with ⟨k, hk, -⟩ | ⟨hc, hw, -⟩
    · rw [hk] at hnone
      cases hnone
    · exact .inr ⟨rfl, hc, hw⟩

/-- One thread moves, or an upgrade fails because it meets a writer. -/
def Moves (s : State T) (a : Action T) (s' : State T) : Prop :=
  (∃ t rw' cnt' place', Moved s.rw (s.cnt t) (s.place t) rw' cnt' place' ∧ Changes s t rw' cnt' place' s' ∧
    (place' = .parked .towrlock → rw'.wcount = 0 ∨ s.place t = .parked .towrlock) ∧
    (rw'.wcount ≤ s.rw.wcount ∨ Owns (s.cnt t) (s.place t) ∨ s.rw.reserved = false ∨
      Asks s a ∧ s.rw.rcount = 0 ∧ s.rw.wcount = 0)) ∨
    s' = s.abort ∧ ∃ t, s.place t = .parked .towrlock ∧ s.rw.wcount ≠ 0

theorem Moves.asks {a' : Action T} (h : Moves s a s') (ha : Asks s a → Asks s a') : Moves s a' s' := by
  rcases h with ⟨t, rw', cnt', place', hmoved, hchanges, hpark, hraise⟩ | habort
  · refine .inl ⟨t, rw', cnt', place', hmoved, hchanges, hpark, ?_⟩
    exact hraise.imp_right fun hraise => hraise.imp_right fun hraise => hraise.imp_right fun hask => ⟨ha hask.1, hask.2⟩
  · exact .inr habort

theorem moves_fails (h : s.Sound) (hout : s.waiting t = none) : Moves s a (s.set t s.rw (s.cnt t) none) := by
  have hstays := h.stays t
  rw [place_of_none hout] at hstays
  exact .inl ⟨t, _, _, _, by rwa [place_of_none hout], place_out .., nofun, .inl (Nat.le_refl _)⟩

theorem call_moves (h : s.Sound) (ha : Acts s (.call t c) s') : Moves s (.call t c) s' := by
  cases ha with
  | @call _ _ _ hout hlegal hends =>
    have hlocal := h.local t
    rw [place_of_none hout] at hlocal
    have henter := hlocal.enter hlegal
    generalize hentry : c.code.enter s.rw (s.cnt t) = entry at hends henter
    cases hends with
    | returns =>
      obtain rfl := enter_returns hentry
      exact .inl ⟨t, _, _, _, by rw [place_of_none hout]; exact henter, place_out .., nofun, .inl (Nat.le_refl _)⟩
    | aborts => exact henter.elim
  | @loop _ _ rw _ hout hlegal hloop hattempt =>
    have hlocal := h.local t
    rw [place_of_none hout] at hlocal
    have henter := hlocal.enter hlegal
    rw [hloop] at henter
    obtain ⟨hw, hsame⟩ := enter_loops hloop
    -- the caller of an upgrade reads, so that no writer is there
    have hup : c = .towrlock → s.rw.wcount = 0 := by
      rintro rfl
      have hfits : (s.cnt t).rd ≠ 0 ∧ _ := henter.fits
      exact hlocal.no_writer ⟨hfits.1, nofun⟩
    rcases hattempt.spec (henter.local hlocal) with ⟨rw', cnt', place', hmoved, hchanges, hplace, hraise⟩ | ⟨-, hc, hw'⟩
    · refine .inl ⟨t, rw', cnt', place', by rw [place_of_none hout]; exact henter.trans hmoved, hchanges, ?_, ?_⟩
      · intro hpark
        rcases hplace with rfl | ⟨hc, hw'⟩
        · cases hpark
        · exact .inl (hw'.trans (hw.trans (hup (Place.parked.inj (hc.symm.trans hpark)))))
      · rw [place_of_none hout]
        rcases hraise with hw' | rfl | ⟨hc, hr, hw'⟩
        · exact .inl (hw'.trans hw).le
        · exact .inr ((henter.owner (.inr rfl)).elim .inl fun hres => .inr (.inl hres))
        · obtain rfl := hsame (by rcases hc with rfl | rfl <;> decide)
          exact .inr (.inr (.inr ⟨hc, hr, hw'⟩))
    · exact absurd (hw.trans (hup hc)) hw'

/-- A call that does not wait fails, or does what the call that waits does. -/
theorem acts_once (hc : c = .rdlock ∨ c = .wrlock) (hout : s.waiting t = none) (hlegal : c.Legal (s.cnt t))
    (hends : Ends s t (c.code.once s.rw (s.cnt t)) s') :
    Acts s (.call t c) s' ∨ s' = s.set t s.rw (s.cnt t) none := by
  have hquiet : ∃ rw' cnt', c.code.take s.rw (s.cnt t) = some ⟨rw', cnt', .nobody⟩ := by
    rcases hc with rfl | rfl
    · exact ⟨_, _, rfl⟩
    · exact ⟨_, _, rfl⟩
  cases hentry : c.code.enter s.rw (s.cnt t) with
  | returns | aborts => exact .inl (.call hout hlegal (by simpa only [Acquire.once, hentry] using hends))
  | loops rw =>
    obtain rfl := (enter_loops hentry).2 (by rcases hc with rfl | rfl <;> decide)
    obtain ⟨rw', cnt', hk⟩ := hquiet
    simp only [Acquire.once, hentry, hk] at hends
    split_ifs at hends with htest
    · cases hends
      exact .inr rfl
    · cases hends
      exact .inl (.loop hout hlegal hentry (.takes (Bool.eq_false_of_not_eq_true htest) hk .nobody))

/-- What one step does. -/
theorem Acts.moves (h : s.Sound) (ha : Acts s a s') : Moves s a s' := by
  cases ha with
  | call hout hlegal hends => exact call_moves h (.call hout hlegal hends)
  | loop hout hlegal hloop hattempt => exact call_moves h (.loop hout hlegal hloop hattempt)
  | tryrdlock hout hlegal hends =>
    rcases acts_once (.inl rfl) hout hlegal hends with hcall | rfl
    · exact (call_moves h hcall).asks fun hask => hask.elim nofun nofun
    · exact moves_fails h hout
  | trywrlock hout hlegal hends =>
    rcases acts_once (.inr rfl) hout hlegal hends with hcall | rfl
    · exact (call_moves h hcall).asks fun _ => trivial
    · exact moves_fails h hout
  | @resume t c _ hwaits hattempt =>
    have hlocal := h.local t
    rw [place_of_some hwaits] at hlocal
    have hw : (c.code.unpark s.rw).wcount = s.rw.wcount := by cases c <;> rfl
    have hr : (c.code.unpark s.rw).rcount = s.rw.rcount := by cases c <;> rfl
    rcases hattempt.spec (hlocal.unpark.local hlocal) with
      ⟨rw', cnt', place', hmoved, hchanges, hplace, hraise⟩ | ⟨hs, rfl, hw'⟩
    · refine .inl ⟨t, rw', cnt', place', by rw [place_of_some hwaits]; exact hlocal.unpark.trans hmoved, hchanges, ?_, ?_⟩
      · intro hpark
        rcases hplace with rfl | ⟨hc, -⟩
        · cases hpark
        · exact .inr ((place_of_some hwaits).trans (hc.symm.trans hpark))
      · rw [place_of_some hwaits]
        rcases hraise with hw' | rfl | ⟨hc, hr', hw'⟩
        · exact .inl (hw'.trans hw).le
        · exact .inr (.inl (.inr rfl))
        · refine .inr (.inr (.inr ⟨?_, hr.symm.trans hr', hw.symm.trans hw'⟩))
          simpa only [Asks, place_of_some hwaits, Place.parked.injEq] using hc
    · exact .inr ⟨hs, t, place_of_some hwaits, fun hz => hw' (hw.trans hz)⟩
  | @spurious t c hwaits => exact .inl ⟨t, _, _, _, h.stays t, s.becomes t _, .inr, .inl (Nat.le_refl _)⟩
  | @expire t c hwaits htimed => exact .inl ⟨t, _, _, _, h.stays t, s.becomes t _, .inr, .inl (Nat.le_refl _)⟩
  | @timeout t c late _ hwaits hlate hwakes =>
    have hlocal := h.local t
    rw [place_of_some hwaits] at hlocal
    have hleave : (late s.rw).1 = c.code.unpark s.rw ∧ c ≠ .towrlock := by
      cases c <;> cases hlate
      · exact ⟨rfl, by decide⟩
      · exact ⟨rfl, by decide⟩
    have hw : (late s.rw).1.wcount = s.rw.wcount := by
      rw [hleave.1]
      cases c <;> rfl
    refine .inl ⟨t, _, s.cnt t, .outside, ?_, hwakes.changes (place_out ..), nofun, .inl hw.le⟩
    rw [place_of_some hwaits, hleave.1]
    exact hlocal.unpark.trans ((hlocal.unpark.local hlocal).leave hleave.2)
  | @unlock t k _ hout hlegal hunlock hwakes =>
    have hlocal := h.local t
    rw [place_of_none hout] at hlocal
    obtain ⟨k', hk', hmoved⟩ := hlocal.unlock hlegal h.upgrader_waits
    obtain rfl := Option.some.inj (hk'.symm.trans hunlock)
    refine .inl ⟨t, _, _, .outside, by rw [place_of_none hout]; exact hmoved, hwakes.changes (place_out ..), nofun, ?_⟩
    exact .inl (unlock_wcount hunlock)
  | @unlockAborts t hout hlegal hunlock =>
    have hlocal := h.local t
    rw [place_of_none hout] at hlocal
    obtain ⟨k', hk', -⟩ := hlocal.unlock hlegal h.upgrader_waits
    rw [hk'] at hunlock
    cases hunlock

theorem Acts.sound (h : s.Sound) (ha : Acts s a s') : s'.Sound := by
  rcases ha.moves h with ⟨t, rw', cnt', place', hmoved, hchanges, -⟩ | ⟨rfl, -⟩
  · exact hchanges.sound h hmoved
  · exact h

omit [DecidableEq T] in
theorem init_sound : (State.init : State T).Sound where
  fits _ := zero_ne_reserved
  deep _ := ⟨Nat.zero_lt_of_lt one_lt_reserved, Nat.zero_le _⟩
  rcount := counts_none fun _ h => h.1 rfl
  wcount := counts_none fun _ h => h.2 rfl
  rwait := counts_none fun _ => id
  wwait := counts_none fun _ => id
  excl := .inl rfl
  one := Nat.zero_le _
  reserved := by simp [State.init, Locks.init, State.place, Owns, Place.call, zero_ne_reserved]
  owner _ _ h := h.elim (fun h => absurd h zero_ne_reserved) nofun

/-- No thread that waits to upgrade will find a writer. -/
def State.Guarded (s : State T) : Prop := ∀ t, s.place t = .parked .towrlock → s.rw.wcount = 0

/-- A writer takes the free lock while a thread waits to upgrade. -/
def Intrudes (s : State T) (a : Action T) : Prop :=
  Asks s a ∧ s.rw.rcount = 0 ∧ s.rw.wcount = 0 ∧ ∃ u, s.place u = .parked .towrlock

theorem Step.guarded (h : s.Sound) (hg : s.Guarded) (hs : Step s a s') (ha : ¬Intrudes s a) :
    s'.Guarded ∧ s'.failed = false := by
  rcases hs.2.moves h with ⟨t, rw', cnt', place', hmoved, hchanges, hpark, hraise⟩ | ⟨-, t, hplace, hw⟩
  · refine ⟨fun u hu => ?_, hchanges.failed_eq.trans hs.1⟩
    rw [hchanges.place_eq] at hu
    rw [hchanges.rw_eq]
    have hquiet : ∀ v, s.place v = .parked .towrlock → rw'.wcount ≤ s.rw.wcount → rw'.wcount = 0 := fun v hv hle =>
      Nat.le_zero.mp (hle.trans (hg v hv).le)
    have howns : ∀ v, s.place v = .parked .towrlock → Owns (s.cnt v) (s.place v) := fun v hv =>
      .inr (by rw [hv]; rfl)
    -- whoever raises the count is the one that upgrades, or intrudes
    have hold : ∀ v, s.place v = .parked .towrlock → v ≠ t → rw'.wcount = 0 := by
      intro v hv hne
      rcases hraise with hle | ho | hres | ⟨hask, hfree⟩
      · exact hquiet v hv hle
      · exact absurd (h.owner v t (howns v hv) ho) hne
      · rw [(h.local v).reserved (howns v hv)] at hres
        cases hres
      · exact absurd ⟨hask, hfree.1, hfree.2, v, hv⟩ ha
    rcases eq_or_ne u t with rfl | hne
    · rw [Function.update_self] at hu
      subst hu
      have hfits : cnt'.rd ≠ 0 ∧ _ := hmoved.fits
      have hcount := hmoved.wcount
      rw [if_neg fun hw : Writes cnt' => hfits.1 hw.1] at hcount
      exact (hpark rfl).elim id fun hplace => hquiet u hplace (by omega)
    · rw [Function.update_of_ne hne] at hu
      exact hold u hu hne
  · exact absurd (hg t hplace) hw

/-- What the lock is for. -/
structure Exclusive (s : State T) : Prop where
  no_assertion : s.failed = false
  wcount : s.rw.wcount ≤ 1
  one_writer : ∀ t u, Writes (s.cnt t) → Writes (s.cnt u) → t = u
  no_reader : ∀ t u, (s.cnt t).rd ≠ 0 → ¬Writes (s.cnt u)

/-- **Exclusion.** In every run in which no writer takes the lock while a thread waits to
upgrade, no assertion fails and no thread shares the lock with a writer. -/
theorem lock_excludes (s : State T) (h : Reachable (· = State.init) (Avoiding Step Intrudes) s) : Exclusive s := by
  have hinv : s.Sound ∧ s.Guarded ∧ s.failed = false := by
    induction h with
    | start h =>
      subst h
      exact ⟨init_sound, fun _ _ => rfl, rfl⟩
    | next _ h ih =>
      obtain ⟨hstep, hkeeps⟩ := h
      exact ⟨hstep.2.sound ih.1, hstep.guarded ih.1 ih.2.1 hkeeps⟩
  obtain ⟨hsound, hguarded, hok⟩ := hinv
  refine ⟨hok, hsound.one, fun t u ht hu => hsound.wcount.unique hsound.one ht hu, fun t u ht hu => ?_⟩
  have hw : s.rw.wcount ≠ 0 := Nat.ne_of_gt ((hsound.local u).wcount hu)
  have hlocal := hsound.local t
  by_cases hup : (s.place t).call = some .towrlock
  · have hplace : s.place t = .parked .towrlock := by
      cases hwait : s.waiting t with
      | none =>
        rw [place_of_none hwait] at hup
        cases hup
      | some w =>
        rw [place_of_some hwait] at hup ⊢
        rw [Option.some.inj hup]
    exact hw (hguarded t hplace)
  · exact hw (hlocal.no_writer ⟨ht, hup⟩)

theorem nests_zero : (⟨0, 0⟩ : Lockcnt).Nests := ⟨by decide, fun _ => by decide⟩

/-- Two threads share the lock. -/
theorem lock_excludes_two_readers : ∃ s : State (Fin 2), s.rw.rcount = 2 ∧ Exclusive s := by
  have hquiet : ∀ (s : State (Fin 2)) (t : Fin 2), ¬Intrudes s (.call t .rdlock) := by simp [Intrudes, Asks]
  have h : Reachable (· = (State.init : State (Fin 2))) (Avoiding Step Intrudes) _ := .start rfl
  have h := h.next (a := .call 0 .rdlock) ⟨⟨rfl, Acts.loop (c := .rdlock) rfl (by exact nests_zero) rfl (.takes rfl rfl .nobody)⟩, hquiet _ _⟩
  have h := h.next (a := .call 1 .rdlock) ⟨⟨rfl, Acts.loop (c := .rdlock) rfl (by exact nests_zero) rfl (.takes rfl rfl .nobody)⟩, hquiet _ _⟩
  exact ⟨_, rfl, lock_excludes _ h⟩

/-- Thread 0 has the lock reserved and upgrades while thread 1 reads. When thread 1 is
done, the broadcast wakes thread 0 and the writer 2, which comes first. -/
theorem upgrade_meets_writer :
    ¬∀ s : State (Fin 3), Reachable (· = State.init) Step s → Exclusive s := by
  intro hall
  have h : Reachable (· = (State.init : State (Fin 3))) Step _ := .start rfl
  have h := h.next (a := .call 0 .rslock) ⟨rfl, Acts.loop (c := .rslock) rfl ⟨nests_zero, rfl⟩ rfl (.takes rfl rfl .nobody)⟩
  have h := h.next (a := .call 1 .rdlock) ⟨rfl, Acts.loop (c := .rdlock) rfl (by exact nests_zero) rfl (.takes rfl rfl .nobody)⟩
  have h := h.next (a := .call 0 .towrlock) ⟨rfl, Acts.loop (c := .towrlock) rfl (.inl (by decide)) rfl (.waits rfl)⟩
  have h := h.next (a := .call 2 .wrlock) ⟨rfl, Acts.loop (c := .wrlock) rfl ⟨nests_zero, rfl⟩ rfl (.waits rfl)⟩
  have h := h.next (a := .unlock 1) ⟨rfl, Acts.unlock rfl (.inl (by decide)) rfl (.broadcast _)⟩
  have h := h.next (a := .resume 2) ⟨rfl, Acts.resume (c := .wrlock) rfl (.takes rfl rfl .nobody)⟩
  have h := h.next (a := .resume 0) ⟨rfl, Acts.resume (c := .towrlock) rfl (.aborts rfl rfl)⟩
  exact Bool.noConfusion (hall _ h).no_assertion

end Pclsync.Locks
