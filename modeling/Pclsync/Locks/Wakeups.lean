import Pclsync.Locks.Exclusion
import Mathlib.Data.Fintype.Basic
import Mathlib.Tactic.FinCases

/-! The lock loses no wake-up, as long as no writer that gives up leaves readers behind. -/
namespace Pclsync.Locks
open Lib.Census Lib.Transition

variable {T : Type} [DecidableEq T] {s s₁ s' : State T} {rw : Rwlock} {cnt : Lockcnt} {w : Wake} {t u : T} {c : Call}
  {cond : Cond}

def State.Idle (s : State T) : Prop := s.rw.rcount = 0 ∧ s.rw.wcount = 0

/-- Some thread was woken that will not wait for the writers. -/
def State.Called (s : State T) : Prop :=
  ∃ t c, s.waiting t = some ⟨c, .woken⟩ ∧ (c.code.cond = .wcond ∨ c = .rdlockStarvewr)

/-- Only a wait with a time has an end. -/
def State.Timed (s : State T) : Prop := ∀ t c, s.waiting t = some ⟨c, .expired⟩ → c.timeout.isSome

/-- Whoever may go on has been woken. -/
structure Heard (s : State T) : Prop where
  writers : s.Idle → ∀ t, s.Blocked .wcond t → s.Called
  upgrader : s.Idle → s.rw.reserved = true → ∃ t, s.waiting t = some ⟨.towrlock, .woken⟩
  readers : s.rw.wcount = 0 → s.rw.wwait = 0 → ∀ t, ¬s.Blocked .rcond t
  preferred : s.rw.preferRead = true → ∃ t phase, s.waiting t = some ⟨.rdlockStarvewr, phase⟩
  timed : s.Timed

omit [DecidableEq T] in
theorem Heard.congr (h : Heard s) (hrw : s'.rw = s.rw) (hw : s'.waiting = s.waiting) : Heard s' := by
  obtain ⟨rw, cnt, waiting, failed⟩ := s'
  obtain rfl : rw = s.rw := hrw
  obtain rfl : waiting = s.waiting := hw
  exact ⟨h.writers, h.upgrader, h.readers, h.preferred, h.timed⟩

/-! ### Wake-ups -/

/-- Some threads stopped to be blocked. -/
structure Stirs (s s' : State T) : Prop where
  rw_eq : s'.rw = s.rw
  waiting : ∀ t, s'.waiting t = s.waiting t ∨
    ∃ c phase, s.waiting t = some ⟨c, .blocked⟩ ∧ s'.waiting t = some ⟨c, phase⟩ ∧ phase ≠ .blocked ∧
      (phase = .expired → c.timeout.isSome)

omit [DecidableEq T] in
theorem Stirs.blocked (h : Stirs s s') (hb : s'.Blocked cond t) : s.Blocked cond t := by
  obtain ⟨c, hc, hcond⟩ := hb
  rcases h.waiting t with heq | ⟨c', phase, -, hc', hphase, -⟩
  · exact ⟨c, heq.symm.trans hc, hcond⟩
  · obtain ⟨rfl, rfl⟩ := Waiting.mk.inj (Option.some.inj (hc'.symm.trans hc))
    exact absurd rfl hphase

omit [DecidableEq T] in
theorem Stirs.woken (h : Stirs s s') (hw : s.waiting t = some ⟨c, .woken⟩) : s'.waiting t = some ⟨c, .woken⟩ := by
  rcases h.waiting t with heq | ⟨c', phase, hc', -⟩
  · exact heq.trans hw
  · cases hc'.symm.trans hw

omit [DecidableEq T] in
theorem Stirs.stays (h : Stirs s s') {phase : Phase} (hw : s.waiting t = some ⟨c, phase⟩) :
    ∃ phase', s'.waiting t = some ⟨c, phase'⟩ := by
  rcases h.waiting t with heq | ⟨c', phase', hc', hc'', -⟩
  · exact ⟨phase, heq.trans hw⟩
  · obtain ⟨rfl, -⟩ := Waiting.mk.inj (Option.some.inj (hc'.symm.trans hw))
    exact ⟨phase', hc''⟩

omit [DecidableEq T] in
theorem Stirs.timed (h : Stirs s s') (ht : s.Timed) : s'.Timed := by
  intro t c hc
  rcases h.waiting t with heq | ⟨c', phase, -, hc', -, htimed⟩
  · exact ht t c (heq.symm.trans hc)
  · obtain ⟨rfl, rfl⟩ := Waiting.mk.inj (Option.some.inj (hc'.symm.trans hc))
    exact htimed rfl

omit [DecidableEq T] in
theorem Stirs.called (h : Stirs s s') : s.Called → s'.Called
  | ⟨t, c, hw, hc⟩ => ⟨t, c, h.woken hw, hc⟩

omit [DecidableEq T] in
theorem Stirs.preferred (h : Stirs s s') (hp : ∃ t phase, s.waiting t = some ⟨.rdlockStarvewr, phase⟩) :
    ∃ t phase, s'.waiting t = some ⟨.rdlockStarvewr, phase⟩ := by
  obtain ⟨t, phase, hw⟩ := hp
  exact ⟨t, h.stays hw⟩

omit [DecidableEq T] in
theorem Stirs.heard (h : Stirs s s') (hs : Heard s) : Heard s' where
  writers hidle t hb := h.called (hs.writers (by rwa [State.Idle, h.rw_eq] at hidle) t (h.blocked hb))
  upgrader hidle hres := by
    rw [State.Idle, h.rw_eq] at hidle
    rw [h.rw_eq] at hres
    obtain ⟨t, ht⟩ := hs.upgrader hidle hres
    exact ⟨t, h.woken ht⟩
  readers hw hwait t hb := by
    rw [h.rw_eq] at hw hwait
    exact hs.readers hw hwait t (h.blocked hb)
  preferred hp := h.preferred (hs.preferred (h.rw_eq ▸ hp))
  timed := h.timed hs.timed

theorem stirs_become {phase : Phase} (hw : s.waiting t = some ⟨c, .blocked⟩) (hphase : phase ≠ .blocked)
    (htimed : phase = .expired → c.timeout.isSome) : Stirs s (s.become t phase) := by
  refine ⟨rfl, fun u => ?_⟩
  rcases eq_or_ne u t with rfl | hu
  · exact .inr ⟨c, phase, hw, by simp [State.become, hw], hphase, htimed⟩
  · exact .inl (by simp [State.become, hu])

omit [DecidableEq T] in
theorem stirs_wakeAll (s : State T) (cond : Cond) : Stirs s (s.wakeAll cond) := by
  refine ⟨rfl, fun u => ?_⟩
  cases h : s.waiting u with
  | none => exact .inl (by simp [State.wakeAll, h])
  | some w =>
    obtain ⟨c, phase⟩ := w
    by_cases hw : c.code.cond = cond ∧ phase = .blocked
    · obtain ⟨hcond, rfl⟩ := hw
      exact .inr ⟨c, .woken, rfl, by simp [State.wakeAll, h, hcond], by simp, by simp⟩
    · exact .inl (by simp [State.wakeAll, h, hw])

theorem Wakes.stirs (h : Wakes s w s') : Stirs s s' := by
  cases h with
  | nobody | unheard => exact ⟨rfl, fun _ => .inl rfl⟩
  | broadcast => exact stirs_wakeAll ..
  | signal hb =>
    obtain ⟨c, hc, -⟩ := hb
    exact stirs_become hc nofun nofun

/-- A broadcast leaves nobody blocked. -/
theorem Wakes.broadcast_spec (h : Wakes s (.broadcast cond) s') (t : T) : ¬s'.Blocked cond t := by
  cases h
  rintro ⟨c, hc, hcond⟩
  cases hw : s.waiting t with
  | none => simp [State.wakeAll, hw] at hc
  | some w =>
    obtain ⟨c', phase⟩ := w
    simp only [State.wakeAll, hw, Option.map_some, Option.some.injEq] at hc
    split at hc
    · cases hc
    · rename_i hnot
      obtain ⟨rfl, rfl⟩ := Waiting.mk.inj hc
      exact hnot ⟨hcond, rfl⟩

/-- A signal that someone waits for is heard. -/
theorem Wakes.signal_spec (h : Wakes s .signal s') (hb : s.Blocked .wcond t) : s'.Called := by
  cases h with
  | @signal u hu =>
    obtain ⟨c, hc, hcond⟩ := hu
    exact ⟨u, c, by simp [State.become, hc], .inl hcond⟩
  | unheard hno => exact absurd hb (hno t)

omit [DecidableEq T] in
/-- A waiter whose wait has no end is woken or blocked. -/
theorem State.Timed.woken (ht : s.Timed) {phase : Phase} (hw : s.waiting t = some ⟨c, phase⟩) (hc : c.timeout = none)
    (hb : ¬s.Blocked c.code.cond t) : s.waiting t = some ⟨c, .woken⟩ := by
  cases phase with
  | blocked => exact absurd ⟨c, hw, rfl⟩ hb
  | woken => exact hw
  | expired =>
    have htimed := ht t c hw
    rw [hc] at htimed
    cases htimed

/-! ### A thread that leaves its place -/

theorem waiting_set {x : Option Waiting} (hu : u ≠ t) : (s.set t rw cnt x).waiting u = s.waiting u :=
  Function.update_of_ne hu ..

theorem waiting_set_self {x : Option Waiting} : (s.set t rw cnt x).waiting t = x := Function.update_self ..

theorem blocked_set_none (h : (s.set t rw cnt none).Blocked cond u) : u ≠ t ∧ s.Blocked cond u := by
  obtain ⟨c, hc, hcond⟩ := h
  have hu : u ≠ t := by
    rintro rfl
    rw [waiting_set_self] at hc
    cases hc
  exact ⟨hu, c, (waiting_set hu).symm.trans hc, hcond⟩

theorem State.Timed.set {x : Option Waiting} (ht : s.Timed) (hx : ∀ c, x ≠ some ⟨c, .expired⟩) : (s.set t rw cnt x).Timed := by
  intro u c hc
  rcases eq_or_ne u t with rfl | hu
  · exact absurd (waiting_set_self.symm.trans hc) (hx c)
  · exact ht u c ((waiting_set hu).symm.trans hc)

omit [DecidableEq T] in
/-- The threads on a condition are counted. -/
theorem State.Sound.blocked (h : s.Sound) (hb : s.Blocked cond t) :
    0 < match cond with | .rcond => s.rw.rwait | .wcond => s.rw.wwait := by
  obtain ⟨c, hc, rfl⟩ := hb
  have hon : On c.code.cond (s.place t) := by rw [place_of_some hc]; rfl
  cases hcond : c.code.cond with
  | rcond => exact h.rwait.pos (hcond ▸ hon)
  | wcond => exact h.wwait.pos (hcond ▸ hon)

/-! ### Sections -/

/-- A thread at the test of its loop: what the section has done to the lock until then. -/
structure Testing (s : State T) (t : T) (c : Call) (rw : Rwlock) : Prop where
  here : ∀ c' phase, s.waiting t = some ⟨c', phase⟩ → c' = c ∧ phase = .woken
  wcount : rw.wcount = s.rw.wcount
  rcount : c ≠ .towrlock → rw.rcount = s.rw.rcount
  reserved : c ≠ .towrlock → rw.reserved = s.rw.reserved
  rwait : c.code.cond = .wcond → rw.rwait = s.rw.rwait
  wwait : c.code.cond = .rcond → rw.wwait = s.rw.wwait
  preferred : rw.preferRead = true → s.rw.preferRead = true ∧ s.waiting t ≠ some ⟨.rdlockStarvewr, .woken⟩

omit [DecidableEq T] in
theorem Testing.other (h : Testing s t c rw) {c' : Call} {phase : Phase} (hw : s.waiting u = some ⟨c', phase⟩)
    (hc : c' ≠ c ∨ phase ≠ .woken) : u ≠ t := by
  rintro rfl
  obtain ⟨rfl, rfl⟩ := h.here c' phase hw
  simp at hc

/-- Only a reader behind a writer, or a second reservation, has to wait for a free lock. -/
theorem test_idle (hr : rw.rcount = 0) (hw : rw.wcount = 0) (htest : c.code.test rw = true) :
    c ≠ .towrlock ∧ c ≠ .rdlockStarvewr ∧ (c.code.cond = .rcond ∨ rw.reserved = true) := by
  cases c <;>
    simp_all [Call.code, rdlock, timedrdlock, rdlockStarvewr, wrlock, timedwrlock, rslock, towrlock]

theorem park_waits (htest : c.code.test rw = true) : (c.code.park rw).wcount ≠ 0 ∨ (c.code.park rw).wwait ≠ 0 := by
  cases c <;>
    simp_all [Call.code, rdlock, timedrdlock, rdlockStarvewr, wrlock, timedwrlock, rslock, towrlock,
      Rwlock.parkReader, Rwlock.parkWriter]
  · tauto
  · tauto

theorem park_eq : (c.code.park rw).rcount = rw.rcount ∧ (c.code.park rw).wcount = rw.wcount ∧
    (c.code.park rw).reserved = rw.reserved ∧ (c ≠ .rdlockStarvewr → (c.code.park rw).preferRead = rw.preferRead) := by
  cases c <;> exact ⟨rfl, rfl, rfl, fun h => by first | rfl | exact absurd rfl h⟩

theorem Testing.waits (ht : Testing s t c rw) (h : Heard s) (htest : c.code.test rw = true) :
    Heard (s.set t (c.code.park rw) cnt (some ⟨c, .blocked⟩)) := by
  obtain ⟨hrcount, hwcount, hreserved, hprefer⟩ := @park_eq rw c
  -- a thread that parks while the lock is free was not one that had to go on
  have hfree : rw.rcount = 0 → rw.wcount = 0 → s.Idle ∧ rw.reserved = s.rw.reserved ∧
      (c.code.cond = .rcond ∨ s.rw.reserved = true) := by
    intro hr hw
    obtain ⟨hup, -, hwhy⟩ := test_idle hr hw htest
    rw [ht.reserved hup] at hwhy
    exact ⟨⟨(ht.rcount hup).symm.trans hr, ht.wcount.symm.trans hw⟩, ht.reserved hup, hwhy⟩
  have hupgrader : s.Idle → s.rw.reserved = true → c ≠ .towrlock →
      ∃ v, (s.set t (c.code.park rw) cnt (some ⟨c, .blocked⟩)).waiting v = some ⟨.towrlock, .woken⟩ := by
    intro hidle hres hup
    obtain ⟨v, hv⟩ := h.upgrader hidle hres
    exact ⟨v, (waiting_set (ht.other hv (.inl hup.symm))).trans hv⟩
  refine ⟨fun hidle u hu => ?_, fun hidle hres => ?_, fun hw hwait => ?_, fun hp => ?_, h.timed.set nofun⟩
  · obtain ⟨hr, hw⟩ : (c.code.park rw).rcount = 0 ∧ (c.code.park rw).wcount = 0 := hidle
    rw [hrcount] at hr
    rw [hwcount] at hw
    obtain ⟨hup, hstarve, -⟩ := test_idle hr hw htest
    obtain ⟨hidle', -, hcond | hres⟩ := hfree hr hw
    · obtain ⟨c', hc', hcond'⟩ := hu
      have hut : u ≠ t := by
        rintro rfl
        obtain ⟨rfl, -⟩ := Waiting.mk.inj (Option.some.inj (waiting_set_self.symm.trans hc'))
        cases hcond.symm.trans hcond'
      obtain ⟨v, k, hv, hk⟩ := h.writers hidle' u ⟨c', (waiting_set hut).symm.trans hc', hcond'⟩
      have hkc : k ≠ c := by
        rintro rfl
        rcases hk with hk | rfl
        · cases hcond.symm.trans hk
        · exact hstarve rfl
      exact ⟨v, k, (waiting_set (ht.other hv (.inl hkc))).trans hv, hk⟩
    · obtain ⟨v, hv⟩ := hupgrader hidle' hres hup
      exact ⟨v, .towrlock, hv, .inl rfl⟩
  · obtain ⟨hr, hw⟩ : (c.code.park rw).rcount = 0 ∧ (c.code.park rw).wcount = 0 := hidle
    rw [hrcount] at hr
    rw [hwcount] at hw
    obtain ⟨hidle', hreserved', -⟩ := hfree hr hw
    exact hupgrader hidle' (hreserved'.symm.trans (hreserved.symm.trans hres)) (test_idle hr hw htest).1
  · exact absurd hwait ((park_waits htest).resolve_left (not_not.mpr hw))
  · by_cases hc : c = .rdlockStarvewr
    · subst hc
      exact ⟨t, .blocked, waiting_set_self⟩
    · obtain ⟨v, phase, hv⟩ := h.preferred (ht.preferred ((hprefer hc).symm.trans hp)).1
      exact ⟨v, phase, (waiting_set (ht.other hv (.inl (Ne.symm hc)))).trans hv⟩

theorem take_busy {k : Taken} (htake : c.code.take rw cnt = some k) : k.rw.rcount ≠ 0 ∨ k.rw.wcount ≠ 0 := by
  cases c with
  | rdlock | timedrdlock | rdlockStarvewr | rslock =>
    cases htake
    exact .inl (Nat.succ_ne_zero _)
  | wrlock | timedwrlock =>
    cases htake
    exact .inr (Nat.succ_ne_zero _)
  | towrlock =>
    simp only [Call.code, towrlock] at htake
    split_ifs at htake
    cases htake
    exact .inr (Nat.succ_ne_zero _)

theorem take_prefer {k : Taken} (htake : c.code.take rw cnt = some k) : k.rw.preferRead = rw.preferRead := by
  cases c with
  | towrlock =>
    simp only [Call.code, towrlock] at htake
    split_ifs at htake
    cases htake
    rfl
  | _ =>
    cases htake
    rfl

/-- Whoever takes the lock and leaves it open for readers is a reader, or wakes the readers. -/
theorem take_readers {k : Taken} (htake : c.code.take rw cnt = some k) (hw : k.rw.wcount = 0) :
    c.code.cond = .rcond ∧ k.rw.wwait = rw.wwait ∧ k.rw.wcount = rw.wcount ∨
      c.code.cond = .wcond ∧ k.wake = if rw.rwait ≠ 0 then .broadcast .rcond else .nobody := by
  cases c with
  | rdlock | timedrdlock | rdlockStarvewr =>
    cases htake
    exact .inl ⟨rfl, rfl, rfl⟩
  | rslock =>
    cases htake
    exact .inr ⟨rfl, rfl⟩
  | wrlock | timedwrlock =>
    cases htake
    cases hw
  | towrlock =>
    simp only [Call.code, towrlock] at htake
    split_ifs at htake
    cases htake
    cases hw

theorem Testing.takes (ht : Testing s t c rw) (h : Heard s) (hs : s.Sound) {k : Taken}
    (htake : c.code.take rw cnt = some k) (hwakes : Wakes (s.set t k.rw k.cnt none) k.wake s') : Heard s' := by
  have hstirs := hwakes.stirs
  have hrw : s'.rw = k.rw := hstirs.rw_eq
  have hbusy : ¬s'.Idle := by
    rintro ⟨hr, hw⟩
    rw [hrw] at hr hw
    exact (take_busy htake).elim (absurd hr) (absurd hw)
  refine ⟨fun hidle => absurd hidle hbusy, fun hidle => absurd hidle hbusy, fun hw hwait u hu => ?_, fun hp => ?_,
    hstirs.timed (h.timed.set nofun)⟩
  · rw [hrw] at hw hwait
    obtain ⟨-, hb⟩ := blocked_set_none (hstirs.blocked hu)
    rcases take_readers htake hw with ⟨hcond, hwait', hw'⟩ | ⟨hcond, hwake⟩
    · exact h.readers (ht.wcount.symm.trans (hw'.symm.trans hw)) ((ht.wwait hcond).symm.trans (hwait'.symm.trans hwait)) u hb
    · have hrwait : 0 < s.rw.rwait := hs.blocked hb
      rw [ht.rwait hcond, if_pos (Nat.ne_of_gt hrwait)] at hwake
      rw [hwake] at hwakes
      exact hwakes.broadcast_spec u hu
  · rw [hrw, take_prefer htake] at hp
    obtain ⟨hp', hself⟩ := ht.preferred hp
    obtain ⟨v, phase, hv⟩ := h.preferred hp'
    have hvt : v ≠ t := by
      rintro rfl
      obtain ⟨-, rfl⟩ := ht.here _ _ hv
      exact hself hv
    exact hstirs.preferred ⟨v, phase, (waiting_set hvt).trans hv⟩

theorem Testing.attempt (ht : Testing s t c rw) (h : Heard s) (hs : s.Sound) (ha : Attempt c s t rw s') : Heard s' := by
  cases ha with
  | waits htest => exact ht.waits h htest
  | takes _ htake hwakes => exact ht.takes h hs htake hwakes
  | aborts => exact h.congr rfl rfl

omit [DecidableEq T] in
theorem call_testing (hout : s.waiting t = none) (henter : c.code.enter s.rw (s.cnt t) = .loops rw) : Testing s t c rw := by
  obtain ⟨hw, hsame⟩ := enter_loops henter
  have hnone : ∀ w, s.waiting t ≠ some w := fun w hw => by
    rw [hout] at hw
    cases hw
  by_cases hup : c = .towrlock
  · subst hup
    simp only [Call.code, towrlock] at henter
    split_ifs at henter
    cases henter
    exact ⟨fun _ _ hw => absurd hw (hnone _), rfl, absurd rfl, absurd rfl, fun _ => rfl, fun hcond => (by cases hcond), fun hp => ⟨hp, hnone _⟩⟩
  · obtain rfl := hsame hup
    exact ⟨fun _ _ hw => absurd hw (hnone _), rfl, fun _ => rfl, fun _ => rfl, fun _ => rfl, fun _ => rfl,
      fun hp => ⟨hp, hnone _⟩⟩

omit [DecidableEq T] in
theorem resume_testing (hw : s.waiting t = some ⟨c, .woken⟩) : Testing s t c (c.code.unpark s.rw) := by
  have hhere : ∀ c' phase, s.waiting t = some ⟨c', phase⟩ → c' = c ∧ phase = .woken := by
    intro c' phase hw'
    exact Waiting.mk.inj (Option.some.inj (hw'.symm.trans hw))
  refine ⟨hhere, ?_, ?_, ?_, ?_, ?_, fun hp => ?_⟩
  · cases c <;> rfl
  · cases c <;> exact fun _ => rfl
  · cases c <;> exact fun _ => rfl
  · cases c <;> first | exact fun _ => rfl | nofun
  · cases c <;> first | exact fun _ => rfl | nofun
  · refine ⟨?_, fun hstarve => ?_⟩
    · cases c <;> first | exact hp | cases hp
    · obtain ⟨rfl, -⟩ := hhere _ _ hstarve
      cases hp

theorem returns_same (hout : s.waiting t = none) : (s.set t s.rw cnt none).waiting = s.waiting := by
  funext u
  rcases eq_or_ne u t with rfl | hu
  · rw [waiting_set_self, hout]
  · exact waiting_set hu

theorem call_heard (h : Heard s) (hs : s.Sound) (ha : Acts s (.call t c) s') : Heard s' := by
  cases ha with
  | call hout _ hends =>
    generalize hentry : c.code.enter s.rw (s.cnt t) = entry at hends
    cases hends with
    | returns =>
      obtain rfl := enter_returns hentry
      exact h.congr rfl (returns_same hout)
    | aborts => exact h.congr rfl rfl
  | loop hout _ hloop hattempt => exact (call_testing hout hloop).attempt h hs hattempt

/-- The last writer that waits gives up, and readers stay behind that no writer keeps out. -/
def Abandons (s : State T) : Action T → Prop
  | .timeout t => s.place t = .parked .timedwrlock ∧ s.rw.wwait = 1 ∧ s.rw.wcount = 0 ∧ ∃ u, s.Blocked .rcond u
  | _ => False

theorem timeout_heard (h : Heard s) (hs : s.Sound) (ha : Acts s (.timeout t) s') (hgo : ¬Abandons s (.timeout t)) :
    Heard s' := by
  cases ha with
  | @timeout _ c late _ hwaits hlate hwakes =>
    have hplace := place_of_some hwaits
    have hlocal := hs.local t
    rw [hplace] at hlocal
    have hother : ∀ {u k phase}, s.waiting u = some ⟨k, phase⟩ → k ≠ c ∨ phase ≠ .expired → u ≠ t := by
      rintro u k phase hk hne rfl
      obtain ⟨rfl, rfl⟩ := Waiting.mk.inj (Option.some.inj (hk.symm.trans hwaits))
      simp at hne
    have hleave : (late s.rw).1 = c.code.unpark s.rw ∧ c ≠ .rdlockStarvewr ∧
        ((late s.rw).1.wwait = s.rw.wwait ∨ c = .timedwrlock) := by
      cases c <;> cases hlate
      · exact ⟨rfl, nofun, .inl rfl⟩
      · exact ⟨rfl, nofun, .inr rfl⟩
    obtain ⟨hunpark, hstarve, hwwait⟩ := hleave
    have hsame : (late s.rw).1.rcount = s.rw.rcount ∧ (late s.rw).1.wcount = s.rw.wcount ∧
        (late s.rw).1.reserved = s.rw.reserved ∧ (late s.rw).1.preferRead = s.rw.preferRead := by
      cases c <;> cases hlate <;> exact ⟨rfl, rfl, rfl, rfl⟩
    obtain ⟨hrcount, hwcount, hreserved, hprefer⟩ := hsame
    refine hwakes.stirs.heard ⟨fun hidle u hu => ?_, fun hidle hres => ?_, fun hw hwait u hu => ?_, fun hp => ?_,
      h.timed.set nofun⟩
    · obtain ⟨-, hb⟩ := blocked_set_none hu
      obtain ⟨v, k, hv, hk⟩ := h.writers ⟨hrcount.symm.trans hidle.1, hwcount.symm.trans hidle.2⟩ u hb
      exact ⟨v, k, (waiting_set (hother hv (.inr nofun))).trans hv, hk⟩
    · obtain ⟨v, hv⟩ := h.upgrader ⟨hrcount.symm.trans hidle.1, hwcount.symm.trans hidle.2⟩ (hreserved.symm.trans hres)
      exact ⟨v, (waiting_set (hother hv (.inr nofun))).trans hv⟩
    · obtain ⟨-, hb⟩ := blocked_set_none hu
      rcases hwwait with hsame | rfl
      · exact h.readers (hwcount.symm.trans hw) (hsame.symm.trans hwait) u hb
      · -- the count is the last one's, so that the step abandons the reader
        have hpos : 0 < s.rw.wwait := hlocal.wwait rfl
        have hlast : s.rw.wwait - 1 = 0 := by
          have := hunpark ▸ hwait
          exact this
        exact hgo ⟨hplace, by omega, hwcount.symm.trans hw, u, hb⟩
    · obtain ⟨v, phase, hv⟩ := h.preferred (hprefer.symm.trans hp)
      exact ⟨v, phase, (waiting_set (hother hv (.inl (Ne.symm hstarve)))).trans hv⟩

/-- Whom an unlock wakes. -/
structure Releases (rw : Rwlock) (k : Taken) : Prop where
  wwait : k.rw.wwait = rw.wwait
  preferred : k.rw.preferRead = rw.preferRead
  reserved : k.rw.rcount = 0 → k.rw.wcount = 0 → k.rw.reserved = true → rw.wwait ≠ 0 → k.wake = .broadcast .wcond
  writers : k.rw.rcount = 0 → k.rw.wcount = 0 → k.rw.reserved = false → rw.wwait ≠ 0 →
    k.wake = .signal ∨ rw.preferRead = true ∧ k.wake = .broadcast .rcond
  readers : k.rw.wcount = 0 → rw.wwait = 0 → rw.wcount = 0 ∨ rw.rwait = 0 ∨ k.wake = .broadcast .rcond

theorem unlockRead_releases (rw : Rwlock) (cnt : Lockcnt) (hw : rw.wcount = 0) : Releases rw (unlockRead rw cnt) where
  wwait := rfl
  preferred := rfl
  reserved hr _ hres hwait := (if_pos ⟨hr, hwait⟩).trans (if_pos hres)
  writers hr _ hres hwait := .inl ((if_pos ⟨hr, hwait⟩).trans (if_neg (Bool.eq_false_iff.mp hres)))
  readers _ _ := .inl hw

theorem unlockWrite_releases {k : Taken} (h : unlockWrite rw cnt = some k) : Releases rw k := by
  simp only [unlockWrite] at h
  split_ifs at h with hmore hres hnone hprefer hrwait hwait hwait hrwait
  · cases h
    exact ⟨rfl, rfl, fun _ hw => absurd hw hmore, fun _ hw => absurd hw hmore, fun hw => absurd hw hmore⟩
  · cases h
    refine ⟨rfl, rfl, fun _ _ _ _ => rfl, fun _ _ hres' => ?_, fun _ hwait => absurd hwait hnone⟩
    cases hres.symm.trans hres'
  · cases h
    exact ⟨rfl, rfl, fun _ _ hres' => absurd hres' hres, fun _ _ _ _ => .inr ⟨hprefer, rfl⟩, fun _ _ => .inr (.inr rfl)⟩
  · cases h
    exact ⟨rfl, rfl, fun _ _ hres' => absurd hres' hres, fun _ _ _ _ => .inl rfl, fun _ hnone => absurd hnone hwait⟩
  · cases h
    exact ⟨rfl, rfl, fun _ _ hres' => absurd hres' hres, fun _ _ _ hsome => absurd hsome hwait,
      fun _ _ => .inr (.inl (not_not.mp hrwait))⟩
  · cases h
    exact ⟨rfl, rfl, fun _ _ hres' => absurd hres' hres, fun _ _ _ _ => .inl rfl, fun _ hnone => absurd hnone hwait⟩
  · cases h
    exact ⟨rfl, rfl, fun _ _ hres' => absurd hres' hres, fun _ _ _ hsome => absurd hsome hwait, fun _ _ => .inr (.inr rfl)⟩
  · cases h
    exact ⟨rfl, rfl, fun _ _ hres' => absurd hres' hres, fun _ _ _ hsome => absurd hsome hwait,
      fun _ _ => .inr (.inl (not_not.mp hrwait))⟩

/-- An unlock takes one off a nested lock, or releases the lock. -/
theorem unlock_releases {k : Taken} (h : unlock rw cnt = some k) : k.rw = rw ∧ k.wake = .nobody ∨ Releases rw k := by
  obtain ⟨⟨again, cnt'⟩, -, h⟩ := Option.bind_eq_some_iff.mp h
  simp only at h
  split_ifs at h with hagain hboth hr
  · cases h
    exact .inl ⟨rfl, rfl⟩
  · cases h
    exact .inr (unlockRead_releases rw cnt' (by tauto))
  · exact .inr (unlockWrite_releases h)

theorem unlock_heard (h : Heard s) (hs : s.Sound) (ha : Acts s (.unlock t) s') : Heard s' := by
  have hs' := ha.sound hs
  cases ha with
  | @unlock _ k _ hout hlegal hunlock hwakes =>
    have hstirs := hwakes.stirs
    have hrw : s'.rw = k.rw := hstirs.rw_eq
    have hsame : (s.set t k.rw k.cnt none).waiting = s.waiting := by
      rw [← @returns_same _ _ _ k.cnt _ hout]
      rfl
    rcases unlock_releases hunlock with ⟨hk, hnobody⟩ | hk
    · exact hstirs.heard (h.congr hk hsame)
    have hblocked : ∀ {cond u}, s'.Blocked cond u → (s.set t k.rw k.cnt none).Blocked cond u ∧ s.Blocked cond u :=
      fun hb => ⟨hstirs.blocked hb, (blocked_set_none (hstirs.blocked hb)).2⟩
    have htimed : s'.Timed := hstirs.timed (h.timed.set nofun)
    refine ⟨fun hidle u hu => ?_, fun hidle hres => ?_, fun hw hwait u hu => ?_, fun hp => ?_, htimed⟩
    · rw [State.Idle, hrw] at hidle
      have hwait : 0 < s.rw.wwait := hs.blocked (hblocked hu).2
      cases hres : k.rw.reserved with
      | true =>
        rw [hk.reserved hidle.1 hidle.2 hres (Nat.ne_of_gt hwait)] at hwakes
        exact absurd hu (hwakes.broadcast_spec u)
      | false =>
        rcases hk.writers hidle.1 hidle.2 hres (Nat.ne_of_gt hwait) with hsignal | ⟨hp, hbroadcast⟩
        · rw [hsignal] at hwakes
          exact hwakes.signal_spec (hblocked hu).1
        · rw [hbroadcast] at hwakes
          obtain ⟨v, phase, hv⟩ := h.preferred hp
          obtain ⟨phase', hv'⟩ := hstirs.stays ((congrFun hsame v).trans hv)
          exact ⟨v, _, htimed.woken hv' rfl (hwakes.broadcast_spec v), .inr rfl⟩
    · obtain ⟨v, phase, hv⟩ := hs'.upgrader hres hidle.1
      have hlocal := hs'.local v
      rw [place_of_some hv] at hlocal
      have hwait : 0 < s'.rw.wwait := hlocal.wwait rfl
      rw [hrw] at hres hwait
      rw [State.Idle, hrw] at hidle
      rw [hk.wwait] at hwait
      rw [hk.reserved hidle.1 hidle.2 hres (Nat.ne_of_gt hwait)] at hwakes
      exact ⟨v, htimed.woken hv rfl (hwakes.broadcast_spec v)⟩
    · rw [hrw] at hw hwait
      have hwait' := hk.wwait.symm.trans hwait
      rcases hk.readers hw hwait' with hw' | hrwait | hbroadcast
      · exact h.readers hw' hwait' u (hblocked hu).2
      · exact Nat.ne_of_gt (hs.blocked (hblocked hu).2) hrwait
      · rw [hbroadcast] at hwakes
        exact hwakes.broadcast_spec u hu
    · rw [hrw, hk.preferred] at hp
      obtain ⟨v, phase, hv⟩ := h.preferred hp
      exact hstirs.preferred ⟨v, phase, (congrFun hsame v).trans hv⟩
  | unlockAborts => exact h.congr rfl rfl

theorem Acts.heard {a : Action T} (h : Heard s) (hs : s.Sound) (ha : Acts s a s') (hgo : ¬Abandons s a) : Heard s' := by
  cases ha with
  | call hout hlegal hends => exact call_heard h hs (.call hout hlegal hends)
  | loop hout hlegal hloop hattempt => exact call_heard h hs (.loop hout hlegal hloop hattempt)
  | tryrdlock hout hlegal hends =>
    rcases acts_once (.inl rfl) hout hlegal hends with hcall | rfl
    · exact call_heard h hs hcall
    · exact h.congr rfl (returns_same hout)
  | trywrlock hout hlegal hends =>
    rcases acts_once (.inr rfl) hout hlegal hends with hcall | rfl
    · exact call_heard h hs hcall
    · exact h.congr rfl (returns_same hout)
  | resume hwaits hattempt => exact (resume_testing hwaits).attempt h hs hattempt
  | spurious hwaits =>
    refine Stirs.heard (stirs_become hwaits ?_ ?_) h
    · nofun
    · nofun
  | expire hwaits htimed =>
    refine Stirs.heard (stirs_become hwaits ?_ fun _ => htimed) h
    nofun
  | timeout hwaits hlate hwakes => exact timeout_heard h hs (.timeout hwaits hlate hwakes) hgo
  | unlock hout hlegal hunlock hwakes => exact unlock_heard h hs (.unlock hout hlegal hunlock hwakes)
  | unlockAborts hout hlegal hunlock => exact unlock_heard h hs (.unlockAborts hout hlegal hunlock)

omit [DecidableEq T] in
theorem init_heard : Heard (State.init : State T) where
  writers _ _ hb := by
    obtain ⟨c, hc, -⟩ := hb
    cases hc
  upgrader _ := nofun
  readers _ _ _ hb := by
    obtain ⟨c, hc, -⟩ := hb
    cases hc
  preferred := nofun
  timed _ _ := nofun

/-- Nobody has the lock, no wake-up and no end of a wait is still to be acted upon. -/
def State.Quiet (s : State T) : Prop := s.Idle ∧ ∀ t w, s.waiting t = some w → w.phase = .blocked

/-- **No lost wake-up.** In every run in which no last waiting writer gives up before blocked
readers, nobody waits for a lock that nobody has. -/
theorem free_lock_awaited_by_none (s : State T) (h : Reachable (· = State.init) (Avoiding Step Abandons) s)
    (hquiet : s.Quiet) : ∀ t, s.waiting t = none := by
  have hinv : s.Sound ∧ Heard s := by
    clear hquiet
    induction h with
    | start h =>
      subst h
      exact ⟨init_sound, init_heard⟩
    | next _ h ih =>
      obtain ⟨⟨-, hstep⟩, hkeeps⟩ := h
      exact ⟨hstep.sound ih.1, hstep.heard ih.2 ih.1 hkeeps⟩
  obtain ⟨hsound, hheard⟩ := hinv
  obtain ⟨hidle, hblocked⟩ := hquiet
  have hno : ∀ t, ¬s.Blocked .wcond t := by
    intro t hb
    obtain ⟨u, c, hu, -⟩ := hheard.writers hidle t hb
    cases hblocked u _ hu
  have hwait : s.rw.wwait = 0 := by
    by_contra hpos
    obtain ⟨t, ht⟩ := hsound.wwait.pos_iff.mp (Nat.pos_of_ne_zero hpos)
    cases hw : s.waiting t with
    | none =>
      rw [place_of_none hw] at ht
      exact ht
    | some w =>
      obtain ⟨c, phase⟩ := w
      rw [place_of_some hw] at ht
      obtain rfl : phase = .blocked := hblocked t _ hw
      exact hno t ⟨c, hw, ht⟩
  intro t
  cases hw : s.waiting t with
  | none => rfl
  | some w =>
    obtain ⟨c, phase⟩ := w
    obtain rfl : phase = .blocked := hblocked t _ hw
    cases hcond : c.code.cond with
    | rcond => exact absurd ⟨c, hw, hcond⟩ (hheard.readers hidle.2 hwait t)
    | wcond => exact absurd ⟨c, hw, hcond⟩ (hno t)

/-- A writer waits for a reader, has the lock after it and gives it back. -/
theorem free_lock_awaited_by_none_two : ∃ s : State (Fin 2), s.Quiet ∧ ∀ t, s.waiting t = none := by
  have h : Reachable (· = (State.init : State (Fin 2))) (Avoiding Step Abandons) _ := .start rfl
  have h := h.next (a := .call 0 .rdlock) ⟨⟨rfl, Acts.loop (c := .rdlock) rfl (by exact nests_zero) rfl (.takes rfl rfl .nobody)⟩, id⟩
  have h := h.next (a := .call 1 .wrlock) ⟨⟨rfl, Acts.loop (c := .wrlock) rfl ⟨nests_zero, rfl⟩ rfl (.waits rfl)⟩, id⟩
  have h := h.next (a := .unlock 0) ⟨⟨rfl, Acts.unlock rfl (.inl (by decide)) rfl (.signal (t := 1) ⟨.wrlock, rfl, rfl⟩)⟩, id⟩
  have h := h.next (a := .resume 1) ⟨⟨rfl, Acts.resume (c := .wrlock) rfl (.takes rfl rfl .nobody)⟩, id⟩
  have h := h.next (a := .unlock 1) ⟨⟨rfl, Acts.unlock rfl (.inr (by decide)) rfl .nobody⟩, id⟩
  suffices hquiet : State.Quiet _ from ⟨_, hquiet, free_lock_awaited_by_none _ h hquiet⟩
  exact ⟨⟨rfl, rfl⟩, fun t w hw => by fin_cases t <;> cases hw⟩

/-- Thread 0 reads, the writer 1 waits for it and the reader 2 for the writer. The writer
gives up, and the inverted test keeps it from waking the reader; nor does thread 0. -/
theorem reader_forgotten :
    ¬∀ s : State (Fin 3), Reachable (· = State.init) Step s → s.Quiet → ∀ t, s.waiting t = none := by
  intro hall
  have h : Reachable (· = (State.init : State (Fin 3))) Step _ := .start rfl
  have h := h.next (a := .call 0 .rdlock) ⟨rfl, Acts.loop (c := .rdlock) rfl (by exact nests_zero) rfl (.takes rfl rfl .nobody)⟩
  have h := h.next (a := .call 1 .timedwrlock) ⟨rfl, Acts.loop (c := .timedwrlock) rfl ⟨nests_zero, rfl⟩ rfl (.waits rfl)⟩
  have h := h.next (a := .call 2 .rdlock) ⟨rfl, Acts.loop (c := .rdlock) rfl (by exact nests_zero) rfl (.waits rfl)⟩
  have h := h.next (a := .expire 1) ⟨rfl, Acts.expire (c := .timedwrlock) rfl rfl⟩
  have h := h.next (a := .timeout 1) ⟨rfl, Acts.timeout (c := .timedwrlock) rfl rfl .nobody⟩
  have h := h.next (a := .unlock 0) ⟨rfl, Acts.unlock rfl (.inl (by decide)) rfl .nobody⟩
  have hnone := hall _ h ⟨⟨rfl, rfl⟩, fun t w hw => by fin_cases t <;> cases hw; rfl⟩ 2
  cases hnone

end Pclsync.Locks
