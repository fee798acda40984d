import Pclsync.Lib.Transition
import Pclsync.Timers.Wheel
import Mathlib.Algebra.BigOperators.Group.Finset.Piecewise

/-! Rounds of `timer_thread`, and the calls of other threads between them.

In a round the thread sets the time, then takes out the timers that are due, and after
their callbacks puts them back for their next period. The time is set before the mutex is
taken: a timer registered in between counts its delay from a time up to which the lists
have not been emptied. -/
namespace Pclsync.Timers
open Lib.TimingWheel Lib.Transition

/-- `psync_timer_structure_t`: `opts` is its two flags. -/
structure Timer where
  numsec : ℕ
  runat : ℕ
  level : ℕ
  isRunning : Bool
  stopAfterRun : Bool
deriving DecidableEq, Repr

inductive Phase where
  | sleeping
  /-- The time is set. -/
  | ticked
  /-- The timers that are due are taken out, and called. -/
  | running
deriving DecidableEq, Repr

structure State where
  /-- The timers that are allocated. -/
  timers : Id → Option Timer
  lists : Lists
  /-- `timers` of `timer_thread`. -/
  run : List Id
  /-- `psync_current_time`. -/
  currentTime : ℕ
  lt : ℕ
  phase : Phase

inductive Action where
  | tick (seconds : ℕ)
  | prepare
  | process
  | register (id : Id) (numsec : ℕ)
  | stop (id : Id)
deriving DecidableEq, Repr

def State.init (time : ℕ) : State := ⟨fun _ => none, fun _ _ => [], [], time, time, .sleeping⟩

/-- `timer_thread` sets the time. -/
def State.tick (s : State) (seconds : ℕ) : State := { s with currentTime := s.currentTime + seconds, phase := .ticked }

/-- The loop of `psync_timer_register` for a level: `i` and `n` at its end. -/
def levelLoop (numsec : ℕ) : (left i n : ℕ) → ℕ × ℕ
  | 0, i, n => (i, n)
  | left + 1, i, n => if numsec ≤ n then (i, n) else levelLoop numsec left (i + 1) (n * timerArraySize)

/-- The level of a delay, and the delay, which is cut to the largest one. -/
def levelFor (numsec : ℕ) : ℕ × ℕ :=
  let (i, n) := levelLoop numsec timerLevels 0 timerArraySize
  if i = timerLevels then (i - 1, n / timerArraySize) else (i, numsec)

/-- `psync_timer_register`. -/
def State.register (s : State) (id : Id) (numsec : ℕ) : State :=
  let (level, numsec) := levelFor numsec
  let runat := s.currentTime + numsec
  { s with
    timers := Function.update s.timers id (some ⟨numsec, runat, level, false, false⟩)
    lists := s.lists.addTail level (slotOf level runat) id }

/-- `psync_timer_stop`. -/
def State.stop (s : State) (id : Id) : State × ℕ :=
  match s.timers id with
  | none => (s, 0)
  | some t =>
    if t.isRunning then ({ s with timers := Function.update s.timers id (some { t with stopAfterRun := true }) }, 1)
    else ({ s with timers := Function.update s.timers id none, lists := s.lists.del id }, 0)

def State.runat (s : State) (id : Id) : ℕ := ((s.timers id).map Timer.runat).getD 0

/-- `timer_prepare_timers` in `timer_thread`. -/
def State.prepare (s : State) : State :=
  let (lists, list) := prepareTimers s.runat s.lt s.currentTime s.lists
  { s with
    timers := fun id => (s.timers id).map fun t => if id ∈ list then { t with isRunning := true } else t
    lists := lists, run := list, phase := .running }

/-- The loop body of `timer_process_timers`. -/
def State.rearm (s : State) (id : Id) : State :=
  match s.timers id with
  | none => s
  | some t =>
    if t.stopAfterRun then s
    else
      let runat := s.currentTime + t.numsec
      { s with
        timers := Function.update s.timers id (some { t with runat := runat, isRunning := false, stopAfterRun := false })
        lists := s.lists.addTail t.level (slotOf t.level runat) id
        run := s.run.filter (· ≠ id) }

/-- `timer_process_timers` after the callbacks: what is still in the list is freed. -/
def State.process (s : State) : State :=
  let s := s.run.foldl State.rearm s
  { s with timers := fun id => if id ∈ s.run then none else s.timers id, run := [], lt := s.currentTime, phase := .sleeping }

/-- One step of `timer_thread`, or one call. -/
def step (s : State) : Action → Option State
  | .tick seconds => if s.phase = .sleeping ∧ 0 < seconds then some (s.tick seconds) else none
  | .prepare => if s.phase = .ticked then some s.prepare else none
  | .process => if s.phase = .running then some s.process else none
  | .register id numsec =>
    if s.timers id = none ∧ 1 ≤ numsec ∧ numsec ≤ timerArraySize ^ timerLevels then some (s.register id numsec) else none
  | .stop id => if (s.timers id).isSome then some (s.stop id).1 else none

def Step (s : State) (a : Action) (s' : State) : Prop := step s a = some s'

/-- The time up to which the lists have been emptied. -/
def State.done (s : State) : ℕ := if s.phase = .ticked then s.lt else s.currentTime

/-- A timer is registered while a round's time is set and its timers are not taken out yet,
with a delay for which its slot is one that the round is about to empty. -/
def HitsRound (s : State) : Action → Prop
  | .register _ numsec =>
    let (level, numsec) := levelFor numsec
    s.phase = .ticked ∧ s.lt / timerArraySize ^ level + timerArraySize < (s.currentTime + numsec) / timerArraySize ^ level
  | _ => False

/-! ### What is promised -/

/-- How often a timer is in the wheel. -/
def State.listed (s : State) (id : Id) : ℕ :=
  ∑ level ∈ Finset.range timerLevels, ∑ m ∈ Finset.range timerArraySize, (s.lists level m).count id

/-- A timer waits in the wheel. -/
def State.Waits (s : State) (id : Id) (t : Timer) : Prop := s.timers id = some t ∧ s.listed id = 1 ∧ s.run.count id = 0

/-- A timer is in the run list. -/
def State.Runs (s : State) (id : Id) (t : Timer) : Prop := s.timers id = some t ∧ s.listed id = 0 ∧ s.run.count id = 1

/-- The wheel is punctual in a state, and in the next step. -/
structure State.Punctual (s : State) : Prop where
  /-- No timer is lost: it waits, and no round's time has reached `runat`, or it runs, and this
  round's time is the first that has. -/
  placed : ∀ id t, s.timers id = some t →
    s.Waits id t ∧ s.done < t.runat ∨ s.Runs id t ∧ s.lt < t.runat ∧ t.runat ≤ s.currentTime
  /-- A timer that waits runs in this round exactly if the time has reached `runat`. -/
  waiting : ∀ id t a s', s.Waits id t → Step s a s' →
    a = .stop id ∧ s'.timers id = none ∨
    a = .prepare ∧ t.runat ≤ s.currentTime ∧ s'.Runs id { t with isRunning := true } ∨
    (a = .prepare → s.currentTime < t.runat) ∧ s'.Waits id t
  /-- A timer that runs goes on to wait for its next period, unless it was stopped. -/
  running : ∀ id t a s', s.Runs id t → Step s a s' →
    a = .process ∧ t.stopAfterRun ∧ s'.timers id = none ∨
    a = .process ∧ ¬t.stopAfterRun ∧ s'.Waits id { t with runat := s.currentTime + t.numsec, isRunning := false } ∨
    a = .stop id ∧ s'.Runs id { t with stopAfterRun := true } ∨ a ≠ .process ∧ s'.Runs id t

/-! ### Delays -/

variable {s s' : State} {t : Timer} {id x : Id} {numsec : ℕ}

/-- The delay is more than one unit of the level, and not more than all of them. -/
def Timer.Fits (t : Timer) : Prop :=
  t.level < timerLevels ∧ timerArraySize ^ t.level ≤ t.numsec ∧ t.numsec ≤ timerArraySize ^ (t.level + 1)

theorem levelFor_fits (hpos : 1 ≤ numsec) (hmax : numsec ≤ timerArraySize ^ timerLevels) :
    (levelFor numsec).2 = numsec ∧ (levelFor numsec).1 < timerLevels ∧
      timerArraySize ^ (levelFor numsec).1 ≤ numsec ∧ numsec ≤ timerArraySize ^ ((levelFor numsec).1 + 1) := by
  have h₃ : numsec ≤ 262144 := hmax
  by_cases h₁ : numsec ≤ 64
  · have hlevel : levelFor numsec = (0, numsec) := by simp [levelFor, levelLoop, timerArraySize, timerLevels, h₁]
    rw [hlevel]
    exact ⟨rfl, Nat.zero_lt_succ _, hpos, h₁⟩
  · by_cases h₂ : numsec ≤ 4096
    · have hlevel : levelFor numsec = (1, numsec) := by simp [levelFor, levelLoop, timerArraySize, timerLevels, h₁, h₂]
      rw [hlevel]
      exact ⟨rfl, Nat.one_lt_succ_succ _, Nat.le_of_not_le h₁, h₂⟩
    · have hlevel : levelFor numsec = (2, numsec) := by simp [levelFor, levelLoop, timerArraySize, timerLevels, h₁, h₂, h₃]
      rw [hlevel]
      exact ⟨rfl, Nat.lt_succ_self 2, Nat.le_of_not_le h₂, h₃⟩

/-- After a delay that does not hit the round, a deadline is ahead. -/
theorem ahead_of_fits {now time level : ℕ} (hle : now ≤ time) (hlow : timerArraySize ^ level ≤ numsec)
    (hunits : (time + numsec) / timerArraySize ^ level ≤ now / timerArraySize ^ level + timerArraySize) :
    Ahead timerArraySize now level (time + numsec) :=
  ahead_of_delay (by decide) (Nat.add_le_add hle hlow) hunits

/-- A delay counted from the time up to which the lists are emptied hits no slot. -/
theorem units_of_fits {time level : ℕ} (hhigh : numsec ≤ timerArraySize ^ (level + 1)) :
    (time + numsec) / timerArraySize ^ level ≤ time / timerArraySize ^ level + timerArraySize := by
  calc (time + numsec) / timerArraySize ^ level
      ≤ (time + timerArraySize ^ level * timerArraySize) / timerArraySize ^ level := Nat.div_le_div_right (Nat.add_le_add_left hhigh _)
    _ = time / timerArraySize ^ level + timerArraySize := Nat.add_mul_div_left _ _ (Nat.pow_pos (by decide))

/-! ### Where timers are -/

structure State.Waiting (s : State) (id : Id) (t : Timer) : Prop where
  timer : s.timers id = some t
  flags : t.isRunning = false ∧ t.stopAfterRun = false
  placed : ∃ level < timerLevels, s.lists.Placed s.done id t.runat level
  idle : s.run.count id = 0

structure State.Running (s : State) (id : Id) (t : Timer) : Prop where
  timer : s.timers id = some t
  flag : t.isRunning = true
  none : s.lists.Has id none
  once : s.run.count id = 1
  phase : s.phase = .running
  due : s.lt < t.runat ∧ t.runat ≤ s.currentTime

theorem listed_one {level m : ℕ} (h : s.lists.Has id (some (level, m))) (hlevel : level < timerLevels) (hm : m < timerArraySize) :
    s.listed id = 1 := by
  have hterm : ∀ k j, (s.lists k j).count id = if k = level then if j = m then 1 else 0 else 0 := by
    intro k j
    rw [h k j]
    by_cases hk : k = level
    · by_cases hj : j = m
      · simp [hk, hj]
      · simp [hj, Ne.symm hj]
    · simp [hk, Ne.symm hk]
  simp only [State.listed, hterm]
  simp [Finset.sum_ite_eq', hlevel, hm]

theorem listed_none (h : s.lists.Has id none) : s.listed id = 0 := by
  refine Finset.sum_eq_zero fun level _ => Finset.sum_eq_zero fun m _ => ?_
  rw [h level m]
  rfl

theorem State.Waiting.waits (h : s.Waiting id t) : s.Waits id t := by
  obtain ⟨level, hlevel, hplaced⟩ := h.placed
  have hslot : slotOf level t.runat < timerArraySize := Nat.mod_lt _ (by decide)
  exact ⟨h.timer, listed_one hplaced.has hlevel hslot, h.idle⟩

theorem State.Waiting.later (h : s.Waiting id t) : s.done < t.runat := by
  obtain ⟨level, hlevel, hplaced⟩ := h.placed
  exact hplaced.ahead.now_lt

theorem State.Running.runs (h : s.Running id t) : s.Runs id t := ⟨h.timer, listed_none h.none, h.once⟩

/-- What holds in every state of a run. -/
structure State.Sound (s : State) : Prop where
  clock : s.lt ≤ s.currentTime ∧ (s.phase = .sleeping → s.lt = s.currentTime)
  free : ∀ id, s.timers id = none → s.lists.Has id none ∧ s.run.count id = 0
  fits : ∀ id t, s.timers id = some t → t.Fits
  timed : ∀ id t, s.timers id = some t → s.Waiting id t ∨ s.Running id t

theorem State.Sound.of_waits (hs : s.Sound) (h : s.Waits id t) : s.Waiting id t := by
  rcases hs.timed id t h.1 with hw | hr
  · exact hw
  · exact absurd (h.2.2.symm.trans hr.once) (by decide)

theorem State.Sound.of_runs (hs : s.Sound) (h : s.Runs id t) : s.Running id t := by
  rcases hs.timed id t h.1 with hw | hr
  · exact absurd (hw.idle.symm.trans h.2.2) (by decide)
  · exact hr

theorem sound_init (time : ℕ) : (State.init time).Sound where
  clock := ⟨Nat.le_refl _, fun _ => rfl⟩
  free _ _ := ⟨fun _ _ => rfl, rfl⟩
  fits := nofun
  timed := nofun

/-! ### The steps -/

theorem tick_waiting (seconds : ℕ) (hphase : s.phase = .sleeping) (hclock : s.lt = s.currentTime) (h : s.Waiting id t) :
    (s.tick seconds).Waiting id t := by
  refine ⟨h.timer, h.flags, ?_, h.idle⟩
  have hdone : s.done = s.lt := by rw [State.done, hphase, hclock]; rfl
  have hplaced := h.placed
  rwa [hdone] at hplaced

theorem runat_eq (h : s.timers id = some t) : s.runat id = t.runat := by rw [State.runat, h]; rfl

theorem done_ticked (hphase : s.phase = .ticked) : s.done = s.lt := if_pos hphase

theorem prepare_timers (s : State) (id : Id) :
    s.prepare.timers id = (s.timers id).map fun t => if id ∈ s.prepare.run then { t with isRunning := true } else t := rfl

/-- A round takes out a timer exactly if its time is reached. -/
theorem prepare_waiting (hphase : s.phase = .ticked) (hclock : s.lt ≤ s.currentTime) (h : s.Waiting id t) :
    t.runat ≤ s.currentTime ∧ s.prepare.Running id { t with isRunning := true } ∨
      s.currentTime < t.runat ∧ s.prepare.Waiting id t := by
  obtain ⟨level, hlevel, hplaced⟩ := h.placed
  rw [done_ticked hphase, ← runat_eq h.timer] at hplaced
  have hlater := hplaced.ahead.now_lt
  rcases prepareTimers_placed hplaced hlevel hclock with ⟨hdue, hnone, hcount⟩ | ⟨hlate, hstays, hcount⟩
  · rw [runat_eq h.timer] at hdue hlater
    refine .inl ⟨hdue, ?_, rfl, hnone, hcount, rfl, hlater, hdue⟩
    have hmem : id ∈ s.prepare.run := List.count_pos_iff.mp (Nat.lt_of_lt_of_eq Nat.one_pos hcount.symm)
    rw [prepare_timers, h.timer, Option.map_some, if_pos hmem]
  · rw [runat_eq h.timer] at hlate hstays
    refine .inr ⟨hlate, ?_, h.flags, hstays, hcount⟩
    have hmem : id ∉ s.prepare.run := List.count_eq_zero.mp hcount
    rw [prepare_timers, h.timer, Option.map_some, if_neg hmem]

theorem prepare_free (h : s.lists.Has id none) : s.prepare.lists.Has id none ∧ s.prepare.run.count id = 0 :=
  prepareLoop_none _ _ [] h

theorem register_other (hne : x ≠ id) : (s.register x numsec).timers id = s.timers id := Function.update_of_ne hne.symm ..

theorem register_waiting (hne : x ≠ id) (h : s.Waiting id t) : (s.register x numsec).Waiting id t := by
  obtain ⟨level, hlevel, hplaced⟩ := h.placed
  exact ⟨(register_other hne).trans h.timer, h.flags, ⟨level, hlevel, hplaced.has.addTail_other hne, hplaced.ahead⟩, h.idle⟩

theorem register_running (hne : x ≠ id) (h : s.Running id t) : (s.register x numsec).Running id t :=
  ⟨(register_other hne).trans h.timer, h.flag, h.none.addTail_other hne, h.once, h.phase, h.due⟩

/-- A new timer is ahead, unless its slot is one that the round is about to empty. -/
theorem register_new (hs : s.Sound) (hnew : s.timers id = none) (hpos : 1 ≤ numsec) (hmax : numsec ≤ timerArraySize ^ timerLevels)
    (hclear : ¬HitsRound s (.register id numsec)) :
    ∃ t, t.Fits ∧ (s.register id numsec).Waiting id t := by
  obtain ⟨hsame, hlevel, hlow, hhigh⟩ := levelFor_fits hpos hmax
  obtain ⟨hnone, hidle⟩ := hs.free id hnew
  simp only [HitsRound, hsame] at hclear
  simp only [State.register, hsame]
  generalize (levelFor numsec).1 = level at *
  refine ⟨⟨numsec, s.currentTime + numsec, level, false, false⟩, ⟨hlevel, hlow, hhigh⟩, Function.update_self .., ⟨rfl, rfl⟩,
    ⟨level, hlevel, hnone.addTail, ?_⟩, hidle⟩
  show Ahead timerArraySize s.done level (s.currentTime + numsec)
  by_cases hphase : s.phase = .ticked
  · rw [done_ticked hphase]
    exact ahead_of_fits hs.clock.1 hlow (Nat.le_of_not_lt fun hlt => hclear ⟨hphase, hlt⟩)
  · rw [State.done, if_neg hphase]
    exact ahead_of_fits (Nat.le_refl _) hlow (units_of_fits hhigh)

/-! ### Stopping -/

theorem stop_other (hne : x ≠ id) : (s.stop x).1.timers id = s.timers id := by
  unfold State.stop
  split
  · rfl
  · split_ifs
    · exact Function.update_of_ne hne.symm ..
    · exact Function.update_of_ne hne.symm ..

theorem stop_same : (s.stop x).1.run = s.run ∧ (s.stop x).1.currentTime = s.currentTime ∧ (s.stop x).1.lt = s.lt ∧
    (s.stop x).1.phase = s.phase := by
  unfold State.stop
  split
  · exact ⟨rfl, rfl, rfl, rfl⟩
  · split_ifs
    · exact ⟨rfl, rfl, rfl, rfl⟩
    · exact ⟨rfl, rfl, rfl, rfl⟩

theorem stop_has {place : Option (ℕ × ℕ)} (hne : x ≠ id) (h : s.lists.Has id place) : (s.stop x).1.lists.Has id place := by
  unfold State.stop
  split
  · exact h
  · split_ifs
    · exact h
    · exact h.del_other hne

theorem stop_waiting (hne : x ≠ id) (h : s.Waiting id t) : (s.stop x).1.Waiting id t := by
  obtain ⟨level, hlevel, hplaced⟩ := h.placed
  obtain ⟨hrun, htime, hlt, hphase⟩ := stop_same (s := s) (x := x)
  have hdone : (s.stop x).1.done = s.done := by rw [State.done, State.done, htime, hlt, hphase]
  refine ⟨(stop_other hne).trans h.timer, h.flags, ⟨level, hlevel, stop_has hne hplaced.has, ?_⟩, ?_⟩
  · rw [hdone]
    exact hplaced.ahead
  · rw [hrun]
    exact h.idle

theorem stop_running (hne : x ≠ id) (h : s.Running id t) : (s.stop x).1.Running id t := by
  obtain ⟨hrun, htime, hlt, hphase⟩ := stop_same (s := s) (x := x)
  refine ⟨(stop_other hne).trans h.timer, h.flag, stop_has hne h.none, ?_, hphase.trans h.phase, ?_⟩
  · rw [hrun]
    exact h.once
  · rw [hlt, htime]
    exact h.due

/-- A timer that waits is freed. -/
theorem stop_self_waiting (h : s.Waiting id t) :
    (s.stop id).1.timers id = none ∧ (s.stop id).1.lists.Has id none ∧ (s.stop id).1.run.count id = 0 := by
  simp only [State.stop, h.timer, h.flags.1]
  exact ⟨Function.update_self .., .del, h.idle⟩

/-- A timer that runs is freed later. -/
theorem stop_self_running (h : s.Running id t) : (s.stop id).1.Running id { t with stopAfterRun := true } := by
  simp only [State.stop, h.timer, h.flag]
  exact ⟨Function.update_self .., rfl, h.none, h.once, h.phase, h.due⟩

/-! ### The next period -/

theorem rearm_other (hne : x ≠ id) : (s.rearm x).timers id = s.timers id ∧ (s.rearm x).run.count id = s.run.count id ∧
    ∀ place, s.lists.Has id place → (s.rearm x).lists.Has id place := by
  unfold State.rearm
  split
  · exact ⟨rfl, rfl, fun _ h => h⟩
  · split_ifs
    · exact ⟨rfl, rfl, fun _ h => h⟩
    · refine ⟨Function.update_of_ne hne.symm .., ?_, fun _ h => h.addTail_other hne⟩
      rw [List.count_filter]
      simpa using hne.symm

theorem rearm_same : (s.rearm x).currentTime = s.currentTime := by
  unfold State.rearm
  split
  · rfl
  · split_ifs <;> rfl

theorem rearm_all_same (l : List Id) (s : State) : (l.foldl State.rearm s).currentTime = s.currentTime := by
  induction l generalizing s with
  | nil => rfl
  | cons x l ih => rw [List.foldl_cons, ih, rearm_same]

theorem rearm_all_other {l : List Id} (hnot : id ∉ l) (s : State) :
    (l.foldl State.rearm s).timers id = s.timers id ∧ (l.foldl State.rearm s).run.count id = s.run.count id ∧
      ∀ place, s.lists.Has id place → (l.foldl State.rearm s).lists.Has id place := by
  induction l generalizing s with
  | nil => exact ⟨rfl, rfl, fun _ h => h⟩
  | cons x l ih =>
    have hne : x ≠ id := (List.ne_of_not_mem_cons hnot).symm
    have hnot := List.not_mem_of_not_mem_cons hnot
    obtain ⟨htimer, hcount, hhas⟩ := rearm_other (s := s) hne
    obtain ⟨htimers, hcounts, hhass⟩ := ih hnot (s.rearm x)
    exact ⟨htimers.trans htimer, hcounts.trans hcount, fun place h => hhass place (hhas place h)⟩

theorem rearm_stopped (htimer : s.timers id = some t) (hstop : t.stopAfterRun = true) : s.rearm id = s := by
  simp only [State.rearm, htimer, hstop, if_pos]

/-- A timer goes on with its period. -/
theorem rearm_self (htimer : s.timers id = some t) (hgo : t.stopAfterRun = false) (hnone : s.lists.Has id none) :
    (s.rearm id).timers id = some { t with runat := s.currentTime + t.numsec, isRunning := false } ∧
      (s.rearm id).run.count id = 0 ∧
      (s.rearm id).lists.Has id (some (t.level, slotOf t.level (s.currentTime + t.numsec))) := by
  simp only [State.rearm, htimer, hgo]
  refine ⟨Function.update_self .., ?_, hnone.addTail⟩
  rw [List.count_eq_zero]
  simp

theorem process_timers (s : State) (id : Id) :
    s.process.timers id = if id ∈ (s.run.foldl State.rearm s).run then none else (s.run.foldl State.rearm s).timers id := rfl

/-- The timers that are called are put back or freed. -/
theorem process_running (hfits : t.Fits) (h : s.Running id t) :
    t.stopAfterRun = true ∧ s.process.timers id = none ∧ s.process.lists.Has id none ∨
      t.stopAfterRun = false ∧ s.process.Waiting id { t with runat := s.currentTime + t.numsec, isRunning := false } := by
  have hmem : id ∈ s.run := List.count_pos_iff.mp (Nat.lt_of_lt_of_eq Nat.one_pos h.once.symm)
  obtain ⟨before, after, hrun⟩ := List.append_of_mem hmem
  have honce := h.once
  rw [hrun, List.count_append, List.count_cons_self] at honce
  have hbefore : id ∉ before := List.count_eq_zero.mp (by omega)
  have hafter : id ∉ after := List.count_eq_zero.mp (by omega)
  have hall : s.run.foldl State.rearm s = after.foldl State.rearm ((before.foldl State.rearm s).rearm id) := by
    rw [hrun, List.foldl_append, List.foldl_cons]
  obtain ⟨htimer₁, hcount₁, hhas₁⟩ := rearm_all_other hbefore s
  have htime₁ := rearm_all_same before s
  generalize before.foldl State.rearm s = s₁ at *
  obtain ⟨htimer₂, hcount₂, hhas₂⟩ := rearm_all_other hafter (s₁.rearm id)
  rw [← hall] at htimer₂ hcount₂ hhas₂
  rw [h.timer] at htimer₁
  rcases Bool.eq_false_or_eq_true t.stopAfterRun with hstop | hstop
  · rw [rearm_stopped htimer₁ hstop] at hcount₂ hhas₂
    have hleft : id ∈ (s.run.foldl State.rearm s).run := List.count_pos_iff.mp (by rw [hcount₂, hcount₁, h.once]; exact Nat.one_pos)
    refine .inl ⟨hstop, ?_, hhas₂ none (hhas₁ none h.none)⟩
    rw [process_timers, if_pos hleft]
  · obtain ⟨htimer, hcount, hhas⟩ := rearm_self htimer₁ hstop (hhas₁ none h.none)
    rw [htime₁] at htimer hhas
    have hgone : id ∉ (s.run.foldl State.rearm s).run := List.count_eq_zero.mp (by rw [hcount₂, hcount])
    obtain ⟨hlevel, hlow, hhigh⟩ := hfits
    refine .inr ⟨hstop, ?_, ⟨rfl, hstop⟩, ⟨t.level, hlevel, hhas₂ _ hhas, ?_⟩, rfl⟩
    · rw [process_timers, if_neg hgone, htimer₂, htimer]
    · have hdone : s.process.done = s.currentTime := rearm_all_same s.run s
      rw [hdone]
      exact ahead_of_fits (Nat.le_refl _) hlow (units_of_fits hhigh)

theorem process_other (hidle : s.run.count id = 0) :
    s.process.timers id = s.timers id ∧ ∀ place, s.lists.Has id place → s.process.lists.Has id place := by
  obtain ⟨htimer, hcount, hhas⟩ := rearm_all_other (List.count_eq_zero.mp hidle) s
  have hgone : id ∉ (s.run.foldl State.rearm s).run := List.count_eq_zero.mp (by rw [hcount, hidle])
  exact ⟨by rw [process_timers, if_neg hgone, htimer], hhas⟩

theorem process_waiting (hphase : s.phase = .running) (h : s.Waiting id t) : s.process.Waiting id t := by
  obtain ⟨level, hlevel, hplaced⟩ := h.placed
  obtain ⟨htimer, hhas⟩ := process_other h.idle
  have hnow : s.done = s.currentTime := by rw [State.done, hphase]; rfl
  have hdone : s.process.done = s.currentTime := rearm_all_same s.run s
  refine ⟨htimer.trans h.timer, h.flags, ⟨level, hlevel, hhas _ hplaced.has, ?_⟩, rfl⟩
  rw [hdone, ← hnow]
  exact hplaced.ahead

/-! ### Runs -/

inductive Acts (s : State) : Action → State → Prop where
  | tick {seconds : ℕ} : s.phase = .sleeping → Acts s (.tick seconds) (s.tick seconds)
  | prepare : s.phase = .ticked → Acts s .prepare s.prepare
  | process : s.phase = .running → Acts s .process s.process
  | register {id : Id} {numsec : ℕ} : s.timers id = none → 1 ≤ numsec → numsec ≤ timerArraySize ^ timerLevels →
      Acts s (.register id numsec) (s.register id numsec)
  | stop {id : Id} : (s.timers id).isSome → Acts s (.stop id) (s.stop id).1

theorem Step.acts {a : Action} (h : Step s a s') : Acts s a s' := by
  unfold Step step at h
  cases a with
  | tick seconds =>
    obtain ⟨hguard, hs'⟩ := Option.ite_none_right_eq_some.mp h
    exact Option.some_inj.mp hs' ▸ .tick hguard.1
  | prepare =>
    obtain ⟨hguard, hs'⟩ := Option.ite_none_right_eq_some.mp h
    exact Option.some_inj.mp hs' ▸ .prepare hguard
  | process =>
    obtain ⟨hguard, hs'⟩ := Option.ite_none_right_eq_some.mp h
    exact Option.some_inj.mp hs' ▸ .process hguard
  | register id numsec =>
    obtain ⟨⟨hnew, hpos, hmax⟩, hs'⟩ := Option.ite_none_right_eq_some.mp h
    exact Option.some_inj.mp hs' ▸ .register hnew hpos hmax
  | stop id =>
    obtain ⟨hguard, hs'⟩ := Option.ite_none_right_eq_some.mp h
    exact Option.some_inj.mp hs' ▸ .stop hguard

/-- What one step does with a timer that waits. -/
theorem waiting_next {a : Action} (hs : s.Sound) (h : s.Waiting id t) (ha : Acts s a s') :
    a = .stop id ∧ s'.timers id = none ∧ s'.lists.Has id none ∧ s'.run.count id = 0 ∨
      a = .prepare ∧ t.runat ≤ s.currentTime ∧ s'.Running id { t with isRunning := true } ∨
      (a = .prepare → s.currentTime < t.runat) ∧ s'.Waiting id t := by
  cases ha with
  | tick hphase => exact .inr (.inr ⟨nofun, tick_waiting _ hphase (hs.clock.2 hphase) h⟩)
  | prepare hphase =>
    rcases prepare_waiting hphase hs.clock.1 h with ⟨hdue, hrun⟩ | ⟨hlate, hwait⟩
    · exact .inr (.inl ⟨rfl, hdue, hrun⟩)
    · exact .inr (.inr ⟨fun _ => hlate, hwait⟩)
  | process hphase => exact .inr (.inr ⟨nofun, process_waiting hphase h⟩)
  | @register x numsec hnew =>
    have hne : x ≠ id := fun heq => nomatch (heq ▸ hnew).symm.trans h.timer
    exact .inr (.inr ⟨nofun, register_waiting hne h⟩)
  | @stop x hsome =>
    by_cases hx : x = id
    · subst hx
      exact .inl ⟨rfl, stop_self_waiting h⟩
    · exact .inr (.inr ⟨nofun, stop_waiting hx h⟩)

/-- What one step does with a timer that runs. -/
theorem running_next {a : Action} (hs : s.Sound) (h : s.Running id t) (ha : Acts s a s') :
    a = .process ∧ t.stopAfterRun ∧ s'.timers id = none ∧ s'.lists.Has id none ∧ s'.run.count id = 0 ∨
      a = .process ∧ ¬t.stopAfterRun ∧ s'.Waiting id { t with runat := s.currentTime + t.numsec, isRunning := false } ∨
      a = .stop id ∧ s'.Running id { t with stopAfterRun := true } ∨ a ≠ .process ∧ s'.Running id t := by
  cases ha with
  | tick hphase => exact absurd (hphase.symm.trans h.phase) nofun
  | prepare hphase => exact absurd (hphase.symm.trans h.phase) nofun
  | process hphase =>
    rcases process_running (hs.fits id t h.timer) h with ⟨hstop, hnone, hhas⟩ | ⟨hgo, hwait⟩
    · exact .inl ⟨rfl, hstop, hnone, hhas, rfl⟩
    · exact .inr (.inl ⟨rfl, by rw [hgo]; nofun, hwait⟩)
  | @register x numsec hnew =>
    have hne : x ≠ id := fun heq => nomatch (heq ▸ hnew).symm.trans h.timer
    exact .inr (.inr (.inr ⟨nofun, register_running hne h⟩))
  | @stop x hsome =>
    by_cases hx : x = id
    · subst hx
      exact .inr (.inr (.inl ⟨rfl, stop_self_running h⟩))
    · exact .inr (.inr (.inr ⟨nofun, stop_running hx h⟩))

/-- What is allocated after a step was before, or is new. -/
theorem free_next {a : Action} (hs : s.Sound) (hfree : s.timers id = none) (ha : Acts s a s') :
    s'.timers id = none ∧ s'.lists.Has id none ∧ s'.run.count id = 0 ∨ ∃ numsec, a = .register id numsec := by
  obtain ⟨hnone, hidle⟩ := hs.free id hfree
  cases ha with
  | tick hphase => exact .inl ⟨hfree, hnone, hidle⟩
  | prepare hphase =>
    refine .inl ⟨?_, prepare_free hnone⟩
    rw [prepare_timers, hfree, Option.map_none]
  | process hphase =>
    obtain ⟨htimer, hhas⟩ := process_other hidle
    exact .inl ⟨htimer.trans hfree, hhas none hnone, rfl⟩
  | @register x numsec hnew =>
    by_cases hx : x = id
    · subst hx
      exact .inr ⟨numsec, rfl⟩
    · exact .inl ⟨(register_other hx).trans hfree, hnone.addTail_other hx, hidle⟩
  | @stop x hsome =>
    have hne : x ≠ id := by
      rintro rfl
      rw [hfree] at hsome
      exact absurd hsome nofun
    refine .inl ⟨(stop_other hne).trans hfree, stop_has hne hnone, ?_⟩
    rw [stop_same.1]
    exact hidle

/-- After a step that hits no round every timer is in its place. -/
theorem place_next {a : Action} (hs : s.Sound) (hclear : ¬HitsRound s a) (ha : Acts s a s') (id : Id) :
    s'.timers id = none ∧ s'.lists.Has id none ∧ s'.run.count id = 0 ∨ ∃ t : Timer, t.Fits ∧ (s'.Waiting id t ∨ s'.Running id t) := by
  cases ht : s.timers id with
  | none =>
    rcases free_next hs ht ha with hfree | ⟨numsec, rfl⟩
    · exact .inl hfree
    · cases ha with
      | register hnew hpos hmax =>
        obtain ⟨t, hfits, hwait⟩ := register_new hs hnew hpos hmax hclear
        exact .inr ⟨t, hfits, .inl hwait⟩
  | some t =>
    have hfits := hs.fits id t ht
    rcases hs.timed id t ht with hw | hr
    · rcases waiting_next hs hw ha with ⟨-, hfree⟩ | ⟨-, -, hrun⟩ | ⟨-, hwait⟩
      · exact .inl hfree
      · exact .inr ⟨{ t with isRunning := true }, hfits, .inr hrun⟩
      · exact .inr ⟨t, hfits, .inl hwait⟩
    · rcases running_next hs hr ha with ⟨-, -, hfree⟩ | ⟨-, -, hwait⟩ | ⟨-, hrun⟩ | ⟨-, hrun⟩
      · exact .inl hfree
      · exact .inr ⟨{ t with runat := s.currentTime + t.numsec, isRunning := false }, hfits, .inl hwait⟩
      · exact .inr ⟨{ t with stopAfterRun := true }, hfits, .inr hrun⟩
      · exact .inr ⟨t, hfits, .inr hrun⟩

theorem clock_next {a : Action} (hs : s.Sound) (ha : Acts s a s') :
    s'.lt ≤ s'.currentTime ∧ (s'.phase = .sleeping → s'.lt = s'.currentTime) := by
  obtain ⟨hle, hsleeping⟩ := hs.clock
  cases ha with
  | tick hphase => exact ⟨Nat.le_trans hle (Nat.le_add_right ..), nofun⟩
  | prepare hphase => exact ⟨hle, nofun⟩
  | process hphase => exact ⟨Nat.le_refl _, fun _ => rfl⟩
  | register => exact ⟨hle, hsleeping⟩
  | @stop x hsome =>
    obtain ⟨-, htime, hlt, hphase⟩ := stop_same (s := s) (x := x)
    rw [htime, hlt, hphase]
    exact ⟨hle, hsleeping⟩

/-- A step that hits no round keeps everything in place. -/
theorem step_sound {a : Action} (hs : s.Sound) (hclear : ¬HitsRound s a) (ha : Acts s a s') : s'.Sound := by
  have hplace := place_next hs hclear ha
  refine ⟨clock_next hs ha, fun id hnone => ?_, fun id t ht => ?_, fun id t ht => ?_⟩
  · rcases hplace id with ⟨-, hfree⟩ | ⟨t, -, hw | hr⟩
    · exact hfree
    · exact nomatch hnone.symm.trans hw.timer
    · exact nomatch hnone.symm.trans hr.timer
  · rcases hplace id with ⟨hnone, -⟩ | ⟨t', hfits, hw | hr⟩
    · exact nomatch ht.symm.trans hnone
    · obtain rfl : t = t' := Option.some_inj.mp (ht.symm.trans hw.timer)
      exact hfits
    · obtain rfl : t = t' := Option.some_inj.mp (ht.symm.trans hr.timer)
      exact hfits
  · rcases hplace id with ⟨hnone, -⟩ | ⟨t', hfits, hw | hr⟩
    · exact nomatch ht.symm.trans hnone
    · obtain rfl : t = t' := Option.some_inj.mp (ht.symm.trans hw.timer)
      exact .inl hw
    · obtain rfl : t = t' := Option.some_inj.mp (ht.symm.trans hr.timer)
      exact .inr hr

/-- What is promised follows. -/
theorem State.Sound.punctual (hs : s.Sound) : s.Punctual where
  placed id t ht := by
    rcases hs.timed id t ht with hw | hr
    · exact .inl ⟨hw.waits, hw.later⟩
    · exact .inr ⟨hr.runs, hr.due⟩
  waiting id t a s' h hstep := by
    rcases waiting_next hs (hs.of_waits h) hstep.acts with ⟨ha, hfree, -⟩ | ⟨ha, hdue, hrun⟩ | ⟨hlate, hwait⟩
    · exact .inl ⟨ha, hfree⟩
    · exact .inr (.inl ⟨ha, hdue, hrun.runs⟩)
    · exact .inr (.inr ⟨hlate, hwait.waits⟩)
  running id t a s' h hstep := by
    rcases running_next hs (hs.of_runs h) hstep.acts with ⟨ha, hstop, hfree, -⟩ | ⟨ha, hgo, hwait⟩ | ⟨ha, hrun⟩ | ⟨ha, hrun⟩
    · exact .inl ⟨ha, hstop, hfree⟩
    · exact .inr (.inl ⟨ha, hgo, hwait.waits⟩)
    · exact .inr (.inr (.inl ⟨ha, hrun.runs⟩))
    · exact .inr (.inr (.inr ⟨ha, hrun.runs⟩))

/-- Unless a timer is registered in a round so that it hits it, the wheel is punctual in every
state of every run. -/
theorem wheel_punctual (time : ℕ) (h : Reachable (· = State.init time) (Avoiding Step HitsRound) s) : s.Punctual := by
  have hsound : s.Sound := h.invariant
    (fun _ hinit => hinit ▸ sound_init time)
    (fun _ _ _ hs hstep => step_sound hs hstep.2 hstep.1.acts)
  exact hsound.punctual

/-- A timer of one second, registered after a round's time was set, is put back for its next. -/
theorem wheel_punctual_second : ∃ s : State, s.Waits 7 ⟨1, 103, 0, false, false⟩ ∧ s.Punctual := by
  have hclear : ¬HitsRound ((State.init 100).tick 1) (.register 7 1) := fun hits =>
    absurd (show 100 / 64 ^ 0 + 64 < (101 + 1) / 64 ^ 0 from hits.2) (by decide)
  have h : Reachable (· = State.init 100) (Avoiding Step HitsRound) (State.init 100) := .start rfl
  have h := h.next (a := .tick 1) ⟨(rfl : step _ _ = some (State.tick _ 1)), nofun⟩
  have h := h.next (a := .register 7 1) ⟨(rfl : step _ _ = some (State.register _ 7 1)), hclear⟩
  have h := h.next (a := .prepare) ⟨(rfl : step _ _ = some (State.prepare _)), nofun⟩
  have h := h.next (a := .process) ⟨(rfl : step _ _ = some (State.process _)), nofun⟩
  have h := h.next (a := .tick 1) ⟨(rfl : step _ _ = some (State.tick _ 1)), nofun⟩
  have h := h.next (a := .prepare) ⟨(rfl : step _ _ = some (State.prepare _)), nofun⟩
  have h := h.next (a := .process) ⟨(rfl : step _ _ = some (State.process _)), nofun⟩
  exact ⟨_, ⟨rfl, by decide, rfl⟩, wheel_punctual 100 h⟩

/-- A timer of 64 seconds that hits the round runs at once. -/
theorem delay_of_64_hits_round : ∃ s : State, Reachable (· = State.init 100) Step s ∧
    s.Runs 7 ⟨64, 165, 0, true, false⟩ ∧ s.currentTime = 101 ∧ ¬s.Punctual := by
  have h : Reachable (· = State.init 100) Step (State.init 100) := .start rfl
  have h := h.next (a := .tick 1) (rfl : step _ _ = some (State.tick _ 1))
  have h := h.next (a := .register 7 64) (rfl : step _ _ = some (State.register _ 7 64))
  have h := h.next (a := .prepare) (rfl : step _ _ = some (State.prepare _))
  refine ⟨_, h, ⟨rfl, by decide, rfl⟩, rfl, fun hp => ?_⟩
  rcases hp.placed 7 _ rfl with ⟨⟨-, hlisted, -⟩, -⟩ | ⟨-, -, hdue⟩
  · exact absurd hlisted (by decide)
  · exact absurd hdue (by decide)

end Pclsync.Timers
