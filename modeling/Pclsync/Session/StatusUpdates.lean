import Mathlib.Logic.Function.Basic
import Mathlib.Tactic.Ring
import Pclsync.Lib.Transition

/-! The status that the user sees. A thread changes `psync_status` and calls `psync_send_status_update` after it, and
`status_change_thread` calls the callback, after a sleep that keeps the calls apart. `statuschanges` is `-1` while the
thread waits for a signal, and else counts the updates since the last call. -/
namespace Pclsync.Session.StatusUpdates
open Lib.Transition

/-- Where `status_change_thread` is. -/
inductive Phase where
  | unstarted
  /-- In `psync_milisleep`. -/
  | sleeping
  /-- In `pthread_cond_wait`. -/
  | parked
  /-- Woken, and not yet given the mutex. -/
  | woken
  /-- It will call the callback, if the program goes on. -/
  | calling
  | ended
deriving DecidableEq

/-- The `k`-th change of `psync_status` is known by its number. -/
structure State (T : Type) where
  statuschanges : ℤ
  statusthreadrunning : Bool
  phase : Phase
  /-- The changes so far. -/
  changes : ℕ
  /-- The changes before `psync_set_status_callback`. -/
  early : ℕ
  /-- The last change that the callback saw. -/
  shown : ℕ
  /-- The change that a thread made, and did not yet send an update for. -/
  unsent : T → Option ℕ

variable {T : Type}

structure Initial (s : State T) : Prop where
  statuschanges : s.statuschanges = 0
  statusthreadrunning : s.statusthreadrunning = false
  phase : s.phase = .unstarted

/-- `if (++statuschanges==0){ statuschanges++; pthread_cond_signal(&statuscond); }` -/
def State.count (s : State T) : State T :=
  if s.statuschanges + 1 = 0 then
    { s with statuschanges := 1, phase := if s.phase = .parked then .woken else s.phase }
  else { s with statuschanges := s.statuschanges + 1 }

/-- What the thread does with the mutex: it waits, or takes the changes. -/
def State.look (s : State T) : State T :=
  if s.statuschanges ≤ 0 then { s with statuschanges := -1, phase := .parked }
  else { s with statuschanges := 0, phase := .calling }

variable [DecidableEq T]

/-- A step of one of the threads that change the status, or of `status_change_thread`, which is nobody. -/
inductive Step (s : State T) : Option T → State T → Prop where
  | change {t : T} : s.unsent t = none →
      Step s (some t) { s with changes := s.changes + 1, unsent := Function.update s.unsent t (some (s.changes + 1)) }
  /-- `psync_send_status_update` -/
  | send {t : T} {k : ℕ} : s.unsent t = some k → s.statusthreadrunning = true →
      Step s (some t) { s.count with unsent := Function.update s.unsent t none }
  | drop {t : T} {k : ℕ} : s.unsent t = some k → s.statusthreadrunning = false →
      Step s (some t) { s with unsent := Function.update s.unsent t none }
  /-- `psync_set_status_callback` -/
  | setCallback : s.statusthreadrunning = false → Step s none { s with statusthreadrunning := true, early := s.changes }
  | start : s.statusthreadrunning = true → s.phase = .unstarted → Step s none { s with phase := .sleeping }
  | look : s.phase = .sleeping ∨ s.phase = .woken → Step s none s.look
  /-- Condition variables also wake when nobody signals. -/
  | wake : s.phase = .parked → Step s none { s with phase := .woken }
  | call : s.phase = .calling → Step s none { s with phase := .sleeping, shown := s.changes }
  | leave : s.phase = .calling → Step s none { s with phase := .ended }

/-- Somebody has still to send an update for every change that was not shown. -/
def State.Promised (s : State T) : Prop := ∀ k, s.early < k → k ≤ s.changes → k ≤ s.shown ∨ ∃ t, s.unsent t = some k

structure Sound (s : State T) : Prop where
  counted : -1 ≤ s.statuschanges
  parked : s.phase = .parked → s.statuschanges = -1
  unset : s.statusthreadrunning = false → s.phase = .unstarted ∧ s.statuschanges = 0
  promised : s.statusthreadrunning = true → s.statuschanges ≤ 0 → s.phase ≠ .calling → s.phase ≠ .ended → s.Promised

variable {s s' : State T} {t : Option T}

omit [DecidableEq T] in
theorem Initial.sound (h : Initial s) : Sound s := by
  refine ⟨by simp [h.statuschanges], fun hp => ?_, fun _ => ⟨h.phase, h.statuschanges⟩, fun hrun => ?_⟩
  · rw [h.phase] at hp
    cases hp
  · rw [h.statusthreadrunning] at hrun
    cases hrun

omit [DecidableEq T] in
/-- An update is counted, so the thread will not wait before it looks. -/
theorem Sound.count_pos (h : Sound s) : 0 < s.count.statuschanges ∧ s.count.phase ≠ .parked := by
  have hcounted := h.counted
  unfold State.count
  split_ifs with hzero hp
  · simp
  · exact ⟨by simp, hp⟩
  · refine ⟨by show 0 < s.statuschanges + 1; omega, fun hp => hzero ?_⟩
    rw [h.parked hp]
    rfl

theorem Sound.step (h : Sound s) (hstep : Step s t s') : Sound s' := by
  cases hstep with
  | @change t hnone =>
    refine ⟨h.counted, h.parked, h.unset, fun hrun hle hcalling hended k hearly hk => ?_⟩
    rcases Nat.lt_or_ge s.changes k with hlt | hle'
    · obtain rfl : k = s.changes + 1 := by
        have : k ≤ s.changes + 1 := hk
        omega
      exact .inr ⟨t, Function.update_self ..⟩
    · refine (h.promised hrun hle hcalling hended k hearly hle').imp_right fun hsome => ?_
      obtain ⟨u, hu⟩ := hsome
      have hne : u ≠ t := by
        rintro rfl
        rw [hnone] at hu
        cases hu
      exact ⟨u, (Function.update_of_ne hne ..).trans hu⟩
  | send hsome hrun =>
    obtain ⟨hpos, hparked⟩ := h.count_pos
    refine ⟨?_, fun hp => absurd hp hparked, fun hno => ?_, fun _ hle => absurd hpos (not_lt.mpr hle)⟩
    · exact le_trans (by decide) hpos.le
    · have hsame : s.count.statusthreadrunning = s.statusthreadrunning := by
        unfold State.count
        split_ifs <;> rfl
      rw [hsame.trans hrun] at hno
      cases hno
  | drop hsome hno =>
    refine ⟨h.counted, h.parked, h.unset, fun hrun => ?_⟩
    rw [hno] at hrun
    cases hrun
  | setCallback hno => exact ⟨h.counted, h.parked, nofun, fun _ _ _ _ k hearly hk => absurd hk (Nat.not_le.mpr hearly)⟩
  | start hrun hp =>
    refine ⟨h.counted, nofun, fun hno => absurd (hrun.symm.trans hno) (by decide), fun _ hle _ _ => ?_⟩
    exact h.promised hrun hle (by rw [hp]; decide) (by rw [hp]; decide)
  | look hp =>
    have hrun : s.statusthreadrunning = true := by
      by_contra hno
      obtain ⟨hunstarted, -⟩ := h.unset (Bool.eq_false_iff.mpr hno)
      rw [hunstarted] at hp
      rcases hp with hp | hp <;> cases hp
    unfold State.look
    split_ifs with hle
    · refine ⟨by simp, fun _ => rfl, fun hno => absurd (hrun.symm.trans hno) (by decide), fun _ _ _ _ => ?_⟩
      exact h.promised hrun hle (by rcases hp with hp | hp <;> rw [hp] <;> decide) (by rcases hp with hp | hp <;> rw [hp] <;> decide)
    · exact ⟨by simp, nofun, fun hno => absurd (hrun.symm.trans hno) (by decide), fun _ _ hcalling => absurd rfl hcalling⟩
  | wake hp =>
    refine ⟨h.counted, nofun, fun hno => ?_, fun hrun hle _ _ => h.promised hrun hle (by rw [hp]; decide) (by rw [hp]; decide)⟩
    cases hp.symm.trans (h.unset hno).1
  | call hp =>
    refine ⟨h.counted, nofun, fun hno => ?_, fun _ _ _ _ k _ hk => .inl hk⟩
    cases hp.symm.trans (h.unset hno).1
  | leave hp =>
    refine ⟨h.counted, nofun, fun hno => ?_, fun _ _ _ hended => absurd rfl hended⟩
    cases hp.symm.trans (h.unset hno).1

/-- **No update is lost**: when the thread waits for a signal, the callback saw every change that was made after it was set,
but for those whose update is still to be sent, and then wakes it. -/
theorem updates_shown (s : State T) (h : Reachable Initial Step s) (hp : s.phase = .parked) (k : ℕ) (hearly : s.early < k)
    (hk : k ≤ s.changes) : k ≤ s.shown ∨ ∃ t, s.unsent t = some k ∧ s.count.phase = .woken := by
  have hs : Sound s := h.invariant (fun _ h => h.sound) fun _ _ _ h hstep => h.step hstep
  have hrun : s.statusthreadrunning = true := by
    by_contra hno
    cases hp.symm.trans (hs.unset (Bool.eq_false_iff.mpr hno)).1
  have hwait := hs.parked hp
  refine (hs.promised hrun (by rw [hwait]; decide) (by rw [hp]; decide) (by rw [hp]; decide) k hearly hk).imp_right fun hsome => ?_
  obtain ⟨t, ht⟩ := hsome
  refine ⟨t, ht, ?_⟩
  rw [State.count, if_pos (by rw [hwait]; rfl), hp]
  rfl

/-- The second thread changes the status while the update of the first is shown. -/
theorem updates_shown_one : ∃ s : State Bool, s.phase = .parked ∧ s.changes = 2 ∧ s.shown = 2 ∧
    (2 ≤ s.shown ∨ ∃ t, s.unsent t = some 2 ∧ s.count.phase = .woken) := by
  have h : Reachable Initial Step (⟨0, false, .unstarted, 0, 0, 0, fun _ => none⟩ : State Bool) := .start ⟨rfl, rfl, rfl⟩
  have h := h.next (.setCallback rfl)
  have h := h.next (.start rfl rfl)
  have h := h.next (.look (.inl rfl))
  have h := h.next (.change (t := false) rfl)
  have h := h.next (.send (t := false) rfl rfl)
  have h := h.next (.look (.inr rfl))
  have h := h.next (.change (t := true) rfl)
  have h := h.next (.call rfl)
  have h := h.next (.send (t := true) rfl rfl)
  have h := h.next (.look (.inl rfl))
  have h := h.next (.call rfl)
  have h := h.next (.look (.inl rfl))
  exact ⟨_, rfl, rfl, rfl, updates_shown _ h rfl 2 (by decide) (by decide)⟩

end Pclsync.Session.StatusUpdates
