import Pclsync.Lib.Counting
import Pclsync.Lib.Transition

/-! The threads that wait for statuses. `psync_set_status` changes a status and wakes those that wait,
`psync_wait_status` waits until one status has one of some values or the program ends, and
`psync_wait_statuses_array` until each of several statuses has. -/
namespace Pclsync.Session.StatusWaits
open Lib.Transition Lib.Census

/-- A status, and the bits of the values that will do. -/
structure Await where
  statusid : ℕ
  status : ℕ

/-- `PSTATUS_COMBINE` taken apart. -/
def Await.ofCombined (combined : ℕ) : Await := ⟨combined >>> 24, combined &&& 0x00ffffff⟩

inductive Wait where
  /-- `psync_wait_status` -/
  | status (a : Await)
  /-- `psync_wait_statuses_array` -/
  | statusesArray (combinedstatuses : List ℕ)

def Wait.awaits : Wait → List Await
  | .status a => [a]
  | .statusesArray combinedstatuses => combinedstatuses.map .ofCombined

/-- Only `psync_wait_statuses_array` looks at all its statuses again after it waited, and only it does not
look at `psync_do_run`. -/
def Wait.several : Wait → Bool
  | .status _ => false
  | .statusesArray _ => true

/-- Where a thread is. -/
inductive Phase where
  | out
  /-- It has the mutex, and the statuses from `rest` on are still to be looked at. -/
  | testing (w : Wait) (rest : List Await) (waited : Bool)
  /-- It has the mutex, and will wait for `a`. -/
  | waiting (w : Wait) (a : Await) (rest : List Await)
  /-- In `pthread_cond_wait`. -/
  | parked (w : Wait) (a : Await) (rest : List Await)
  /-- Woken, and not yet given the mutex. -/
  | woken (w : Wait) (a : Await) (rest : List Await)
  /-- It has the mutex, and will return. -/
  | returning (w : Wait)

def Phase.HasMutex : Phase → Prop
  | .testing .. | .waiting .. | .returning _ => True
  | _ => False

/-- What `status_waiters` counts. -/
def Phase.Counted : Phase → Prop
  | .parked .. | .woken .. => True
  | _ => False

instance : DecidablePred Phase.Counted
  | .parked .. | .woken .. => inferInstanceAs (Decidable True)
  | .out | .testing .. | .waiting .. | .returning _ => inferInstanceAs (Decidable False)

def Phase.signal : Phase → Phase
  | .parked w a rest => .woken w a rest
  | p => p

structure State (T : Type) where
  statuses : ℕ → ℕ
  statusmutex : Option T
  statusWaiters : ℕ
  /-- `psync_do_run` -/
  doRun : Bool
  phase : T → Phase
  /-- `psync_terminate_status_waiters` was called after `psync_do_run` was cleared. -/
  terminated : Bool

variable {T : Type}

def State.Has (s : State T) (a : Await) : Prop := s.statuses a.statusid &&& a.status ≠ 0

instance (s : State T) (a : Await) : Decidable (s.Has a) := inferInstanceAs (Decidable (_ ≠ _))

/-- `if (status_waiters) pthread_cond_broadcast(&statuscond)` -/
def State.broadcast (s : State T) (u : T) : Phase := if s.statusWaiters ≠ 0 then (s.phase u).signal else s.phase u

structure Initial (s : State T) : Prop where
  statusmutex : s.statusmutex = none
  statusWaiters : s.statusWaiters = 0
  phase : ∀ t, s.phase t = .out
  terminated : s.terminated = false

variable [DecidableEq T]

def State.go (s : State T) (t : T) (p : Phase) : State T := { s with phase := Function.update s.phase t p }

/-- A step of the thread `t`. What `psync_set_status` does with the mutex is one step. -/
inductive Step (s : State T) (t : T) : State T → Prop where
  | call (w : Wait) : s.phase t = .out → s.statusmutex = none →
      Step s t { s.go t (.testing w w.awaits false) with statusmutex := some t }
  | pass {w : Wait} {a : Await} {rest : List Await} {waited : Bool} : s.phase t = .testing w (a :: rest) waited → s.Has a →
      Step s t (s.go t (.testing w rest waited))
  /-- `psync_wait_status` leaves its loop when the program ends. -/
  | giveUp {w : Wait} {a : Await} {rest : List Await} {waited : Bool} : s.phase t = .testing w (a :: rest) waited →
      ¬s.Has a → w.several = false → s.doRun = false → Step s t (s.go t (.returning w))
  | fail {w : Wait} {a : Await} {rest : List Await} {waited : Bool} : s.phase t = .testing w (a :: rest) waited →
      ¬s.Has a → (w.several = true ∨ s.doRun = true) → Step s t (s.go t (.waiting w a rest))
  | park {w : Wait} {a : Await} {rest : List Await} : s.phase t = .waiting w a rest →
      Step s t { s.go t (.parked w a rest) with statusmutex := none, statusWaiters := s.statusWaiters + 1 }
  /-- Condition variables also wake when nobody signals. -/
  | wake {w : Wait} {a : Await} {rest : List Await} : s.phase t = .parked w a rest → Step s t (s.go t (.woken w a rest))
  | lock {w : Wait} {a : Await} {rest : List Await} : s.phase t = .woken w a rest → s.statusmutex = none →
      Step s t { s.go t (.testing w (a :: rest) w.several) with statusmutex := some t, statusWaiters := s.statusWaiters - 1 }
  /-- `while (waited)` -/
  | again {w : Wait} : s.phase t = .testing w [] true → Step s t (s.go t (.testing w w.awaits false))
  | finish {w : Wait} : s.phase t = .testing w [] false → Step s t (s.go t (.returning w))
  | unlock {w : Wait} : s.phase t = .returning w → Step s t { s.go t .out with statusmutex := none }
  | setStatus (statusid status : ℕ) : s.phase t = .out → s.statusmutex = none →
      Step s t { s with statuses := Function.update s.statuses statusid status, phase := s.broadcast }
  | stop : Step s t { s with doRun := false }
  | terminateStatusWaiters : s.phase t = .out → s.statusmutex = none →
      Step s t { s with phase := s.broadcast, terminated := s.terminated || !s.doRun }

/-! ### The invariant -/

/-- What is known of a thread from where it is. -/
def State.Fine (s : State T) : Phase → Prop
  | .out => True
  | .testing w rest waited => ∃ seen, w.awaits = seen ++ rest ∧ (waited = false → ∀ a ∈ seen, s.Has a)
  | .waiting w a rest | .parked w a rest =>
    (∃ seen, w.awaits = seen ++ a :: rest) ∧ ¬s.Has a ∧ (s.terminated = true → w.several = true)
  | .woken w a rest => ∃ seen, w.awaits = seen ++ a :: rest
  | .returning w => (∀ a ∈ w.awaits, s.Has a) ∨ w.several = false ∧ s.doRun = false

structure Sound (s : State T) : Prop where
  mutex : ∀ t, s.statusmutex = some t ↔ (s.phase t).HasMutex
  count : Counts (fun t => (s.phase t).Counted) s.statusWaiters
  stopped : s.terminated = true → s.doRun = false
  fine : ∀ t, s.Fine (s.phase t)

variable {s s' : State T} {t : T} {p : Phase}

omit [DecidableEq T] in
theorem Initial.sound (h : Initial s) : Sound s where
  mutex t := by simp [h.statusmutex, h.phase, Phase.HasMutex]
  count := by
    rw [h.statusWaiters]
    exact counts_none fun t => by simp [h.phase, Phase.Counted]
  stopped ht := by simp [h.terminated] at ht
  fine t := by simp [h.phase, State.Fine]

@[simp] theorem go_self (s : State T) (t : T) (p : Phase) : (s.go t p).phase t = p := Function.update_self ..

theorem go_other (s : State T) (p : Phase) {t u : T} (hu : u ≠ t) : (s.go t p).phase u = s.phase u := Function.update_of_ne hu _ _

/-- One thread goes on. Whether it has the mutex is right again, and the others are as they were. -/
theorem Sound.move (h : Sound s) {statusmutex : Option T} {statusWaiters : ℕ} (hself : statusmutex = some t ↔ p.HasMutex)
    (hothers : ∀ u ≠ t, statusmutex = some u ↔ s.statusmutex = some u)
    (hcount : statusWaiters + (if (s.phase t).Counted then 1 else 0) = s.statusWaiters + if p.Counted then 1 else 0)
    (hfine : s.Fine p) : Sound { s.go t p with statusmutex := statusmutex, statusWaiters := statusWaiters } where
  mutex u := by
    show statusmutex = some u ↔ ((s.go t p).phase u).HasMutex
    by_cases hu : u = t
    · rw [hu, go_self, hself]
    · rw [go_other s p hu, hothers u hu, h.mutex u]
  count := by
    refine h.count.move (t := t) (fun u hu => ?_) ?_
    · show ((s.go t p).phase u).Counted ↔ _
      rw [go_other s p hu]
    · simp only [go_self]
      exact hcount
  stopped := h.stopped
  fine u := by
    show s.Fine ((s.go t p).phase u)
    by_cases hu : u = t
    · rwa [hu, go_self]
    · rw [go_other s p hu]
      exact h.fine u

/-- A thread that has the mutex keeps it. -/
theorem Sound.keep (h : Sound s) (hhas : (s.phase t).HasMutex) (hp : p.HasMutex) (hfine : s.Fine p) : Sound (s.go t p) := by
  have hmutex := (h.mutex t).mpr hhas
  have hcounted : ∀ {q : Phase}, q.HasMutex → ¬q.Counted := by
    intro q hq
    cases q <;> simp_all [Phase.HasMutex, Phase.Counted]
  exact h.move (iff_of_true hmutex hp) (fun _ _ => Iff.rfl) (by rw [if_neg (hcounted hhas), if_neg (hcounted hp)]) hfine

omit [DecidableEq T] in
/-- After a broadcast nobody is parked. -/
theorem Sound.broadcast (h : Sound s) (t : T) : ∀ w a rest, s.broadcast t ≠ .parked w a rest := by
  intro w a rest
  unfold State.broadcast
  by_cases hzero : s.statusWaiters = 0
  · rw [if_neg (not_not.mpr hzero)]
    intro hp
    have hpos := h.count.pos (t := t) (by rw [hp]; trivial)
    omega
  · rw [if_pos hzero]
    cases s.phase t <;> simp [Phase.signal]

omit [DecidableEq T] in
/-- What is changed while nobody has the mutex, and everybody is woken. -/
theorem Sound.announce (h : Sound s) (hnone : s.statusmutex = none) (statuses : ℕ → ℕ) (terminated : Bool)
    (hstopped : terminated = true → s.doRun = false) :
    Sound { s with statuses := statuses, phase := s.broadcast, terminated := terminated } := by
  have hfree : ∀ u, ¬(s.phase u).HasMutex := fun u hu => by
    have := (h.mutex u).mpr hu
    rw [hnone] at this
    cases this
  have hsignal : ∀ u, ((s.broadcast u).HasMutex ↔ (s.phase u).HasMutex) ∧ ((s.broadcast u).Counted ↔ (s.phase u).Counted) := by
    intro u
    unfold State.broadcast
    split_ifs
    · cases s.phase u <;> simp [Phase.signal, Phase.HasMutex, Phase.Counted]
    · simp
  refine ⟨fun u => (h.mutex u).trans (hsignal u).1.symm, h.count.congr fun u => (hsignal u).2.symm, hstopped, fun u => ?_⟩
  have hparked := h.broadcast u
  have hhas := (hsignal u).1.not.mpr (hfree u)
  have hfine := h.fine u
  show State.Fine _ (s.broadcast u)
  cases hp : s.broadcast u with
  | out => trivial
  | parked w a rest => exact absurd hp (hparked w a rest)
  | woken w a rest =>
    unfold State.broadcast at hp
    cases hs : s.phase u <;> rw [hs] at hp hfine <;> split_ifs at hp <;> cases hp
    · exact hfine.1
    · exact hfine
    · exact hfine
  | testing | waiting | returning => exact absurd (by rw [hp]; trivial) hhas

theorem Sound.step (h : Sound s) (hstep : Step s t s') : Sound s' := by
  have hnobody : ∀ {m : Option T}, m = some t → ∀ u ≠ t, none = some u ↔ m = some u := by
    rintro m rfl u hu
    simp [Ne.symm hu]
  have hfine := h.fine t
  cases hstep with
  | call w hout hnone =>
    refine h.move (by simp [Phase.HasMutex]) (fun u hu => ?_) (by simp [hout, Phase.Counted, State.go]) ⟨[], rfl, by simp⟩
    rw [hnone]
    exact (hnobody rfl u hu).symm
  | @pass w a rest waited hp hhas =>
    rw [hp] at hfine
    obtain ⟨seen, hseen, hall⟩ := hfine
    refine h.keep (by rw [hp]; trivial) trivial ⟨seen ++ [a], by rw [hseen]; simp, fun hw b hb => ?_⟩
    rcases List.mem_append.mp hb with hb | hb
    · exact hall hw b hb
    · rwa [List.mem_singleton.mp hb]
  | giveUp hp hnot hone hrun => exact h.keep (by rw [hp]; trivial) trivial (.inr ⟨hone, hrun⟩)
  | fail hp hnot hgo =>
    rw [hp] at hfine
    obtain ⟨seen, hseen, -⟩ := hfine
    refine h.keep (by rw [hp]; trivial) trivial ⟨⟨seen, hseen⟩, hnot, fun hended => hgo.resolve_right ?_⟩
    rw [h.stopped hended]
    decide
  | park hp =>
    have hmutex := (h.mutex t).mpr (by rw [hp]; trivial)
    rw [hp] at hfine
    exact h.move (by simp [Phase.HasMutex]) (hnobody hmutex) (by simp [hp, Phase.Counted]) hfine
  | wake hp =>
    have hmutex := (h.mutex t).not.mpr (by rw [hp]; exact id)
    rw [hp] at hfine
    exact h.move (iff_of_false hmutex id) (fun _ _ => Iff.rfl) (by simp [hp, Phase.Counted]) hfine.1
  | @lock w a rest hp hnone =>
    have hpos := h.count.pos (t := t) (by rw [hp]; trivial)
    rw [hp] at hfine
    obtain ⟨seen, hseen⟩ := hfine
    refine h.move (by simp [Phase.HasMutex]) (fun u hu => ?_) (by simp [hp, Phase.Counted]; omega) ⟨seen, hseen, ?_⟩
    · rw [hnone]
      exact (hnobody rfl u hu).symm
    · intro hone b hb
      cases w with
      | statusesArray => cases hone
      | status =>
        -- the only status has none before it
        have hlength := congrArg List.length hseen
        simp only [Wait.awaits, List.length_append, List.length_cons, List.length_nil] at hlength
        rw [List.eq_nil_of_length_eq_zero (l := seen) (by omega)] at hb
        cases hb
  | again hp => exact h.keep (by rw [hp]; trivial) trivial ⟨[], rfl, by simp⟩
  | finish hp =>
    rw [hp] at hfine
    obtain ⟨seen, hseen, hall⟩ := hfine
    rw [List.append_nil] at hseen
    exact h.keep (by rw [hp]; trivial) trivial (.inl fun a ha => hall rfl a (hseen ▸ ha))
  | unlock hp =>
    have hmutex := (h.mutex t).mpr (by rw [hp]; trivial)
    exact h.move (by simp [Phase.HasMutex]) (hnobody hmutex) (by simp [hp, Phase.Counted, State.go]) trivial
  | setStatus statusid status hout hnone => exact h.announce hnone _ _ h.stopped
  | stop =>
    refine ⟨h.mutex, h.count, fun _ => rfl, fun u => ?_⟩
    have hfine := h.fine u
    show State.Fine _ (s.phase u)
    cases hp : s.phase u <;> rw [hp] at hfine
    case returning => exact hfine.imp_right fun hone => ⟨hone.1, rfl⟩
    all_goals exact hfine
  | terminateStatusWaiters hout hnone =>
    refine h.announce hnone _ _ fun hended => ?_
    rcases Bool.or_eq_true_iff.mp hended with hended | hrun
    · exact h.stopped hended
    · simpa using hrun

theorem sound (h : Reachable Initial Step s) : Sound s := h.invariant (fun _ h => h.sound) fun _ _ _ h hstep => h.step hstep

/-! ### What waiting is for -/

/-- **A wait returns when its statuses are as it wants them**, all of them in the same moment, however they
were changed while it looked at them one after another; `psync_wait_status` also when the program ends. -/
theorem waited_for (s : State T) (h : Reachable Initial Step s) (t : T) (w : Wait) (hp : s.phase t = .returning w) :
    (∀ a ∈ w.awaits, s.Has a) ∨ ∃ a, w = .status a ∧ s.doRun = false := by
  have hfine := (sound h).fine t
  rw [hp] at hfine
  refine hfine.imp_right fun hone => ?_
  cases w with
  | status a => exact ⟨a, rfl, hone.2⟩
  | statusesArray => cases hone.1

/-- Nothing is set, and two threads do something else. -/
def unset : State Bool := ⟨fun _ => 0, none, 0, true, fun _ => .out, false⟩

/-- Both statuses are set while the first is waited for. -/
theorem waited_for_two : ∃ s : State Bool, s.phase false = .returning (.statusesArray [0x1000001, 0x2000004]) ∧
    ∀ a ∈ Wait.awaits (.statusesArray [0x1000001, 0x2000004]), s.Has a := by
  have h : Reachable Initial Step unset := .start ⟨rfl, rfl, fun _ => rfl, rfl⟩
  have h := h.next (.call (t := false) (.statusesArray [0x1000001, 0x2000004]) rfl rfl)
  have h := h.next (.fail (t := false) rfl (by decide) (.inl rfl))
  have h := h.next (.park (t := false) rfl)
  have h := h.next (.setStatus (t := true) 2 4 rfl rfl)
  have h := h.next (.setStatus (t := true) 1 1 rfl rfl)
  have h := h.next (.lock (t := false) rfl rfl)
  have h := h.next (.pass (t := false) rfl (by decide))
  have h := h.next (.pass (t := false) rfl (by decide))
  have h := h.next (.again (t := false) rfl)
  have h := h.next (.pass (t := false) rfl (by decide))
  have h := h.next (.pass (t := false) rfl (by decide))
  have h := h.next (.finish (t := false) rfl)
  exact ⟨_, rfl, (waited_for _ h false _ rfl).resolve_right fun hone => by cases hone.choose_spec.1⟩

/-- **No wake-up is missed**: a thread that sleeps, and was not woken, waits for a status that is still not
as it wants it; and when `psync_terminate_status_waiters` was called after the end, only
`psync_wait_statuses_array` sleeps. -/
theorem sleeps_rightly (s : State T) (h : Reachable Initial Step s) (t : T) (w : Wait) (a : Await) (rest : List Await)
    (hp : s.phase t = .parked w a rest) :
    ¬s.Has a ∧ a ∈ w.awaits ∧ (s.terminated = true → ∃ combinedstatuses, w = .statusesArray combinedstatuses) := by
  have hfine := (sound h).fine t
  rw [hp] at hfine
  obtain ⟨⟨seen, hseen⟩, hnot, hended⟩ := hfine
  refine ⟨hnot, by simp [hseen], fun hs => ?_⟩
  cases w with
  | status => cases hended hs
  | statusesArray combinedstatuses => exact ⟨combinedstatuses, rfl⟩

theorem sleeps_rightly_first : ∃ s : State Bool, s.phase false = .parked (.status ⟨1, 1⟩) ⟨1, 1⟩ [] ∧ ¬s.Has ⟨1, 1⟩ := by
  have h : Reachable Initial Step unset := .start ⟨rfl, rfl, fun _ => rfl, rfl⟩
  have h := h.next (.call (t := false) (.status ⟨1, 1⟩) rfl rfl)
  have h := h.next (.fail (t := false) rfl (by decide) (.inr rfl))
  have h := h.next (.park (t := false) rfl)
  exact ⟨_, rfl, (sleeps_rightly _ h false _ _ _ rfl).1⟩

end Pclsync.Session.StatusWaits
