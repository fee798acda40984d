import Pclsync.Timers.Ratelimited

/-! What holds in every run of calls of `psync_run_ratelimited` and of their timers. -/
namespace Pclsync.Timers.Ratelimited
open Lib.Transition

variable {C N : Type} [DecidableEq C] [DecidableEq N] {s s' : State C N}

/-! ### What a step does -/

/-- The state in which the mutex is held, for a request. -/
def State.asked (s : State C N) (call : C) : State C N :=
  { s with fault := s.fault || !s.readable, next := s.next + 1, past := .request s.next call :: s.past }

/-- With a new node for a callback. -/
def State.withNode (s : State C N) (call : C) (new : N) (minintervalsec : ℕ) : State C N :=
  { s.asked call with
    heap := Function.update s.heap new (some ⟨call, false⟩)
    tasks := new :: s.tasks
    callers := ⟨s.next, new, call, minintervalsec, false⟩ :: s.callers }

/-- Without a node that the thread of the timers has freed. -/
def State.without (s : State C N) (n : N) : State C N :=
  { s with
    heap := Function.update s.heap n none
    thread := .idle
    fault := s.fault || (s.heap n).isNone || decide (n ∈ s.tasks) }

inductive Moves (s : State C N) : State C N → Prop
  | found {call : C} {n : N} : s.find call = some n → Moves s ((s.asked call).schedule n true)
  | added {call : C} {new : N} {minintervalsec : ℕ} : s.find call = none → s.heap new = none →
      Moves s (s.withNode call new minintervalsec)
  | callerStart {k : Caller C N} : k ∈ s.callers → k.started = false →
      Moves s { s with
        callers := { k with started := true } :: s.callers.erase k
        past := .start k.call (numsecOf k.minintervalsec) s.now :: s.past }
  | callerRegister {k : Caller C N} : k ∈ s.callers → k.started = true →
      Moves s { s with
        callers := s.callers.erase k
        timers := ⟨k.node, numsecOf k.minintervalsec, s.now + numsecOf k.minintervalsec⟩ :: s.timers }
  | tick : s.thread = .idle → Moves s { s with now := s.now + 1 }
  | fire {t : Timer N} : s.thread = .idle → t ∈ s.timers → t.runat ≤ s.now →
      Moves s { s with timers := s.timers.erase t, thread := .called t }
  | lost {t : Timer N} : s.thread = .called t → s.heap t.node = none → Moves s { s with fault := true }
  | schedule {t : Timer N} {call : C} : s.thread = .called t → s.heap t.node = some ⟨call, true⟩ →
      Moves s { s.schedule t.node false with thread := .running t call }
  | unlink {t : Timer N} {call : C} : s.thread = .called t → s.heap t.node = some ⟨call, false⟩ →
      Moves s { s with tasks := s.tasks.erase t.node, thread := .stopping t, fault := s.fault || !s.readable }
  | timerRun {t : Timer N} {call : C} : s.thread = .running t call →
      Moves s { s with thread := .returned t, past := .start call t.numsec s.now :: s.past }
  | timerStop {t : Timer N} : s.thread = .stopping t → Moves s { s with thread := .freeing t.node }
  | timerFree {n : N} : s.thread = .freeing n → Moves s (s.without n)
  | timerReturn {t : Timer N} : s.thread = .returned t →
      Moves s { s with timers := { t with runat := s.now + t.numsec } :: s.timers, thread := .idle }

theorem moves_of_step {a : Action C N} (h : step s a s') : Moves s s' := by
  have hrun : run s a = some s' := h
  cases a with
  | request call minintervalsec new =>
    rw [run] at hrun
    split_ifs at hrun
    rw [State.request] at hrun
    split at hrun
    · next n hfind =>
      obtain rfl := Option.some.inj hrun
      exact .found hfind
    · next hfind =>
      split_ifs at hrun with hnew
      obtain rfl := Option.some.inj hrun
      exact .added hfind hnew
  | callerStart k =>
    rw [run] at hrun
    split_ifs at hrun with hk
    obtain rfl := Option.some.inj hrun
    exact .callerStart hk.1 hk.2
  | callerRegister k =>
    rw [run] at hrun
    split_ifs at hrun with hk
    obtain rfl := Option.some.inj hrun
    exact .callerRegister hk.1 hk.2
  | tick =>
    rw [run] at hrun
    split at hrun
    · next hidle =>
      obtain rfl := Option.some.inj hrun
      exact .tick hidle
    · cases hrun
  | fire t =>
    rw [run] at hrun
    split at hrun
    · next hidle =>
      split_ifs at hrun with ht
      obtain rfl := Option.some.inj hrun
      exact .fire hidle ht.1 ht.2
    · cases hrun
  | timerLock =>
    rw [run] at hrun
    split at hrun
    · next t hcalled =>
      obtain rfl := Option.some.inj hrun
      rw [State.timerLock]
      split
      · next hnone => exact .lost hcalled hnone
      · next node hnode =>
        obtain ⟨call, scheduled⟩ := node
        cases scheduled with
        | true => exact .schedule hcalled hnode
        | false => exact .unlink hcalled hnode
    · cases hrun
  | timerRun =>
    rw [run] at hrun
    split at hrun
    · next t call hthread =>
      obtain rfl := Option.some.inj hrun
      exact .timerRun hthread
    · cases hrun
  | timerStop =>
    rw [run] at hrun
    split at hrun
    · next t hthread =>
      obtain rfl := Option.some.inj hrun
      exact .timerStop hthread
    · cases hrun
  | timerFree =>
    rw [run] at hrun
    split at hrun
    · next n hthread =>
      obtain rfl := Option.some.inj hrun
      exact .timerFree hthread
    · cases hrun
  | timerReturn =>
    rw [run] at hrun
    split at hrun
    · next t hthread =>
      obtain rfl := Option.some.inj hrun
      exact .timerReturn hthread
    · cases hrun

/-! ### Who has a node -/

/-- The node of a caller, and when its callback may start next at the earliest. -/
def Caller.hold (now : ℕ) (k : Caller C N) : N × ℕ := (k.node, if k.started then now + numsecOf k.minintervalsec else now)

def Timer.hold (t : Timer N) : N × ℕ := (t.node, t.runat)

def Thread.holds (now : ℕ) : Thread C N → List (N × ℕ)
  | .called t => [(t.node, now)]
  | .running t _ => [(t.node, now)]
  | .returned t => [(t.node, now + t.numsec)]
  | _ => []

/-- The callers, the timers and the thread of the timers, with their nodes. -/
def State.holds (s : State C N) : List (N × ℕ) := s.callers.map (Caller.hold s.now) ++ (s.timers.map Timer.hold ++ s.thread.holds s.now)

/-- The node that the thread of the timers is about to free. -/
def Thread.retiring : Thread C N → Option N
  | .stopping t => some t.node
  | .freeing n => some n
  | _ => none

/-- The holds of all but a caller. -/
def State.holdsBut (s : State C N) (k : Caller C N) : List (N × ℕ) :=
  (s.callers.erase k).map (Caller.hold s.now) ++ (s.timers.map Timer.hold ++ s.thread.holds s.now)

theorem holds_caller {k : Caller C N} (hk : k ∈ s.callers) : s.holds.Perm (k.hold s.now :: s.holdsBut k) :=
  ((List.perm_cons_erase hk).map (Caller.hold s.now)).append_right _

theorem holds_timer {t : Timer N} (ht : t ∈ s.timers) :
    s.holds.Perm (t.hold :: (s.callers.map (Caller.hold s.now) ++ ((s.timers.erase t).map Timer.hold ++ s.thread.holds s.now))) :=
  ((((List.perm_cons_erase ht).map Timer.hold).append_right _).append_left _).trans List.perm_middle

/-- The hold of the thread of the timers. -/
theorem holds_thread {h : N × ℕ} (hthread : s.thread.holds s.now = [h]) :
    s.holds.Perm (h :: (s.callers.map (Caller.hold s.now) ++ s.timers.map Timer.hold)) := by
  rw [State.holds, hthread, ← List.append_assoc]
  exact List.perm_append_singleton _ _

theorem holds_thread_nil (hthread : s.thread.holds s.now = []) : s.holds = s.callers.map (Caller.hold s.now) ++ s.timers.map Timer.hold := by
  rw [State.holds, hthread, List.append_nil]

/-- A timer that is registered has the hold that its caller had. -/
theorem holds_registered {k : Caller C N} (hk : k ∈ s.callers) (hstarted : k.started = true) :
    ({ s with
        callers := s.callers.erase k
        timers := ⟨k.node, numsecOf k.minintervalsec, s.now + numsecOf k.minintervalsec⟩ :: s.timers } : State C N).holds.Perm s.holds := by
  have hhold : k.hold s.now = (k.node, s.now + numsecOf k.minintervalsec) := by rw [Caller.hold, if_pos hstarted]
  have hall := holds_caller hk
  rw [hhold] at hall
  exact List.perm_middle.trans hall.symm

/-- A timer that fires goes to the thread. -/
theorem holds_fired {t : Timer N} (hidle : s.thread = .idle) (ht : t ∈ s.timers) : ∃ rest, s.holds.Perm ((t.node, t.runat) :: rest) ∧
    ({ s with timers := s.timers.erase t, thread := .called t } : State C N).holds.Perm ((t.node, s.now) :: rest) := by
  have hall := holds_timer ht
  rw [hidle] at hall
  have hnil : (Thread.idle : Thread C N).holds s.now = [] := rfl
  rw [hnil, List.append_nil] at hall
  exact ⟨_, hall, holds_thread rfl⟩

/-- A timer that is put back. -/
theorem holds_returned {t : Timer N} (hreturned : s.thread = .returned t) :
    ({ s with timers := { t with runat := s.now + t.numsec } :: s.timers, thread := .idle } : State C N).holds.Perm s.holds := by
  have hall := holds_thread (s := s) (h := (t.node, s.now + t.numsec)) (by rw [hreturned]; rfl)
  rw [holds_thread_nil rfl]
  exact List.perm_middle.trans hall.symm

/-! ### The nodes -/

structure Sound (s : State C N) : Prop where
  fault : s.fault = false
  nodup : s.tasks.Nodup
  live : ∀ n ∈ s.tasks, ∃ call, s.callOf n = some call
  distinct : ∀ m ∈ s.tasks, ∀ n ∈ s.tasks, s.callOf m = s.callOf n → m = n
  owned : (s.holds.map Prod.fst).Perm s.tasks
  callers : ∀ k ∈ s.callers, s.callOf k.node = some k.call
  running : ∀ t call, s.thread = .running t call → s.callOf t.node = some call
  retiring : ∀ n, s.thread.retiring = some n → n ∉ s.tasks ∧ ∃ call, s.callOf n = some call
  allocated : ∀ n call, s.callOf n = some call → n ∈ s.tasks ∨ s.thread.retiring = some n

theorem callOf_schedule (s : State C N) (n m : N) (scheduled : Bool) : (s.schedule n scheduled).callOf m = s.callOf m := by
  have hheap : (s.schedule n scheduled).heap = Function.update s.heap n ((s.heap n).map fun node => { node with scheduled := scheduled }) := rfl
  rw [State.callOf, State.callOf, hheap]
  by_cases hm : m = n
  · rw [hm, Function.update_self, Option.map_map]
    rfl
  · rw [Function.update_of_ne hm]

theorem find_some {call : C} {n : N} (hfind : s.find call = some n) : n ∈ s.tasks ∧ s.callOf n = some call := by
  have hcall := List.find?_some hfind
  exact ⟨List.mem_of_find?_eq_some hfind, of_decide_eq_true hcall⟩

omit [DecidableEq N] in
theorem find_none {call : C} (hfind : s.find call = none) : ∀ n ∈ s.tasks, s.callOf n ≠ some call := fun n hn hcall =>
  List.find?_eq_none.mp hfind n hn (decide_eq_true hcall)

omit [DecidableEq C] [DecidableEq N] in
theorem Sound.readable (hs : Sound s) : s.readable = true := by
  refine List.all_eq_true.mpr fun n hn => ?_
  obtain ⟨call, hcall⟩ := hs.live n hn
  obtain ⟨node, hnode, -⟩ := Option.map_eq_some_iff.mp hcall
  rw [hnode]
  rfl

theorem Sound.asked_fault (hs : Sound s) : (s.fault || !s.readable) = false := by rw [hs.fault, hs.readable]; rfl

/-- A node that is held is in the tree. -/
theorem Sound.mem_tasks (hs : Sound s) {h : N × ℕ} (hh : h ∈ s.holds) : h.1 ∈ s.tasks := hs.owned.mem_iff.mp (List.mem_map_of_mem hh)

theorem sound_init (now : ℕ) : Sound (State.init now : State C N) where
  fault := rfl
  nodup := List.nodup_nil
  live _ hn := nomatch hn
  distinct _ hm := nomatch hm
  owned := List.Perm.refl _
  callers _ hk := nomatch hk
  running _ _ h := nomatch h
  retiring _ h := nomatch h
  allocated _ _ h := nomatch h

/-- A step that neither adds nor drops a node. -/
theorem Sound.keep (hs : Sound s) (hfault : s'.fault = false) (htasks : s'.tasks = s.tasks) (hcalls : ∀ n, s'.callOf n = s.callOf n)
    (howned : (s'.holds.map Prod.fst).Perm (s.holds.map Prod.fst))
    (hcallers : ∀ k' ∈ s'.callers, ∃ k ∈ s.callers, k.node = k'.node ∧ k.call = k'.call)
    (hrunning : ∀ t call, s'.thread = .running t call → s.callOf t.node = some call) (hretiring : s'.thread.retiring = s.thread.retiring) :
    Sound s' where
  fault := hfault
  nodup := htasks ▸ hs.nodup
  live n hn := by
    rw [hcalls]
    exact hs.live n (htasks ▸ hn)
  distinct m hm n hn := by
    rw [hcalls, hcalls]
    exact hs.distinct m (htasks ▸ hm) n (htasks ▸ hn)
  owned := htasks ▸ howned.trans hs.owned
  callers k' hk' := by
    obtain ⟨k, hk, hnode, hcall⟩ := hcallers k' hk'
    rw [hcalls, ← hnode, ← hcall]
    exact hs.callers k hk
  running t call h := by
    rw [hcalls]
    exact hrunning t call h
  retiring n h := by
    rw [htasks, hcalls]
    exact hs.retiring n (hretiring ▸ h)
  allocated n call h := by
    rw [htasks, hretiring]
    exact hs.allocated n call (hcalls n ▸ h)

theorem callOf_of {n : N} {call : C} {scheduled : Bool} (h : s.heap n = some ⟨call, scheduled⟩) : s.callOf n = some call := by
  rw [State.callOf, h, Option.map_some]

theorem callOf_withNode {call : C} {new n : N} {minintervalsec : ℕ} (hn : n ≠ new) :
    (s.withNode call new minintervalsec).callOf n = s.callOf n := congrArg (Option.map _) (Function.update_of_ne hn _ _)

theorem callOf_without {m n : N} (hm : m ≠ n) : (s.without n).callOf m = s.callOf m :=
  congrArg (Option.map _) (Function.update_of_ne hm _ _)

theorem Sound.fresh (hs : Sound s) {new : N} (hnew : s.heap new = none) : new ∉ s.tasks := fun hmem => by
  obtain ⟨call, hcall⟩ := hs.live new hmem
  rw [State.callOf, hnew] at hcall
  cases hcall

/-- The node of a timer that is called is there. -/
theorem Sound.called_live (hs : Sound s) {t : Timer N} (hcalled : s.thread = .called t) (hnone : s.heap t.node = none) : False := by
  have hhold := holds_thread (s := s) (h := (t.node, s.now)) (by rw [hcalled]; rfl)
  obtain ⟨call, hcall⟩ := hs.live t.node (hs.mem_tasks (hhold.mem_iff.mpr List.mem_cons_self))
  rw [State.callOf, hnone] at hcall
  cases hcall

theorem Sound.moves (hs : Sound s) (h : Moves s s') : Sound s' := by
  cases h with
  | @found call n hfind =>
    refine hs.keep hs.asked_fault rfl (fun m => callOf_schedule (s.asked call) n m true) (List.Perm.refl _) (fun k hk => ⟨k, hk, rfl, rfl⟩)
      hs.running rfl
  | @added call new minintervalsec hfind hnew =>
    have hfresh : new ∉ s.tasks := hs.fresh hnew
    have hself : (s.withNode call new minintervalsec).callOf new = some call := callOf_of (Function.update_self ..)
    have hother : ∀ n, n ≠ new → (s.withNode call new minintervalsec).callOf n = s.callOf n := fun n hn => callOf_withNode hn
    have hne : ∀ n ∈ s.tasks, n ≠ new := fun n hn => ne_of_mem_of_not_mem hn hfresh
    refine ⟨hs.asked_fault, List.nodup_cons.mpr ⟨hfresh, hs.nodup⟩, fun n hn => ?_, fun m hm n hn hmn => ?_, hs.owned.cons _, fun k hk => ?_,
      fun t c hrunning => ?_, fun n hretiring => ?_, fun n c hn => ?_⟩
    · rcases List.mem_cons.mp hn with rfl | hn
      · exact ⟨call, hself⟩
      · rw [hother n (hne n hn)]
        exact hs.live n hn
    · rcases List.mem_cons.mp hm with hm' | hm'
      · rcases List.mem_cons.mp hn with hn' | hn'
        · exact hm'.trans hn'.symm
        · rw [hm', hself, hother n (hne n hn')] at hmn
          exact absurd hmn.symm (find_none hfind n hn')
      · rcases List.mem_cons.mp hn with hn' | hn'
        · rw [hn', hself, hother m (hne m hm')] at hmn
          exact absurd hmn (find_none hfind m hm')
        · rw [hother m (hne m hm'), hother n (hne n hn')] at hmn
          exact hs.distinct m hm' n hn' hmn
    · rcases List.mem_cons.mp hk with rfl | hk
      · exact hself
      · have hmem : k.node ∈ s.tasks := hs.mem_tasks (List.mem_append_left _ (List.mem_map_of_mem hk))
        rw [hother _ (hne _ hmem)]
        exact hs.callers k hk
    · have hcall := hs.running t c hrunning
      rwa [hother]
      rintro heq
      rw [heq, State.callOf, hnew] at hcall
      cases hcall
    · obtain ⟨hnot, c, hc⟩ := hs.retiring n hretiring
      have hn : n ≠ new := by
        rintro rfl
        rw [State.callOf, hnew] at hc
        cases hc
      refine ⟨fun hmem => (List.mem_cons.mp hmem).elim hn hnot, c, ?_⟩
      rwa [hother n hn]
    · by_cases hnew' : n = new
      · exact .inl (hnew' ▸ List.mem_cons_self)
      · rw [hother n hnew'] at hn
        exact (hs.allocated n c hn).imp_left (List.mem_cons_of_mem _)
  | @callerStart k hk hstarted =>
    refine hs.keep hs.fault rfl (fun _ => rfl) ?_ (fun k' hk' => ?_) hs.running rfl
    · exact (((holds_caller hk).map Prod.fst).symm)
    · rcases List.mem_cons.mp hk' with rfl | hk'
      · exact ⟨k, hk, rfl, rfl⟩
      · exact ⟨k', List.mem_of_mem_erase hk', rfl, rfl⟩
  | @callerRegister k hk hstarted =>
    refine hs.keep hs.fault rfl (fun _ => rfl) ?_ (fun k' hk' => ⟨k', List.mem_of_mem_erase hk', rfl, rfl⟩) hs.running rfl
    exact (holds_registered hk hstarted).map Prod.fst
  | tick hidle =>
    refine hs.keep hs.fault rfl (fun _ => rfl) ?_ (fun k hk => ⟨k, hk, rfl, rfl⟩) hs.running rfl
    have hsame : ∀ now, Prod.fst ∘ Caller.hold now = (Caller.node : Caller C N → N) := fun now => rfl
    rw [holds_thread_nil (by rw [hidle]; rfl), holds_thread_nil (by rw [hidle]; rfl)]
    simp only [List.map_append, List.map_map, hsame]
    exact List.Perm.refl _
  | @fire t hidle ht hdue =>
    refine hs.keep hs.fault rfl (fun _ => rfl) ?_ (fun k hk => ⟨k, hk, rfl, rfl⟩) (fun t' c h => (nomatch h)) (by rw [hidle]; rfl)
    obtain ⟨rest, hbefore, hafter⟩ := holds_fired hidle ht
    exact (hafter.map Prod.fst).trans (hbefore.map Prod.fst).symm
  | @lost t hcalled hnone =>
    exact (hs.called_live hcalled hnone).elim
  | @schedule t call hcalled hnode =>
    refine hs.keep hs.fault rfl (fun m => callOf_schedule s t.node m false) ?_ (fun k hk => ⟨k, hk, rfl, rfl⟩) (fun t' call' h => ?_) ?_
    · rw [State.holds, State.holds, hcalled]
      exact List.Perm.refl _
    · cases h
      exact callOf_of hnode
    · rw [hcalled]
      rfl
  | @unlink t call hcalled hnode =>
    have hbefore := holds_thread (s := s) (h := (t.node, s.now)) (by rw [hcalled]; rfl)
    have hmem : t.node ∈ s.tasks := hs.mem_tasks (hbefore.mem_iff.mpr List.mem_cons_self)
    refine ⟨hs.asked_fault, hs.nodup.erase _, fun n hn => hs.live n (List.mem_of_mem_erase hn),
      fun m hm n hn => hs.distinct m (List.mem_of_mem_erase hm) n (List.mem_of_mem_erase hn), ?_, hs.callers, fun t' c h => (nomatch h),
      fun n hn => ?_, fun n c hn => ?_⟩
    · have howned : ((t.node, s.now).1 :: _).Perm (t.node :: s.tasks.erase t.node) :=
        ((hbefore.map Prod.fst).symm.trans hs.owned).trans (List.perm_cons_erase hmem)
      rw [holds_thread_nil rfl]
      exact howned.cons_inv
    · obtain rfl := Option.some.inj hn
      exact ⟨hs.nodup.not_mem_erase, call, callOf_of hnode⟩
    · by_cases heq : n = t.node
      · exact .inr (congrArg some heq.symm)
      · exact .inl ((List.mem_erase_of_ne heq).mpr ((hs.allocated n c hn).resolve_right (by rw [hcalled]; exact nofun)))
  | @timerRun t call hrunning =>
    refine hs.keep hs.fault rfl (fun _ => rfl) ?_ (fun k hk => ⟨k, hk, rfl, rfl⟩) (fun t' c h => (nomatch h)) (by rw [hrunning]; rfl)
    have hbefore := holds_thread (s := s) (h := (t.node, s.now)) (by rw [hrunning]; rfl)
    have hafter := holds_thread (s := { s with thread := .returned t, past := .start call t.numsec s.now :: s.past })
      (h := (t.node, s.now + t.numsec)) rfl
    exact (hafter.map Prod.fst).trans (hbefore.map Prod.fst).symm
  | @timerStop t hstopping =>
    refine hs.keep hs.fault rfl (fun _ => rfl) ?_ (fun k hk => ⟨k, hk, rfl, rfl⟩) (fun t' c h => (nomatch h)) (by rw [hstopping]; rfl)
    rw [holds_thread_nil rfl, holds_thread_nil (by rw [hstopping]; rfl)]
  | @timerFree n hfreeing =>
    obtain ⟨hnot, call, hcall⟩ := hs.retiring n (by rw [hfreeing]; rfl)
    obtain ⟨node, hnode, -⟩ := Option.map_eq_some_iff.mp hcall
    have hother : ∀ m, m ≠ n → (s.without n).callOf m = s.callOf m := fun m hm => callOf_without hm
    have hne : ∀ m ∈ s.tasks, m ≠ n := fun m hm => ne_of_mem_of_not_mem hm hnot
    refine ⟨?_, hs.nodup, fun m hm => ?_, fun m hm m' hm' hmm => ?_, ?_, fun k hk => ?_, fun t c h => (nomatch h), fun m h => (nomatch h), fun m c hm => ?_⟩
    · show (s.fault || (s.heap n).isNone || decide (n ∈ s.tasks)) = false
      rw [hs.fault, hnode, decide_eq_false hnot]
      rfl
    · rw [hother m (hne m hm)]
      exact hs.live m hm
    · rw [hother m (hne m hm), hother m' (hne m' hm')] at hmm
      exact hs.distinct m hm m' hm' hmm
    · rw [holds_thread_nil rfl]
      have howned := hs.owned
      rwa [holds_thread_nil (by rw [hfreeing]; rfl)] at howned
    · have hmem : k.node ∈ s.tasks := hs.mem_tasks (List.mem_append_left _ (List.mem_map_of_mem hk))
      rw [hother _ (hne _ hmem)]
      exact hs.callers k hk
    · have hmn : m ≠ n := by
        rintro rfl
        have hnone : Function.update s.heap m none m = none := Function.update_self ..
        exact nomatch (congrArg (Option.map Node.call) hnone).symm.trans hm
      rw [hother m hmn] at hm
      refine .inl ((hs.allocated m c hm).resolve_right fun h => ?_)
      rw [hfreeing] at h
      exact hmn (Option.some.inj h).symm
  | @timerReturn t hreturned =>
    refine hs.keep hs.fault rfl (fun _ => rfl) ?_ (fun k hk => ⟨k, hk, rfl, rfl⟩) (fun t' c h => (nomatch h)) (by rw [hreturned]; rfl)
    exact (holds_returned hreturned).map Prod.fst

/-! ### The requests -/

def Covered (s : State C N) : Prop :=
  ∀ r ∈ unserved s.past, s.Starting r.1 r.2 ∨ (∃ n ∈ s.tasks, s.heap n = some ⟨r.2, true⟩) ∨ s.Running r.2

/-- A step that is no request and no start, by callers that have yet to start and nodes that are scheduled. -/
theorem Covered.keep (hc : Covered s) (hpast : ∀ r ∈ unserved s'.past, r ∈ unserved s.past)
    (hcallers : ∀ k ∈ s.callers, k.started = false → (∃ r ∈ unserved s'.past, r.2 = k.call) → k ∈ s'.callers)
    (hnodes : ∀ n ∈ s.tasks, ∀ call, s.heap n = some ⟨call, true⟩ → (n ∈ s'.tasks ∧ s'.heap n = some ⟨call, true⟩) ∨ s'.Running call)
    (hrunning : ∀ t call, s.thread = .running t call → s'.thread = .running t call ∨ ∀ r ∈ unserved s'.past, r.2 ≠ call) : Covered s' := by
  intro r hr
  rcases hc r (hpast r hr) with ⟨k, hk, hid, hcall, hstarted⟩ | ⟨n, hn, hnode⟩ | ⟨t, hthread⟩
  · exact .inl ⟨k, hcallers k hk hstarted ⟨r, hr, hcall.symm⟩, hid, hcall, hstarted⟩
  · exact (hnodes n hn r.2 hnode).elim (fun h => .inr (.inl ⟨n, h⟩)) fun h => .inr (.inr h)
  · exact .inr (.inr ⟨t, (hrunning t r.2 hthread).resolve_right fun h => h r hr rfl⟩)

theorem unserved_start {call : C} {numsec time : ℕ} {past : List (Past C)} {r : ℕ × C} (hr : r ∈ unserved (.start call numsec time :: past)) :
    r ∈ unserved past ∧ r.2 ≠ call := by
  obtain ⟨hmem, hne⟩ := List.mem_filter.mp hr
  exact ⟨hmem, of_decide_eq_true hne⟩

theorem Covered.moves (hs : Sound s) (hc : Covered s) (h : Moves s s') : Covered s' := by
  cases h with
  | @found call n hfind =>
    obtain ⟨hn, hcall⟩ := find_some hfind
    obtain ⟨node, hnode, hnodeCall⟩ := Option.map_eq_some_iff.mp hcall
    have hscheduled : ((s.asked call).schedule n true).heap n = some ⟨call, true⟩ := by
      have hheap : ((s.asked call).schedule n true).heap n = (s.heap n).map fun node => { node with scheduled := true } := Function.update_self ..
      rw [hheap, hnode, Option.map_some, ← hnodeCall]
    intro r hr
    rcases List.mem_cons.mp hr with rfl | hr
    · exact .inr (.inl ⟨n, hn, hscheduled⟩)
    · rcases hc r hr with hstarting | ⟨m, hm, hheap⟩ | hrunning
      · exact .inl hstarting
      · refine .inr (.inl ⟨m, hm, ?_⟩)
        by_cases heq : m = n
        · have hsame : call = r.2 := Option.some.inj (hcall.symm.trans (callOf_of (heq ▸ hheap)))
          rw [heq, hscheduled, hsame]
        · exact (Function.update_of_ne heq _ _).trans hheap
      · exact .inr (.inr hrunning)
  | @added call new minintervalsec hfind hnew =>
    intro r hr
    rcases List.mem_cons.mp hr with rfl | hr
    · exact .inl ⟨_, List.mem_cons_self, rfl, rfl, rfl⟩
    · rcases hc r hr with ⟨k, hk, hstarting⟩ | ⟨m, hm, hheap⟩ | hrunning
      · exact .inl ⟨k, List.mem_cons_of_mem _ hk, hstarting⟩
      · refine .inr (.inl ⟨m, List.mem_cons_of_mem _ hm, (Function.update_of_ne ?_ _ _).trans hheap⟩)
        rintro rfl
        exact nomatch hnew.symm.trans hheap
      · exact .inr (.inr hrunning)
  | @callerStart k hk hstarted =>
    refine hc.keep (fun r hr => (unserved_start hr).1) (fun k' hk' hstarted' ⟨r, hr, hcall⟩ => ?_) (fun n hn call h => .inl ⟨hn, h⟩) fun t call h => .inl h
    refine List.mem_cons_of_mem _ ((List.mem_erase_of_ne ?_).mpr hk')
    rintro rfl
    exact (unserved_start hr).2 hcall
  | @callerRegister k hk hstarted =>
    refine hc.keep (fun r hr => hr) (fun k' hk' hstarted' _ => ?_) (fun n hn call h => .inl ⟨hn, h⟩) fun t call h => .inl h
    refine (List.mem_erase_of_ne ?_).mpr hk'
    rintro rfl
    exact nomatch hstarted.symm.trans hstarted'
  | tick hidle => exact hc
  | @fire t hidle ht hdue =>
    exact hc.keep (fun r hr => hr) (fun k hk _ _ => hk) (fun n hn call h => .inl ⟨hn, h⟩) fun t' call h => nomatch hidle.symm.trans h
  | @lost t hcalled hnone => exact (hs.called_live hcalled hnone).elim
  | @schedule t call hcalled hnode =>
    refine hc.keep (fun r hr => hr) (fun k hk _ _ => hk) (fun n hn call' h => ?_) fun t' call' h => nomatch hcalled.symm.trans h
    by_cases heq : n = t.node
    · have hsame : call = call' := Option.some.inj ((callOf_of hnode).symm.trans (callOf_of (heq ▸ h)))
      exact .inr ⟨t, by rw [hsame]⟩
    · exact .inl ⟨hn, (Function.update_of_ne heq _ _).trans h⟩
  | @unlink t call hcalled hnode =>
    refine hc.keep (fun r hr => hr) (fun k hk _ _ => hk) (fun n hn call' h => .inl ⟨(List.mem_erase_of_ne ?_).mpr hn, h⟩)
      fun t' call' h => nomatch hcalled.symm.trans h
    rintro rfl
    exact nomatch hnode.symm.trans h
  | @timerRun t call hrunning =>
    refine hc.keep (fun r hr => (unserved_start hr).1) (fun k hk _ _ => hk) (fun n hn call h => .inl ⟨hn, h⟩) fun t' call' h => ?_
    obtain ⟨-, rfl⟩ := Thread.running.inj (hrunning.symm.trans h)
    exact .inr fun r hr => (unserved_start hr).2
  | @timerStop t hstopping =>
    exact hc.keep (fun r hr => hr) (fun k hk _ _ => hk) (fun n hn call h => .inl ⟨hn, h⟩) fun t' call h => nomatch hstopping.symm.trans h
  | @timerFree n hfreeing =>
    obtain ⟨hnot, -⟩ := hs.retiring n (by rw [hfreeing]; rfl)
    refine hc.keep (fun r hr => hr) (fun k hk _ _ => hk) (fun m hm call h => .inl ⟨hm, (Function.update_of_ne ?_ _ _).trans h⟩)
      fun t' call h => nomatch hfreeing.symm.trans h
    exact ne_of_mem_of_not_mem hm hnot
  | @timerReturn t hreturned =>
    exact hc.keep (fun r hr => hr) (fun k hk _ _ => hk) (fun n hn call h => .inl ⟨hn, h⟩) fun t' call h => nomatch hreturned.symm.trans h

/-! ### The times of the starts -/

/-- A start at `bound` or later is a period behind all before it. -/
def Due (past : List (Past C)) (call : C) (bound : ℕ) : Prop := ∀ e ∈ starts call past, e.2 + e.1 ≤ bound

structure Spaced (s : State C N) : Prop where
  apart : ∀ call, (starts call s.past).Pairwise Apart
  idle : ∀ call, (∀ n ∈ s.tasks, s.callOf n ≠ some call) → Due s.past call s.now
  held : ∀ h ∈ s.holds, ∀ call, s.callOf h.1 = some call → Due s.past call h.2

theorem Spaced.keep (hp : Spaced s) (hstarts : ∀ call, starts call s'.past = starts call s.past) (htasks : s'.tasks = s.tasks)
    (hcalls : ∀ n, s'.callOf n = s.callOf n) (hnow : s.now ≤ s'.now) (hholds : ∀ h' ∈ s'.holds, ∃ h ∈ s.holds, h.1 = h'.1 ∧ h.2 ≤ h'.2) :
    Spaced s' where
  apart call := by
    rw [hstarts]
    exact hp.apart call
  idle call hnone e he := by
    rw [hstarts] at he
    exact le_trans (hp.idle call (fun n hn => hcalls n ▸ hnone n (htasks ▸ hn)) e he) hnow
  held h' hh' call hcall e he := by
    obtain ⟨h, hh, hnode, hle⟩ := hholds h' hh'
    rw [hstarts] at he
    rw [hcalls, ← hnode] at hcall
    exact le_trans (hp.held h hh call hcall e he) hle

theorem Spaced.perm (hp : Spaced s) (hstarts : ∀ call, starts call s'.past = starts call s.past) (htasks : s'.tasks = s.tasks)
    (hcalls : ∀ n, s'.callOf n = s.callOf n) (hnow : s.now ≤ s'.now) (hholds : s'.holds.Perm s.holds) : Spaced s' :=
  hp.keep hstarts htasks hcalls hnow fun h hh => ⟨h, hholds.mem_iff.mp hh, rfl, le_refl _⟩

theorem starts_same {call : C} {numsec time : ℕ} {past : List (Past C)} :
    starts call (.start call numsec time :: past) = (numsec, time) :: starts call past := if_pos rfl

theorem starts_other {call call' : C} {numsec time : ℕ} {past : List (Past C)} (hne : call' ≠ call) :
    starts call (.start call' numsec time :: past) = starts call past := if_neg hne

/-- A callback starts, for a node that it may start for now. -/
theorem Spaced.started (hs : Sound s) (hp : Spaced s) {n : N} {numsec : ℕ} {call : C} {rest : List (N × ℕ)}
    (hbefore : s.holds.Perm ((n, s.now) :: rest)) (hafter : s'.holds.Perm ((n, s.now + numsec) :: rest)) (hcall : s.callOf n = some call)
    (hpast : s'.past = .start call numsec s.now :: s.past) (htasks : s'.tasks = s.tasks) (hcalls : ∀ n, s'.callOf n = s.callOf n)
    (hnow : s'.now = s.now) : Spaced s' := by
  have hmem : (n, s.now) ∈ s.holds := hbefore.mem_iff.mpr List.mem_cons_self
  have hn : n ∈ s.tasks := hs.mem_tasks hmem
  have hdue : Due s.past call s.now := hp.held _ hmem call hcall
  -- no other node is of the callback
  have hrest : ∀ h ∈ rest, s.callOf h.1 ≠ some call := by
    intro h hh hsame
    have hhold : h ∈ s.holds := hbefore.mem_iff.mpr (List.mem_cons_of_mem _ hh)
    have heq : h.1 = n := hs.distinct _ (hs.mem_tasks hhold) n hn (hsame.trans hcall.symm)
    have hnodup : (n :: rest.map Prod.fst).Nodup := ((hbefore.map Prod.fst).symm.trans hs.owned).nodup_iff.mpr hs.nodup
    exact (List.nodup_cons.mp hnodup).1 (heq ▸ List.mem_map_of_mem hh)
  refine ⟨fun call' => ?_, fun call' hnone => ?_, fun h hh call' hcall' => ?_⟩
  · rw [hpast]
    by_cases heq : call = call'
    · rw [← heq, starts_same]
      exact List.pairwise_cons.mpr ⟨hdue, hp.apart call⟩
    · rw [starts_other heq]
      exact hp.apart call'
  · have heq : call ≠ call' := by
      rintro rfl
      exact hnone n (htasks ▸ hn) ((hcalls n).trans hcall)
    rw [hpast, Due, starts_other heq, hnow]
    exact hp.idle call' fun m hm => hcalls m ▸ hnone m (htasks ▸ hm)
  · rw [hcalls] at hcall'
    rcases List.mem_cons.mp (hafter.mem_iff.mp hh) with rfl | hh
    · obtain rfl := Option.some.inj (hcall.symm.trans hcall')
      rw [hpast, Due, starts_same]
      exact List.forall_mem_cons.mpr ⟨le_refl _, fun e he => le_trans (hdue e he) (Nat.le_add_right _ _)⟩
    · have heq : call ≠ call' := by
        rintro rfl
        exact hrest h hh hcall'
      rw [hpast, Due, starts_other heq]
      exact hp.held h (hbefore.mem_iff.mpr (List.mem_cons_of_mem _ hh)) call' hcall'

theorem Spaced.moves (hs : Sound s) (hp : Spaced s) (h : Moves s s') : Spaced s' := by
  cases h with
  | @found call n hfind => exact hp.perm (fun _ => rfl) rfl (fun m => callOf_schedule (s.asked call) n m true) (le_refl _) (List.Perm.refl _)
  | @added call new minintervalsec hfind hnew =>
    have hne : ∀ n ∈ s.tasks, n ≠ new := fun n hn => ne_of_mem_of_not_mem hn (hs.fresh hnew)
    refine ⟨hp.apart, fun call' hnone => ?_, fun h hh call' hcall' => ?_⟩
    · refine hp.idle call' fun n hn => ?_
      rw [← callOf_withNode (hne n hn)]
      exact hnone n (List.mem_cons_of_mem _ hn)
    · rcases List.mem_cons.mp hh with rfl | hh
      · have hself : (s.withNode call new minintervalsec).callOf new = some call := callOf_of (Function.update_self ..)
        obtain rfl := Option.some.inj (hself.symm.trans hcall')
        exact hp.idle call (find_none hfind)
      · rw [callOf_withNode (hne _ (hs.mem_tasks hh))] at hcall'
        exact hp.held h hh call' hcall'
  | @callerStart k hk hstarted =>
    have hhold : k.hold s.now = (k.node, s.now) := by rw [Caller.hold, if_neg (by rw [hstarted]; exact nofun)]
    have hbefore := holds_caller hk
    rw [hhold] at hbefore
    exact hp.started hs hbefore (List.Perm.refl _) (hs.callers k hk) rfl rfl (fun _ => rfl) rfl
  | @callerRegister k hk hstarted => exact hp.perm (fun _ => rfl) rfl (fun _ => rfl) (le_refl _) (holds_registered hk hstarted)
  | tick hidle =>
    refine hp.keep (fun _ => rfl) rfl (fun _ => rfl) (Nat.le_succ _) fun h hh => ?_
    rw [holds_thread_nil (by rw [hidle]; rfl)] at hh ⊢
    rcases List.mem_append.mp hh with hh | hh
    · obtain ⟨k, hk, rfl⟩ := List.mem_map.mp hh
      refine ⟨k.hold s.now, List.mem_append_left _ (List.mem_map_of_mem hk), rfl, ?_⟩
      rw [Caller.hold, Caller.hold]
      split_ifs
      · exact Nat.add_le_add_right (Nat.le_succ _) _
      · exact Nat.le_succ _
    · exact ⟨h, List.mem_append_right _ hh, rfl, le_refl _⟩
  | @fire t hidle ht hdue =>
    obtain ⟨rest, hbefore, hafter⟩ := holds_fired hidle ht
    refine hp.keep (fun _ => rfl) rfl (fun _ => rfl) (le_refl _) fun h hh => ?_
    rcases List.mem_cons.mp (hafter.mem_iff.mp hh) with rfl | hh
    · exact ⟨(t.node, t.runat), hbefore.mem_iff.mpr List.mem_cons_self, rfl, hdue⟩
    · exact ⟨h, hbefore.mem_iff.mpr (List.mem_cons_of_mem _ hh), rfl, le_refl _⟩
  | @lost t hcalled hnone => exact (hs.called_live hcalled hnone).elim
  | @schedule t call hcalled hnode =>
    refine hp.perm (fun _ => rfl) rfl (fun m => callOf_schedule s t.node m false) (le_refl _) ?_
    rw [State.holds, State.holds, hcalled]
    exact List.Perm.refl _
  | @unlink t call hcalled hnode =>
    have hbefore := holds_thread (s := s) (h := (t.node, s.now)) (by rw [hcalled]; rfl)
    refine ⟨hp.apart, fun call' hnone => ?_, fun h hh call' hcall' => ?_⟩
    · by_cases heq : call = call'
      · exact hp.held _ (hbefore.mem_iff.mpr List.mem_cons_self) call' (heq ▸ callOf_of hnode)
      · refine hp.idle call' fun n hn => ?_
        by_cases hn' : n = t.node
        · rw [hn', callOf_of hnode]
          exact fun h => heq (Option.some.inj h)
        · exact hnone n ((List.mem_erase_of_ne hn').mpr hn)
    · rw [holds_thread_nil rfl] at hh
      exact hp.held h (hbefore.mem_iff.mpr (List.mem_cons_of_mem _ hh)) call' hcall'
  | @timerRun t call hrunning =>
    have hbefore := holds_thread (s := s) (h := (t.node, s.now)) (by rw [hrunning]; rfl)
    have hafter := holds_thread (s := { s with thread := .returned t, past := .start call t.numsec s.now :: s.past })
      (h := (t.node, s.now + t.numsec)) rfl
    exact hp.started hs hbefore hafter (hs.running t call hrunning) rfl rfl (fun _ => rfl) rfl
  | @timerStop t hstopping =>
    refine hp.perm (fun _ => rfl) rfl (fun _ => rfl) (le_refl _) ?_
    rw [holds_thread_nil rfl, holds_thread_nil (by rw [hstopping]; rfl)]
  | @timerFree n hfreeing =>
    obtain ⟨hnot, -⟩ := hs.retiring n (by rw [hfreeing]; rfl)
    have hne : ∀ m ∈ s.tasks, m ≠ n := fun m hm => ne_of_mem_of_not_mem hm hnot
    have hholds : (s.without n).holds = s.holds := by
      rw [holds_thread_nil rfl, holds_thread_nil (by rw [hfreeing]; rfl)]
      rfl
    refine ⟨hp.apart, fun call' hnone => hp.idle call' fun m hm => ?_, fun h hh call' hcall' => ?_⟩
    · rw [← callOf_without (hne m hm)]
      exact hnone m hm
    · rw [hholds] at hh
      rw [callOf_without (hne _ (hs.mem_tasks hh))] at hcall'
      exact hp.held h hh call' hcall'
  | @timerReturn t hreturned => exact hp.perm (fun _ => rfl) rfl (fun _ => rfl) (le_refl _) (holds_returned hreturned)

/-! ### Runs -/

/-- What every state keeps. -/
def State.Kept (s : State C N) : Prop := Sound s ∧ Covered s ∧ Spaced s

theorem kept_init (now : ℕ) : (State.init (C := C) (N := N) now).Kept :=
  ⟨sound_init now, fun _ hr => (nomatch hr), ⟨fun _ => .nil, fun _ _ _ he => (nomatch he), fun _ hh => (nomatch hh)⟩⟩

theorem State.Kept.step {a : Action C N} (h : s.Kept) (hstep : step s a s') : s'.Kept := by
  obtain ⟨hs, hc, hp⟩ := h
  have hmoves := moves_of_step hstep
  exact ⟨hs.moves hmoves, hc.moves hs hmoves, hp.moves hs hmoves⟩

theorem reachable_kept (hr : Reachable Start step s) : s.Kept := by
  have hinit : ∀ s : State C N, Start s → s.Kept := by
    rintro s ⟨now, rfl⟩
    exact kept_init now
  exact hr.invariant hinit fun s a s' h hstep => h.step hstep

/-- A node in the tree has a timer, or its caller will register one. -/
theorem Sound.timed (hs : Sound s) {n : N} (hn : n ∈ s.tasks) : s.Timed n := by
  obtain ⟨h, hh, rfl⟩ := List.mem_map.mp (hs.owned.mem_iff.mpr hn)
  rcases List.mem_append.mp hh with hh | hh
  · obtain ⟨k, hk, rfl⟩ := List.mem_map.mp hh
    exact .inl (List.mem_map_of_mem hk)
  · rcases List.mem_append.mp hh with hh | hh
    · obtain ⟨t, ht, rfl⟩ := List.mem_map.mp hh
      exact .inr (.inl (List.mem_map_of_mem ht))
    · refine .inr (.inr ?_)
      cases hthread : s.thread with
      | called t =>
        rw [hthread] at hh
        rw [List.mem_singleton.mp hh]
        exact List.mem_singleton_self _
      | running t call =>
        rw [hthread] at hh
        rw [List.mem_singleton.mp hh]
        exact List.mem_singleton_self _
      | returned t =>
        rw [hthread] at hh
        rw [List.mem_singleton.mp hh]
        exact List.mem_singleton_self _
      | idle =>
        rw [hthread] at hh
        cases hh
      | stopping t =>
        rw [hthread] at hh
        cases hh
      | freeing n =>
        rw [hthread] at hh
        cases hh

/-- No request is lost, callbacks are spaced, and nodes are unique, used only while they are there, and freed once they are unlinked. -/
theorem requests_kept (hr : Reachable Start step s) :
    (∀ r ∈ unserved s.past, s.Starting r.1 r.2 ∨ s.Scheduled r.2 ∨ s.Running r.2) ∧
    (∀ call, (starts call s.past).Pairwise Apart) ∧
    (s.tasks.Nodup ∧ ∀ m ∈ s.tasks, ∀ n ∈ s.tasks, s.callOf m = s.callOf n → m = n) ∧
    s.fault = false ∧ (∀ n ∈ s.tasks, (s.heap n).isSome) ∧
    ∀ n, (s.heap n).isSome → n ∈ s.tasks ∨ s.thread.retiring = some n := by
  obtain ⟨hs, hc, hp⟩ := reachable_kept hr
  refine ⟨fun r hr => ?_, hp.apart, ⟨hs.nodup, hs.distinct⟩, hs.fault, fun n hn => ?_, fun n hn => ?_⟩
  · rcases hc r hr with hstarting | ⟨n, hn, hnode⟩ | hrunning
    · exact .inl hstarting
    · exact .inr (.inl ⟨n, hn, hnode, hs.timed hn⟩)
    · exact .inr (.inr hrunning)
  · obtain ⟨call, hcall⟩ := hs.live n hn
    obtain ⟨node, hnode, -⟩ := Option.map_eq_some_iff.mp hcall
    rw [hnode]
    rfl
  · obtain ⟨node, hnode⟩ := Option.isSome_iff_exists.mp hn
    exact hs.allocated n node.call (callOf_of hnode)

/-- A callback is asked for twice, and its timer has taken the second request. -/
def handed : List (Action ℕ ℕ) :=
  [.request 7 1 0, .callerStart ⟨0, 0, 7, 1, false⟩, .request 7 1 1, .callerRegister ⟨0, 0, 7, 1, true⟩, .tick,
    .fire ⟨0, 1, 1⟩, .timerLock]

/-- The state behind `handed`. -/
def handedState : State ℕ ℕ where
  now := 1
  heap := Function.update (Function.update (Function.update (fun _ => none) 0 (some ⟨7, false⟩)) 0 (some ⟨7, true⟩)) 0 (some ⟨7, false⟩)
  tasks := [0]
  callers := []
  timers := []
  thread := .running ⟨0, 1, 1⟩ 7
  next := 2
  past := [.request 1 7, .start 7 1 0, .request 0 7]
  fault := false

theorem run_handed : handed.foldlM run (.init 0) = some handedState := rfl

theorem reachable_handed : Reachable Start step handedState := (Reachable.start ⟨0, rfl⟩).runs handed run_handed

/-- Until the thread of the timer has started the callback, the request is in its hands only. -/
theorem handed_unserved : ¬∀ (s : State ℕ ℕ), Reachable Start step s → ∀ r ∈ unserved s.past, s.Starting r.1 r.2 ∨ s.Scheduled r.2 := by
  intro h
  rcases h handedState reachable_handed (1, 7) (by decide) with ⟨k, hk, -⟩ | ⟨n, hn, hnode, -⟩
  · cases hk
  · obtain rfl := List.mem_singleton.mp hn
    cases hnode

/-- `requests_kept` where the thread of the timer has the request in its hands. -/
theorem requests_kept_handed : (∀ r ∈ unserved handedState.past,
      handedState.Starting r.1 r.2 ∨ handedState.Scheduled r.2 ∨ handedState.Running r.2) ∧ handedState.fault = false :=
  ⟨(requests_kept reachable_handed).1, (requests_kept reachable_handed).2.2.2.1⟩

end Pclsync.Timers.Ratelimited
