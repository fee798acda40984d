import Pclsync.Transfers.Slots

/-! Who waits for a download slot, and that the wait has an end: with no wake-up under way a thread that
waits has to. It fails where a signal meant for a run goes to the download thread, where a stop is not
signalled, and where a total passes `uint64_t`. -/
namespace Pclsync.Transfers.Downloads
open Lib.Machine Lib.Tally Lib.Transition

def State.Any (s : State) (p : Place) : Prop := ∃ r ∈ s.runs, r.place = p

/-- A thread that waits has to, or a run is woken and comes by. -/
structure Handed (s : State) : Prop where
  run : s.Any .blocked → s.busy = true ∨ s.Any .woken
  slot : ∀ dwl, s.main = .slot dwl false → dwl.stop = false ∧ (s.busy = true ∨ s.Any .woken)
  noDownloads : s.main = .noDownloads false → s.downloading = true ∨ s.Any .woken

variable {s s' t : State} {i : ℕ} {r r' : Run} {w : Option Waiter} {p : Place}

theorem any_of_set (h : t.Any p) (ht : t.runs = s.runs.set i r') (hr' : r'.place ≠ p) : s.Any p := by
  obtain ⟨q, hq, hplace⟩ := h
  rw [ht] at hq
  rcases List.mem_or_eq_of_mem_set hq with hq | rfl
  · exact ⟨q, hq, hplace⟩
  · exact absurd hplace hr'

theorem any_set (h : s.Any p) (ht : t.runs = s.runs.set i r') (hi : s.runs[i]? = some r) (hr : r.place ≠ p) : t.Any p := by
  obtain ⟨q, hq, hplace⟩ := h
  obtain ⟨j, hj⟩ := List.mem_iff_getElem?.mp hq
  have hne : i ≠ j := by
    rintro rfl
    cases hi.symm.trans hj
    exact hr hplace
  refine ⟨q, ?_, hplace⟩
  rw [ht]
  exact List.mem_iff_getElem?.mpr ⟨j, (List.getElem?_set_ne hne).trans hj⟩

theorem any_self (ht : t.runs = s.runs.set i r') (hi : s.runs[i]? = some r) (hr' : r'.place = p) : t.Any p := by
  refine ⟨r', ?_, hr'⟩
  rw [ht]
  exact List.mem_set (List.getElem?_eq_some_iff.mp hi).1 r'

/-- A step that leaves nobody who could go ahead. -/
theorem handed_of_busy (hbusy : s.busy = true) (hdownloading : s.downloading = true)
    (hstop : ∀ dwl, s.main = .slot dwl false → dwl.stop = false) : Handed s :=
  { run := fun _ => .inl hbusy
    slot := fun dwl hmain => ⟨hstop dwl hmain, .inl hbusy⟩
    noDownloads := fun _ => .inl hdownloading }

/-- Nobody waits. -/
theorem handed_of_no_waiters (h : Counted s) (hzero : s.currentDownloadsWaiters = 0) : Handed s := by
  have hwaiters := h.waiters
  rw [hzero] at hwaiters
  have hmain : s.main.waits = 0 := by omega
  have hnone : tally Run.waits s.runs = 0 := by omega
  constructor
  · rintro ⟨r, hr, hplace⟩
    have := of_tally_eq_zero hnone hr
    simp [Run.waits, Run.at, hplace] at this
  · intro dwl hslot
    rw [hslot] at hmain
    cases hmain
  · intro hno
    rw [hno] at hmain
    cases hmain

/-! ## Signals -/

theorem signal_busy (hs : s.signal w = some s') : s'.busy = s.busy ∧ s'.downloading = s.downloading := by
  rcases w with _ | _ | i
  · obtain ⟨rfl, -⟩ := signal_none hs
    exact ⟨rfl, rfl⟩
  · obtain ⟨rfl, -⟩ := signal_main hs
    exact ⟨rfl, rfl⟩
  · obtain ⟨r, -, -, rfl⟩ := signal_run hs
    exact ⟨rfl, rfl⟩

/-- After a signal a run is woken, unless it went to the download thread or to nobody. -/
theorem handed_signal (hs : s.signal w = some s') (hstop : ∀ dwl, s.main = .slot dwl false → dwl.stop = false)
    (hw : w = some .main → s.Any .blocked → s.busy = true ∨ s.Any .woken) : Handed s' := by
  rcases w with _ | _ | i
  · obtain ⟨rfl, hnone⟩ := signal_none hs
    unfold State.anyBlocked at hnone
    rw [Bool.or_eq_false_iff, List.any_eq_false] at hnone
    obtain ⟨hmain, hruns⟩ := hnone
    constructor
    · rintro ⟨r, hr, hplace⟩
      exact absurd (decide_eq_true hplace) (hruns r hr)
    · intro dwl hslot
      rw [hslot] at hmain
      cases hmain
    · intro hno
      rw [hno] at hmain
      cases hmain
  · obtain ⟨rfl, -⟩ := signal_main hs
    constructor
    · exact hw rfl
    · intro dwl hslot
      dsimp only at hslot
      cases hmain : s.main <;> rw [hmain] at hslot <;> cases hslot
    · intro hno
      dsimp only at hno
      cases hmain : s.main <;> rw [hmain] at hno <;> cases hno
  · obtain ⟨r, hi, -, rfl⟩ := signal_run hs
    have hwoken : (s.setRun i { r with place := .woken }).Any .woken := any_self rfl hi rfl
    exact { run := fun _ => .inr hwoken, slot := fun dwl hmain => ⟨hstop dwl hmain, .inr hwoken⟩,
            noDownloads := fun _ => .inr hwoken }

theorem handed_signalIf {test : Bool} (hs : s.signalIf test w = some s')
    (hstop : ∀ dwl, s.main = .slot dwl false → dwl.stop = false)
    (hw : w = some .main → s.Any .blocked → s'.busy = true ∨ s.Any .woken) (htest : test = false → Handed s) : Handed s' := by
  rcases signalIf_cases hs with ⟨-, hs⟩ | ⟨hfalse, rfl⟩
  · rw [(signal_busy hs).1] at hw
    exact handed_signal hs hstop hw
  · exact htest hfalse

/-! ## What goes wrong -/

def Event.wakes : Event → Option Waiter
  | .begin _ wakes | .chunk _ _ wakes | .finish _ wakes => wakes
  | _ => none

/-- There is a slot and a run waits for it, but the signal goes to the download thread. -/
def WakesMain (s : State) (e : Event) : Prop :=
  e.wakes = some .main ∧ s.Any .blocked ∧ ¬s.Any .woken ∧ ∃ s', s.run e = some s' ∧ s'.busy = false

/-- The task that the download thread waits with is stopped. -/
def StopsWaiting (s : State) (e : Event) : Prop :=
  ∃ which dwl, e = .stop which ∧ s.main = .slot dwl false ∧ (which.mark dwl).stop = true

/-- A total passes `uint64_t`. -/
def Overflows (s : State) : Event → Prop
  | .begin i _ => ∃ r, s.runs[i]? = some r ∧ r.place = .starting ∧ 2 ^ 64 ≤ s.bytestodownloadcurrent + r.serversize
  | .chunk _ rd _ => 2 ^ 64 ≤ s.bytesdownloaded + rd
  | _ => False

def Drift (s : State) (e : Event) : Prop := WakesMain s e ∨ StopsWaiting s e ∨ Overflows s e

/-! ## Steps -/

structure Sound (s : State) : Prop where
  counted : Counted s
  handed : Handed s

/-- The download thread comes to its wait, from elsewhere or woken. -/
theorem Sound.awaitNoDownloads (h : Sound s) (ht : t = s.setWaiters (s.currentDownloadsWaiters - s.main.waits)) :
    Sound t.awaitNoDownloads := by
  subst ht
  have hle : s.main.waits ≤ s.currentDownloadsWaiters := by
    rw [h.counted.waiters]
    exact Nat.le_add_left ..
  unfold State.awaitNoDownloads
  split
  next hdownloading =>
    have hwaits : (Main.noDownloads false).waits = 1 := rfl
    refine ⟨h.counted.setMain ?_, h.handed.run, by simp, fun _ => .inl hdownloading⟩
    simp only [State.setWaiters]
    omega
  · have hwaits : Main.elsewhere.waits = 0 := rfl
    refine ⟨h.counted.setMain ?_, h.handed.run, by simp, by simp⟩
    simp only [State.setWaiters]
    omega

theorem Sound.awaitPass (h : Sound s) (ht : t = s.setWaiters (s.currentDownloadsWaiters - s.main.waits))
    (dwl : Dwl) : Sound (t.awaitPass dwl) := by
  subst ht
  have hle : s.main.waits ≤ s.currentDownloadsWaiters := by
    rw [h.counted.waiters]
    exact Nat.le_add_left ..
  unfold State.awaitPass
  split
  next hwait =>
    rw [Bool.and_eq_true, Bool.not_eq_true'] at hwait
    have hwaits : (Main.slot dwl false).waits = 1 := rfl
    refine ⟨h.counted.setMain ?_, h.handed.run, ?_, by simp⟩
    · simp only [State.setWaiters]
      omega
    · intro dwl' hslot
      cases hslot
      exact ⟨hwait.1, .inl hwait.2⟩
  · have hwaits : (Main.passed dwl).waits = 0 := rfl
    refine ⟨h.counted.setMain ?_, h.handed.run, by simp, by simp⟩
    simp only [State.setWaiters]
    omega

theorem unwait_eq {n : ℕ} (hn : n = 1) : s.unwait = s.setWaiters (s.currentDownloadsWaiters - n) := by
  rw [hn]
  rfl

theorem awaitSlot_main (t : State) (i : ℕ) (r : Run) : (t.awaitSlot i r).main = t.main := by
  unfold State.awaitSlot
  split <;> rfl

theorem awaitSlot_busy (hone : t.startingDownloads ≤ 1) : (t.awaitSlot i r).busy = true := by
  unfold State.awaitSlot
  split
  next hbusy => exact hbusy
  · have hinc : inc t.startingDownloads = t.startingDownloads + 1 := inc_of_lt (by omega)
    simp only [hinc]
    have hne : t.startingDownloads + 1 ≠ 0 := Nat.succ_ne_zero _
    simp only [State.setRun, State.busy, hne, ne_eq, not_false_eq_true, decide_true, Bool.true_or]

/-- A run that comes to its wait leaves nobody who could go ahead. -/
theorem Sound.awaitSlot (h : Sound s) (hi : s.runs[i]? = some r) (hplace : r.place = .opening ∨ r.place = .woken)
    (ht : t = s.setWaiters (s.currentDownloadsWaiters - r.waits)) (hplace' : r'.place = r.place) (hr' : r'.Kept) :
    Sound (t.awaitSlot i r') := by
  have hcounted := h.counted.awaitSlot hi hplace ht hplace' hr'
  subst ht
  have hbusy : (State.awaitSlot (s.setWaiters (s.currentDownloadsWaiters - r.waits)) i r').busy = true :=
    awaitSlot_busy h.counted.one
  refine ⟨hcounted, handed_of_busy hbusy (hcounted.downloading_of_busy hbusy) ?_⟩
  rw [awaitSlot_main]
  exact fun dwl hmain => (h.handed.slot dwl hmain).1

theorem Sound.launch (h : Sound s) {dwl : Dwl} (hmain : s.main = .passed dwl) :
    Sound { s with main := .elsewhere } ∧ Sound { s with main := .elsewhere, runs := s.runs ++ [Run.start dwl] } := by
  have hfree : s.main.waits = 0 := by
    rw [hmain]
    rfl
  have hstart : ∀ f : Run → ℕ, f (Run.start dwl) = 0 → tally f (s.runs ++ [Run.start dwl]) = tally f s.runs := by
    intro f hf
    rw [tally_concat, hf, Nat.add_zero]
  have hwaits : s.currentDownloadsWaiters = tally Run.waits s.runs + 0 := by
    rw [← hfree]
    exact h.counted.waiters
  have hany : ∀ p, Place.opening ≠ p →
      (State.Any { s with main := .elsewhere, runs := s.runs ++ [Run.start dwl] } p ↔ s.Any p) := by
    intro p hp
    constructor
    · rintro ⟨r, hr, hplace⟩
      rcases List.mem_append.mp hr with hr | hr
      · exact ⟨r, hr, hplace⟩
      · cases List.mem_singleton.mp hr
        exact absurd hplace hp
    · rintro ⟨r, hr, hplace⟩
      exact ⟨r, List.mem_append_left _ hr, hplace⟩
  refine ⟨⟨{ h.counted with waiters := hwaits }, h.handed.run, by simp, by simp⟩, ⟨?_, ?_, nofun, nofun⟩⟩
  · exact { h.counted with
      starting := h.counted.starting.trans (hstart _ rfl).symm
      started := h.counted.started.trans (hstart _ rfl).symm
      total := h.counted.total.trans (hstart _ rfl).symm
      loaded := h.counted.loaded.trans (hstart _ rfl).symm
      waiters := hwaits.trans (congrArg (· + 0) (hstart _ rfl).symm)
      kept := by
        intro r hr
        rcases List.mem_append.mp hr with hr | hr
        · exact h.counted.kept r hr
        · cases List.mem_singleton.mp hr
          exact ⟨Nat.two_pow_pos 64, rfl, rfl, rfl, rfl⟩ }
  · rw [hany .blocked nofun, hany .woken nofun]
    exact h.handed.run

/-- A run ends that has not asked for a slot. -/
theorem Handed.leave (h : Handed s) (hi : s.runs[i]? = some r) (hplace : r.place = .opening) (hr' : r'.place = .ended) :
    Handed (s.setRun i r') := by
  have hwoken : s.Any .woken → (s.setRun i r').Any .woken := fun hany => any_set hany rfl hi (by simp [hplace])
  constructor
  · exact fun hany => (h.run (any_of_set hany rfl (by simp [hr']))).imp id hwoken
  · exact fun dwl hmain => ⟨(h.slot dwl hmain).1, (h.slot dwl hmain).2.imp id hwoken⟩
  · exact fun hmain => (h.noDownloads hmain).imp id hwoken

theorem Handed.stopAll {which : Stopped} (h : Handed s)
    (hstop : ∀ dwl, s.main = .slot dwl false → (which.mark dwl).stop = false) : Handed (s.stopAll which) := by
  have hany : ∀ p, (s.stopAll which).Any p ↔ s.Any p := by
    intro p
    constructor
    · rintro ⟨r, hr, hplace⟩
      obtain ⟨q, hq, rfl⟩ := List.mem_map.mp hr
      exact ⟨q, hq, hplace⟩
    · rintro ⟨r, hr, hplace⟩
      exact ⟨_, List.mem_map_of_mem hr, hplace⟩
  constructor
  · rw [hany, hany]
    exact h.run
  · intro dwl hslot
    rw [hany]
    simp only [State.stopAll] at hslot
    cases hmain : s.main with
    | slot d woken =>
      rw [hmain] at hslot
      cases hslot
      exact ⟨hstop d hmain, (h.slot d hmain).2⟩
    | _ =>
      rw [hmain] at hslot
      cases hslot
  · intro hno
    rw [hany]
    simp only [State.stopAll] at hno
    cases hmain : s.main with
    | noDownloads woken =>
      rw [hmain] at hno
      cases hno
      exact h.noDownloads hmain
    | _ =>
      rw [hmain] at hno
      cases hno

/-- A section of a run that ends with a signal. -/
theorem Sound.signalIf {test : Bool} (h : Sound s) (hcounted : Counted t) (hi : s.runs[i]? = some r)
    (ht : t.runs = s.runs.set i r' ∧ t.main = s.main) (hr : r.place ≠ .woken) (hr' : r'.place ≠ .blocked)
    (hs : t.signalIf test w = some s') (hw : w = some .main → s.Any .blocked → s'.busy = true ∨ s.Any .woken)
    (htest : test = false → Handed t) : Sound s' := by
  refine ⟨hcounted.signalIf hs, handed_signalIf hs ?_ ?_ htest⟩
  · rw [ht.2]
    exact fun dwl hmain => (h.handed.slot dwl hmain).1
  · intro hmain hblocked
    exact (hw hmain (any_of_set hblocked ht.1 hr')).imp id fun hwoken => any_set hwoken ht.1 hi hr

theorem setRun_threads (ht : s.SameThreads t) (i : ℕ) (r : Run) :
    (t.setRun i r).runs = s.runs.set i r ∧ (t.setRun i r).main = s.main ∧
      (t.setRun i r).currentDownloadsWaiters = s.currentDownloadsWaiters :=
  ⟨congrArg (List.set · i r) ht.1, ht.2.1, ht.2.2⟩

theorem begin_threads (s : State) (i : ℕ) (r : Run) :
    (s.begin i r).runs = s.runs.set i { r with place := .started, addedsize := r.serversize, currentCounter := some .started } ∧
      (s.begin i r).main = s.main ∧ (s.begin i r).currentDownloadsWaiters = s.currentDownloadsWaiters :=
  setRun_threads (((setBytes_threads ..).trans (setStarting_threads ..)).trans (setStarted_threads ..)) i _

theorem chunk_threads (s : State) (i : ℕ) (r : Run) (rd : ℕ) :
    (s.chunk i r rd).runs = s.runs.set i { r with downloadedsize := u64 (r.downloadedsize + rd) } ∧
      (s.chunk i r rd).main = s.main ∧ (s.chunk i r rd).currentDownloadsWaiters = s.currentDownloadsWaiters :=
  setRun_threads (setBytes_threads ..) i _

/-- The exit that takes itself from no counter. -/
theorem counted_opening (r' : Run) (h : Counted s) (hi : s.runs[i]? = some r)
    (hplace : r.place = .opening ∨ r.place = .starting ∨ r.place = .started) (hcnt : r.currentCounter.isSome = false) :
    r.place = .opening ∧
      (s.setRun i r').counted r.currentCounter r.addedsize r.downloadedsize r.downloadingcounted = s.setRun i r' := by
  have hkept := h.of_mem hi
  unfold Run.Kept at hkept
  rcases hplace with hplace | hplace | hplace
  · rw [hplace] at hkept
    obtain ⟨-, hcnt, hadded, hdownloaded, hcounted⟩ := hkept
    rw [hcnt, hadded, hdownloaded, hcounted]
    exact ⟨hplace, counted_none (s := s.setRun i r') h.total_lt h.loaded_lt⟩
  · rw [hplace] at hkept
    rw [hkept.2.1] at hcnt
    cases hcnt
  · rw [hplace] at hkept
    rw [hkept.2.1] at hcnt
    cases hcnt

theorem Sound.step {e : Event} (h : Sound s) (hstep : Downloads.step s e s') (hsafe : ¬Drift s e) : Sound s' := by
  unfold Downloads.step at hstep
  unfold Drift at hsafe
  rw [not_or, not_or] at hsafe
  obtain ⟨hwakes, hstops, hoverflows⟩ := hsafe
  -- a signal to the download thread finds no run that could go ahead
  have hw : ∀ w, e.wakes = w → w = some .main → s.Any .blocked → s'.busy = true ∨ s.Any .woken := by
    intro w hew hmain hblocked
    by_contra hnot
    rw [not_or] at hnot
    exact hwakes ⟨hew.trans hmain, hblocked, hnot.2, s', hstep, eq_false_of_ne_true hnot.1⟩
  cases e with
  | waitNoDownloads =>
    simp only [State.run] at hstep
    split at hstep
    next hmain =>
      cases hstep
      refine h.awaitNoDownloads ?_
      rw [hmain]
      rfl
    · cases hstep
  | runDownload fileid syncid =>
    simp only [State.run] at hstep
    split at hstep
    next hmain =>
      cases hstep
      refine h.awaitPass ?_ _
      rw [hmain]
      rfl
    · cases hstep
  | mainResumes =>
    simp only [State.run] at hstep
    split at hstep
    next hmain =>
      cases hstep
      exact h.awaitNoDownloads (unwait_eq (by rw [hmain]; rfl))
    next dwl hmain =>
      cases hstep
      exact h.awaitPass (unwait_eq (by rw [hmain]; rfl)) dwl
    · cases hstep
  | launch =>
    simp only [State.run] at hstep
    split at hstep
    next dwl hmain =>
      split at hstep
      · cases hstep
        exact (h.launch hmain).1
      · cases hstep
        exact (h.launch hmain).2
    · cases hstep
  | leave i =>
    simp only [State.run] at hstep
    split at hstep
    next r hi =>
      split at hstep
      next hplace =>
        cases hstep
        have hkept := h.counted.of_mem hi
        unfold Run.Kept at hkept
        rw [hplace] at hkept
        obtain ⟨-, hcnt, -⟩ := hkept
        have hopening := counted_opening { r with place := .ended } h.counted hi (.inl hplace) (by rw [hcnt]; rfl)
        have hkept' : Run.Kept { r with place := .ended } := ⟨(h.counted.of_mem hi).1, trivial⟩
        have hcounted := h.counted.finish hi (.inl hplace) hkept' rfl
        rw [hopening.2] at hcounted
        exact ⟨hcounted, h.handed.leave hi hplace rfl⟩
      · cases hstep
    · cases hstep
  | request i serversize =>
    simp only [State.run] at hstep
    split at hstep
    next r hi =>
      split at hstep
      next hguard =>
        cases hstep
        have hkept := h.counted.of_mem hi
        unfold Run.Kept at hkept
        rw [hguard.1] at hkept
        refine h.awaitSlot hi (.inl hguard.1) ?_ rfl ⟨hguard.2, ?_⟩
        · simp only [Run.waits, Run.at, hguard.1, reduceIte, reduceCtorEq]
          rfl
        · simp only [hguard.1]
          exact hkept.2
      · cases hstep
    · cases hstep
  | resume i =>
    simp only [State.run] at hstep
    split at hstep
    next r hi =>
      split at hstep
      next hplace =>
        cases hstep
        refine h.awaitSlot hi (.inr hplace) (unwait_eq ?_) rfl (h.counted.of_mem hi)
        simp only [Run.waits, Run.at, hplace, reduceIte, reduceCtorEq]
      · cases hstep
    · cases hstep
  | begin i w =>
    simp only [State.run] at hstep
    split at hstep
    next r hi =>
      split at hstep
      next hplace =>
        have hlt : s.bytestodownloadcurrent + r.serversize < 2 ^ 64 :=
          Nat.lt_of_not_le fun hle => hoverflows ⟨r, hi, hplace, hle⟩
        have hcounted := h.counted.begin hi hplace hlt
        have hthreads := begin_threads s i r
        refine h.signalIf hcounted hi ⟨hthreads.1, hthreads.2.1⟩ (by simp [hplace]) (by simp) hstep (hw w rfl) fun htest => ?_
        exact handed_of_no_waiters hcounted (hthreads.2.2.trans (not_not.mp (of_decide_eq_false htest)))
      · cases hstep
    · cases hstep
  | chunk i rd w =>
    simp only [State.run] at hstep
    split at hstep
    next r hi =>
      split at hstep
      next hguard =>
        have hlt : s.bytesdownloaded + rd < 2 ^ 64 := Nat.lt_of_not_le hoverflows
        have hcounted := h.counted.chunk hi hguard.1 hlt
        have hthreads := chunk_threads s i r rd
        refine h.signalIf hcounted hi ⟨hthreads.1, hthreads.2.1⟩ (by simp [hguard.1]) (by simp [hguard.1]) hstep (hw w rfl)
          fun htest => ?_
        rw [Bool.and_eq_false_iff] at htest
        rcases htest with htest | htest
        · exact handed_of_no_waiters hcounted (not_not.mp (of_decide_eq_false htest))
        · have hrest : startNewDownloadsTreshold < sub64 (s.chunk i r rd).bytestodownloadcurrent (s.chunk i r rd).bytesdownloaded :=
            Nat.lt_of_not_le (of_decide_eq_false htest)
          have hbusy : (s.chunk i r rd).busy = true := by
            simp only [State.busy, hrest, decide_true, Bool.or_true]
          refine handed_of_busy hbusy (hcounted.downloading_of_busy hbusy) ?_
          rw [hthreads.2.1]
          exact fun dwl hmain => (h.handed.slot dwl hmain).1
      · cases hstep
    · cases hstep
  | finish i w =>
    simp only [State.run] at hstep
    split at hstep
    next r hi =>
      split at hstep
      next hplace =>
        rw [taskDecCounter_eq] at hstep
        have hkept' : Run.Kept { r with place := .ended } := ⟨(h.counted.of_mem hi).1, trivial⟩
        have hcounted := h.counted.finish hi hplace hkept' rfl
        have hthreads := counted_threads (s.setRun i { r with place := .ended }) r.currentCounter r.addedsize
          r.downloadedsize r.downloadingcounted
        have hawake : r.place ≠ .woken := by rcases hplace with hplace | hplace | hplace <;> simp [hplace]
        refine h.signalIf hcounted hi ⟨hthreads.1, hthreads.2.1⟩ hawake (by simp) hstep (hw w rfl) fun htest => ?_
        rw [Bool.and_eq_false_iff] at htest
        rcases htest with htest | htest
        · exact handed_of_no_waiters hcounted (hthreads.2.2.trans (not_not.mp (of_decide_eq_false htest)))
        · obtain ⟨hopening, heq⟩ := counted_opening { r with place := .ended } h.counted hi hplace htest
          rw [heq]
          exact h.handed.leave hi hopening rfl
      · cases hstep
    · cases hstep
  | stop which =>
    cases hstep
    refine ⟨h.counted.stopAll which, h.handed.stopAll fun dwl hmain => ?_⟩
    by_contra hnot
    exact hstops ⟨which, dwl, rfl, hmain, eq_true_of_ne_false hnot⟩

/-! ## Runs -/

def Main.woken : Main → Bool
  | .noDownloads woken => woken
  | .slot _ woken => woken
  | _ => false

/-- A thread is woken and is still to look. -/
def State.Pending (s : State) : Prop := s.Any .woken ∨ s.main.woken = true

/-- The counters are the numbers of runs, the totals what the runs that have not ended have added, no
subtraction goes below zero, and who waits while no wake-up is under way has to. -/
structure Served (s : State) : Prop where
  starting : s.startingDownloads = s.runsAt .starting
  started : s.startedDownloads = s.runsAt .started
  files : s.filesdownloading = s.runsAt .starting + s.runsAt .started
  total : s.bytestodownloadcurrent = tally Run.adds s.runs
  loaded : s.bytesdownloaded = tally Run.loads s.runs
  covered : ∀ r ∈ s.runs, r.place ≠ .ended →
    r.addedsize ≤ s.bytestodownloadcurrent ∧ r.downloadedsize ≤ s.bytesdownloaded
  run : ¬s.Pending → ∀ r ∈ s.runs, r.place = .blocked → s.busy = true
  slot : ¬s.Pending → ∀ dwl, s.main = .slot dwl false → dwl.stop = false ∧ s.busy = true
  noDownloads : ¬s.Pending → s.main = .noDownloads false → s.downloading = true

theorem sound_initial (h : Initial s) : Sound s := by
  cases h
  refine ⟨⟨rfl, rfl, Nat.zero_le _, Nat.zero_le _, rfl, rfl, Nat.two_pow_pos 64, rfl, Nat.two_pow_pos 64, rfl, nofun⟩,
    ?_, nofun, nofun⟩
  rintro ⟨r, hr, -⟩
  cases hr

theorem Sound.covered (h : Sound s) (hr : r ∈ s.runs) (hplace : r.place ≠ .ended) :
    r.addedsize ≤ s.bytestodownloadcurrent ∧ r.downloadedsize ≤ s.bytesdownloaded := by
  have hkept := h.counted.kept r hr
  have hle := h.counted.adds_le hr
  unfold Run.Kept at hkept
  unfold Run.adds Run.loads at hle
  cases hcase : r.place <;> rw [hcase] at hkept hle
  case ended => exact absurd hcase hplace
  case started =>
    rw [hkept.2.2.1]
    exact hle
  case starting =>
    rw [hkept.2.2.1, hkept.2.2.2.1]
    exact ⟨Nat.zero_le _, Nat.zero_le _⟩
  all_goals
    rw [hkept.2.2.1, hkept.2.2.2.1]
    exact ⟨Nat.zero_le _, Nat.zero_le _⟩

theorem Sound.served (h : Sound s) : Served s where
  starting := h.counted.starting
  started := h.counted.started
  files := by rw [h.counted.files, ← h.counted.starting, ← h.counted.started]
  total := h.counted.total
  loaded := h.counted.loaded
  covered := fun _ hr hplace => h.covered hr hplace
  run := fun hidle r hr hplace => (h.handed.run ⟨r, hr, hplace⟩).resolve_right fun hwoken => hidle (.inl hwoken)
  slot := fun hidle dwl hmain =>
    ⟨(h.handed.slot dwl hmain).1, (h.handed.slot dwl hmain).2.resolve_right fun hwoken => hidle (.inl hwoken)⟩
  noDownloads := fun hidle hmain => (h.handed.noDownloads hmain).resolve_right fun hwoken => hidle (.inl hwoken)

/-- Slots are counted and handed on in every run in which a signal for a run goes to a run, the task
that the download thread waits with is not stopped, and the totals fit. -/
theorem served_of_avoiding (h : Reachable Initial (Avoiding Downloads.step Drift) s) : Served s :=
  (h.invariant (fun _ => sound_initial) fun _ _ _ hs hstep => hs.step hstep.1 hstep.2).served

def noDownloads : State :=
  { startingDownloads := 0, startedDownloads := 0, currentDownloadsWaiters := 0, filesdownloading := 0,
    bytestodownloadcurrent := 0, bytesdownloaded := 0, runs := [], main := .elsewhere }

/-- Two files, of which one is started and the other one waits for that. -/
def twoFiles : List Event :=
  [.runDownload 1 1, .launch, .runDownload 2 1, .launch, .request 0 5, .request 1 7]

def secondWaits : State :=
  { startingDownloads := 1, startedDownloads := 0, currentDownloadsWaiters := 1, filesdownloading := 1,
    bytestodownloadcurrent := 0, bytesdownloaded := 0, main := .elsewhere
    runs := [⟨⟨1, 1, false⟩, .starting, 5, some .starting, 0, 0, true⟩, ⟨⟨2, 1, false⟩, .blocked, 7, none, 0, 0, false⟩] }

/-- A step that does not signal, stop or add. -/
theorem not_drift_of_quiet {e : Event} (he : match e with
    | .begin .. | .chunk .. | .finish .. | .stop _ => False
    | _ => True) (s : State) : ¬Drift s e := by
  rintro (⟨hwakes, -⟩ | ⟨which, dwl, rfl, -⟩ | hover)
  · cases e <;> first | exact he | cases hwakes
  · exact he
  · cases e <;> first | exact he | exact hover

/-- The signal of the first run goes to the second one, which then starts. -/
theorem served_second : ∃ s : State, Served s ∧ s.startingDownloads = 1 ∧ s.startedDownloads = 1 ∧
    s.bytestodownloadcurrent = 5 := by
  have hwaits : Reachable Initial (Avoiding Downloads.step Drift) secondWaits := by
    refine Reachable.foldlM twoFiles (s := noDownloads) (.start rfl) (by decide) fun e he s => ?_
    simp only [twoFiles, List.mem_cons, List.not_mem_nil, or_false] at he
    rcases he with rfl | rfl | rfl | rfl | rfl | rfl <;> exact not_drift_of_quiet trivial s
  have hbegin : ¬Drift secondWaits (.begin 0 (some (.run 1))) := by
    rintro (⟨hwakes, -⟩ | ⟨which, dwl, he, -⟩ | ⟨r, hr, -, hle⟩)
    · cases hwakes
    · cases he
    · cases hr
      revert hle
      decide
  obtain ⟨s, hs, hstarting, hstarted, htotal⟩ : ∃ s, (secondWaits.run (.begin 0 (some (.run 1)))).bind (·.run (.resume 1)) = some s ∧
      s.startingDownloads = 1 ∧ s.startedDownloads = 1 ∧ s.bytestodownloadcurrent = 5 := by
    refine ⟨{ secondWaits with
      startedDownloads := 1, currentDownloadsWaiters := 0, filesdownloading := 2, bytestodownloadcurrent := 5
      runs := [⟨⟨1, 1, false⟩, .started, 5, some .started, 5, 0, true⟩,
        ⟨⟨2, 1, false⟩, .starting, 7, some .starting, 0, 0, true⟩] }, by decide, rfl, rfl, rfl⟩
  obtain ⟨t, ht, hresume⟩ := Option.bind_eq_some_iff.mp hs
  exact ⟨s, served_of_avoiding (.next (.next hwaits ⟨ht, hbegin⟩) ⟨hresume, not_drift_of_quiet trivial t⟩), hstarting, hstarted, htotal⟩

/-- The first run is started, there is a slot, and the second run waits for one. -/
def slotUnused : State :=
  { startingDownloads := 0, startedDownloads := 1, currentDownloadsWaiters := 2, filesdownloading := 1,
    bytestodownloadcurrent := 5, bytesdownloaded := 0, main := .noDownloads false
    runs := [⟨⟨1, 1, false⟩, .started, 5, some .started, 5, 0, true⟩, ⟨⟨2, 1, false⟩, .blocked, 7, none, 0, 0, false⟩] }

/-- The signal of the first run goes to the download thread, which waits for the end of all downloads
and waits again. The second run waits on. -/
theorem run_left_waiting : Reachable Initial Downloads.step slotUnused ∧ ¬slotUnused.Pending ∧ ¬Served slotUnused := by
  have hreach : Reachable Initial (Avoiding Downloads.step fun _ _ => False) slotUnused :=
    Reachable.foldlM (twoFiles ++ [.waitNoDownloads, .begin 0 (some .main), .mainResumes]) (s := noDownloads) (.start rfl)
      (by decide) fun _ _ _ => id
  have hidle : ¬slotUnused.Pending := by
    rintro (⟨r, hr, hplace⟩ | hmain)
    · rcases List.mem_pair.mp hr with rfl | rfl <;> cases hplace
    · cases hmain
  refine ⟨hreach.avoiding, hidle, fun h => ?_⟩
  have hbusy := h.run hidle ⟨⟨2, 1, false⟩, .blocked, 7, none, 0, 0, false⟩ (.tail _ (.head _)) rfl
  revert hbusy
  decide

end Pclsync.Transfers.Downloads
