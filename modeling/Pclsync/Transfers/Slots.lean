import Pclsync.Transfers.Downloads

/-! What the download slots keep: the counters are the numbers of runs, the totals are what the runs that
are started have added, and a thread that waits has to, unless a signal or a stop goes astray. -/
namespace Pclsync.Transfers.Downloads
open Lib.Machine Lib.Tally Lib.Transition

/-! ## Counting runs -/

def Run.at (p : Place) (r : Run) : ℕ := if r.place = p then 1 else 0

def Run.waits (r : Run) : ℕ := r.at .blocked + r.at .woken

/-- What a run has added to `bytestodownloadcurrent` and has not taken off. -/
def Run.adds (r : Run) : ℕ := if r.place = .started then r.serversize else 0

/-- The same for `bytesdownloaded`. -/
def Run.loads (r : Run) : ℕ := if r.place = .started then r.downloadedsize else 0

def Main.waits : Main → ℕ
  | .noDownloads _ | .slot _ _ => 1
  | _ => 0

/-- The number of the runs at a place. -/
def State.runsAt (s : State) (p : Place) : ℕ := tally (Run.at p) s.runs

theorem Run.at_self {r : Run} {p : Place} (h : r.place = p) : r.at p = 1 := if_pos h

/-- The local variables are those of the place. -/
def Run.Kept (r : Run) : Prop :=
  r.serversize < 2 ^ 64 ∧
  match r.place with
  | .opening | .blocked | .woken =>
    r.currentCounter = none ∧ r.addedsize = 0 ∧ r.downloadedsize = 0 ∧ r.downloadingcounted = false
  | .starting =>
    r.currentCounter = some .starting ∧ r.addedsize = 0 ∧ r.downloadedsize = 0 ∧ r.downloadingcounted = true
  | .started =>
    r.currentCounter = some .started ∧ r.addedsize = r.serversize ∧ r.downloadingcounted = true
  | .ended => True

/-- The counters and totals are those of the runs. -/
structure Counted (s : State) : Prop where
  starting : s.startingDownloads = s.runsAt .starting
  started : s.startedDownloads = s.runsAt .started
  one : s.startingDownloads ≤ 1
  few : s.startingDownloads + s.startedDownloads ≤ maxParallelDownloads
  files : s.filesdownloading = s.startingDownloads + s.startedDownloads
  total : s.bytestodownloadcurrent = tally Run.adds s.runs
  total_lt : s.bytestodownloadcurrent < 2 ^ 64
  loaded : s.bytesdownloaded = tally Run.loads s.runs
  loaded_lt : s.bytesdownloaded < 2 ^ 64
  waiters : s.currentDownloadsWaiters = tally Run.waits s.runs + s.main.waits
  kept : ∀ r ∈ s.runs, r.Kept

variable {s s' : State} {i : ℕ} {r r' : Run} {w : Option Waiter}

/-- One run is at another place, and the counters follow. -/
theorem Counted.move (h : Counted s) (hi : s.runs[i]? = some r) (hruns : s'.runs = s.runs.set i r') (hkept : r'.Kept)
    (hstarting : s'.startingDownloads + r.at .starting = s.startingDownloads + r'.at .starting)
    (hstarted : s'.startedDownloads + r.at .started = s.startedDownloads + r'.at .started)
    (hone : s'.startingDownloads ≤ 1)
    (hfew : s'.startingDownloads + s'.startedDownloads ≤ maxParallelDownloads)
    (hfiles : s'.filesdownloading = s'.startingDownloads + s'.startedDownloads)
    (htotal : s'.bytestodownloadcurrent + r.adds = s.bytestodownloadcurrent + r'.adds)
    (htotal_lt : s'.bytestodownloadcurrent < 2 ^ 64)
    (hloaded : s'.bytesdownloaded + r.loads = s.bytesdownloaded + r'.loads)
    (hloaded_lt : s'.bytesdownloaded < 2 ^ 64)
    (hwaiters : s'.currentDownloadsWaiters + r.waits + s.main.waits = s.currentDownloadsWaiters + r'.waits + s'.main.waits) :
    Counted s' := by
  have hset := fun f : Run → ℕ => tally_set (f := f) (b := r') hi
  refine ⟨?_, ?_, hone, hfew, hfiles, ?_, htotal_lt, ?_, hloaded_lt, ?_, ?_⟩
  · have := h.starting
    have := hset (Run.at .starting)
    simp only [State.runsAt, hruns] at *
    omega
  · have := h.started
    have := hset (Run.at .started)
    simp only [State.runsAt, hruns] at *
    omega
  · have := h.total
    have := hset Run.adds
    simp only [hruns]
    omega
  · have := h.loaded
    have := hset Run.loads
    simp only [hruns]
    omega
  · have := h.waiters
    have := hset Run.waits
    simp only [hruns]
    omega
  · intro q hq
    rw [hruns] at hq
    rcases List.mem_or_eq_of_mem_set hq with hq | rfl
    · exact h.kept q hq
    · exact hkept

theorem Counted.of_mem (h : Counted s) (hi : s.runs[i]? = some r) : r.Kept := h.kept r (List.mem_of_getElem? hi)

theorem Counted.at_le (h : Counted s) (hi : s.runs[i]? = some r) :
    r.at .starting ≤ s.startingDownloads ∧ r.at .started ≤ s.startedDownloads := by
  rw [h.starting, h.started]
  exact ⟨le_tally (List.mem_of_getElem? hi), le_tally (List.mem_of_getElem? hi)⟩

/-- No subtraction goes below zero. -/
theorem Counted.adds_le (h : Counted s) (hr : r ∈ s.runs) :
    r.adds ≤ s.bytestodownloadcurrent ∧ r.loads ≤ s.bytesdownloaded := by
  rw [h.total, h.loaded]
  exact ⟨le_tally hr, le_tally hr⟩

/-- With no run that is started there is nothing in the totals. -/
theorem adds_eq_zero {l : List Run} (h : tally (Run.at .started) l = 0) :
    tally Run.adds l = 0 ∧ tally Run.loads l = 0 := by
  have hnone : ∀ r ∈ l, r.place ≠ .started := by
    intro r hr hplace
    have := of_tally_eq_zero h hr
    rw [Run.at_self hplace] at this
    cases this
  constructor
  · exact tally_eq_zero_of fun r hr => if_neg (hnone r hr)
  · exact tally_eq_zero_of fun r hr => if_neg (hnone r hr)

theorem Counted.idle (h : Counted s) (hstarted : s.startedDownloads = 0) :
    s.bytestodownloadcurrent = 0 ∧ s.bytesdownloaded = 0 := by
  rw [h.total, h.loaded]
  exact adds_eq_zero (h.started.symm.trans hstarted)

/-- The last run that is started has added all there is. -/
theorem Counted.last (h : Counted s) (hi : s.runs[i]? = some r) (hplace : r.place = .started)
    (hstarted : s.startedDownloads = 1) : s.bytestodownloadcurrent = r.adds ∧ s.bytesdownloaded = r.loads := by
  have hset := fun f : Run → ℕ => tally_set (f := f) (b := { r with place := .ended }) hi
  have hnone : tally (Run.at .started) (s.runs.set i { r with place := .ended }) = 0 := by
    have hat := hset (Run.at .started)
    have hone : tally (Run.at .started) s.runs = 1 := h.started.symm.trans hstarted
    rw [Run.at_self hplace, hone] at hat
    exact Nat.succ.inj hat
  obtain ⟨hadds, hloads⟩ := adds_eq_zero hnone
  have hadds' := hset Run.adds
  have hloads' := hset Run.loads
  rw [hadds, Nat.zero_add] at hadds'
  rw [hloads, Nat.zero_add] at hloads'
  exact ⟨h.total.trans hadds'.symm, h.loaded.trans hloads'.symm⟩

/-- When nothing downloads there is a slot. -/
theorem Counted.downloading_of_busy (h : Counted s) (hbusy : s.busy = true) : s.downloading = true := by
  by_contra hnot
  have hzero : s.startingDownloads = 0 ∧ s.startedDownloads = 0 := by simpa [State.downloading] using hnot
  obtain ⟨htotal, hloaded⟩ := h.idle hzero.2
  unfold State.busy at hbusy
  rw [hzero.1, hzero.2, htotal, hloaded] at hbusy
  revert hbusy
  decide

/-! ## Signals -/

@[simp] theorem Main.waits_wake (m : Main) : m.wake.waits = m.waits := by cases m <;> rfl

/-- A signal that goes to nobody found nobody. -/
theorem signal_none (hs : s.signal none = some s') : s' = s ∧ s.anyBlocked = false := by
  simp only [State.signal] at hs
  split at hs
  · cases hs
  next hnot =>
    cases hs
    exact ⟨rfl, eq_false_of_ne_true hnot⟩

theorem signal_main (hs : s.signal (some .main) = some s') :
    s' = { s with main := s.main.wake } ∧ s.main.blocked = true := by
  simp only [State.signal] at hs
  split at hs
  next hblocked =>
    cases hs
    exact ⟨rfl, hblocked⟩
  · cases hs

theorem signal_run (hs : s.signal (some (.run i)) = some s') :
    ∃ r, s.runs[i]? = some r ∧ r.place = .blocked ∧ s' = s.setRun i { r with place := .woken } := by
  simp only [State.signal] at hs
  split at hs
  next r hi =>
    split at hs
    next hplace =>
      cases hs
      exact ⟨r, hi, hplace, rfl⟩
    · cases hs
  · cases hs

/-- A signal leaves the counters. -/
theorem Counted.signal (h : Counted s) (hs : s.signal w = some s') : Counted s' := by
  rcases w with _ | _ | i
  · obtain ⟨rfl, -⟩ := signal_none hs
    exact h
  · obtain ⟨rfl, -⟩ := signal_main hs
    exact { h with waiters := by simp only [Main.waits_wake]; exact h.waiters }
  · obtain ⟨r, hi, hplace, rfl⟩ := signal_run hs
    have hkept := h.of_mem hi
    unfold Run.Kept at hkept
    rw [hplace] at hkept
    refine h.move hi rfl hkept ?_ ?_ h.one h.few h.files ?_ h.total_lt ?_ h.loaded_lt ?_
    · simp [Run.at, hplace, State.setRun]
    · simp [Run.at, hplace, State.setRun]
    · simp [Run.adds, hplace, State.setRun]
    · simp [Run.loads, hplace, State.setRun]
    · simp [Run.waits, Run.at, hplace, State.setRun]

theorem signalIf_cases {test : Bool} (hs : s.signalIf test w = some s') :
    test = true ∧ s.signal w = some s' ∨ test = false ∧ s' = s := by
  unfold State.signalIf at hs
  split at hs
  next htest => exact .inl ⟨htest, hs⟩
  next htest =>
    split at hs
    · cases hs
      exact .inr ⟨eq_false_of_ne_true htest, rfl⟩
    · cases hs

theorem Counted.signalIf {test : Bool} (h : Counted s) (hs : s.signalIf test w = some s') : Counted s' := by
  rcases signalIf_cases hs with ⟨-, hs⟩ | ⟨-, rfl⟩
  · exact h.signal hs
  · exact h

theorem signal_setFiles (s : State) (n : ℕ) (w : Option Waiter) :
    (s.signal w).map (·.setFiles n) = (s.setFiles n).signal w := by
  rcases w with _ | _ | i
  · exact apply_ite (Option.map fun s : State => s.setFiles n) ..
  · exact apply_ite (Option.map fun s : State => s.setFiles n) ..
  · simp only [State.signal]
    have hruns : (s.setFiles n).runs = s.runs := rfl
    rw [hruns]
    split
    · exact apply_ite (Option.map fun s : State => s.setFiles n) ..
    · rfl

theorem signal_files (hs : s.signal w = some s') : s'.filesdownloading = s.filesdownloading := by
  rcases w with _ | _ | i
  · obtain ⟨rfl, -⟩ := signal_none hs
    rfl
  · obtain ⟨rfl, -⟩ := signal_main hs
    rfl
  · obtain ⟨r, -, -, rfl⟩ := signal_run hs
    rfl

/-- The signal may as well come after the files are counted. -/
theorem signal_decFiles (s : State) (w : Option Waiter) : (s.signal w).map State.decFiles = s.decFiles.signal w := by
  unfold State.decFiles
  rw [← signal_setFiles]
  refine Option.map_congr fun s' hs' => ?_
  rw [signal_files hs']

theorem signalIf_decFiles (s : State) (test : Bool) (w : Option Waiter) :
    (s.signalIf test w).map State.decFiles = s.decFiles.signalIf test w := by
  unfold State.signalIf
  split
  · exact signal_decFiles s w
  · exact apply_ite (Option.map State.decFiles) ..

/-- `task_dec_counter` before its signal. -/
def State.counted (s : State) (cnt : Option Counter) (filesize downloadedsize : ℕ) (downloading : Bool) : State :=
  let s := s.decCnt cnt
  let s := s.setBytes (sub64 s.bytestodownloadcurrent filesize) (sub64 s.bytesdownloaded downloadedsize)
  if downloading then s.decFiles else s

/-- The threads are where they were. -/
def State.SameThreads (s t : State) : Prop :=
  t.runs = s.runs ∧ t.main = s.main ∧ t.currentDownloadsWaiters = s.currentDownloadsWaiters

theorem setStarting_threads (s : State) (n : ℕ) : s.SameThreads (s.setStarting n) := ⟨rfl, rfl, rfl⟩

theorem setStarted_threads (s : State) (n : ℕ) : s.SameThreads (s.setStarted n) := ⟨rfl, rfl, rfl⟩

theorem setBytes_threads (s : State) (a b : ℕ) : s.SameThreads (s.setBytes a b) := ⟨rfl, rfl, rfl⟩

theorem setFiles_threads (s : State) (n : ℕ) : s.SameThreads (s.setFiles n) := ⟨rfl, rfl, rfl⟩

theorem State.SameThreads.trans {u : State} (hs : s.SameThreads s') (hu : s'.SameThreads u) : s.SameThreads u :=
  ⟨hu.1.trans hs.1, hu.2.1.trans hs.2.1, hu.2.2.trans hs.2.2⟩

theorem decCnt_threads (s : State) (cnt : Option Counter) : s.SameThreads (s.decCnt cnt) := by
  rcases cnt with _ | _ | _
  · exact ⟨rfl, rfl, rfl⟩
  · exact setStarting_threads ..
  · exact setStarted_threads ..

theorem counted_threads (s : State) (cnt : Option Counter) (a b : ℕ) (downloading : Bool) :
    s.SameThreads (s.counted cnt a b downloading) := by
  unfold State.counted
  dsimp only
  have hbytes := (decCnt_threads s cnt).trans
    (setBytes_threads _ (sub64 (s.decCnt cnt).bytestodownloadcurrent a) (sub64 (s.decCnt cnt).bytesdownloaded b))
  split
  · exact hbytes.trans (setFiles_threads ..)
  · exact hbytes

/-- `task_dec_counter` with its signal at the end. -/
theorem taskDecCounter_eq (s : State) (cnt : Option Counter) (filesize downloadedsize : ℕ) (downloading : Bool)
    (w : Option Waiter) :
    s.taskDecCounter cnt filesize downloadedsize downloading w =
      (s.counted cnt filesize downloadedsize downloading).signalIf (s.currentDownloadsWaiters ≠ 0 && cnt.isSome) w := by
  unfold State.taskDecCounter State.counted
  dsimp only
  have hbytes : ∀ a b, ((s.decCnt cnt).setBytes a b).currentDownloadsWaiters = s.currentDownloadsWaiters :=
    fun _ _ => (decCnt_threads s cnt).2.2
  rw [hbytes]
  cases downloading
  · simp only [Bool.false_eq_true, if_false]
    exact Option.map_id'
  · simp only [if_true]
    exact signalIf_decFiles _ _ w

/-! ## What a step does to the counters -/

theorem dec_of_pos {x : ℕ} (hpos : 0 < x) (hlt : x < 2 ^ 64) : dec x = x - 1 := sub64_of_le hpos hlt

theorem inc_of_lt {x : ℕ} (hlt : x < 2 ^ 63) : inc x = x + 1 := u64_of_lt (by omega)

/-- Where the last file leaves nothing, the totals stay. -/
theorem setFiles_eq {n : ℕ} (h : n = 0 → s.bytestodownloadcurrent = 0 ∧ s.bytesdownloaded = 0) :
    s.setFiles n = { s with filesdownloading := n } := by
  unfold State.setFiles
  have htotal : (if n = 0 then 0 else s.bytestodownloadcurrent) = s.bytestodownloadcurrent :=
    ite_eq_right_iff.mpr fun hn => (h hn).1.symm
  have hloaded : (if n = 0 then 0 else s.bytesdownloaded) = s.bytesdownloaded :=
    ite_eq_right_iff.mpr fun hn => (h hn).2.symm
  rw [htotal, hloaded]

theorem decFiles_of_pos (hpos : 0 < s.filesdownloading) (hlt : s.filesdownloading < 2 ^ 32) :
    s.decFiles = s.setFiles (s.filesdownloading - 1) := by
  have hdec : u32 (s.filesdownloading + 2 ^ 32 - 1) = s.filesdownloading - 1 := by
    unfold u32
    omega
  exact congrArg s.setFiles hdec

theorem counted_none (htotal : s.bytestodownloadcurrent < 2 ^ 64) (hloaded : s.bytesdownloaded < 2 ^ 64) :
    s.counted none 0 0 false = s := by
  unfold State.counted
  simp only [State.decCnt, Bool.false_eq_true, if_false]
  rw [sub64_of_le (Nat.zero_le _) htotal, sub64_of_le (Nat.zero_le _) hloaded]
  rfl

/-- What `task_dec_counter` does, where nothing goes below zero. -/
theorem counted_starting (hpos : 0 < s.startingDownloads) (hfiles : 0 < s.filesdownloading)
    (hlt : s.startingDownloads < 2 ^ 32 ∧ s.filesdownloading < 2 ^ 32) (htotal : s.bytestodownloadcurrent < 2 ^ 64)
    (hloaded : s.bytesdownloaded < 2 ^ 64) :
    s.counted (some .starting) 0 0 true =
      (s.setStarting (s.startingDownloads - 1)).setFiles (s.filesdownloading - 1) := by
  unfold State.counted
  simp only [State.decCnt, if_true]
  rw [dec_of_pos hpos (by omega)]
  generalize hs' : s.setStarting (s.startingDownloads - 1) = s'
  have hfields : s'.bytestodownloadcurrent = s.bytestodownloadcurrent ∧ s'.bytesdownloaded = s.bytesdownloaded ∧
      s'.filesdownloading = s.filesdownloading := by
    subst hs'
    exact ⟨rfl, rfl, rfl⟩
  rw [sub64_of_le (Nat.zero_le _) (hfields.1 ▸ htotal), sub64_of_le (Nat.zero_le _) (hfields.2.1 ▸ hloaded), ← hfields.2.2]
  exact decFiles_of_pos (hfields.2.2 ▸ hfiles) (hfields.2.2 ▸ hlt.2)

theorem counted_started {a b : ℕ} (hpos : 0 < s.startedDownloads) (hfiles : 0 < s.filesdownloading)
    (hlt : s.startedDownloads < 2 ^ 32 ∧ s.filesdownloading < 2 ^ 32)
    (ha : a ≤ s.bytestodownloadcurrent) (htotal : s.bytestodownloadcurrent < 2 ^ 64)
    (hb : b ≤ s.bytesdownloaded) (hloaded : s.bytesdownloaded < 2 ^ 64) :
    s.counted (some .started) a b true =
      ((s.setStarted (s.startedDownloads - 1)).setBytes (s.bytestodownloadcurrent - a) (s.bytesdownloaded - b)).setFiles
        (s.filesdownloading - 1) := by
  unfold State.counted
  simp only [State.decCnt, if_true]
  rw [dec_of_pos hpos (by omega)]
  generalize hs' : s.setStarted (s.startedDownloads - 1) = s'
  have hfields : s'.bytestodownloadcurrent = s.bytestodownloadcurrent ∧ s'.bytesdownloaded = s.bytesdownloaded ∧
      s'.filesdownloading = s.filesdownloading := by
    subst hs'
    exact ⟨rfl, rfl, rfl⟩
  rw [hfields.1, hfields.2.1, sub64_of_le ha htotal, sub64_of_le hb hloaded, ← hfields.2.2]
  exact decFiles_of_pos (hfields.2.2 ▸ hfiles) (hfields.2.2 ▸ hlt.2)

/-- The end of a run: what it has added is taken off. -/
theorem Counted.finish (h : Counted s) (hi : s.runs[i]? = some r)
    (hplace : r.place = .opening ∨ r.place = .starting ∨ r.place = .started) (hr' : r'.Kept) (hended : r'.place = .ended) :
    Counted ((s.setRun i r').counted r.currentCounter r.addedsize r.downloadedsize r.downloadingcounted) := by
  have hkept := h.of_mem hi
  have hle := h.at_le hi
  have hadds := h.adds_le (List.mem_of_getElem? hi)
  have hone := h.one
  have hfew := h.few
  have hfiles := h.files
  have htotal := h.total_lt
  have hloaded := h.loaded_lt
  unfold maxParallelDownloads at hfew
  have hfew' : ∀ n, n ≤ s.startingDownloads + s.startedDownloads → n ≤ maxParallelDownloads :=
    fun n hn => hn.trans h.few
  unfold Run.Kept at hkept
  rcases hplace with hplace | hplace | hplace
  · rw [hplace] at hkept
    obtain ⟨-, hcnt, hadded, hdownloaded, hcounted⟩ := hkept
    rw [hcnt, hadded, hdownloaded, hcounted, counted_none (s := s.setRun i r') htotal hloaded]
    refine h.move hi rfl hr' ?_ ?_ hone h.few hfiles ?_ htotal ?_ hloaded ?_
    · simp [Run.at, hplace, hended, State.setRun]
    · simp [Run.at, hplace, hended, State.setRun]
    · simp [Run.adds, hplace, hended, State.setRun]
    · simp [Run.loads, hplace, hended, State.setRun]
    · simp [Run.waits, Run.at, hplace, hended, State.setRun]
  · rw [hplace] at hkept
    obtain ⟨-, hcnt, hadded, hdownloaded, hcounted⟩ := hkept
    rw [Run.at_self hplace] at hle
    have hfpos : 0 < s.filesdownloading := by omega
    have hlt : s.startingDownloads < 2 ^ 32 ∧ s.filesdownloading < 2 ^ 32 := ⟨by omega, by omega⟩
    have hlast : s.filesdownloading - 1 = 0 → s.bytestodownloadcurrent = 0 ∧ s.bytesdownloaded = 0 :=
      fun hlast => h.idle (by omega)
    have hfiles' := setFiles_eq (s := (s.setRun i r').setStarting ((s.setRun i r').startingDownloads - 1))
      (n := (s.setRun i r').filesdownloading - 1) hlast
    rw [hcnt, hadded, hdownloaded, hcounted, counted_starting (s := s.setRun i r') hle.1 hfpos hlt htotal hloaded, hfiles']
    refine h.move hi rfl hr' ?_ ?_ ?_ ?_ ?_ ?_ htotal ?_ hloaded ?_
    all_goals simp only [State.setStarting, State.setRun]
    · simp only [Run.at, hplace, hended, reduceIte, reduceCtorEq]
      omega
    · simp [Run.at, hplace, hended]
    · omega
    · exact hfew' _ (by omega)
    · omega
    · simp [Run.adds, hplace, hended]
    · simp [Run.loads, hplace, hended]
    · simp [Run.waits, Run.at, hplace, hended]
  · rw [hplace] at hkept
    obtain ⟨-, hcnt, hadded, hcounted⟩ := hkept
    rw [Run.at_self hplace] at hle
    have hfpos : 0 < s.filesdownloading := by omega
    have hlt : s.startedDownloads < 2 ^ 32 ∧ s.filesdownloading < 2 ^ 32 := ⟨by omega, by omega⟩
    have hrun : r.addedsize = r.adds ∧ r.downloadedsize = r.loads := by
      simp only [Run.adds, Run.loads, hplace, if_true, hadded, and_self]
    have hlast : s.filesdownloading - 1 = 0 → s.bytestodownloadcurrent - r.adds = 0 ∧ s.bytesdownloaded - r.loads = 0 := by
      intro hlast
      obtain ⟨htotal, hloaded⟩ := h.last hi hplace (by omega)
      rw [htotal, hloaded, Nat.sub_self, Nat.sub_self]
      exact ⟨rfl, rfl⟩
    have hzero : r'.adds = 0 ∧ r'.loads = 0 := by
      simp only [Run.adds, Run.loads, hended, reduceIte, reduceCtorEq, and_self]
    have hfiles' := setFiles_eq
      (s := ((s.setRun i r').setStarted ((s.setRun i r').startedDownloads - 1)).setBytes
        ((s.setRun i r').bytestodownloadcurrent - r.adds) ((s.setRun i r').bytesdownloaded - r.loads))
      (n := (s.setRun i r').filesdownloading - 1) hlast
    rw [hcnt, hcounted, hrun.1, hrun.2,
      counted_started (s := s.setRun i r') hle.2 hfpos hlt hadds.1 htotal hadds.2 hloaded, hfiles']
    refine h.move hi rfl hr' ?_ ?_ ?_ ?_ ?_ ?_ ?_ ?_ ?_ ?_
    all_goals simp only [State.setBytes, State.setStarted, State.setRun, hzero]
    · simp [Run.at, hplace, hended]
    · simp only [Run.at, hplace, hended, reduceIte, reduceCtorEq]
      omega
    · exact hone
    · exact hfew' _ (by omega)
    · omega
    · omega
    · omega
    · omega
    · omega
    · simp [Run.waits, Run.at, hplace, hended]

theorem free_of_not_busy (hfree : ¬s.busy = true) :
    s.startingDownloads = 0 ∧ s.startedDownloads < maxParallelDownloads := by
  simp only [State.busy, Bool.or_eq_true, decide_eq_true_eq, not_or, not_not, not_le] at hfree
  exact hfree.1

/-- A run that takes a slot, or has to wait for one. -/
theorem Counted.awaitSlot {t : State} (h : Counted s) (hi : s.runs[i]? = some r) (hplace : r.place = .opening ∨ r.place = .woken)
    (ht : t = s.setWaiters (s.currentDownloadsWaiters - r.waits))
    (hplace' : r'.place = r.place) (hr' : r'.Kept) : Counted (t.awaitSlot i r') := by
  subst ht
  have hone := h.one
  have hfew := h.few
  have hfiles := h.files
  have hwaits : r.waits ≤ s.currentDownloadsWaiters := by
    rw [h.waiters]
    exact Nat.le_add_right_of_le (le_tally (List.mem_of_getElem? hi))
  have hlocals : r'.serversize < 2 ^ 64 ∧ r'.addedsize = 0 ∧ r'.downloadedsize = 0 ∧ r'.currentCounter = none ∧
      r'.downloadingcounted = false := by
    unfold Run.Kept at hr'
    rw [hplace'] at hr'
    rcases hplace with hplace | hplace
    all_goals
      rw [hplace] at hr'
      exact ⟨hr'.1, hr'.2.2.1, hr'.2.2.2.1, hr'.2.1, hr'.2.2.2.2⟩
  obtain ⟨hsize, hadded, hdownloaded, hcnt, hcounted⟩ := hlocals
  have hzero : r.at .starting = 0 ∧ r.at .started = 0 ∧ r.adds = 0 ∧ r.loads = 0 := by
    rcases hplace with hplace | hplace <;> simp [Run.at, Run.adds, Run.loads, hplace]
  unfold State.awaitSlot
  split
  · refine h.move hi rfl ⟨hsize, hcnt, hadded, hdownloaded, hcounted⟩ ?_ ?_ hone hfew hfiles ?_ h.total_lt ?_ h.loaded_lt ?_
    all_goals simp only [State.setRun, State.setWaiters, hzero]
    · simp [Run.at]
    · simp [Run.at]
    · simp [Run.adds]
    · simp [Run.loads]
    · simp only [Run.waits, Run.at, reduceIte, reduceCtorEq] at hwaits ⊢
      omega
  next hfree =>
    have hslot := free_of_not_busy (s := s) hfree
    unfold maxParallelDownloads at hslot hfew
    have hinc : inc s.startingDownloads = s.startingDownloads + 1 := inc_of_lt (by omega)
    have hinc' : u32 (s.filesdownloading + 1) = s.filesdownloading + 1 := u32_of_lt (by omega)
    simp only [State.setWaiters, hinc, hinc']
    refine h.move hi rfl ⟨hsize, rfl, hadded, hdownloaded, rfl⟩ ?_ ?_ ?_ ?_ ?_ ?_ h.total_lt ?_ h.loaded_lt ?_
    all_goals simp only [State.setRun, hzero]
    · simp [Run.at]
    · simp [Run.at]
    · omega
    · unfold maxParallelDownloads
      omega
    · omega
    · simp [Run.adds]
    · simp [Run.loads]
    · simp only [Run.waits, Run.at, reduceIte, reduceCtorEq] at hwaits ⊢
      omega

/-- The download thread is elsewhere, and what it waited with is taken off. -/
theorem Counted.setMain {m : Main} {n : ℕ} (h : Counted s) (hn : n + s.main.waits = s.currentDownloadsWaiters + m.waits) :
    Counted { s with currentDownloadsWaiters := n, main := m } := by
  refine { h with waiters := ?_ }
  have := h.waiters
  dsimp only
  omega

theorem Counted.begin (h : Counted s) (hi : s.runs[i]? = some r) (hplace : r.place = .starting)
    (hlt : s.bytestodownloadcurrent + r.serversize < 2 ^ 64) :
    Counted (s.begin i r) := by
  have hkept := h.of_mem hi
  have hle := (h.at_le hi).1
  have hone := h.one
  have hfew := h.few
  have hfiles := h.files
  unfold maxParallelDownloads at hfew
  unfold Run.Kept at hkept
  rw [hplace] at hkept
  obtain ⟨hsize, -, hadded, hdownloaded, hcounted⟩ := hkept
  rw [Run.at_self hplace] at hle
  have hdec : dec s.startingDownloads = s.startingDownloads - 1 := dec_of_pos hle (by omega)
  have hinc : inc s.startedDownloads = s.startedDownloads + 1 := inc_of_lt (by omega)
  unfold State.begin State.setBytes State.setStarting State.setStarted
  dsimp only
  rw [u64_of_lt hlt, hdec, hinc]
  refine h.move hi rfl ⟨hsize, rfl, rfl, hcounted⟩ ?_ ?_ ?_ ?_ ?_ ?_ hlt ?_ h.loaded_lt ?_
  all_goals simp only [State.setRun]
  · simp only [Run.at, hplace, reduceIte, reduceCtorEq]
    omega
  · simp [Run.at, hplace]
  · omega
  · unfold maxParallelDownloads
    omega
  · omega
  · simp [Run.adds, hplace]
  · simp [Run.loads, hplace, hdownloaded]
  · simp [Run.waits, Run.at, hplace]

theorem Counted.chunk {rd : ℕ} (h : Counted s) (hi : s.runs[i]? = some r) (hplace : r.place = .started)
    (hlt : s.bytesdownloaded + rd < 2 ^ 64) :
    Counted (s.chunk i r rd) := by
  have hkept := h.of_mem hi
  have hloads := (h.adds_le (List.mem_of_getElem? hi)).2
  unfold Run.loads at hloads
  rw [if_pos hplace] at hloads
  have hown : u64 (r.downloadedsize + rd) = r.downloadedsize + rd := u64_of_lt (by omega)
  unfold State.chunk State.setBytes
  dsimp only
  rw [u64_of_lt hlt, hown]
  unfold Run.Kept at hkept
  rw [hplace] at hkept
  refine h.move hi rfl ?_ rfl rfl h.one h.few h.files rfl h.total_lt ?_ hlt rfl
  · unfold Run.Kept
    simp only [hplace]
    exact hkept
  · simp only [State.setRun, Run.loads, hplace, if_true]
    omega

theorem Counted.stopAll (h : Counted s) (which : Stopped) : Counted (s.stopAll which) := by
  have htally : ∀ f : Run → ℕ, (∀ r d, f { r with dwl := d } = f r) → tally f (s.stopAll which).runs = tally f s.runs := by
    intro f hf
    unfold State.stopAll
    dsimp only
    rw [tally_map]
    exact congrArg (tally · s.runs) (funext fun r => hf r _)
  refine ⟨?_, ?_, h.one, h.few, h.files, ?_, h.total_lt, ?_, h.loaded_lt, ?_, ?_⟩
  · exact h.starting.trans (htally _ fun _ _ => rfl).symm
  · exact h.started.trans (htally _ fun _ _ => rfl).symm
  · exact h.total.trans (htally _ fun _ _ => rfl).symm
  · exact h.loaded.trans (htally _ fun _ _ => rfl).symm
  · rw [htally _ fun _ _ => rfl]
    have hmain : (s.stopAll which).main.waits = s.main.waits := by
      unfold State.stopAll Main.mark
      cases s.main <;> rfl
    rw [hmain]
    exact h.waiters
  · intro r hr
    obtain ⟨q, hq, rfl⟩ := List.mem_map.mp hr
    exact h.kept q hq

end Pclsync.Transfers.Downloads
