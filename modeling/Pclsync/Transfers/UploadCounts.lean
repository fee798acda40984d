import Pclsync.Transfers.Uploads

/-! What the counters of uploads keep: they are the numbers of the uploads and of their bytes, and the
upload thread does not wait for uploads that have ended, unless the last one ends between its test and
its wait. -/
namespace Pclsync.Transfers.Uploads
open Lib.Machine Lib.Tally Lib.Transition

/-! ## The sums -/

def Run.counts (r : Run) : ℕ := if r.running then 1 else 0

/-- What a run has added to `bytestouploadcurrent` and has not taken off. -/
def Run.adds (r : Run) : ℕ := if r.running then r.upllist.filesize else 0

/-- The same for `bytesuploaded`. -/
def Run.loads (r : Run) : ℕ := if r.running then r.uploaded else 0

def Main.waits : Main → ℕ
  | .elsewhere => 0
  | _ => 1

def State.larges (s : State) : ℕ := s.large.elim 0 fun _ => 1

/-- What `large_upload` has added to `bytesuploaded`. -/
def State.owed (s : State) : ℕ := s.large.getD 0

structure Sums (s : State) : Prop where
  files : s.filesuploading = tally Run.counts s.runs + s.larges + s.creats
  slots : tally Run.counts s.runs ≤ maxParallelUploads
  batch : s.creats ≤ numTasksPerRun
  total : s.bytestouploadcurrent = tally Run.adds s.runs
  total_lt : s.bytestouploadcurrent < 2 ^ 64
  loaded : s.bytesuploaded = tally Run.loads s.runs + s.owed
  loaded_lt : s.bytesuploaded < 2 ^ 64
  waiters : s.currentUploadsWaiters = s.main.waits

/-- The upload thread has a reason to wait for the end of uploads. -/
def Awaited (s : State) : Prop :=
  s.main = .noUploads .tested ∨ s.main = .noUploads .blocked → s.filesuploading ≠ 0

structure Sound (s : State) : Prop where
  sums : Sums s
  awaited : Awaited s

variable {s s' t : State} {i n : ℕ} {r r' : Run} {upl : Upl}

theorem sub32_of_le {x n : ℕ} (hle : n ≤ x) (hlt : x < 2 ^ 32) : sub32 x n = x - n := by
  unfold sub32 u32
  omega

theorem Sums.files_lt (h : Sums s) : s.filesuploading < 2 ^ 31 := by
  have hfiles := h.files
  have hslots := h.slots
  have hbatch := h.batch
  have hlarges : s.larges ≤ 1 := by
    unfold State.larges
    cases s.large
    · exact Nat.zero_le _
    · exact Nat.le_refl _
  unfold maxParallelUploads at hslots
  unfold numTasksPerRun at hbatch
  omega

/-- No subtraction goes below zero. -/
theorem Sums.adds_le (h : Sums s) (hr : r ∈ s.runs) :
    r.adds ≤ s.bytestouploadcurrent ∧ r.loads + s.owed ≤ s.bytesuploaded := by
  rw [h.total, h.loaded]
  exact ⟨le_tally hr, Nat.add_le_add_right (le_tally hr) _⟩

/-- One run is changed, and the counters follow. -/
theorem Sums.move (h : Sums s) (hi : s.runs[i]? = some r) (hruns : t.runs = s.runs.set i r')
    (hfs : t.large = s.large ∧ t.creats = s.creats) (hmain : t.currentUploadsWaiters = t.main.waits)
    (hrunning : r'.counts ≤ r.counts)
    (hfiles : t.filesuploading + r.counts = s.filesuploading + r'.counts)
    (htotal : t.bytestouploadcurrent + r.adds = s.bytestouploadcurrent + r'.adds) (htotal_lt : t.bytestouploadcurrent < 2 ^ 64)
    (hloaded : t.bytesuploaded + r.loads = s.bytesuploaded + r'.loads) (hloaded_lt : t.bytesuploaded < 2 ^ 64) : Sums t := by
  have hset := fun f : Run → ℕ => tally_set (f := f) (b := r') hi
  have hlarges : t.larges = s.larges := by
    unfold State.larges
    rw [hfs.1]
  have howed : t.owed = s.owed := by
    unfold State.owed
    rw [hfs.1]
  constructor
  · have := h.files
    have := hset Run.counts
    rw [hruns, hlarges, hfs.2]
    omega
  · have := h.slots
    have := hset Run.counts
    rw [hruns]
    omega
  · rw [hfs.2]
    exact h.batch
  · have := h.total
    have := hset Run.adds
    rw [hruns]
    omega
  · exact htotal_lt
  · have := h.loaded
    have := hset Run.loads
    rw [hruns, howed]
    omega
  · exact hloaded_lt
  · exact hmain

theorem Main.waits_wake (m : Main) : m.wake.waits = m.waits := by
  rcases m with _ | (_ | _ | _) | ⟨_, _ | _ | _⟩ <;> rfl

theorem Sums.setMain {m : Main} (h : Sums s) (hm : n = m.waits) : Sums (s.setMain n m) := { h with waiters := hm }

theorem Sums.wake (h : Sums s) : Sums s.wake := h.setMain (h.waiters.trans (Main.waits_wake _).symm)

theorem Sums.wakeUploadWhenReady (h : Sums s) : Sums s.wakeUploadWhenReady := by
  unfold State.wakeUploadWhenReady
  split
  · exact h.wake
  · exact h

/-- No upload is under way. -/
theorem Sums.idle (h : Sums s) (hfiles : s.filesuploading = 0) : s.bytestouploadcurrent = 0 ∧ s.bytesuploaded = 0 := by
  have hcounts := h.files
  rw [hfiles] at hcounts
  have hruns : tally Run.counts s.runs = 0 := by omega
  have hlarge : s.larges = 0 := by omega
  have hnone : ∀ r ∈ s.runs, r.running = false := by
    intro r hr
    have := of_tally_eq_zero hruns hr
    unfold Run.counts at this
    cases hrunning : r.running
    · rfl
    · rw [hrunning] at this
      cases this
  rw [h.total, h.loaded]
  constructor
  · refine tally_eq_zero_of fun r hr => ?_
    unfold Run.adds
    rw [hnone r hr]
    rfl
  · have howed : s.owed = 0 := by
      unfold State.owed
      unfold State.larges at hlarge
      cases hl : s.large with
      | none => rfl
      | some a =>
        rw [hl] at hlarge
        cases hlarge
    rw [howed, Nat.add_zero]
    refine tally_eq_zero_of fun r hr => ?_
    unfold Run.loads
    rw [hnone r hr]
    rfl

/-! ## The uploads of syncs -/

theorem counts_of_running (h : r.running = true) : r.counts = 1 ∧ r.adds = r.upllist.filesize ∧ r.loads = r.uploaded := by
  unfold Run.counts Run.adds Run.loads
  rw [h]
  exact ⟨rfl, rfl, rfl⟩

theorem Sums.one_le (h : Sums s) (hi : s.runs[i]? = some r) (hr : r.running = true) : 1 ≤ s.filesuploading := by
  have hle : r.counts ≤ tally Run.counts s.runs := le_tally (List.mem_of_getElem? hi)
  have hfiles := h.files
  rw [(counts_of_running hr).1] at hle
  omega

/-- The end of a run, before it wakes the upload thread. -/
def State.ended (s : State) (i : ℕ) (r : Run) : State :=
  ((s.setBytes (s.bytestouploadcurrent - r.upllist.filesize) (s.bytesuploaded - r.uploaded)).setFiles
    (s.filesuploading - 1)).setRun i { r with running := false }

theorem Sums.ended (h : Sums s) (hi : s.runs[i]? = some r) (hr : r.running = true) : Sums (s.ended i r) := by
  obtain ⟨hcounts, hadds, hloads⟩ := counts_of_running hr
  have hone := h.one_le hi hr
  have hle := h.adds_le (List.mem_of_getElem? hi)
  have htotal := h.total_lt
  have hloaded := h.loaded_lt
  have hzero : Run.counts { r with running := false } = 0 ∧ Run.adds { r with running := false } = 0 ∧
      Run.loads { r with running := false } = 0 := ⟨rfl, rfl, rfl⟩
  refine h.move hi rfl ⟨rfl, rfl⟩ h.waiters ?_ ?_ ?_ ?_ ?_ ?_
  all_goals simp only [State.ended, State.setRun, State.setFiles, State.setBytes, hzero]
  all_goals omega

/-- A reset of totals that are zero. -/
theorem reset_eq (h : s.filesuploading = 0 → s.bytestouploadcurrent = 0 ∧ s.bytesuploaded = 0) :
    (if s.filesuploading = 0 then s.setBytes 0 0 else s) = s := by
  refine ite_eq_right_iff.mpr fun hzero => ?_
  obtain ⟨htotal, hloaded⟩ := h hzero
  calc s.setBytes 0 0 = s.setBytes s.bytestouploadcurrent s.bytesuploaded := by rw [htotal, hloaded]
    _ = s := rfl

theorem finish_eq (h : Sums s) (hi : s.runs[i]? = some r) (hr : r.running = true) :
    s.finish i r = (s.ended i r).wakeUploadWhenReady := by
  obtain ⟨hcounts, hadds, hloads⟩ := counts_of_running hr
  have hone := h.one_le hi hr
  have hle := h.adds_le (List.mem_of_getElem? hi)
  rw [hadds, hloads] at hle
  have hended := h.ended hi hr
  have hfiles : sub32 (s.setBytes (s.bytestouploadcurrent - r.upllist.filesize) (s.bytesuploaded - r.uploaded)).filesuploading 1 =
      s.filesuploading - 1 := sub32_of_le hone (h.files_lt.trans (by decide))
  have hreset := reset_eq (s := (s.setBytes (s.bytestouploadcurrent - r.upllist.filesize)
    (s.bytesuploaded - r.uploaded)).setFiles (s.filesuploading - 1)) fun hlast => hended.idle hlast
  unfold State.finish
  dsimp only
  rw [sub64_of_le hle.1 h.total_lt, sub64_of_le (Nat.le_of_add_right_le hle.2) h.loaded_lt, hfiles, hreset]
  rfl

theorem wake_ne_blocked (m : Main) : m.wake ≠ .noUploads .blocked := by
  rcases m with _ | (_ | _ | _) | ⟨_, _ | _ | _⟩ <;> nofun

theorem of_wake_tested {m : Main} (h : m.wake = .noUploads .tested) : m = .noUploads .tested := by
  rcases m with _ | (_ | _ | _) | ⟨_, _ | _ | _⟩ <;> first | rfl | cases h

/-- Where the upload thread is woken, it does not wait. -/
theorem awaited_wake (htested : s.main = .noUploads .tested → s.filesuploading ≠ 0) : Awaited s.wake := by
  rintro (hmain | hmain)
  · exact htested (of_wake_tested hmain)
  · exact absurd hmain (wake_ne_blocked _)

theorem Awaited.wakeUploadWhenReady (h : Awaited s) : Awaited s.wakeUploadWhenReady := by
  unfold State.wakeUploadWhenReady
  split
  · exact awaited_wake fun hmain => h (.inl hmain)
  · exact h

theorem of_locked (h : s.main.locked = false) : s.main ≠ .noUploads .tested := by
  intro hmain
  rw [hmain] at h
  cases h

/-- The last run of all wakes the upload thread. -/
theorem Sound.finish (h : Sound s) (hi : s.runs[i]? = some r) (hr : r.running = true) (hfree : s.main.locked = false) :
    Sound (s.finish i r) := by
  rw [finish_eq h.sums hi hr]
  have hsums := h.sums.ended hi hr
  refine ⟨hsums.wakeUploadWhenReady, ?_⟩
  by_cases hlast : (s.ended i r).filesuploading = 0
  · obtain ⟨htotal, hloaded⟩ := hsums.idle hlast
    have hready : (s.ended i r).busy = false := by
      unfold State.busy
      rw [hlast, htotal, hloaded]
      rfl
    unfold State.wakeUploadWhenReady
    rw [hready]
    split
    · exact awaited_wake fun hmain => absurd hmain (of_locked hfree)
    next hwaiters =>
      simp only [Bool.not_false, Bool.and_true, ne_eq, decide_eq_true_eq, not_not] at hwaiters
      have hmain := hsums.waiters.symm.trans hwaiters
      rintro (htested | hblocked)
      · rw [htested] at hmain
        cases hmain
      · rw [hblocked] at hmain
        cases hmain
  · exact Awaited.wakeUploadWhenReady fun _ => hlast

theorem Sums.resize {fsize : ℕ} (h : Sums s) (hi : s.runs[i]? = some r) (hr : r.running = true)
    (hlt : s.bytestouploadcurrent - r.upllist.filesize + fsize < 2 ^ 64) : Sums (s.resize i r fsize) := by
  obtain ⟨hcounts, hadds, hloads⟩ := counts_of_running hr
  have hle := h.adds_le (List.mem_of_getElem? hi)
  rw [hadds] at hle
  unfold State.resize
  split
  · dsimp only
    rw [sub64_of_le hle.1 h.total_lt, u64_of_lt hlt]
    have hnew : Run.counts { r with upllist := { r.upllist with filesize := fsize } } = 1 ∧
        Run.adds { r with upllist := { r.upllist with filesize := fsize } } = fsize ∧
        Run.loads { r with upllist := { r.upllist with filesize := fsize } } = r.uploaded := counts_of_running hr
    refine h.move hi rfl ⟨rfl, rfl⟩ h.waiters ?_ ?_ ?_ hlt ?_ h.loaded_lt
    · rw [hnew.1, hcounts]
    · rw [hnew.1, hcounts]
      rfl
    · rw [hnew.2.1, hadds]
      simp only [State.setRun, State.setBytes]
      omega
    · rw [hnew.2.2, hloads]
      rfl
  · exact h

theorem resize_main (s : State) (i : ℕ) (r : Run) (fsize : ℕ) :
    (s.resize i r fsize).main = s.main ∧ (s.resize i r fsize).filesuploading = s.filesuploading := by
  have hset : ∀ a b r', ((s.setBytes a b).setRun i r').main = s.main ∧
      ((s.setBytes a b).setRun i r').filesuploading = s.filesuploading := fun _ _ _ => ⟨rfl, rfl⟩
  unfold State.resize
  split
  · exact hset ..
  · exact ⟨rfl, rfl⟩

theorem Sound.addBytes {bytes : ℕ} (h : Sound s) (hi : s.runs[i]? = some r) (hr : r.running = true)
    (hlt : s.bytesuploaded + bytes < 2 ^ 64) : Sound (s.addBytes i r bytes) := by
  obtain ⟨hcounts, hadds, hloads⟩ := counts_of_running hr
  have hle := (h.sums.adds_le (List.mem_of_getElem? hi)).2
  rw [hloads] at hle
  have hown : u64 (r.uploaded + bytes) = r.uploaded + bytes := u64_of_lt (by omega)
  have hnew : Run.counts { r with uploaded := r.uploaded + bytes } = 1 ∧
      Run.adds { r with uploaded := r.uploaded + bytes } = r.upllist.filesize ∧
      Run.loads { r with uploaded := r.uploaded + bytes } =
        r.uploaded + bytes := counts_of_running hr
  unfold State.addBytes
  dsimp only
  rw [u64_of_lt hlt, hown]
  refine ⟨Sums.wakeUploadWhenReady (h.sums.move hi rfl ⟨rfl, rfl⟩ h.sums.waiters ?_ ?_ ?_ h.sums.total_lt ?_ hlt),
    Awaited.wakeUploadWhenReady h.awaited⟩
  · rw [hnew.1, hcounts]
  · rw [hnew.1, hcounts]
    rfl
  · rw [hnew.2.1, hadds]
    rfl
  · rw [hnew.2.2, hloads]
    simp only [State.setRun, State.setBytes]
    omega

/-! ## The upload thread -/

theorem Sound.testNoUploads (h : Sound s) (hmain : s.main = .elsewhere) : Sound s.testNoUploads := by
  have hzero : s.currentUploadsWaiters = 0 := by
    rw [h.sums.waiters, hmain]
    rfl
  unfold State.testNoUploads
  split
  next hfiles => exact ⟨h.sums.setMain (congrArg (· + 1) hzero), fun _ => hfiles⟩
  · exact ⟨h.sums.setMain hzero, fun hmain => by rcases hmain with hmain | hmain <;> cases hmain⟩

theorem free_of_not_busy (hfree : s.busy = false) : s.filesuploading < maxParallelUploads := by
  unfold State.busy at hfree
  rw [Bool.or_eq_false_iff] at hfree
  exact Nat.lt_of_not_le (of_decide_eq_false hfree.1)

theorem Sound.testSlot (h : Sound s) (hmain : s.main = .elsewhere)
    (hlt : upl.stop = false → s.busy = false → s.bytestouploadcurrent + upl.filesize < 2 ^ 64) : Sound (s.testSlot upl) := by
  have hzero : s.currentUploadsWaiters = 0 := by
    rw [h.sums.waiters, hmain]
    rfl
  unfold State.testSlot
  split
  · exact ⟨h.sums.setMain (congrArg (· + 1) hzero), fun hmain => by rcases hmain with hmain | hmain <;> cases hmain⟩
  next hgo =>
    split
    · exact ⟨h.sums.setMain hzero, fun hmain => by rcases hmain with hmain | hmain <;> cases hmain⟩
    next hstop =>
      have hstop : upl.stop = false := eq_false_of_ne_true hstop
      have hfree : s.busy = false := by
        rw [hstop] at hgo
        exact eq_false_of_ne_true hgo
      have hslot := free_of_not_busy hfree
      have hfiles := h.sums.files
      have hrun : Run.counts ⟨upl, 0, true⟩ = 1 ∧ Run.adds ⟨upl, 0, true⟩ = upl.filesize ∧ Run.loads ⟨upl, 0, true⟩ = 0 :=
        ⟨rfl, rfl, rfl⟩
      unfold maxParallelUploads at hslot
      have hinc : u32 ((s.setBytes (s.bytestouploadcurrent + upl.filesize) s.bytesuploaded).filesuploading + 1) =
          s.filesuploading + 1 := u32_of_lt (by simp only [State.setBytes]; omega)
      dsimp only
      rw [u64_of_lt (hlt hstop hfree), hinc]
      refine ⟨?_, fun hmain => by rcases hmain with hmain | hmain <;> cases hmain⟩
      constructor
      · simp only [State.addRun, State.setMain, State.setFiles, State.setBytes, State.larges] at hfiles ⊢
        rw [tally_concat, hrun.1]
        omega
      · simp only [State.addRun, State.setMain, State.setFiles, State.setBytes]
        rw [tally_concat, hrun.1]
        unfold maxParallelUploads
        omega
      · exact h.sums.batch
      · simp only [State.addRun, State.setMain, State.setFiles, State.setBytes]
        rw [tally_concat, hrun.2.1, h.sums.total]
      · exact hlt hstop hfree
      · simp only [State.addRun, State.setMain, State.setFiles, State.setBytes, State.owed]
        rw [tally_concat, hrun.2.2, h.sums.loaded]
        rfl
      · exact h.sums.loaded_lt
      · exact hzero

/-- The wait is over. -/
theorem Sound.unwait (h : Sound s) (hmain : s.main.waits = 1) : Sound s.unwait := by
  refine ⟨h.sums.setMain ?_, fun hmain => by rcases hmain with hmain | hmain <;> cases hmain⟩
  rw [h.sums.waiters, hmain]
  rfl

/-! ## The file system -/

theorem Sums.setFs {large : Option ℕ} {creats loaded : ℕ} (h : Sums s) (files : ℕ) (hbatch : creats ≤ numTasksPerRun)
    (hfiles : files + s.larges + s.creats = s.filesuploading + (large.elim 0 fun _ => 1) + creats)
    (hloaded : loaded + s.owed = s.bytesuploaded + large.getD 0) (hloaded_lt : loaded < 2 ^ 64) :
    Sums (((s.setFiles files).setBytes s.bytestouploadcurrent loaded).setFs large creats) := by
  have hcounts := h.files
  have hloads := h.loaded
  constructor
  · simp only [State.setFs, State.setBytes, State.setFiles, State.larges] at hcounts hfiles ⊢
    omega
  · exact h.slots
  · exact hbatch
  · exact h.total
  · exact h.total_lt
  · simp only [State.setFs, State.setBytes, State.setFiles, State.owed] at hloads hloaded ⊢
    omega
  · exact hloaded_lt
  · exact h.waiters

theorem Awaited.of_main (h : Awaited s) (hmain : t.main = s.main) (hfiles : s.filesuploading ≠ 0 → t.filesuploading ≠ 0) :
    Awaited t := by
  intro ht
  rw [hmain] at ht
  exact hfiles (h ht)

/-- `psync_upload_dec_uploads` wakes the upload thread, unless it still is to wait. -/
theorem Sound.decUploadsCnt {large : Option ℕ} {creats cnt : ℕ} (h : Sound s) (hcnt : cnt ≤ s.filesuploading)
    (hbatch : creats ≤ numTasksPerRun)
    (hfiles : s.filesuploading - cnt + s.larges + s.creats = s.filesuploading + (large.elim 0 fun _ => 1) + creats)
    (howed : s.owed = large.getD 0) (hrace : s.main = .noUploads .tested → s.filesuploading - cnt ≠ 0) :
    Sound ((s.decUploadsCnt cnt).setFs large creats) := by
  have hsums : Sums ((s.setFiles (s.filesuploading - cnt)).setFs large creats) :=
    h.sums.setFs _ hbatch hfiles (by rw [howed]) h.sums.loaded_lt
  unfold State.decUploadsCnt
  rw [sub32_of_le hcnt (h.sums.files_lt.trans (by decide))]
  dsimp only
  split
  · exact ⟨hsums.wake, awaited_wake (s := (s.setFiles (s.filesuploading - cnt)).setFs large creats) hrace⟩
  next hquiet =>
    refine ⟨hsums, fun hmain hzero => hquiet ?_⟩
    have hwaits : s.currentUploadsWaiters ≠ 0 := by
      have hmain : s.main = .noUploads .tested ∨ s.main = .noUploads .blocked := hmain
      rw [h.sums.waiters]
      rcases hmain with hmain | hmain <;> rw [hmain] <;> decide
    have hzero : s.filesuploading - cnt = 0 := hzero
    simp only [State.setFiles, hzero, ne_eq, hwaits, not_false_eq_true, decide_true, Bool.and_self]

theorem Sound.stopAll (h : Sound s) (which : Stopped) : Sound (s.stopAll which) := by
  have htally : ∀ f : Run → ℕ, (∀ r, f { r with upllist := which.mark r.upllist } = f r) →
      tally f (s.stopAll which).runs = tally f s.runs := by
    intro f hf
    unfold State.stopAll
    dsimp only
    rw [tally_map]
    exact congrArg (tally · s.runs) (funext hf)
  have hupl : ∀ upl : Upl, (which.mark upl).filesize = upl.filesize := by
    intro upl
    unfold Stopped.mark
    split <;> rfl
  have hadds : ∀ r : Run, Run.adds { r with upllist := which.mark r.upllist } = r.adds := by
    intro r
    unfold Run.adds
    rw [hupl r.upllist]
  have hmain : (s.stopAll which).main.waits = s.main.waits := by
    unfold State.stopAll Main.mark
    cases s.main <;> rfl
  have hno : ∀ wait, (s.stopAll which).main = .noUploads wait → s.main = .noUploads wait := by
    intro wait hwait
    unfold State.stopAll Main.mark at hwait
    cases hs : s.main <;> rw [hs] at hwait <;> first | exact hwait | cases hwait
  have hcounts := htally Run.counts fun _ => rfl
  refine ⟨⟨?_, ?_, h.sums.batch, ?_, h.sums.total_lt, ?_, h.sums.loaded_lt, ?_⟩, fun hwaits => ?_⟩
  · rw [hcounts]
    exact h.sums.files
  · rw [hcounts]
    exact h.sums.slots
  · rw [htally _ hadds]
    exact h.sums.total
  · rw [htally Run.loads fun _ => rfl]
    exact h.sums.loaded
  · rw [hmain]
    exact h.sums.waiters
  · exact h.awaited (hwaits.imp (hno _) (hno _))

/-! ## What goes wrong -/

/-- The last upload ends under `upload_mutex` between the test of `task_wait_no_uploads` and its wait. -/
def Races (s : State) (e : Event) : Prop :=
  s.main = .noUploads .tested ∧
    (e = .decUploads ∧ s.filesuploading = 1 ∨ e = .decUploadsCnt ∧ s.filesuploading = s.creats)

/-- A total passes `uint64_t`. -/
def Overflows (s : State) : Event → Prop
  | .runUploadfile _ _ filesize => s.busy = false ∧ 2 ^ 64 ≤ s.bytestouploadcurrent + filesize
  | .mainResumes => ∃ upl, s.main = .slot upl .woken ∧ upl.stop = false ∧ s.busy = false ∧
      2 ^ 64 ≤ s.bytestouploadcurrent + upl.filesize
  | .resize i fsize => ∃ r, s.runs[i]? = some r ∧ 2 ^ 64 ≤ s.bytestouploadcurrent - r.upllist.filesize + fsize
  | .addBytesUploaded _ bytes | .uploadAddBytesUploaded bytes => 2 ^ 64 ≤ s.bytesuploaded + bytes
  | _ => False

def Drift (s : State) (e : Event) : Prop := Races s e ∨ Overflows s e

/-! ## Steps -/

theorem Sound.step {e : Event} (h : Sound s) (hstep : Uploads.step s e s') (hsafe : ¬Drift s e) : Sound s' := by
  unfold Uploads.step at hstep
  unfold Drift at hsafe
  rw [not_or] at hsafe
  obtain ⟨hraces, hoverflows⟩ := hsafe
  cases e with
  | waitNoUploads =>
    simp only [State.run] at hstep
    split at hstep
    next hmain =>
      cases hstep
      exact h.testNoUploads hmain
    · cases hstep
  | runUploadfile localfileid syncid filesize =>
    simp only [State.run] at hstep
    split at hstep
    next hguard =>
      cases hstep
      exact h.testSlot hguard.1 fun _ hfree => Nat.lt_of_not_le fun hle => hoverflows ⟨hfree, hle⟩
    · cases hstep
  | block =>
    simp only [State.run] at hstep
    split at hstep
    next hmain =>
      cases hstep
      refine ⟨h.sums.setMain ?_, fun _ => h.awaited (.inl hmain)⟩
      rw [h.sums.waiters, hmain]
      rfl
    next upl hmain =>
      cases hstep
      refine ⟨h.sums.setMain ?_, fun hmain => by rcases hmain with hmain | hmain <;> cases hmain⟩
      rw [h.sums.waiters, hmain]
      rfl
    · cases hstep
  | mainResumes =>
    simp only [State.run] at hstep
    split at hstep
    next hmain =>
      cases hstep
      exact (h.unwait (by rw [hmain]; rfl)).testNoUploads rfl
    next upl hmain =>
      cases hstep
      refine (h.unwait (by rw [hmain]; rfl)).testSlot rfl fun hstop hfree => ?_
      exact Nat.lt_of_not_le fun hle => hoverflows ⟨upl, hmain, hstop, hfree, hle⟩
    · cases hstep
  | resize i fsize =>
    simp only [State.run] at hstep
    split at hstep
    next r hi =>
      split at hstep
      next hguard =>
        cases hstep
        simp only [Bool.and_eq_true] at hguard
        have hmain := resize_main s i r fsize
        refine ⟨h.sums.resize hi hguard.1.2 (Nat.lt_of_not_le fun hle => hoverflows ⟨r, hi, hle⟩), h.awaited.of_main hmain.1 ?_⟩
        rw [hmain.2]
        exact id
      · cases hstep
    · cases hstep
  | addBytesUploaded i bytes =>
    simp only [State.run] at hstep
    split at hstep
    next r hi =>
      split at hstep
      next hguard =>
        cases hstep
        simp only [Bool.and_eq_true] at hguard
        exact h.addBytes hi hguard.1.2 (Nat.lt_of_not_le hoverflows)
      · cases hstep
    · cases hstep
  | finish i =>
    simp only [State.run] at hstep
    split at hstep
    next r hi =>
      split at hstep
      next hguard =>
        obtain rfl := Option.some.inj hstep
        simp only [Bool.and_eq_true, Bool.not_eq_true'] at hguard
        exact h.finish hi hguard.2 hguard.1
      · cases hstep
    · cases hstep
  | incUploads =>
    simp only [State.run] at hstep
    split at hstep
    next hnone =>
      obtain rfl := Option.some.inj hstep
      rw [u32_of_lt (Nat.lt_of_le_of_lt h.sums.files_lt (by decide))]
      have hfs : s.larges = 0 ∧ s.owed = 0 := by
        unfold State.larges State.owed
        rw [hnone]
        exact ⟨rfl, rfl⟩
      have hsums : Sums ((s.setFiles (s.filesuploading + 1)).setFs (some 0) s.creats) :=
        h.sums.setFs _ h.sums.batch (by rw [hfs.1]; rfl) (by rw [hfs.2]; rfl) h.sums.loaded_lt
      exact ⟨hsums, h.awaited.of_main rfl fun _ => Nat.succ_ne_zero _⟩
    · cases hstep
  | uploadAddBytesUploaded bytes =>
    simp only [State.run] at hstep
    split at hstep
    next asize hlarge =>
      split at hstep
      · obtain rfl := Option.some.inj hstep
        have hlt : s.bytesuploaded + bytes < 2 ^ 64 := Nat.lt_of_not_le hoverflows
        have hfs : s.larges = 1 ∧ s.owed = asize := by
          unfold State.larges State.owed
          rw [hlarge]
          exact ⟨rfl, rfl⟩
        have hloaded := h.sums.loaded
        rw [hfs.2] at hloaded
        have hown : u64 (asize + bytes) = asize + bytes := u64_of_lt (by omega)
        rw [u64_of_lt hlt, hown]
        have hsums : Sums ((s.setBytes s.bytestouploadcurrent (s.bytesuploaded + bytes)).setFs (some (asize + bytes)) s.creats) := by
          refine h.sums.setFs s.filesuploading h.sums.batch (by rw [hfs.1]; rfl) ?_ hlt
          rw [hfs.2, Option.getD_some]
          omega
        exact ⟨hsums, h.awaited.of_main rfl id⟩
      · cases hstep
    · cases hstep
  | uploadSubBytesUploaded =>
    simp only [State.run] at hstep
    split at hstep
    next asize hlarge =>
      obtain rfl := Option.some.inj hstep
      have hfs : s.larges = 1 ∧ s.owed = asize := by
        unfold State.larges State.owed
        rw [hlarge]
        exact ⟨rfl, rfl⟩
      have hloaded := h.sums.loaded
      have hlt := h.sums.loaded_lt
      rw [hfs.2] at hloaded
      rw [sub64_of_le (by omega) hlt]
      have hsums : Sums ((s.setBytes s.bytestouploadcurrent (s.bytesuploaded - asize)).setFs (some 0) s.creats) := by
        refine h.sums.setFs s.filesuploading h.sums.batch (by rw [hfs.1]; rfl) ?_ (by omega)
        rw [hfs.2, Option.getD_some]
        omega
      exact ⟨hsums, h.awaited.of_main rfl id⟩
    · cases hstep
  | decUploads =>
    simp only [State.run] at hstep
    split at hstep
    next hlarge =>
      obtain rfl := Option.some.inj hstep
      have hlarges : s.larges = 1 := by
        unfold State.larges
        rw [hlarge]
        rfl
      have howed : s.owed = 0 := by
        unfold State.owed
        rw [hlarge]
        rfl
      have hfiles := h.sums.files
      refine h.decUploadsCnt (by omega) h.sums.batch ?_ howed fun hmain hzero => hraces ⟨hmain, .inl ⟨rfl, by omega⟩⟩
      rw [hlarges]
      dsimp only [Option.elim]
      omega
    · cases hstep
  | creat =>
    simp only [State.run] at hstep
    split at hstep
    next hlt =>
      obtain rfl := Option.some.inj hstep
      rw [u32_of_lt (Nat.lt_of_le_of_lt h.sums.files_lt (by decide))]
      have hsums : Sums ((s.setFiles (s.filesuploading + 1)).setFs s.large (s.creats + 1)) := by
        refine h.sums.setFs _ hlt ?_ rfl h.sums.loaded_lt
        unfold State.larges
        omega
      exact ⟨hsums, h.awaited.of_main rfl fun _ => Nat.succ_ne_zero _⟩
    · cases hstep
  | decUploadsCnt =>
    simp only [State.run] at hstep
    split at hstep
    next hne =>
      cases hstep
      have hfiles := h.sums.files
      refine h.decUploadsCnt (by omega) (Nat.zero_le _) ?_ rfl fun hmain hzero => hraces ⟨hmain, .inr ⟨rfl, by omega⟩⟩
      unfold State.larges at hfiles ⊢
      omega
    · cases hstep
  | stop which =>
    simp only [State.run] at hstep
    split at hstep
    · cases hstep
    · cases hstep
      exact h.stopAll which

/-! ## Runs -/

/-- The counters are the numbers of uploads and of their bytes, no subtraction goes below zero, and when
there is no upload the upload thread does not wait for the end of them; once woken it does not. -/
structure Balanced (s : State) : Prop where
  files : s.filesuploading = tally Run.counts s.runs + s.larges + s.creats
  total : s.bytestouploadcurrent = tally Run.adds s.runs
  loaded : s.bytesuploaded = tally Run.loads s.runs + s.owed
  covered : ∀ r ∈ s.runs, r.running = true →
    r.upllist.filesize ≤ s.bytestouploadcurrent ∧ r.uploaded + s.owed ≤ s.bytesuploaded
  owed : s.owed ≤ s.bytesuploaded
  waits : s.filesuploading = 0 → s.main ≠ .noUploads .blocked

theorem sound_initial (h : Initial s) : Sound s := by
  cases h
  refine ⟨⟨rfl, Nat.zero_le _, Nat.zero_le _, rfl, Nat.two_pow_pos 64, rfl, Nat.two_pow_pos 64, rfl⟩, ?_⟩
  rintro (hmain | hmain) <;> cases hmain

theorem Sound.balanced (h : Sound s) : Balanced s where
  files := h.sums.files
  total := h.sums.total
  loaded := h.sums.loaded
  covered := by
    intro r hr hrunning
    obtain ⟨-, hadds, hloads⟩ := counts_of_running hrunning
    rw [← hadds, ← hloads]
    exact h.sums.adds_le hr
  owed := by
    rw [h.sums.loaded]
    exact Nat.le_add_left ..
  waits := fun hzero hmain => h.awaited (.inr hmain) hzero

def noUploads : State :=
  { filesuploading := 0, bytesuploaded := 0, bytestouploadcurrent := 0, currentUploadsWaiters := 0, runs := [],
    main := .elsewhere, large := none, creats := 0 }

/-- The upload thread waits for an upload that has ended. -/
def leftWaiting : State := { noUploads with currentUploadsWaiters := 1, main := .noUploads .blocked }

end Pclsync.Transfers.Uploads
