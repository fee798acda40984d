import Pclsync.Lib.Machine
import Pclsync.Lib.Counting
import Pclsync.Lib.Transition

/-! Download slots, from `pdownload.c`: the counters of the files that start and that download, and the
condition variable at which the download thread and the runs of `task_download_file` wait.

A step is what a thread does while it has `current_downloads_mutex`. Which thread a signal wakes is up
to the step. -/
namespace Pclsync.Transfers.Downloads
open Lib.Machine Lib.Tally Lib.Transition

/-- `PSYNC_MAX_PARALLEL_DOWNLOADS`. -/
def maxParallelDownloads : ℕ := 32

/-- `PSYNC_START_NEW_DOWNLOADS_TRESHOLD`. -/
def startNewDownloadsTreshold : ℕ := 512 * 1024

/-- `download_list_t`, less its hash. -/
structure Dwl where
  fileid : ℕ
  syncid : ℕ
  stop : Bool
deriving DecidableEq, Repr

/-- Where a run of `task_download_file` is. A woken run is still to take the mutex. -/
inductive Place where
  | opening | blocked | woken | starting | started | ended
deriving DecidableEq, Repr

/-- What `current_counter` points to. -/
inductive Counter where
  | starting | started
deriving DecidableEq, Repr

/-- A run, with its local variables. -/
structure Run where
  dwl : Dwl
  place : Place
  serversize : ℕ
  currentCounter : Option Counter
  addedsize : ℕ
  downloadedsize : ℕ
  downloadingcounted : Bool
deriving DecidableEq, Repr

/-- Where the download thread is. -/
inductive Main where
  | elsewhere
  /-- In `task_wait_no_downloads`. -/
  | noDownloads (woken : Bool)
  /-- In `task_run_download_file`, before there is a slot. -/
  | slot (dwl : Dwl) (woken : Bool)
  /-- There, after the mutex is given back. -/
  | passed (dwl : Dwl)
deriving DecidableEq, Repr

structure State where
  startingDownloads : ℕ
  startedDownloads : ℕ
  currentDownloadsWaiters : ℕ
  filesdownloading : ℕ
  bytestodownloadcurrent : ℕ
  bytesdownloaded : ℕ
  runs : List Run
  main : Main
deriving DecidableEq, Repr

inductive Waiter where
  | main
  | run (i : ℕ)
deriving DecidableEq, Repr

/-- The calls that stop downloads. -/
inductive Stopped where
  | file (fileid : ℕ)
  | fileOfSync (fileid syncid : ℕ)
  | sync (syncid : ℕ)
  | all
deriving DecidableEq, Repr

inductive Event where
  /-- `task_wait_no_downloads`. -/
  | waitNoDownloads
  /-- `task_run_download_file`, to the end of its section. -/
  | runDownload (fileid syncid : ℕ)
  /-- The download thread goes on after it was woken. -/
  | mainResumes
  /-- The end of `task_run_download_file`. -/
  | launch
  /-- A run ends before it has the checksum. -/
  | leave (i : ℕ)
  /-- A run has the checksum and wants a slot. -/
  | request (i serversize : ℕ)
  | resume (i : ℕ)
  /-- A starting run is started. -/
  | begin (i : ℕ) (wakes : Option Waiter)
  | chunk (i rd : ℕ) (wakes : Option Waiter)
  | finish (i : ℕ) (wakes : Option Waiter)
  | stop (which : Stopped)
deriving DecidableEq, Repr

/-! ## The functions -/

/-- `x++` and `x--` of a `psync_uint_t`. -/
def inc (x : ℕ) : ℕ := u64 (x + 1)
def dec (x : ℕ) : ℕ := sub64 x 1

/-- What a run waits for is not there. -/
def State.busy (s : State) : Bool :=
  s.startingDownloads ≠ 0 || maxParallelDownloads ≤ s.startedDownloads ||
    startNewDownloadsTreshold < sub64 s.bytestodownloadcurrent s.bytesdownloaded

def State.downloading (s : State) : Bool := s.startingDownloads ≠ 0 || s.startedDownloads ≠ 0

def State.setRun (s : State) (i : ℕ) (r : Run) : State := { s with runs := s.runs.set i r }

def Main.blocked : Main → Bool
  | .noDownloads woken => !woken
  | .slot _ woken => !woken
  | _ => false

def Main.wake : Main → Main
  | .noDownloads _ => .noDownloads true
  | .slot dwl _ => .slot dwl true
  | m => m

def State.anyBlocked (s : State) : Bool := s.main.blocked || s.runs.any (·.place = .blocked)

/-- `pthread_cond_signal` wakes one of the threads that wait. -/
def State.signal (s : State) : Option Waiter → Option State
  | none => if s.anyBlocked then none else some s
  | some .main => if s.main.blocked then some { s with main := s.main.wake } else none
  | some (.run i) =>
    match s.runs[i]? with
    | some r => if r.place = .blocked then some (s.setRun i { r with place := .woken }) else none
    | none => none

/-- A signal that depends on a test. -/
def State.signalIf (s : State) (test : Bool) (wakes : Option Waiter) : Option State :=
  if test then s.signal wakes else if wakes = none then some s else none

def State.setStarting (s : State) (n : ℕ) : State := { s with startingDownloads := n }

def State.setStarted (s : State) (n : ℕ) : State := { s with startedDownloads := n }

def State.setBytes (s : State) (total loaded : ℕ) : State :=
  { s with bytestodownloadcurrent := total, bytesdownloaded := loaded }

/-- `(*cnt)--`. -/
def State.decCnt (s : State) : Option Counter → State
  | none => s
  | some .starting => s.setStarting (dec s.startingDownloads)
  | some .started => s.setStarted (dec s.startedDownloads)

/-- There is another number of files, and the totals go with the last one. -/
def State.setFiles (s : State) (filesdownloading : ℕ) : State :=
  { s with
    filesdownloading := filesdownloading
    bytesdownloaded := if filesdownloading = 0 then 0 else s.bytesdownloaded
    bytestodownloadcurrent := if filesdownloading = 0 then 0 else s.bytestodownloadcurrent }

/-- `filesdownloading--`. -/
def State.decFiles (s : State) : State := s.setFiles (u32 (s.filesdownloading + 2 ^ 32 - 1))

def State.taskDecCounter (s : State) (cnt : Option Counter) (filesize downloadedsize : ℕ) (downloading : Bool)
    (wakes : Option Waiter) : Option State :=
  let s := s.decCnt cnt
  let s := s.setBytes (sub64 s.bytestodownloadcurrent filesize) (sub64 s.bytesdownloaded downloadedsize)
  (s.signalIf (s.currentDownloadsWaiters ≠ 0 && cnt.isSome) wakes).map
    fun s => if downloading then s.decFiles else s

/-- The test of `task_wait_no_downloads`, and what comes before and after it. -/
def State.awaitNoDownloads (s : State) : State :=
  if s.downloading then
    { s with currentDownloadsWaiters := s.currentDownloadsWaiters + 1, main := .noDownloads false }
  else { s with main := .elsewhere }

/-- The loop of `task_run_download_file`. -/
def State.awaitPass (s : State) (dwl : Dwl) : State :=
  if !dwl.stop && s.busy then
    { s with currentDownloadsWaiters := s.currentDownloadsWaiters + 1, main := .slot dwl false }
  else { s with main := .passed dwl }

/-- The loop of `task_download_file`. -/
def State.awaitSlot (s : State) (i : ℕ) (r : Run) : State :=
  if s.busy then
    { s with currentDownloadsWaiters := s.currentDownloadsWaiters + 1 }.setRun i { r with place := .blocked }
  else
    { s with
      startingDownloads := inc s.startingDownloads
      filesdownloading := u32 (s.filesdownloading + 1) }.setRun i
        { r with place := .starting, currentCounter := some .starting, downloadingcounted := true }

/-- A run that has nothing to copy begins to download. -/
def State.begin (s : State) (i : ℕ) (r : Run) : State :=
  let s := s.setBytes (u64 (s.bytestodownloadcurrent + r.serversize)) s.bytesdownloaded
  let s := s.setStarting (dec s.startingDownloads)
  let s := s.setStarted (inc s.startedDownloads)
  s.setRun i { r with place := .started, addedsize := r.serversize, currentCounter := some .started }

/-- `rd` bytes are there. -/
def State.chunk (s : State) (i : ℕ) (r : Run) (rd : ℕ) : State :=
  let s := s.setBytes s.bytestodownloadcurrent (u64 (s.bytesdownloaded + rd))
  s.setRun i { r with downloadedsize := u64 (r.downloadedsize + rd) }

def State.setWaiters (s : State) (n : ℕ) : State := { s with currentDownloadsWaiters := n }

/-- A thread is back from `pthread_cond_wait`. -/
def State.unwait (s : State) : State := s.setWaiters (s.currentDownloadsWaiters - 1)

def Run.start (dwl : Dwl) : Run :=
  { dwl := dwl, place := .opening, serversize := 0, currentCounter := none, addedsize := 0, downloadedsize := 0,
    downloadingcounted := false }

def Stopped.hits (dwl : Dwl) : Stopped → Bool
  | .file fileid => dwl.fileid = fileid
  | .fileOfSync fileid syncid => dwl.fileid = fileid && dwl.syncid = syncid
  | .sync syncid => dwl.syncid = syncid
  | .all => true

/-- The stop of an entry in the list. -/
def Stopped.mark (which : Stopped) (dwl : Dwl) : Dwl := if which.hits dwl then { dwl with stop := true } else dwl

def Main.mark (which : Stopped) : Main → Main
  | .slot dwl woken => .slot (which.mark dwl) woken
  | .passed dwl => .passed (which.mark dwl)
  | m => m

def State.stopAll (s : State) (which : Stopped) : State :=
  { s with runs := s.runs.map fun r => { r with dwl := which.mark r.dwl }, main := s.main.mark which }

/-- What a step does; nothing where the thread is not there. -/
def State.run (s : State) : Event → Option State
  | .waitNoDownloads => if s.main = .elsewhere then some s.awaitNoDownloads else none
  | .runDownload fileid syncid =>
    if s.main = .elsewhere then some (s.awaitPass { fileid := fileid, syncid := syncid, stop := false }) else none
  | .mainResumes =>
    match s.main with
    | .noDownloads true => some s.unwait.awaitNoDownloads
    | .slot dwl true => some (s.unwait.awaitPass dwl)
    | _ => none
  | .launch =>
    match s.main with
    | .passed dwl =>
      if dwl.stop then some { s with main := .elsewhere }
      else some { s with main := .elsewhere, runs := s.runs ++ [Run.start dwl] }
    | _ => none
  | .leave i =>
    match s.runs[i]? with
    | some r => if r.place = .opening then some (s.setRun i { r with place := .ended }) else none
    | none => none
  | .request i serversize =>
    match s.runs[i]? with
    | some r =>
      if r.place = .opening ∧ serversize < 2 ^ 64 then some (s.awaitSlot i { r with serversize := serversize }) else none
    | none => none
  | .resume i =>
    match s.runs[i]? with
    | some r => if r.place = .woken then some (s.unwait.awaitSlot i r) else none
    | none => none
  | .begin i wakes =>
    match s.runs[i]? with
    | some r =>
      if r.place = .starting then (s.begin i r).signalIf (s.currentDownloadsWaiters ≠ 0) wakes
      else none
    | none => none
  | .chunk i rd wakes =>
    match s.runs[i]? with
    | some r =>
      if r.place = .started ∧ 0 < rd ∧ rd < 2 ^ 31 then
        let s := s.chunk i r rd
        s.signalIf (s.currentDownloadsWaiters ≠ 0 &&
          sub64 s.bytestodownloadcurrent s.bytesdownloaded ≤ startNewDownloadsTreshold) wakes
      else none
    | none => none
  | .finish i wakes =>
    match s.runs[i]? with
    | some r =>
      if r.place = .opening ∨ r.place = .starting ∨ r.place = .started then
        (s.setRun i { r with place := .ended }).taskDecCounter r.currentCounter r.addedsize r.downloadedsize
          r.downloadingcounted wakes
      else none
    | none => none
  | .stop which => some (s.stopAll which)

def step (s : State) (e : Event) (s' : State) : Prop := s.run e = some s'

def Initial (s : State) : Prop :=
  s = { startingDownloads := 0, startedDownloads := 0, currentDownloadsWaiters := 0, filesdownloading := 0,
        bytestodownloadcurrent := 0, bytesdownloaded := 0, runs := [], main := .elsewhere }

end Pclsync.Transfers.Downloads
