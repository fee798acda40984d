import Pclsync.Lib.Machine
import Pclsync.Lib.Counting
import Pclsync.Lib.Transition

/-! The counters of uploads, from `pupload.c` and `pfsupload.c`, which the uploader of syncs has under
`current_uploads_mutex` and the uploader of the file system under `upload_mutex`.

A step is a section under one of the two. The upload thread still has `current_uploads_mutex` between
its test and `pthread_cond_wait`, so that the sections of the other mutex can come between, and only
these. -/
namespace Pclsync.Transfers.Uploads
open Lib.Machine Lib.Tally Lib.Transition

/-- `PSYNC_MAX_PARALLEL_UPLOADS`. -/
def maxParallelUploads : ℕ := 32

/-- `PSYNC_START_NEW_UPLOADS_TRESHOLD`. -/
def startNewUploadsTreshold : ℕ := 256 * 1024

/-- `PSYNC_FSUPLOAD_NUM_TASKS_PER_RUN`. -/
def numTasksPerRun : ℕ := 128

/-- `upload_list_t`, less the task, the hash and `uploaded`. -/
structure Upl where
  localfileid : ℕ
  syncid : ℕ
  filesize : ℕ
  stop : Bool
deriving DecidableEq, Repr

/-- A run of `task_run_upload_file_thread`. Before there is one, `uploaded` is zero. -/
structure Run where
  upllist : Upl
  uploaded : ℕ
  running : Bool
deriving DecidableEq, Repr

/-- Where a thread is that waits. -/
inductive Wait where
  /-- It has found that it has to wait, and still has the mutex. -/
  | tested
  | blocked
  | woken
deriving DecidableEq, Repr

/-- Where the upload thread is. -/
inductive Main where
  | elsewhere
  /-- In `task_wait_no_uploads`. -/
  | noUploads (wait : Wait)
  /-- In `task_run_uploadfile`. -/
  | slot (upl : Upl) (wait : Wait)
deriving DecidableEq, Repr

/-- `large` are the bytes that an upload of `large_upload` has added and has to take off again, and
`creats` the files of a batch that are sent at once. -/
structure State where
  filesuploading : ℕ
  bytesuploaded : ℕ
  bytestouploadcurrent : ℕ
  currentUploadsWaiters : ℕ
  runs : List Run
  main : Main
  large : Option ℕ
  creats : ℕ
deriving DecidableEq, Repr

/-- The calls that stop uploads. -/
inductive Stopped where
  | file (localfileid : ℕ)
  | sync (syncid : ℕ)
  | all
deriving DecidableEq, Repr

inductive Event where
  /-- `task_wait_no_uploads`. -/
  | waitNoUploads
  /-- `task_run_uploadfile`. -/
  | runUploadfile (localfileid syncid filesize : ℕ)
  /-- `pthread_cond_wait` gives the mutex back. -/
  | block
  | mainResumes
  /-- The size of the file is not what it was. -/
  | resize (i fsize : ℕ)
  /-- `add_bytes_uploaded`. -/
  | addBytesUploaded (i bytes : ℕ)
  | finish (i : ℕ)
  /-- `psync_upload_inc_uploads` and so on, as `large_upload` uses them. -/
  | incUploads
  | uploadAddBytesUploaded (bytes : ℕ)
  | uploadSubBytesUploaded
  | decUploads
  /-- A file of a batch is sent, and the batch is done. -/
  | creat
  | decUploadsCnt
  | stop (which : Stopped)
deriving DecidableEq, Repr

/-! ## The functions -/

def State.setFiles (s : State) (n : ℕ) : State := { s with filesuploading := n }

def State.setBytes (s : State) (total loaded : ℕ) : State :=
  { s with bytestouploadcurrent := total, bytesuploaded := loaded }

def State.setMain (s : State) (waiters : ℕ) (m : Main) : State :=
  { s with currentUploadsWaiters := waiters, main := m }

def State.setRun (s : State) (i : ℕ) (r : Run) : State := { s with runs := s.runs.set i r }

def State.addRun (s : State) (r : Run) : State := { s with runs := s.runs ++ [r] }

def State.setFs (s : State) (large : Option ℕ) (creats : ℕ) : State := { s with large := large, creats := creats }

/-- `x -= n` of a `uint32_t`. -/
def sub32 (x n : ℕ) : ℕ := u32 (x + 2 ^ 32 - n)

/-- A signal or broadcast wakes the upload thread, which is the only one that waits, if it does. -/
def Main.wake : Main → Main
  | .noUploads .blocked => .noUploads .woken
  | .slot upl .blocked => .slot upl .woken
  | m => m

def State.wake (s : State) : State := s.setMain s.currentUploadsWaiters s.main.wake

/-- The upload thread has `current_uploads_mutex`. -/
def Main.locked : Main → Bool
  | .noUploads .tested | .slot _ .tested => true
  | _ => false

/-- What an upload of a sync waits for is not there. -/
def State.busy (s : State) : Bool :=
  maxParallelUploads ≤ s.filesuploading || startNewUploadsTreshold < sub64 s.bytestouploadcurrent s.bytesuploaded

def State.wakeUploadWhenReady (s : State) : State :=
  if s.currentUploadsWaiters ≠ 0 && !s.busy then s.wake else s

/-- The test of `task_wait_no_uploads`. -/
def State.testNoUploads (s : State) : State :=
  if s.filesuploading ≠ 0 then s.setMain (s.currentUploadsWaiters + 1) (.noUploads .tested)
  else s.setMain s.currentUploadsWaiters .elsewhere

/-- The test of `task_run_uploadfile`, and the run that it starts. -/
def State.testSlot (s : State) (upl : Upl) : State :=
  if !upl.stop && s.busy then s.setMain (s.currentUploadsWaiters + 1) (.slot upl .tested)
  else if upl.stop then s.setMain s.currentUploadsWaiters .elsewhere
  else
    let s := s.setBytes (u64 (s.bytestouploadcurrent + upl.filesize)) s.bytesuploaded
    let s := s.setFiles (u32 (s.filesuploading + 1))
    (s.setMain s.currentUploadsWaiters .elsewhere).addRun ⟨upl, 0, true⟩

/-- The mutex is taken back. -/
def State.unwait (s : State) : State := s.setMain (s.currentUploadsWaiters - 1) .elsewhere

def State.resize (s : State) (i : ℕ) (r : Run) (fsize : ℕ) : State :=
  if fsize ≠ r.upllist.filesize then
    let s := s.setBytes (u64 (sub64 s.bytestouploadcurrent r.upllist.filesize + fsize)) s.bytesuploaded
    s.setRun i { r with upllist := { r.upllist with filesize := fsize } }
  else s

def State.addBytes (s : State) (i : ℕ) (r : Run) (bytes : ℕ) : State :=
  let s := s.setBytes s.bytestouploadcurrent (u64 (s.bytesuploaded + bytes))
  (s.setRun i { r with uploaded := u64 (r.uploaded + bytes) }).wakeUploadWhenReady

/-- The end of `task_run_upload_file_thread`. -/
def State.finish (s : State) (i : ℕ) (r : Run) : State :=
  let s := s.setBytes (sub64 s.bytestouploadcurrent r.upllist.filesize) (sub64 s.bytesuploaded r.uploaded)
  let s := s.setFiles (sub32 s.filesuploading 1)
  let s := if s.filesuploading = 0 then s.setBytes 0 0 else s
  (s.setRun i { r with running := false }).wakeUploadWhenReady

/-- `psync_upload_dec_uploads` and `psync_upload_dec_uploads_cnt`. -/
def State.decUploadsCnt (s : State) (cnt : ℕ) : State :=
  let s := s.setFiles (sub32 s.filesuploading cnt)
  if s.filesuploading = 0 && s.currentUploadsWaiters ≠ 0 then s.wake else s

def Stopped.hits (upl : Upl) : Stopped → Bool
  | .file localfileid => upl.localfileid = localfileid
  | .sync syncid => upl.syncid = syncid
  | .all => true

def Stopped.mark (which : Stopped) (upl : Upl) : Upl := if which.hits upl then { upl with stop := true } else upl

def Main.mark (which : Stopped) : Main → Main
  | .slot upl wait => .slot (which.mark upl) wait
  | m => m

def State.stopAll (s : State) (which : Stopped) : State :=
  { s with runs := s.runs.map fun r => { r with upllist := which.mark r.upllist }, main := s.main.mark which }

/-- What a step does; nothing where the thread is not there or the mutex is not free. -/
def State.run (s : State) : Event → Option State
  | .waitNoUploads => if s.main = .elsewhere then some s.testNoUploads else none
  | .runUploadfile localfileid syncid filesize =>
    if s.main = .elsewhere ∧ filesize < 2 ^ 64 then
      some (s.testSlot ⟨localfileid, syncid, filesize, false⟩)
    else none
  | .block =>
    match s.main with
    | .noUploads .tested => some (s.setMain s.currentUploadsWaiters (.noUploads .blocked))
    | .slot upl .tested => some (s.setMain s.currentUploadsWaiters (.slot upl .blocked))
    | _ => none
  | .mainResumes =>
    match s.main with
    | .noUploads .woken => some s.unwait.testNoUploads
    | .slot upl .woken => some (s.unwait.testSlot upl)
    | _ => none
  | .resize i fsize =>
    match s.runs[i]? with
    | some r => if !s.main.locked && r.running && fsize < 2 ^ 64 then some (s.resize i r fsize) else none
    | none => none
  | .addBytesUploaded i bytes =>
    match s.runs[i]? with
    | some r => if !s.main.locked && r.running && bytes < 2 ^ 64 then some (s.addBytes i r bytes) else none
    | none => none
  | .finish i =>
    match s.runs[i]? with
    | some r => if !s.main.locked && r.running then some (s.finish i r) else none
    | none => none
  | .incUploads =>
    if s.large = none then some ((s.setFiles (u32 (s.filesuploading + 1))).setFs (some 0) s.creats) else none
  | .uploadAddBytesUploaded bytes =>
    match s.large with
    | some asize =>
      if bytes < 2 ^ 64 then
        some ((s.setBytes s.bytestouploadcurrent (u64 (s.bytesuploaded + bytes))).setFs (some (u64 (asize + bytes))) s.creats)
      else none
    | none => none
  | .uploadSubBytesUploaded =>
    match s.large with
    | some asize => some ((s.setBytes s.bytestouploadcurrent (sub64 s.bytesuploaded asize)).setFs (some 0) s.creats)
    | none => none
  -- on every way out an upload has taken its bytes off
  | .decUploads => if s.large = some 0 then some ((s.decUploadsCnt 1).setFs none s.creats) else none
  | .creat =>
    if s.creats < numTasksPerRun then
      some ((s.setFiles (u32 (s.filesuploading + 1))).setFs s.large (s.creats + 1))
    else none
  | .decUploadsCnt => if s.creats ≠ 0 then some ((s.decUploadsCnt s.creats).setFs s.large 0) else none
  | .stop which => if s.main.locked then none else some (s.stopAll which)

def step (s : State) (e : Event) (s' : State) : Prop := s.run e = some s'

def Initial (s : State) : Prop :=
  s = { filesuploading := 0, bytesuploaded := 0, bytestouploadcurrent := 0, currentUploadsWaiters := 0, runs := [],
        main := .elsewhere, large := none, creats := 0 }

end Pclsync.Transfers.Uploads
