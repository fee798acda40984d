import Pclsync.Tasks.Calls
import Pclsync.Lib.Transition
import Mathlib.Logic.Function.Basic

/-! Uploads that the server has stored and that a later write has overtaken: the task that
creates the file and the id the server gave, from `pfsupload.c` and `psync_fs_update_openfile`.

A transaction runs under the SQL lock, so each is one step. -/
namespace Pclsync.Tasks.Superseded
open Lib.Transition

/-! ### The tables -/

/-- The tables with `fstaskfileid`: the ids that the server gave to uploads of a task. -/
structure Tables extends Database where
  fstaskfileid : List (ℕ × ℤ) := []
deriving DecidableEq, Repr

/-- `REPLACE INTO fstaskfileid (fstaskid, fileid) VALUES (?, ?)`. The row refers to one of `fstask`. -/
def Tables.replaceFileid (db : Tables) (taskid : ℕ) (fileid : ℤ) : Tables :=
  if taskid ∈ db.fstask.map Task.id then { db with fstaskfileid := db.fstaskfileid.insert (taskid, fileid) } else db

/-- `SELECT fileid FROM fstaskfileid WHERE fstaskid=?`. -/
def Tables.fileidOf (db : Tables) (taskid : ℕ) : Option ℤ := (db.fstaskfileid.find? fun row => row.1 = taskid).map Prod.snd

/-- An `UPDATE fstask`. -/
def Tables.update (db : Tables) (where_ : Task → Bool) (set : Task → Task) : Tables :=
  { db with fstask := db.fstask.map fun task => if where_ task then set task else task }

/-- A `DELETE FROM fstask`, with the rows that refer to it. -/
def Tables.deleteTasks (db : Tables) (where_ : Task → Bool) : Tables :=
  let kept := db.fstask.filter fun task => !where_ task
  let refers := fun taskid => taskid ∈ kept.map Task.id
  { db with
    fstask := kept
    fstaskdepend := db.fstaskdepend.filter fun row => refers row.1 && refers row.2
    fstaskfileid := db.fstaskfileid.filter fun row => refers row.1 }

/-- `pr_del_dep`. -/
def Tables.delDep (db : Tables) (taskid : ℕ) : Tables :=
  { db with fstaskdepend := db.fstaskdepend.filter fun row => row.2 ≠ taskid }

/-- `pr_del_task`. -/
def Tables.delTask (db : Tables) (taskid : ℕ) : Tables := db.deleteTasks fun task => task.id = taskid

/-- `pr_set_task_status3`. -/
def Tables.setTaskStatus3 (db : Tables) (taskid : ℕ) : Tables :=
  db.update (fun task => task.id = taskid) fun task => { task with status := 3 }

/-- `pr_update_folderid`. -/
def Tables.updateFolderid (db : Tables) (newfolderid oldfolderid : ℤ) : Tables :=
  db.update (fun task => task.folderid = oldfolderid) fun task => { task with folderid := newfolderid }

/-- `pr_update_sfolderid`. -/
def Tables.updateSfolderid (db : Tables) (newfolderid oldfolderid : ℤ) : Tables :=
  db.update (fun task => task.sfolderid = oldfolderid) fun task => { task with sfolderid := newfolderid }

/-- `pr_update_fileid`. -/
def Tables.updateFileid (db : Tables) (newfileid oldfileid : ℤ) : Tables :=
  db.update (fun task => task.fileid = oldfileid) fun task => { task with fileid := newfileid }

/-! ### Requests -/

inductive Request where
  | deletefile (fileid : ℤ)
  | renamefile (fileid tofolderid : ℤ) (toname : Name)
deriving DecidableEq, Repr

/-- `psync_send_task_unlink`. -/
def sendTaskUnlink (task : Task) : Request := .deletefile task.fileid

/-- `psync_send_task_rename_file`. -/
def sendTaskRenameFile (task : Task) : Request := .renamefile task.fileid task.folderid task.text1

/-! ### States -/

/-- `psync_openfile_t`. -/
structure Open where
  writeid : ℕ
  newfile : Bool
deriving DecidableEq, Repr

/-- What the server answers to the request of a task. For a task that does not upload,
`accepted` is that processing the answer returns `0`. -/
structure Answer where
  result : ℕ
  fileid : ℤ
  accepted : Bool
deriving DecidableEq, Repr

structure State where
  /-- The database as it is committed. -/
  db : Tables
  openfiles : ℤ → Option Open
  /-- `current_upload_taskid`, and the counter of the upload. -/
  upload : Option (ℕ × ℤ)
  /-- `current_upload_batch`. -/
  batch : List Task
  /-- The files that the server has from uploads that were refused here, of the tasks that
  are still there. -/
  stored : List (ℕ × ℤ)

def State.withDb (s : State) (db : Tables) : State :=
  { s with db := db, stored := s.stored.filter fun row => row.1 ∈ db.fstask.map Task.id }

/-! ### What becomes of an upload -/

/-- `psync_fs_update_openfile`. -/
def State.updateOpenfile (s : State) (taskid : ℕ) (writeid newfileid : ℤ) : ℤ × State :=
  match s.openfiles (-taskid) with
  | some fl =>
    if fl.writeid = writeid then
      let closed := Function.update s.openfiles (-taskid) none
      (0, { s with openfiles := Function.update closed newfileid (some { fl with newfile := false }) })
    else (-1, if fl.newfile then { s with db := s.db.replaceFileid taskid newfileid } else s)
  | none => (if ∃ task ∈ s.db.fstask, task.id = taskid ∧ task.int1 = writeid then 0 else -1, s)

/-- The server keeps a file that is refused here. -/
def State.keep (s : State) (taskid : ℕ) (fileid : ℤ) : State := { s with stored := s.stored.insert (taskid, fileid) }

/-- `save_meta` of a new file. It is a transaction of its own. -/
def State.saveMeta (s : State) (taskid : ℕ) (writeid fileid : ℤ) : ℤ × State :=
  let (ret, s') := s.updateOpenfile taskid writeid fileid
  if ret ≠ 0 then (-1, { s' with db := s.db })
  else
    let db := (s'.db.delDep taskid).updateFileid fileid (-taskid)
    if ∃ task ∈ db.fstask, task.id = taskid ∧ task.int1 = writeid then
      (0, s'.withDb (db.update (fun task => task.id = taskid ∧ task.int1 = writeid) fun task => { task with status := 3 }))
    else (-1, { s' with db := s.db })

/-- `handle_upload_api_error_taskid`. -/
def Tables.handleUploadApiError (db : Tables) (result taskid : ℕ) (invalid : Name) : Tables :=
  if result = 2005 ∨ result = 2003 then db.update (fun task => task.id = taskid) fun task => { task with folderid := 0 }
  else if result = 2001 then db.update (fun task => task.id = taskid) fun task => { task with text1 := invalid }
  else if result = 2124 then db.update (fun task => task.id = taskid) fun task => { task with status := 1 }
  else db

/-- `psync_process_task_creat`: `invalid` is the name that a file with a bad one is given. -/
def State.processTaskCreat (s : State) (task : Task) (a : Answer) (invalid : Name) : ℤ × State :=
  if a.result ≠ 0 then (-1, s.withDb (s.db.handleUploadApiError a.result task.id invalid))
  else
    let (ret, s') := s.updateOpenfile task.id task.int1 a.fileid
    if ret ≠ 0 then (-1, s'.keep task.id a.fileid) else (0, s')

/-- `psync_cancel_task_creat`. -/
def Tables.cancelTaskCreat (db : Tables) (task : Task) : Tables :=
  let fileid := (db.fileidOf task.id).getD 0
  if fileid ≠ 0 then db.updateFileid fileid (-task.id) else db

/-- `psync_cancel_task_func`. -/
def Tables.cancelTask (db : Tables) (task : Task) : ℤ × Tables :=
  match task.type with
  | .creat => (0, db.cancelTaskCreat task)
  | .unlink =>
    if task.fileid > 0 then (-1, db.update (fun row => row.id = task.id) fun row => { row with status := 0 }) else (0, db)
  | .modify => (0, db.updateFileid task.fileid (-task.id))
  | .unSetRev =>
    (-1, db.update (fun row => row.id = task.id) fun row => { row with fileid := row.int1, status := 0, type := .unlink })
  | _ => (0, db)

/-- A task of a batch that the server has answered. -/
def State.processAnswered (s : State) (task : Task) (a : Answer) (invalid : Name) : State :=
  match task.type with
  | .creat =>
    let (ret, s') := s.processTaskCreat task a invalid
    if ret ≠ 0 then s'
    else s'.withDb (((s'.db.delDep task.id).updateFileid a.fileid (-task.id)).setTaskStatus3 task.id)
  | .mkdir =>
    if a.accepted then
      s.withDb ((((s.db.updateFolderid a.fileid (-task.id)).updateSfolderid a.fileid (-task.id)).delDep task.id).delTask task.id)
    else s
  | _ => if a.accepted then s.withDb ((s.db.delDep task.id).delTask task.id) else s

/-- A task of a batch, in `psync_fsupload_process_tasks`. -/
def State.processTask (s : State) (task : Task) (answer : Option Answer) (invalid : Name) : State :=
  if task.status = 11 then
    let (ret, db) := s.db.cancelTask task
    if ret ≠ 0 then s.withDb db else s.withDb ((db.delDep task.id).delTask task.id)
  else (answer.map fun a => s.processAnswered task a invalid).getD s

/-- `psync_fsupload_process_tasks`, one transaction for the batch. -/
def State.processTasks (s : State) (answers : List (Option Answer)) (invalid : Name) : State :=
  (s.batch.zip answers).foldl (fun s x => s.processTask x.1 x.2 invalid) s

/-! ### Steps -/

inductive Event where
  /-- A row for a task of a call, and what it depends on. -/
  | insert (task : Task) (depends : List ℕ)
  | open_ (fileid : ℤ) (fl : Open)
  | close (fileid : ℤ)
  /-- `psync_fs_inc_writeid_locked`. -/
  | write (fileid : ℤ)
  /-- The status and the counter of a task, from `psync_fs_flush`, `psync_fs_open`,
  `psync_fsupload_stop_upload_locked` and `psync_sent_task_creat_upload_large`. -/
  | mark (taskid status : ℕ) (int1 : ℤ)
  /-- `psync_fstask_stop_and_delete_file`. -/
  | stopAndDelete (fileid : ℤ) (batched : Bool)
  /-- `perm_fail_upload_task`, and the end of a task whose pages are in the cache. -/
  | remove (taskid : ℕ) (pending : Bool)
  /-- `large_upload` takes a task. -/
  | start (task : Task)
  /-- It ends, with the file that the server has stored or without one. -/
  | finish (fileid : Option ℤ)
  /-- `psync_fsupload_check_tasks` takes tasks that depend on none. -/
  | load (tasks : List Task)
  | processTasks (answers : List (Option Answer)) (invalid : Name)

/-- The upload of the large path, which the server has stored. -/
def State.finish (s : State) (taskid : ℕ) (writeid fileid : ℤ) : State :=
  let (_, s') := s.saveMeta taskid writeid fileid
  if (s.updateOpenfile taskid writeid fileid).1 ≠ 0 then s'.keep taskid fileid else s'

def State.run (s : State) : Event → Option State
  | .insert task depends =>
    some { s with db := { s.db with
      fstask := s.db.fstask ++ [{ task with id := s.db.nextTaskid }]
      fstaskdepend := s.db.fstaskdepend ++ depends.map fun id => (s.db.nextTaskid, id) } }
  | .open_ fileid fl => some { s with openfiles := Function.update s.openfiles fileid (some fl) }
  | .close fileid => some { s with openfiles := Function.update s.openfiles fileid none }
  | .write fileid => (s.openfiles fileid).map fun fl =>
    { s with openfiles := Function.update s.openfiles fileid (some { fl with writeid := fl.writeid + 1 }) }
  | .mark taskid status int1 =>
    some (s.withDb (s.db.update (fun task => task.id = taskid) fun task => { task with status := status, int1 := int1 }))
  | .stopAndDelete fileid batched =>
    some (s.withDb { s.db with toDatabase := s.db.toDatabase.stopAndDeleteFile fileid batched })
  | .remove taskid pending =>
    some (s.withDb (s.db.deleteTasks fun task => task.id = taskid ∨ pending ∧ task.fileid = -taskid))
  | .start task =>
    if s.upload = none ∧ task ∈ s.db.fstask ∧ task.type = .creat ∧ task.status = 2 then
      some { s with upload := some (task.id, task.int1) }
    else none
  | .finish fileid => s.upload.map fun u =>
    { (fileid.map fun fileid => s.finish u.1 u.2 fileid).getD s with upload := none }
  | .load tasks =>
    if s.batch = [] ∧ ∀ task ∈ tasks, task ∈ s.db.fstask ∧ (task.status = 0 ∨ task.status = 11) ∧
        ∀ row ∈ s.db.fstaskdepend, row.1 ≠ task.id then
      some { s with batch := tasks }
    else none
  | .processTasks answers invalid => some { s.processTasks answers invalid with batch := [] }

def step (s : State) (e : Event) (s' : State) : Prop := s.run e = some s'

structure Start (s : State) : Prop where
  upload : s.upload = none
  batch : s.batch = []
  fstaskfileid : s.db.fstaskfileid = []
  stored : s.stored = []

/-- An upload that the server has stored is refused. -/
def State.Refused (s : State) (taskid : ℕ) (writeid fileid : ℤ) : Prop := (s.updateOpenfile taskid writeid fileid).1 ≠ 0

/-- The file is open as a new one, and its task is there. -/
def State.Writing (s : State) (taskid : ℕ) : Prop :=
  (∃ fl ∈ s.openfiles (-taskid), fl.newfile) ∧ taskid ∈ s.db.fstask.map Task.id

/-- An answer that is refused though the file is not being written. -/
def State.LosesAnswer (s : State) (task : Task) (answer : Option Answer) : Prop :=
  task.type = .creat ∧ task.status ≠ 11 ∧ ∃ a ∈ answer, a.result = 0 ∧ s.Refused task.id task.int1 a.fileid ∧ ¬s.Writing task.id

/-- Some answer of a batch, when its turn comes. -/
def LosesAnswers (invalid : Name) : State → List (Task × Option Answer) → Prop
  | _, [] => False
  | s, x :: rest => s.LosesAnswer x.1 x.2 ∨ LosesAnswers invalid (s.processTask x.1 x.2 invalid) rest

/-- A refused upload that leaves no row: one of the large path, or one of a batch whose file
is not being written. -/
def Loses (s : State) : Event → Prop
  | .finish (some fileid) => ∃ u ∈ s.upload, s.Refused u.1 u.2 fileid
  | .processTasks answers invalid => LosesAnswers invalid s (s.batch.zip answers)
  | _ => False

/-! ### Rows that stay -/

/-- The rows are those whose task is still there. -/
structure Tables.Follows (db db' : Tables) : Prop where
  ids : ∀ id ∈ db'.fstask.map Task.id, id ∈ db.fstask.map Task.id
  fstaskfileid : ∀ row, row ∈ db'.fstaskfileid ↔ row ∈ db.fstaskfileid ∧ row.1 ∈ db'.fstask.map Task.id

/-- The rows are those of the uploads that were refused, of tasks that are there. -/
structure Linked (s : State) : Prop where
  stored : ∀ row, row ∈ s.stored ↔ row ∈ s.db.fstaskfileid
  ids : ∀ row ∈ s.db.fstaskfileid, row.1 ∈ s.db.fstask.map Task.id

variable {s s' : State} {db db' db'' : Tables}

theorem Tables.Follows.trans (h : db.Follows db') (h' : db'.Follows db'') : db.Follows db'' := by
  refine ⟨fun id hid => h.ids id (h'.ids id hid), fun row => ?_⟩
  rw [h'.fstaskfileid, h.fstaskfileid]
  constructor
  · rintro ⟨⟨hrow, -⟩, hid⟩
    exact ⟨hrow, hid⟩
  · rintro ⟨hrow, hid⟩
    exact ⟨⟨hrow, h'.ids _ hid⟩, hid⟩

/-- The ids of rows that are only updated. -/
theorem update_ids {where_ : Task → Bool} {set : Task → Task} (hset : ∀ task, (set task).id = task.id) :
    (db.update where_ set).fstask.map Task.id = db.fstask.map Task.id := by
  rw [Tables.update, List.map_map]
  refine List.map_congr_left fun task _ => ?_
  rw [Function.comp_apply]
  split_ifs
  · exact hset task
  · rfl

/-- Refers to the tables as they are. -/
def Tables.Refers (db : Tables) : Prop := ∀ row ∈ db.fstaskfileid, row.1 ∈ db.fstask.map Task.id

theorem follows_of_ids (hdb : db.Refers) (hids : db'.fstask.map Task.id = db.fstask.map Task.id)
    (hrows : db'.fstaskfileid = db.fstaskfileid) : db.Follows db' := by
  refine ⟨fun id hid => hids ▸ hid, fun row => ?_⟩
  rw [hids, hrows]
  exact ⟨fun hrow => ⟨hrow, hdb row hrow⟩, And.left⟩

theorem follows_update (hdb : db.Refers) {where_ : Task → Bool} {set : Task → Task} (hset : ∀ task, (set task).id = task.id) :
    db.Follows (db.update where_ set) :=
  follows_of_ids hdb (update_ids hset) rfl

theorem follows_delDep (hdb : db.Refers) (taskid : ℕ) : db.Follows (db.delDep taskid) := follows_of_ids hdb rfl rfl

theorem follows_deleteTasks (where_ : Task → Bool) : db.Follows (db.deleteTasks where_) := by
  refine ⟨fun id hid => ?_, fun row => ?_⟩
  · obtain ⟨task, htask, rfl⟩ := List.mem_map.mp hid
    exact List.mem_map_of_mem (List.mem_of_mem_filter htask)
  · simp only [Tables.deleteTasks, List.mem_filter, decide_eq_true_eq]

theorem Tables.Follows.refers (h : db.Follows db') : db'.Refers := fun row hrow => ((h.fstaskfileid row).mp hrow).2

theorem Tables.Follows.delDep (h : db.Follows db') (taskid : ℕ) : db.Follows (db'.delDep taskid) :=
  h.trans (follows_delDep h.refers taskid)

theorem Tables.Follows.delTask (h : db.Follows db') (taskid : ℕ) : db.Follows (db'.delTask taskid) :=
  h.trans (follows_deleteTasks _)

theorem Tables.Follows.update (h : db.Follows db') {where_ : Task → Bool} {set : Task → Task} (hset : ∀ task, (set task).id = task.id) :
    db.Follows (db'.update where_ set) :=
  h.trans (follows_update h.refers hset)

theorem Tables.Follows.updateFileid (h : db.Follows db') (newfileid oldfileid : ℤ) :
    db.Follows (db'.updateFileid newfileid oldfileid) :=
  h.update fun _ => by rfl

theorem follows_refl (hdb : db.Refers) : db.Follows db := follows_of_ids hdb rfl rfl

/-! ### What a step leaves -/

theorem Linked.withDb (h : Linked s) (hdb : s.db.Follows db) : Linked (s.withDb db) := by
  refine ⟨fun row => ?_, hdb.refers⟩
  simp only [State.withDb, List.mem_filter, decide_eq_true_eq]
  rw [h.stored, hdb.fstaskfileid]

/-- Where an upload is not refused, only the open files change. -/
theorem updateOpenfile_accepted {taskid : ℕ} {writeid fileid : ℤ} (h : ¬s.Refused taskid writeid fileid) :
    ∃ openfiles, s.updateOpenfile taskid writeid fileid = (0, { s with openfiles := openfiles }) := by
  rw [State.Refused, not_not] at h
  rw [State.updateOpenfile] at h ⊢
  cases hfl : s.openfiles (-taskid) with
  | none =>
    rw [hfl] at h
    simp only at h ⊢
    rw [h]
    exact ⟨s.openfiles, rfl⟩
  | some fl =>
    rw [hfl] at h
    simp only at h ⊢
    by_cases hwriteid : fl.writeid = writeid
    · rw [if_pos hwriteid]
      exact ⟨_, rfl⟩
    · rw [if_neg hwriteid] at h
      cases h

/-- Where an upload of a file that is being written is refused, the row is there. -/
theorem updateOpenfile_refused {taskid : ℕ} {writeid fileid : ℤ} (h : s.Refused taskid writeid fileid)
    (hwriting : s.Writing taskid) :
    s.updateOpenfile taskid writeid fileid = (-1, { s with db := s.db.replaceFileid taskid fileid }) := by
  obtain ⟨⟨fl, hfl, hnew⟩, -⟩ := hwriting
  rw [State.Refused, State.updateOpenfile] at h
  rw [State.updateOpenfile]
  rw [Option.mem_def.mp hfl] at h ⊢
  simp only at h ⊢
  split_ifs at h ⊢ with hwriteid
  · exact absurd rfl h
  · rfl

theorem Linked.openfiles (h : Linked s) (openfiles : ℤ → Option Open) : Linked { s with openfiles := openfiles } := ⟨h.stored, h.ids⟩

theorem Linked.saveMeta (h : Linked s) {taskid : ℕ} {writeid fileid : ℤ} (haccepted : ¬s.Refused taskid writeid fileid) :
    Linked (s.saveMeta taskid writeid fileid).2 := by
  obtain ⟨openfiles, hupdate⟩ := updateOpenfile_accepted haccepted
  rw [State.saveMeta, hupdate]
  simp only [ne_eq, not_true_eq_false, if_false]
  split_ifs
  · have hdb : s.db.Follows (((s.db.delDep taskid).updateFileid fileid (-taskid)).update
        (fun task => task.id = taskid ∧ task.int1 = writeid) fun task => { task with status := 3 }) :=
      ((follows_delDep h.ids taskid).updateFileid fileid (-taskid)).update fun _ => by rfl
    exact (h.openfiles openfiles).withDb hdb
  · exact h.openfiles openfiles

/-- The row of a refused upload, and the file that the server keeps. -/
theorem Linked.keep (h : Linked s) {taskid : ℕ} (hid : taskid ∈ s.db.fstask.map Task.id) (fileid : ℤ) :
    Linked ({ s with db := s.db.replaceFileid taskid fileid }.keep taskid fileid) := by
  refine ⟨fun row => ?_, fun row hrow => ?_⟩
  · rw [State.keep, Tables.replaceFileid, if_pos hid]
    simp only [List.mem_insert_iff]
    rw [h.stored]
  · rw [State.keep, Tables.replaceFileid, if_pos hid] at hrow ⊢
    simp only [List.mem_insert_iff] at hrow
    rcases hrow with rfl | hrow
    · exact hid
    · exact h.ids row hrow

theorem follows_handleUploadApiError (hdb : db.Refers) (result taskid : ℕ) (invalid : Name) :
    db.Follows (db.handleUploadApiError result taskid invalid) := by
  rw [Tables.handleUploadApiError]
  split_ifs
  · exact follows_update hdb fun _ => rfl
  · exact follows_update hdb fun _ => rfl
  · exact follows_update hdb fun _ => rfl
  · exact follows_refl hdb

theorem follows_cancelTask (hdb : db.Refers) (task : Task) : db.Follows (db.cancelTask task).2 := by
  rw [Tables.cancelTask]
  cases task.type with
  | creat =>
    simp only [Tables.cancelTaskCreat]
    split_ifs
    · exact follows_update hdb fun _ => rfl
    · exact follows_refl hdb
  | unlink =>
    simp only
    split_ifs
    · exact follows_update hdb fun _ => rfl
    · exact follows_refl hdb
  | modify => exact follows_update hdb fun _ => rfl
  | unSetRev => exact follows_update hdb fun _ => rfl
  | _ => exact follows_refl hdb

theorem Linked.processTaskCreat (h : Linked s) {task : Task} {a : Answer} (hcreat : task.type = .creat)
    (hstatus : task.status ≠ 11) (hlinks : ¬s.LosesAnswer task (some a)) (invalid : Name) :
    Linked (s.processTaskCreat task a invalid).2 := by
  rw [State.processTaskCreat]
  by_cases hresult : a.result = 0
  · rw [if_neg (not_not.mpr hresult)]
    by_cases hrefused : s.Refused task.id task.int1 a.fileid
    · have hwriting : s.Writing task.id := by
        by_contra hnot
        exact hlinks ⟨hcreat, hstatus, a, rfl, hresult, hrefused, hnot⟩
      rw [updateOpenfile_refused hrefused hwriting]
      exact h.keep hwriting.2 a.fileid
    · obtain ⟨openfiles, hupdate⟩ := updateOpenfile_accepted hrefused
      rw [hupdate]
      exact h.openfiles openfiles
  · rw [if_pos hresult]
    exact h.withDb (follows_handleUploadApiError h.ids ..)

theorem Linked.processAnswered (h : Linked s) {task : Task} {a : Answer} (hstatus : task.status ≠ 11)
    (hlinks : ¬s.LosesAnswer task (some a)) (invalid : Name) : Linked (s.processAnswered task a invalid) := by
  rw [State.processAnswered]
  cases htype : task.type with
  | creat =>
    have hcreat := h.processTaskCreat htype hstatus hlinks invalid
    simp only
    split_ifs
    · exact hcreat
    · exact hcreat.withDb (((follows_delDep hcreat.ids task.id).updateFileid a.fileid (-task.id)).update fun _ => by rfl)
  | mkdir =>
    simp only
    split_ifs
    · have hfolder : s.db.Follows (s.db.updateFolderid a.fileid (-task.id)) := follows_update h.ids fun _ => by rfl
      have hboth : s.db.Follows ((s.db.updateFolderid a.fileid (-task.id)).updateSfolderid a.fileid (-task.id)) :=
        hfolder.update fun _ => by rfl
      exact h.withDb ((hboth.delDep task.id).delTask task.id)
    · exact h
  | _ =>
    simp only
    split_ifs
    · exact h.withDb ((follows_delDep h.ids task.id).delTask task.id)
    · exact h

theorem Linked.processTask (h : Linked s) {task : Task} {answer : Option Answer} (hlinks : ¬s.LosesAnswer task answer)
    (invalid : Name) : Linked (s.processTask task answer invalid) := by
  rw [State.processTask]
  have hcancel := follows_cancelTask h.ids task
  by_cases hstatus : task.status = 11
  · rw [if_pos hstatus]
    simp only
    split_ifs
    · exact h.withDb hcancel
    · exact h.withDb ((hcancel.delDep task.id).delTask task.id)
  · rw [if_neg hstatus]
    cases answer with
    | none => exact h
    | some a => exact h.processAnswered hstatus hlinks invalid

theorem Linked.processTasks (h : Linked s) {invalid : Name} {batch : List (Task × Option Answer)}
    (hlinks : ¬LosesAnswers invalid s batch) :
    Linked (batch.foldl (fun s x => s.processTask x.1 x.2 invalid) s) := by
  induction batch generalizing s with
  | nil => exact h
  | cons x rest ih =>
    rw [LosesAnswers, not_or] at hlinks
    exact ih (h.processTask hlinks.1 invalid) hlinks.2

/-! ### Runs -/

theorem Start.linked (h : Start s) : Linked s := by
  refine ⟨fun row => ?_, fun row hrow => ?_⟩
  · rw [h.stored, h.fstaskfileid]
  · rw [h.fstaskfileid] at hrow
    cases hrow

theorem follows_stopAndDelete (hdb : db.Refers) (fileid : ℤ) (batched : Bool) :
    db.Follows { db with toDatabase := db.toDatabase.stopAndDeleteFile fileid batched } := by
  refine follows_of_ids hdb ?_ rfl
  simp only [Database.stopAndDeleteFile]
  split_ifs
  · rfl
  · rw [List.map_map]
    refine List.map_congr_left fun task _ => ?_
    rw [Function.comp_apply]
    split_ifs
    · rfl
    · rfl

theorem Linked.run (h : Linked s) {e : Event} (hloses : ¬Loses s e) (hrun : s.run e = some s') : Linked s' := by
  cases e with
  | insert task depends =>
    cases hrun
    refine ⟨h.stored, fun row hrow => ?_⟩
    rw [List.map_append]
    exact List.mem_append_left _ (h.ids row hrow)
  | open_ fileid fl =>
    cases hrun
    exact h.openfiles _
  | close fileid =>
    cases hrun
    exact h.openfiles _
  | write fileid =>
    obtain ⟨fl, -, rfl⟩ := Option.map_eq_some_iff.mp hrun
    exact h.openfiles _
  | mark taskid status int1 =>
    cases hrun
    exact h.withDb (follows_update h.ids fun _ => rfl)
  | stopAndDelete fileid batched =>
    cases hrun
    exact h.withDb (follows_stopAndDelete h.ids fileid batched)
  | remove taskid pending =>
    cases hrun
    exact h.withDb (follows_deleteTasks _)
  | start task =>
    rw [State.run] at hrun
    split_ifs at hrun
    cases hrun
    exact ⟨h.stored, h.ids⟩
  | finish fileid =>
    obtain ⟨u, hu, rfl⟩ := Option.map_eq_some_iff.mp hrun
    cases fileid with
    | none => exact ⟨h.stored, h.ids⟩
    | some fileid =>
      have haccepted : ¬s.Refused u.1 u.2 fileid := fun hrefused => hloses ⟨u, hu, hrefused⟩
      have hsaved := h.saveMeta haccepted
      rw [State.Refused] at haccepted
      simp only [Option.map_some, Option.getD_some, State.finish, if_neg haccepted]
      exact ⟨hsaved.stored, hsaved.ids⟩
  | load tasks =>
    rw [State.run] at hrun
    split_ifs at hrun
    cases hrun
    exact ⟨h.stored, h.ids⟩
  | processTasks answers invalid =>
    cases hrun
    have hprocessed := h.processTasks hloses
    exact ⟨hprocessed.stored, hprocessed.ids⟩

theorem fileidOf_eq {taskid : ℕ} {fileid : ℤ} (hrow : (taskid, fileid) ∈ db.fstaskfileid)
    (hone : ∀ id, (taskid, id) ∈ db.fstaskfileid → id = fileid) : db.fileidOf taskid = some fileid := by
  rw [Tables.fileidOf]
  cases hfind : db.fstaskfileid.find? (fun row => row.1 = taskid) with
  | none =>
    have hnone := List.find?_eq_none.mp hfind _ hrow
    simp at hnone
  | some row =>
    have hmem := List.mem_of_find?_eq_some hfind
    have hid := List.find?_some hfind
    simp only [decide_eq_true_eq] at hid
    obtain ⟨id, found⟩ := row
    change id = taskid at hid
    subst hid
    rw [Option.map_some, hone found hmem]

/-- A cancelled creation gives its pending tasks the id that the server gave. -/
theorem cancelled_creat {task row : Task} {fileid : ℤ} (hcreat : task.type = .creat) (hstatus : task.status = 11)
    (hfileid : s.db.fileidOf task.id = some fileid) (hne : fileid ≠ 0) (answer : Option Answer) (invalid : Name)
    (hrow : row ∈ s.db.fstask) (hid : row.id ≠ task.id) (hpending : row.fileid = -task.id) :
    { row with fileid := fileid } ∈ (s.processTask task answer invalid).db.fstask := by
  have hcancel : s.db.cancelTask task = (0, s.db.updateFileid fileid (-task.id)) := by
    rw [Tables.cancelTask, hcreat]
    simp only [Tables.cancelTaskCreat, hfileid, Option.getD_some]
    rw [if_pos hne]
  rw [State.processTask, if_pos hstatus, hcancel]
  simp only [ne_eq, not_true_eq_false, if_false, State.withDb]
  refine List.mem_filter.mpr ⟨List.mem_map.mpr ⟨row, hrow, ?_⟩, ?_⟩
  · simp only [hpending, decide_true, if_true]
  · simp [hid]

/-- Nothing is open. -/
def blank : State := ⟨{}, fun _ => none, none, [], []⟩

/-- The task that creates a file. -/
def creation : Task := { id := 1, type := .creat, status := 0, folderid := 0, text1 := [97], int1 := 1 }

end Pclsync.Tasks.Superseded
