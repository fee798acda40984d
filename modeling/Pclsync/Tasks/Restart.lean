import Pclsync.Tasks.Visible
import Pclsync.Lib.Transition

/-! Restarts: the overlay that `psync_fstask_init` rebuilds from the stored tasks. -/
namespace Pclsync.Tasks
open Lib.Transition

/-! ### Replaying a task -/

/-- `psync_init_task_mkdir`. -/
def initTaskMkdir (o : Overlay) (task : Task) : Overlay :=
  o.update task.folderid fun folder =>
    folder.insertMkdir ⟨task.text1, task.id, -task.id, if task.text2.isNone then 0 else flagEncrypted⟩

/-- `psync_init_task_rmdir`. -/
def initTaskRmdir (o : Overlay) (task : Task) : Overlay :=
  o.update task.folderid fun folder =>
    (folder.deleteMkdir task.text1 0).insertRmdir ⟨task.text1, task.id, task.sfolderid, 0⟩

/-- `psync_init_task_creat`. -/
def initTaskCreat (o : Overlay) (task : Task) : Overlay :=
  o.update task.folderid fun folder =>
    (folder.insertUnlink ⟨task.text1, task.id, -task.id, 0⟩).insertCreat ⟨task.text1, task.id, -task.id, 0⟩

/-- `psync_init_do_task_unlink`. -/
def initDoTaskUnlink (o : Overlay) (task : Task) (fileid : ℤ) : Overlay :=
  o.update task.folderid fun folder => (folder.deleteCreat task.text1 0).insertUnlink ⟨task.text1, task.id, fileid, 0⟩

/-- `psync_init_task_unlink`. -/
def initTaskUnlink (o : Overlay) (task : Task) : Overlay := initDoTaskUnlink o task task.fileid

/-- `psync_init_task_unlink_set_rev`. -/
def initTaskUnlinkSetRev (o : Overlay) (task : Task) : Overlay := initDoTaskUnlink o task task.int1

/-- `psync_init_task_renfile_from`. -/
def initTaskRenfileFrom (o : Overlay) (task : Task) : Overlay := initDoTaskUnlink o task task.fileid

/-- `psync_init_task_renfile_to`. -/
def initTaskRenfileTo (o : Overlay) (task : Task) : Overlay :=
  o.update task.folderid fun folder =>
    ((folder.deleteCreat task.text1 0).insertUnlink ⟨task.text1, task.id, task.fileid, 0⟩).insertCreat
      ⟨task.text1, task.id, task.fileid, 0⟩

/-- `psync_init_task_renfolder_from`. -/
def initTaskRenfolderFrom (o : Overlay) (task : Task) : Overlay := initTaskRmdir o task

/-- `psync_init_task_renfolder_to`. -/
def initTaskRenfolderTo (o : Overlay) (task : Task) : Overlay :=
  o.update task.folderid fun folder =>
    (folder.insertRmdir ⟨task.text1, task.id, task.sfolderid, 0⟩).insertMkdir
      ⟨task.text1, task.id, task.sfolderid, task.int2.toNat⟩

/-- `psync_init_task_modify`. -/
def initTaskModify (o : Overlay) (task : Task) : Overlay :=
  o.update task.folderid fun folder =>
    ((folder.deleteCreat task.text1 0).insertUnlink ⟨task.text1, task.id, task.fileid, 0⟩).insertCreat
      ⟨task.text1, task.id, -task.id, 0⟩

/-- `psync_init_task_func`. -/
def initTask (o : Overlay) (task : Task) : Overlay :=
  match task.type with
  | .mkdir => initTaskMkdir o task
  | .rmdir => initTaskRmdir o task
  | .creat => initTaskCreat o task
  | .unlink => initTaskUnlink o task
  | .renfileFrom => initTaskRenfileFrom o task
  | .renfileTo => initTaskRenfileTo o task
  | .renfolderFrom => initTaskRenfolderFrom o task
  | .renfolderTo => initTaskRenfolderTo o task
  | .modify => initTaskModify o task
  | .unSetRev => initTaskUnlinkSetRev o task

/-- `UPDATE fstask SET status`, as `psync_fstask_init` does. -/
def resetStatus (task : Task) : Task :=
  if task.status = 1 ∨ task.status = 2 then { task with status := 0 }
  else if task.status = 12 then { task with status := 11 } else task

/-- `psync_fstask_init`. -/
def fstaskInit (db : Database) : Overlay := ((db.fstask.map resetStatus).filter (·.status ≠ 3)).foldl initTask {}

/-! ### What a restart is to leave -/

/-- Two folders have the same records of what is to be made, and hide the same names. -/
structure Folder.Agrees (folder folder' : Folder) : Prop where
  mkdirs : folder'.mkdirs = folder.mkdirs
  creats : folder'.creats = folder.creats
  unlinks : folder'.unlinks = folder.unlinks
  rmdirs : ∀ name, Has folder'.rmdirs name ↔ Has folder.rmdirs name

/-- No task is stored yet. -/
structure Untouched (s : State) : Prop where
  ids : ∀ row ∈ s.db.folder ++ s.db.file, 0 < row.id
  fstask : s.db.fstask = []
  overlay : s.overlay = {}

/-- A call that succeeds. -/
def succeeds (s : State) (call : Call) (s' : State) : Prop := call.run s = (s', 0)

/-- A folder that is renamed replaces the mkdir that it is to replace. -/
def Call.Replaces (s : State) : Call → Prop
  | .rename old new _ _ => (∃ id, s.lookup old.folderid old.name = some (.folder id)) → s.ReplacesMkdir old new
  | _ => True

variable {s : State} {db db' db'' : Database} {rows rows' : List Task} {folderid : ℤ} {name : Name}

/-! ### What is stored -/

/-- New rows are stored; the others are replayed as before. -/
structure Database.Stores (db db' : Database) (rows : List Task) : Prop where
  ext : db.Extends db'
  replay : ∀ o, db'.fstask.foldl initTask o = rows.foldl initTask (db.fstask.foldl initTask o)
  statuses : (∀ task ∈ db.fstask, task.status ≠ 3) → ∀ task ∈ db'.fstask, task.status ≠ 3
  types : ∀ task' ∈ db'.fstask, ∃ task ∈ db.fstask ++ rows, task.id = task'.id ∧ task.type = task'.type
  fresh : ∀ task ∈ rows, db.nextTaskid ≤ task.id

theorem Database.Stores.trans (h : db.Stores db' rows) (h' : db'.Stores db'' rows') : db.Stores db'' (rows ++ rows') := by
  refine ⟨h.ext.trans h'.ext, fun o => ?_, fun hall => h'.statuses (h.statuses hall), fun task'' htask'' => ?_,
    fun task htask => ?_⟩
  · rw [h'.replay, h.replay, List.foldl_append]
  · obtain ⟨task', htask', hid, htype⟩ := h'.types task'' htask''
    rcases List.mem_append.mp htask' with hold | hnew
    · obtain ⟨task, htask, hid', htype'⟩ := h.types task' hold
      refine ⟨task, ?_, hid'.trans hid, htype'.trans htype⟩
      rw [← List.append_assoc]
      exact List.mem_append_left _ htask
    · exact ⟨task', List.mem_append_right _ (List.mem_append_right _ hnew), hid, htype⟩
  · rcases List.mem_append.mp htask with hold | hnew
    · exact h.fresh task hold
    · exact h.ext.nextTaskid.trans (h'.fresh task hnew)

/-- Where no row changes nothing is stored. -/
theorem Database.Extends.stores (h : db.Extends db') (hfstask : db'.fstask = db.fstask) : db.Stores db' [] := by
  refine ⟨h, fun o => by rw [hfstask]; rfl, fun hall => by rwa [hfstask], fun task htask => ?_, List.forall_mem_nil _⟩
  exact ⟨task, List.mem_append_left _ (hfstask ▸ htask), rfl, rfl⟩

theorem Database.stores_insertTask (db : Database) (task : Task) (hid : db.nextTaskid ≤ task.id) (hstatus : task.status ≠ 3) :
    db.Stores (db.insertTask task) [task] := by
  refine ⟨db.extends_insertTask task, fun o => ?_, fun hall => ?_, fun task' htask' => ⟨task', htask', rfl, rfl⟩, ?_⟩
  · rw [insertTask, List.foldl_append]
  · exact List.forall_mem_append.mpr ⟨hall, List.forall_mem_singleton.mpr hstatus⟩
  · exact List.forall_mem_singleton.mpr hid

/-- Rows that change where no replay looks. -/
theorem Database.stores_map (db : Database) {edit : Task → Task} (hid : ∀ task, (edit task).id = task.id)
    (htype : ∀ task, (edit task).type = task.type) (hstatus : ∀ task, task.status ≠ 3 → (edit task).status ≠ 3)
    (hreplay : ∀ task ∈ db.fstask, ∀ o, initTask o (edit task) = initTask o task) :
    db.Stores { db with fstask := db.fstask.map edit } [] := by
  refine ⟨db.extends_map hid, fun o => ?_, fun hall => ?_, fun task' htask' => ?_, List.forall_mem_nil _⟩
  · rw [List.foldl_map]
    exact List.foldl_ext _ _ _ fun o task htask => hreplay task htask o
  · rw [List.forall_mem_map]
    exact fun task htask => hstatus task (hall task htask)
  · obtain ⟨task, htask, rfl⟩ := List.mem_map.mp htask'
    exact ⟨task, List.mem_append_left _ htask, (hid task).symm, (htype task).symm⟩

/-- The folder that what is made has gone to is not replayed. -/
theorem initTask_sfolderid (o : Overlay) (task : Task) (sfolderid : ℤ)
    (htype : task.type = .mkdir ∨ task.type = .creat ∨ task.type = .modify) :
    initTask o { task with sfolderid := sfolderid } = initTask o task := by
  obtain ⟨id, type, _, _, _, _, _, _, _, _⟩ := task
  rcases htype with rfl | rfl | rfl <;> rfl

theorem Database.stores_stopAndDeleteFile (db : Database) (fileid : ℤ) (batched : Bool) :
    db.Stores (db.stopAndDeleteFile fileid batched) [] := by
  rw [stopAndDeleteFile]
  split_ifs
  · exact (Extends.refl db).stores rfl
  · refine db.stores_map (fun task => ?_) (fun task => ?_) (fun task hstatus => ?_) fun task _ o => ?_
    all_goals split_ifs
    any_goals rfl
    · exact show 11 ≠ 3 by decide
    · exact hstatus

theorem Database.stores_stopReplaced (db : Database) (replaced : Option Record) (batched : Bool) :
    db.Stores (db.stopReplaced replaced batched) [] := by
  cases replaced with
  | none => exact (Extends.refl db).stores rfl
  | some cr =>
    rw [stopReplaced]
    split_ifs
    · exact db.stores_stopAndDeleteFile ..
    · exact (Extends.refl db).stores rfl

/-- An id that is not remote is that of a task of such a type. -/
def Database.Makes (db : Database) (id : ℤ) (p : TaskType → Prop) : Prop :=
  id < 0 → -id < db.nextTaskid ∧ ∀ task ∈ db.fstask, (task.id : ℤ) = -id → p task.type

theorem Database.Makes.imp {id : ℤ} {p q : TaskType → Prop} (h : db.Makes id p) (hpq : ∀ type, p type → q type) :
    db.Makes id q :=
  fun hneg => ⟨(h hneg).1, fun task htask hid => hpq _ ((h hneg).2 task htask hid)⟩

theorem Database.Stores.makes {id : ℤ} {p : TaskType → Prop} (h : db.Stores db' rows) (hmakes : db.Makes id p) :
    db'.Makes id p := by
  intro hneg
  obtain ⟨hlt, hall⟩ := hmakes hneg
  refine ⟨hlt.trans_le (by exact_mod_cast h.ext.nextTaskid), fun task' htask' hid => ?_⟩
  obtain ⟨task, htask, hid', htype⟩ := h.types task' htask'
  rcases List.mem_append.mp htask with hold | hnew
  · exact htype ▸ hall task hold (by omega)
  · have := h.fresh task hnew
    omega

/-- A task that is stored makes its id. -/
theorem Database.Stores.makes_new {task : Task} {p : TaskType → Prop} (h : db.Stores db' [task]) (hid : db.nextTaskid ≤ task.id)
    (hlt : task.id < db'.nextTaskid) (hp : p task.type) : db'.Makes (-task.id) p := by
  refine fun _ => ⟨by omega, fun task' htask' hid' => ?_⟩
  obtain ⟨task'', htask'', hid'', htype⟩ := h.types task' htask'
  rcases List.mem_append.mp htask'' with hold | hnew
  · have := lt_nextTaskid hold
    omega
  · rw [List.mem_singleton.mp hnew] at htype
    exact htype ▸ hp

theorem Database.stores_moveCreation (db : Database) (taskid : ℕ) {id : ℤ} (to_folderid : ℤ)
    (h : db.Makes id fun type => type = .mkdir ∨ type = .creat ∨ type = .modify) :
    db.Stores (db.moveCreation taskid id to_folderid) [] := by
  rw [moveCreation]
  split_ifs with hneg
  · have hset : db.Stores (db.setSfolderid (-id).toNat to_folderid) [] := by
      refine db.stores_map (fun task => ?_) (fun task => ?_) (fun task hstatus => ?_) fun task htask o => ?_
      all_goals split_ifs with hid
      any_goals rfl
      · exact hstatus
      · exact hstatus
      · exact initTask_sfolderid o task to_folderid ((h hneg).2 task htask (by omega))
    exact hset.trans ((extends_depend ..).stores rfl)
  · exact (Extends.refl db).stores rfl

/-! ### Edits of folders that agree -/

section Edits
variable {folder folder' folder'' : Folder} {r : Record} {taskid : ℕ}

theorem Folder.Agrees.refl (folder : Folder) : folder.Agrees folder := ⟨rfl, rfl, rfl, fun _ => .rfl⟩

theorem Folder.Agrees.trans (h : folder.Agrees folder') (h' : folder'.Agrees folder'') : folder.Agrees folder'' :=
  ⟨h'.mkdirs.trans h.mkdirs, h'.creats.trans h.creats, h'.unlinks.trans h.unlinks,
    fun name => (h'.rmdirs name).trans (h.rmdirs name)⟩

theorem Folder.Agrees.insertMkdir (h : folder.Agrees folder') : (folder.insertMkdir r).Agrees (folder'.insertMkdir r) :=
  ⟨congrArg (insertIntoTree · r) h.mkdirs, h.creats, h.unlinks, h.rmdirs⟩

theorem Folder.Agrees.insertCreat (h : folder.Agrees folder') : (folder.insertCreat r).Agrees (folder'.insertCreat r) :=
  ⟨h.mkdirs, congrArg (insertIntoTree · r) h.creats, h.unlinks, h.rmdirs⟩

theorem Folder.Agrees.insertUnlink (h : folder.Agrees folder') : (folder.insertUnlink r).Agrees (folder'.insertUnlink r) :=
  ⟨h.mkdirs, h.creats, congrArg (insertIntoTree · r) h.unlinks, h.rmdirs⟩

theorem Folder.Agrees.insertRmdir (h : folder.Agrees folder') : (folder.insertRmdir r).Agrees (folder'.insertRmdir r) :=
  ⟨h.mkdirs, h.creats, h.unlinks,
    fun name => has_insertIntoTree.trans ((or_congr_right (h.rmdirs name)).trans has_insertIntoTree.symm)⟩

theorem Folder.Agrees.deleteMkdir (h : folder.Agrees folder') :
    (folder.deleteMkdir name taskid).Agrees (folder'.deleteMkdir name taskid) :=
  ⟨congrArg (deleteFromTree · name taskid) h.mkdirs, h.creats, h.unlinks, h.rmdirs⟩

theorem Folder.Agrees.deleteCreat (h : folder.Agrees folder') :
    (folder.deleteCreat name taskid).Agrees (folder'.deleteCreat name taskid) :=
  ⟨h.mkdirs, congrArg (deleteFromTree · name taskid) h.creats, h.unlinks, h.rmdirs⟩

end Edits

/-! ### The overlay that a replay leaves -/

/-- A replay of the stored rows leaves what the calls left. -/
structure Restartable (s : State) : Prop where
  ids : ∀ row ∈ s.db.folder ++ s.db.file, 0 < row.id
  agrees : ∀ folderid, ((s.db.fstask.foldl initTask {}).get folderid).Agrees (s.overlay.get folderid)
  statuses : ∀ task ∈ s.db.fstask, task.status ≠ 3
  mkdirs_nodup : ∀ folderid, ((s.overlay.get folderid).mkdirs.map Record.name).Nodup
  mkdirs : ∀ folderid, ∀ r ∈ (s.overlay.get folderid).mkdirs, r.id ≠ 0 ∧ s.db.Makes r.id (· = .mkdir)
  creats : ∀ folderid, ∀ r ∈ (s.overlay.get folderid).creats, r.id ≠ 0 ∧ s.db.Makes r.id fun type => type = .creat ∨ type = .modify

/-- The same holds of folders that agree. -/
theorem Restartable.congr (h : Restartable s) {overlay : Overlay}
    (hagrees : ∀ folderid, (s.overlay.get folderid).Agrees (overlay.get folderid)) : Restartable ⟨s.db, overlay⟩ := by
  refine ⟨h.ids, fun f => (h.agrees f).trans (hagrees f), h.statuses, fun f => ?_, fun f => ?_, fun f => ?_⟩
  · show ((overlay.get f).mkdirs.map Record.name).Nodup
    rw [(hagrees f).mkdirs]
    exact h.mkdirs_nodup f
  · show ∀ r ∈ (overlay.get f).mkdirs, r.id ≠ 0 ∧ _
    rw [(hagrees f).mkdirs]
    exact h.mkdirs f
  · show ∀ r ∈ (overlay.get f).creats, r.id ≠ 0 ∧ _
    rw [(hagrees f).creats]
    exact h.creats f

/-- A replay of what is stored edits one folder. -/
theorem Restartable.update (h : Restartable s) (hstores : s.db.Stores db' rows) {edit : Folder → Folder}
    (hreplay : ∀ o, rows.foldl initTask o = o.update folderid edit)
    (hagrees : ∀ folder folder' : Folder, folder.Agrees folder' → (edit folder).Agrees (edit folder'))
    (hnodup : ((edit (s.overlay.get folderid)).mkdirs.map Record.name).Nodup)
    (hmkdirs : ∀ r ∈ (edit (s.overlay.get folderid)).mkdirs,
      r ∈ (s.overlay.get folderid).mkdirs ∨ r.id ≠ 0 ∧ db'.Makes r.id (· = .mkdir))
    (hcreats : ∀ r ∈ (edit (s.overlay.get folderid)).creats,
      r ∈ (s.overlay.get folderid).creats ∨ r.id ≠ 0 ∧ db'.Makes r.id fun type => type = .creat ∨ type = .modify) :
    Restartable ⟨db', s.overlay.update folderid edit⟩ := by
  refine ⟨?_, fun f => ?_, hstores.statuses h.statuses, fun f => ?_, fun f r hr => ?_, fun f r hr => ?_⟩
  · show ∀ row ∈ db'.folder ++ db'.file, 0 < row.id
    rw [hstores.ext.folder, hstores.ext.file]
    exact h.ids
  · rw [hstores.replay, hreplay, Overlay.get_update, Overlay.get_update]
    split_ifs
    · exact hagrees _ _ (h.agrees f)
    · exact h.agrees f
  · rw [Overlay.get_update]
    split_ifs with hf
    · rw [hf]
      exact hnodup
    · exact h.mkdirs_nodup f
  · rw [Overlay.get_update] at hr
    have hold : ∀ r ∈ (s.overlay.get f).mkdirs, r.id ≠ 0 ∧ db'.Makes r.id (· = .mkdir) :=
      fun r hr => ⟨(h.mkdirs f r hr).1, hstores.makes (h.mkdirs f r hr).2⟩
    split_ifs at hr with hf
    · rw [hf] at hr hold
      exact (hmkdirs r hr).elim (hold r) id
    · exact hold r hr
  · rw [Overlay.get_update] at hr
    have hold : ∀ r ∈ (s.overlay.get f).creats, r.id ≠ 0 ∧ db'.Makes r.id fun type => type = .creat ∨ type = .modify :=
      fun r hr => ⟨(h.creats f r hr).1, hstores.makes (h.creats f r hr).2⟩
    split_ifs at hr with hf
    · rw [hf] at hr hold
      exact (hcreats r hr).elim (hold r) id
    · exact hold r hr

/-! ### Rows that are replayed -/

section Replays
variable {task : Task} {fileid : ℤ}

/-- A folder is taken away. -/
theorem Restartable.takeFolder (h : Restartable s) (hstores : s.db.Stores db' [task])
    (hreplay : ∀ o, initTask o task = initTaskRmdir o task) : Restartable ⟨db', initTaskRmdir s.overlay task⟩ := by
  refine h.update hstores hreplay (fun _ _ hfolder => hfolder.deleteMkdir.insertRmdir)
    (nodup_deleteFromTree (h.mkdirs_nodup task.folderid)) (fun r hr => .inl ?_) fun r hr => .inl hr
  exact mem_of_mem_deleteFromTree hr

/-- A file is taken away. -/
theorem Restartable.takeFile (h : Restartable s) (hstores : s.db.Stores db' [task])
    (hreplay : ∀ o, initTask o task = initDoTaskUnlink o task fileid) :
    Restartable ⟨db', initDoTaskUnlink s.overlay task fileid⟩ := by
  refine h.update hstores hreplay (fun _ _ hfolder => hfolder.deleteCreat.insertUnlink)
    (h.mkdirs_nodup task.folderid) (fun r hr => .inl hr) fun r hr => .inl ?_
  exact mem_of_mem_deleteFromTree hr

/-- A file is put in the place of another one. -/
theorem Restartable.putFile (h : Restartable s) (hstores : s.db.Stores db' [task]) {unlink creat : Record}
    (hreplay : ∀ o, initTask o task = o.update task.folderid fun folder =>
      ((folder.deleteCreat task.text1 0).insertUnlink unlink).insertCreat creat)
    (hcreat : creat.id ≠ 0 ∧ db'.Makes creat.id fun type => type = .creat ∨ type = .modify) :
    Restartable ⟨db', s.overlay.update task.folderid fun folder =>
      ((folder.deleteCreat task.text1 0).insertUnlink unlink).insertCreat creat⟩ := by
  refine h.update hstores hreplay (fun _ _ hfolder => hfolder.deleteCreat.insertUnlink.insertCreat)
    (h.mkdirs_nodup task.folderid) (fun r hr => .inl hr) fun r hr => ?_
  rcases mem_insertIntoTree.mp hr with rfl | hr
  · exact .inr hcreat
  · exact .inl (mem_of_mem_deleteFromTree hr)

end Replays

/-- A row that is stored under the next id, and that makes it. -/
theorem Database.stores_task (db : Database) (task : Task) (hid : task.id = db.nextTaskid) (hstatus : task.status ≠ 3)
    (hext : (db.insertTask task).Extends db') (hfstask : db'.fstask = (db.insertTask task).fstask) :
    db.Stores db' [task] ∧ ∀ p : TaskType → Prop, p task.type → db'.Makes (-db.nextTaskid) p := by
  have hstores : db.Stores db' [task] := (db.stores_insertTask task hid.ge hstatus).trans (hext.stores hfstask)
  have hlt : task.id < (db.insertTask task).nextTaskid := lt_nextTaskid (List.mem_append_right _ (List.mem_singleton.mpr rfl))
  refine ⟨hstores, fun p hp => ?_⟩
  rw [← hid]
  exact hstores.makes_new hid.ge (hlt.trans_le hext.nextTaskid) hp

theorem neg_nextTaskid_ne_zero (db : Database) : -(db.nextTaskid : ℤ) ≠ 0 := by
  have : 0 < db.nextTaskid := Nat.succ_pos _
  omega

/-! ### Calls on folders and on files -/

theorem Restartable.mkdir (h : Restartable s) {folderflags : ℕ} {ctime : ℤ} {key : Except ℤ (List UInt8)} {commits : Bool} :
    Restartable (s.mkdir folderid name folderflags ctime key commits).1 := by
  simp only [State.mkdir]
  split
  · exact h
  cases hfound : searchTree (s.overlay.get folderid).mkdirs name 0 with
  | some task => exact h
  | none =>
    cases hkey : (if folderflags &&& flagEncrypted ≠ 0 then key.map some else .ok none) with
    | error error => exact h
    | ok value =>
      simp only
      split
      · exact h
      have hnot := searchTree_eq_none.mp hfound
      have hflags : (if value.isNone then 0 else flagEncrypted) = folderflags &&& flagEncrypted := by
        by_cases henc : folderflags &&& flagEncrypted = 0
        · rw [if_neg (not_not.mpr henc)] at hkey
          cases hkey
          exact henc.symm
        · rw [if_pos henc] at hkey
          cases key with
          | error _ => cases hkey
          | ok _ =>
            cases hkey
            have hone : folderflags &&& flagEncrypted = folderflags % 2 := Nat.and_one_is_mod folderflags
            rw [hone] at henc ⊢
            show 1 = folderflags % 2
            omega
      obtain ⟨hstores, hmakes⟩ := Database.stores_task s.db
        { id := s.db.nextTaskid, type := .mkdir, status := 0, folderid := folderid, sfolderid := folderid, text1 := name,
          text2 := value, int1 := ctime } rfl (show 0 ≠ 3 by decide)
        ((Database.extends_dependOnId _ s.db.nextTaskid folderid).trans
          (Database.extends_dependOnName _ s.db.nextTaskid folderid name)) (by simp)
      rw [← hflags]
      refine h.update hstores (fun o => rfl) (fun _ _ hfolder => hfolder.insertMkdir)
        (nodup_insertIntoTree (h.mkdirs_nodup folderid) hnot) (fun r hr => ?_) fun r hr => .inl hr
      rcases mem_insertIntoTree.mp hr with rfl | hr
      · exact .inr ⟨neg_nextTaskid_ne_zero s.db, hmakes _ rfl⟩
      · exact .inl hr

theorem Restartable.rmdirFound (h : Restartable s) {s' : State} {depend : ℕ} {cfolderid : ℤ} {commits : Bool} (hdb : s'.db = s.db)
    (hget : ∀ f, s'.overlay.get f = if f = folderid then (s.overlay.get f).deleteMkdir name 0 else s.overlay.get f)
    (hok : (s'.rmdirFound folderid name depend cfolderid commits).2 = 0) :
    Restartable (s'.rmdirFound folderid name depend cfolderid commits).1 := by
  simp only [State.rmdirFound] at hok ⊢
  split at hok
  · cases hok
  split at hok
  · cases hok
  rw [if_neg ‹_›, if_neg ‹_›, hdb]
  obtain ⟨hstores, -⟩ := Database.stores_task s.db
    { id := s.db.nextTaskid, type := .rmdir, status := 0, folderid := folderid, sfolderid := cfolderid, text1 := name } rfl
    (show 0 ≠ 3 by decide) (((Database.extends_dependOnTask ..).trans (Database.extends_dependOnAll ..)).trans
      (Database.extends_dependOnName _ s.db.nextTaskid folderid name)) (by simp)
  refine (h.takeFolder hstores fun _ => rfl).congr fun f => ?_
  rw [initTaskRmdir, Overlay.get_update, Overlay.get_update, hget]
  split_ifs
  · exact .refl _
  · exact .refl _

theorem Restartable.rmdir (h : Restartable s) {commits : Bool} (hok : (s.rmdir folderid name commits).2 = 0) :
    Restartable (s.rmdir folderid name commits).1 := by
  simp only [State.rmdir] at hok ⊢
  cases hfound : searchTree (s.overlay.get folderid).mkdirs name 0 with
  | some mkdir =>
    simp only [hfound] at hok ⊢
    exact h.rmdirFound rfl (fun f => Overlay.get_update ..) hok
  | none =>
    cases hrow : s.db.folderNamed folderid name with
    | none => simp [hfound, hrow, enoent] at hok
    | some row =>
      simp only [hfound, hrow] at hok ⊢
      split at hok
      · cases hok
      rw [if_neg ‹_›]
      refine h.rmdirFound rfl (fun f => ?_) hok
      split_ifs with hf
      · rw [hf, Folder.deleteMkdir_of_not_has (searchTree_eq_none.mp hfound)]
      · rfl

theorem Restartable.addCreat (h : Restartable s) {encsymkey : Option (List UInt8)} {commits : Bool} :
    Restartable (s.addCreat folderid name encsymkey commits).1 := by
  simp only [State.addCreat]
  split
  · exact h
  obtain ⟨hstores, hmakes⟩ := Database.stores_task s.db
    { id := s.db.nextTaskid, type := .creat, status := 1, folderid := folderid, sfolderid := folderid, text1 := name,
      text2 := encsymkey } rfl (show 1 ≠ 3 by decide)
    ((Database.extends_dependOnId ..).trans (Database.extends_dependOnName _ s.db.nextTaskid folderid name)) (by simp)
  refine h.update hstores (fun o => rfl) (fun _ _ hfolder => hfolder.insertUnlink.insertCreat) (h.mkdirs_nodup folderid)
    (fun r hr => .inl hr) fun r hr => ?_
  rcases mem_insertIntoTree.mp hr with rfl | hr
  · exact .inr ⟨neg_nextTaskid_ne_zero s.db, hmakes _ (.inl rfl)⟩
  · exact .inl hr

theorem Restartable.addModifiedFile (h : Restartable s) {fileid hash : ℤ} {encsymkey : Option (List UInt8)} {commits : Bool}
    (hok : (s.addModifiedFile folderid name fileid hash encsymkey commits).2.isSome) :
    Restartable (s.addModifiedFile folderid name fileid hash encsymkey commits).1 := by
  simp only [State.addModifiedFile] at hok ⊢
  split at hok
  · cases hok
  rw [if_neg ‹_›]
  obtain ⟨hstores, hmakes⟩ := Database.stores_task s.db
    { id := s.db.nextTaskid, type := .modify, status := 1, folderid := folderid, fileid := fileid, sfolderid := folderid,
      text1 := name, text2 := encsymkey, int2 := hash } rfl (show 1 ≠ 3 by decide)
    (((Database.extends_dependOnId ..).trans (Database.extends_dependOnName _ s.db.nextTaskid folderid name)).trans
      (Database.extends_dependOnRecord _ s.db.nextTaskid (searchTree (s.overlay.get folderid).creats name 0))) (by simp)
  refine (h.putFile hstores (fun _ => rfl) ⟨neg_nextTaskid_ne_zero s.db, hmakes _ (.inr rfl)⟩).congr fun f => ?_
  rw [Overlay.update_update]
  exact .refl _

theorem Restartable.unlinkFound (h : Restartable s) {s' : State} {depend : ℕ} {fileid : ℤ} {rec : Option (ℤ × Name)}
    {batched commits : Bool} (hdb : s'.db = s.db)
    (hget : ∀ f, s'.overlay.get f = if f = folderid then (s.overlay.get f).deleteCreat name 0 else s.overlay.get f)
    (hok : (s'.unlinkFound folderid name depend fileid rec batched commits).2 = 0) :
    Restartable (s'.unlinkFound folderid name depend fileid rec batched commits).1 := by
  simp only [State.unlinkFound] at hok ⊢
  split at hok
  · cases hok
  rw [if_neg ‹_›, hdb]
  generalize s'.fileAtOldLocation fileid rec = revoffileid
  generalize hstopped : (if fileid < 0 then s.db.stopAndDeleteFile fileid batched else s.db) = stopped
  have hstop : s.db.Stores stopped [] ∧ stopped.nextTaskid = s.db.nextTaskid := by
    rw [← hstopped]
    split_ifs
    · exact ⟨s.db.stores_stopAndDeleteFile .., s.db.nextTaskid_stopAndDeleteFile ..⟩
    · exact ⟨(Database.Extends.refl _).stores rfl, rfl⟩
  have hstored : ∀ task : Task, task.id = s.db.nextTaskid → task.status ≠ 3 → ∀ db' : Database,
      (stopped.insertTask task).Extends db' → db'.fstask = (stopped.insertTask task).fstask → s.db.Stores db' [task] :=
    fun task hid hstatus db' hext hfstask =>
      hstop.1.trans (Database.stores_task stopped task (hid.trans hstop.2.symm) hstatus hext hfstask).1
  have hext : ∀ db : Database, db.Extends (((if -fileid ≠ depend then ((db.dependOnTask s.db.nextTaskid depend).dependOnId
      s.db.nextTaskid revoffileid).dependOnId s.db.nextTaskid fileid else (db.dependOnTask s.db.nextTaskid depend).dependOnId
      s.db.nextTaskid revoffileid)).dependOnName s.db.nextTaskid folderid name) := by
    intro db
    refine .trans ?_ (Database.extends_dependOnName ..)
    have hrev := (db.extends_dependOnTask s.db.nextTaskid depend).trans (Database.extends_dependOnId _ s.db.nextTaskid revoffileid)
    split_ifs
    · exact hrev.trans (Database.extends_dependOnId ..)
    · exact hrev
  have hrest : ∀ db : Database, (((if -fileid ≠ depend then ((db.dependOnTask s.db.nextTaskid depend).dependOnId
      s.db.nextTaskid revoffileid).dependOnId s.db.nextTaskid fileid else (db.dependOnTask s.db.nextTaskid depend).dependOnId
      s.db.nextTaskid revoffileid)).dependOnName s.db.nextTaskid folderid name).fstask = db.fstask := by
    intro db
    split_ifs
    · simp
    · simp
  have hagrees : ∀ f, ((s.overlay.update folderid fun folder =>
      (folder.deleteCreat name 0).insertUnlink ⟨name, s.db.nextTaskid, fileid, 0⟩).get f).Agrees
        ((s'.overlay.update folderid (·.insertUnlink ⟨name, s.db.nextTaskid, fileid, 0⟩)).get f) := by
    intro f
    rw [Overlay.get_update, Overlay.get_update, hget]
    split_ifs
    · exact .refl _
    · exact .refl _
  by_cases hrev : revoffileid ≠ 0
  · rw [if_pos hrev]
    exact (h.takeFile (hstored _ rfl (show 0 ≠ 3 by decide) _ (hext _) (hrest _)) fun _ => rfl).congr hagrees
  · rw [if_neg hrev]
    exact (h.takeFile (hstored _ rfl (show 0 ≠ 3 by decide) _ (hext _) (hrest _)) fun _ => rfl).congr hagrees

theorem Restartable.unlink (h : Restartable s) {rec : Option (ℤ × Name)} {batched commits : Bool}
    (hok : (s.unlink folderid name rec batched commits).2 = 0) :
    Restartable (s.unlink folderid name rec batched commits).1 := by
  simp only [State.unlink] at hok ⊢
  cases hfound : searchTree (s.overlay.get folderid).creats name 0 with
  | some cr =>
    simp only [hfound] at hok ⊢
    have hid := (h.creats folderid cr (searchTree_some hfound).1).1
    rw [if_neg hid] at hok ⊢
    exact h.unlinkFound rfl (fun f => Overlay.get_update ..) hok
  | none =>
    cases hrow : s.db.fileNamed folderid name with
    | none => simp [hfound, hrow, enoent] at hok
    | some row =>
      simp only [hfound, hrow] at hok ⊢
      split at hok
      · cases hok
      rw [if_neg ‹_›]
      refine h.unlinkFound rfl (fun f => ?_) hok
      split_ifs with hf
      · rw [hf, Folder.deleteCreat_of_not_has (searchTree_eq_none.mp hfound)]
      · rfl

/-! ### Renames -/

theorem Restartable.renameFile (h : Restartable s) {fileid parentfolderid to_folderid : ℤ} {new_name : Name}
    {batched commits : Bool} (hid : fileid ≠ 0 ∧ s.db.Makes fileid fun type => type = .creat ∨ type = .modify)
    (hok : (s.renameFile fileid parentfolderid name to_folderid new_name batched commits).2 = 0) :
    Restartable (s.renameFile fileid parentfolderid name to_folderid new_name batched commits).1 := by
  simp only [State.renameFile] at hok ⊢
  split at hok
  · cases hok
  rw [if_neg ‹_›]
  have hftask := s.db.stores_insertTask { id := s.db.nextTaskid, type := .renfileFrom, status := 10,
                                          folderid := parentfolderid, fileid := fileid, text1 := name }
    le_rfl (show 10 ≠ 3 by decide)
  have hfrom := h.takeFile hftask fun _ => rfl
  have hmakes := hftask.makes hid.2
  clear hok hftask
  generalize s.db.insertTask _ = db at hfrom hmakes ⊢
  have httask := db.stores_insertTask { id := db.nextTaskid, type := .renfileTo, status := 0, folderid := to_folderid,
                                        fileid := fileid, text1 := new_name, int1 := s.db.nextTaskid }
    le_rfl (show 0 ≠ 3 by decide)
  have hmoved := httask.trans (Database.stores_moveCreation _ db.nextTaskid to_folderid
    ((httask.makes hmakes).imp fun _ => .inr))
  have hdepends := fun db' : Database => ((((db'.extends_dependOnId db.nextTaskid parentfolderid).trans
    (Database.extends_dependOnTarget _ db.nextTaskid parentfolderid to_folderid)).trans
    (Database.extends_dependOnName2 _ db.nextTaskid s.db.nextTaskid parentfolderid name)).trans
    (Database.extends_dependOnName _ db.nextTaskid to_folderid new_name)).trans
    (Database.extends_dependOnRecord _ db.nextTaskid (searchTree (s.overlay.get parentfolderid).creats name 0))
  have hstores := fun replaced : Option Record =>
    (hmoved.trans ((hdepends _).stores (by simp))).trans (Database.stores_stopReplaced _ replaced batched)
  exact hfrom.putFile (hstores _) (fun _ => rfl) ⟨hid.1, (hstores _).makes hmakes⟩

/-- Where a folder is found it is taken away; the name is to be hidden in any case. -/
theorem Restartable.deleteFolderIfEx (folderid : ℤ) (name : Name) (h : Restartable s) : ∃ overlay, Restartable ⟨(s.deleteFolderIfEx folderid name).1, overlay⟩ ∧
    (∃ rows, s.db.Stores (s.deleteFolderIfEx folderid name).1 rows) ∧
    ∀ r : Record, r.name = name → ∀ f, Folder.Agrees (if f = folderid then (overlay.get f).insertRmdir r else overlay.get f)
      (if f = folderid then ((s.overlay.get f).deleteMkdir name 0).insertRmdir r else s.overlay.get f) := by
  rw [State.deleteFolderIfEx]
  cases hfound : s.folderIfEx folderid name with
  | none =>
    have hnot : ¬Has (s.overlay.get folderid).mkdirs name := by
      intro hhas
      obtain ⟨mkdir, hmkdir⟩ := Option.isSome_iff_exists.mp hhas
      have hid := (h.mkdirs folderid mkdir (searchTree_some hmkdir).1).1
      simp [State.folderIfEx, hmkdir, hid] at hfound
    refine ⟨s.overlay, h, ⟨[], (Database.Extends.refl _).stores rfl⟩, fun r hr f => ?_⟩
    split_ifs with hf
    · rw [hf, Folder.deleteMkdir_of_not_has hnot]
      exact .refl _
    · exact .refl _
  | some found =>
    obtain ⟨cfolderid, depend⟩ := found
    obtain ⟨hstores, -⟩ := Database.stores_task s.db
      { id := s.db.nextTaskid, type := .rmdir, status := 0, folderid := folderid, sfolderid := cfolderid, text1 := name } rfl
      (show 0 ≠ 3 by decide) ((Database.extends_dependOnTask _ s.db.nextTaskid depend).trans
        (Database.extends_dependOnId _ s.db.nextTaskid cfolderid)) (by simp)
    refine ⟨_, h.takeFolder hstores fun _ => rfl, ⟨_, hstores⟩, fun r hr f => ?_⟩
    rw [initTaskRmdir, Overlay.get_update]
    split_ifs
    · refine ⟨rfl, rfl, rfl, fun other => ?_⟩
      simp only [Folder.insertRmdir, has_insertIntoTree, hr, or_self_left]
    · exact .refl _

/-- The two mkdirs that are deleted are one. -/
theorem deleteFromTree_of_replaces {tree : RecordTree} {new_name : Name} (hnodup : (tree.map Record.name).Nodup)
    (h : name = new_name ∨ ¬Has tree new_name) :
    deleteFromTree (deleteFromTree tree name 0) name 0 = deleteFromTree (deleteFromTree tree new_name 0) name 0 := by
  rcases h with rfl | hnot
  · rfl
  · rw [deleteFromTree_of_not_has (has_deleteFromTree hnodup), deleteFromTree_of_not_has hnot]

theorem Restartable.renameFolder (h : Restartable s) {id parentfolderid to_folderid : ℤ} {new_name : Name} {targetflags : ℕ}
    {commits : Bool} (hid : id ≠ 0 ∧ s.db.Makes id (· = .mkdir))
    (hreplaces : name = new_name ∨ ¬Has (s.overlay.get to_folderid).mkdirs new_name ∧
      (parentfolderid = to_folderid ∨ ¬Has (s.overlay.get to_folderid).mkdirs name))
    (hok : (s.renameFolder id parentfolderid name to_folderid new_name targetflags commits).2 = 0) :
    Restartable (s.renameFolder id parentfolderid name to_folderid new_name targetflags commits).1 := by
  simp only [State.renameFolder] at hok ⊢
  split at hok
  · cases hok
  rw [if_neg ‹_›]
  clear hok
  obtain ⟨overlay, hdeleted, ⟨rows, hrows⟩, hagrees⟩ := h.deleteFolderIfEx to_folderid new_name
  generalize s.deleteFolderIfEx to_folderid new_name = deleted at hdeleted hrows ⊢
  obtain ⟨db0, rmtask⟩ := deleted
  simp only at hdeleted hrows ⊢
  have hftask := db0.stores_insertTask { id := db0.nextTaskid, type := .renfolderFrom, status := 10,
                                         folderid := parentfolderid, sfolderid := id, text1 := name }
    le_rfl (show 10 ≠ 3 by decide)
  have hfrom := hdeleted.takeFolder hftask fun _ => rfl
  have hmakes := hftask.makes (hrows.makes hid.2)
  clear hftask
  generalize db0.insertTask _ = db at hfrom hmakes ⊢
  have httask := db.stores_insertTask { id := db.nextTaskid, type := .renfolderTo, status := 0, folderid := to_folderid,
                                        sfolderid := id, text1 := new_name, int1 := db0.nextTaskid, int2 := targetflags }
    le_rfl (show 0 ≠ 3 by decide)
  have hmoved := httask.trans (Database.stores_moveCreation _ db.nextTaskid to_folderid
    ((httask.makes hmakes).imp fun _ => .inl))
  have hdepends := fun db' : Database => (((((db'.extends_dependOnTask db.nextTaskid rmtask).trans
    (Database.extends_dependOnId _ db.nextTaskid parentfolderid)).trans
    (Database.extends_dependOnTarget _ db.nextTaskid parentfolderid to_folderid)).trans
    (Database.extends_dependOnName2 _ db.nextTaskid db0.nextTaskid parentfolderid name)).trans
    (Database.extends_dependOnName _ db.nextTaskid id new_name)).trans
    (Database.extends_dependOnRecord _ db.nextTaskid (searchTree (s.overlay.get parentfolderid).mkdirs name 0))
  have hstores := hmoved.trans ((hdepends _).stores (by simp))
  have hmkdirs : ∀ f, (overlay.get f).mkdirs =
      if f = to_folderid then deleteFromTree (s.overlay.get f).mkdirs new_name 0 else (s.overlay.get f).mkdirs := by
    intro f
    have hf := (hagrees ⟨new_name, 0, 0, 0⟩ rfl f).mkdirs
    split_ifs at hf ⊢
    · exact hf.symm
    · exact hf.symm
  have hnot : ¬Has (overlay.get to_folderid).mkdirs new_name := by
    rw [hmkdirs, if_pos rfl]
    exact has_deleteFromTree (h.mkdirs_nodup to_folderid)
  have hnot' : ¬Has ((initTaskRmdir overlay { id := db0.nextTaskid, type := .renfolderFrom, status := 10,
                                              folderid := parentfolderid, sfolderid := id, text1 := name }).get
      to_folderid).mkdirs new_name := by
    rw [initTaskRmdir, Overlay.get_update]
    split_ifs
    · intro hhas
      obtain ⟨r, hr, hname⟩ := has_iff.mp hhas
      exact hnot (has_iff.mpr ⟨r, mem_of_mem_deleteFromTree hr, hname⟩)
    · exact hnot
  have hto := hfrom.update hstores (fun _ => rfl) (fun _ _ hfolder => hfolder.insertRmdir.insertMkdir)
    (nodup_insertIntoTree (hfrom.mkdirs_nodup to_folderid) hnot') (fun r hr => ?_) fun r hr => .inl hr
  · refine hto.congr fun f => ?_
    have hf := hagrees ⟨new_name, db.nextTaskid, id, 0⟩ rfl f
    have hmkdir := hmkdirs f
    have hnodup := h.mkdirs_nodup f
    simp only [initTaskRmdir, Overlay.get_update]
    by_cases hfto : f = to_folderid
    · simp only [if_pos hfto] at hf hmkdir ⊢
      rw [← hfto] at hreplaces
      by_cases hffrom : f = parentfolderid
      · simp only [if_pos hffrom]
        refine ⟨congrArg (insertIntoTree · _) ?_, hf.creats, hf.unlinks, fun other => ?_⟩
        · show deleteFromTree (deleteFromTree (s.overlay.get f).mkdirs name 0) name 0 = deleteFromTree (overlay.get f).mkdirs name 0
          rw [hmkdir]
          exact deleteFromTree_of_replaces hnodup (hreplaces.imp_right And.left)
        · have hother := hf.rmdirs other
          simp only [Folder.insertRmdir, Folder.insertMkdir, Folder.deleteMkdir, has_insertIntoTree] at hother ⊢
          rw [or_left_comm, hother, or_left_comm]
      · simp only [if_neg hffrom]
        refine ⟨congrArg (insertIntoTree · _) ?_, hf.creats, hf.unlinks, hf.rmdirs⟩
        show deleteFromTree (s.overlay.get f).mkdirs name 0 = (overlay.get f).mkdirs
        rw [hmkdir]
        rcases hreplaces with rfl | ⟨hnew, hsame | hold⟩
        · rfl
        · exact absurd hsame.symm hffrom
        · rw [deleteFromTree_of_not_has hnew, deleteFromTree_of_not_has hold]
    · simp only [if_neg hfto] at hf ⊢
      split_ifs
      · exact hf.deleteMkdir.insertRmdir
      · exact hf
  · rcases mem_insertIntoTree.mp hr with rfl | hr
    · exact .inr ⟨hid.1, hstores.makes hmakes⟩
    · exact .inl hr

theorem Restartable.renameFoundFolder (h : Restartable s) {id : ℤ} {old new : FsPath} {commits : Bool}
    (hid : id ≠ 0 ∧ s.db.Makes id (· = .mkdir)) (hreplaces : s.ReplacesMkdir old new)
    (hok : (s.renameFoundFolder id old new commits).2 = 0) : Restartable (s.renameFoundFolder id old new commits).1 := by
  rw [State.renameFoundFolder] at hok ⊢
  split at hok
  · cases hok
  split at hok
  · cases hok
  split at hok
  · cases hok
  rw [if_neg ‹_›, if_neg ‹_›, if_neg ‹_›]
  exact h.renameFolder hid hreplaces hok

theorem Restartable.renameFoundFile (h : Restartable s) {id : ℤ} {old new : FsPath} {batched commits : Bool}
    (hid : id ≠ 0 ∧ s.db.Makes id fun type => type = .creat ∨ type = .modify)
    (hok : (s.renameFoundFile id old new batched commits).2 = 0) :
    Restartable (s.renameFoundFile id old new batched commits).1 := by
  rw [State.renameFoundFile] at hok ⊢
  split at hok
  · cases hok
  split at hok
  · cases hok
  rw [if_neg ‹_›, if_neg ‹_›]
  exact h.renameFile hid hok

/-- A remote id is not that of a task. -/
theorem Restartable.makes_row (h : Restartable s) {row : Row} (hrow : row ∈ s.db.folder ++ s.db.file) (p : TaskType → Prop) :
    row.id ≠ 0 ∧ s.db.Makes row.id p := by
  have hpos := h.ids row hrow
  exact ⟨by omega, fun hneg => absurd hpos hneg.not_gt⟩

theorem Restartable.rename (h : Restartable s) {old new : FsPath} {batched commits : Bool}
    (hreplaces : Call.Replaces s (.rename old new batched commits)) (hok : (s.rename old new batched commits).2 = 0) :
    Restartable (s.rename old new batched commits).1 := by
  rw [State.rename] at hok ⊢
  split at hok
  · cases hok
  rw [if_neg ‹_›]
  cases hmkdir : searchTree (s.overlay.get old.folderid).mkdirs old.name 0 with
  | some mkdir =>
    simp only [hmkdir] at hok ⊢
    exact h.renameFoundFolder (h.mkdirs _ mkdir (searchTree_some hmkdir).1) (hreplaces ⟨mkdir.id, lookupIn_mkdir hmkdir⟩) hok
  | none =>
    have hnomkdir := searchTree_eq_none.mp hmkdir
    cases hcreat : searchTree (s.overlay.get old.folderid).creats old.name 0 with
    | some creat =>
      have hid := h.creats _ creat (searchTree_some hcreat).1
      simp only [hmkdir, hcreat, if_neg hid.1] at hok ⊢
      split at hok
      · cases hok
      rw [if_neg ‹_›]
      exact h.renameFoundFile hid hok
    | none =>
      have hrows := @lookupIn_rows s.db _ old.folderid _ hnomkdir (searchTree_eq_none.mp hcreat)
      simp only [hmkdir, hcreat] at hok ⊢
      cases hrow : if Has (s.overlay.get old.folderid).rmdirs old.name then none else s.db.folderNamed old.folderid old.name with
      | some row =>
        simp only [hrow] at hok hrows ⊢
        have hmem : row ∈ s.db.folder := by
          split_ifs at hrow
          exact (Database.folderNamed_some hrow).1
        exact h.renameFoundFolder (h.makes_row (List.mem_append_left _ hmem) _) (hreplaces ⟨row.id, hrows⟩) hok
      | none =>
        simp only [hrow] at hok ⊢
        cases hfile : if Has (s.overlay.get old.folderid).unlinks old.name then none else s.db.fileNamed old.folderid old.name with
        | some row =>
          simp only [hfile] at hok ⊢
          have hmem : row ∈ s.db.file := by
            split_ifs at hfile
            exact (Database.fileNamed_some hfile).1
          exact h.renameFoundFile (h.makes_row (List.mem_append_right _ hmem) _) hok
        | none =>
          simp only [hfile] at hok
          cases hok

/-! ### Runs -/

theorem Restartable.run (h : Restartable s) {s' : State} {call : Call} (hreplaces : call.Replaces s)
    (hsucceeds : succeeds s call s') : Restartable s' := by
  have hrun : call.run s = (s', 0) := hsucceeds
  have hs' : s' = (call.run s).1 := by rw [hrun]
  have hok : (call.run s).2 = 0 := by rw [hrun]
  rw [hs']
  cases call with
  | mkdir folderid name folderflags ctime key commits => exact h.mkdir
  | rmdir folderid name commits => exact h.rmdir hok
  | addCreat folderid name encsymkey commits => exact h.addCreat
  | addModifiedFile folderid name fileid hash encsymkey commits =>
    refine h.addModifiedFile ?_
    by_contra hnone
    exact absurd hok (by simp [Call.run, hnone, eio])
  | unlink folderid name rec batched commits => exact h.unlink hok
  | rename old new batched commits => exact h.rename hreplaces hok

theorem Untouched.restartable (h : Untouched s) : Restartable s := by
  obtain ⟨⟨folder, file, fstask, fstaskdepend⟩, overlay⟩ := s
  obtain ⟨hids, hfstask, hoverlay⟩ := h
  change fstask = [] at hfstask
  change overlay = {} at hoverlay
  subst hfstask hoverlay
  exact ⟨hids, fun _ => .refl _, List.forall_mem_nil _, fun _ => List.nodup_nil, fun _ => List.forall_mem_nil _,
    fun _ => List.forall_mem_nil _⟩

theorem initTask_resetStatus (o : Overlay) (task : Task) : initTask o (resetStatus task) = initTask o task := by
  rw [resetStatus]
  split_ifs
  · rfl
  · rfl
  · rfl

/-- Rows of no such status are all replayed. -/
theorem fstaskInit_eq (h : ∀ task ∈ db.fstask, task.status ≠ 3) : fstaskInit db = db.fstask.foldl initTask {} := by
  have hall : (db.fstask.map resetStatus).filter (·.status ≠ 3) = db.fstask.map resetStatus := by
    rw [List.filter_eq_self, List.forall_mem_map]
    intro task htask
    have hstatus := h task htask
    rw [resetStatus]
    split_ifs
    · rfl
    · rfl
    · exact decide_eq_true hstatus
  rw [fstaskInit, hall, List.foldl_map]
  exact congrArg (fun f => db.fstask.foldl f {}) (funext fun o => funext fun task => initTask_resetStatus o task)

/-- In every run of such calls, a restart leaves the records that the calls left. -/
theorem restart_leaves_overlay (h : Reachable Untouched (Avoiding succeeds fun s call => ¬call.Replaces s) s) (folderid : ℤ) :
    ((fstaskInit s.db).get folderid).Agrees (s.overlay.get folderid) := by
  have hrestartable : Restartable s := by
    refine h.invariant (fun s hs => hs.restartable) fun s call s' hs hstep => ?_
    exact hs.run (not_not.mp hstep.2) hstep.1
  rw [fstaskInit_eq hrestartable.statuses]
  exact hrestartable.agrees folderid

theorem succeeds_run (s : State) (call : Call) (hok : (call.run s).2 = 0) : succeeds s call (call.run s).1 := Prod.ext rfl hok

/-- A folder is made, and is renamed. -/
theorem restart_leaves_renamed :
    let s : State := ((Call.mkdir 0 [97] 0 0 (.ok []) true).run {}).1
    let s' : State := ((Call.rename ⟨0, [97], permAll, 0, 0⟩ ⟨0, [98], permAll, 0, 0⟩ false true).run s).1
    ∀ folderid, ((fstaskInit s'.db).get folderid).Agrees (s'.overlay.get folderid) := by
  intro s s'
  have hreplaces : Call.Replaces {} (.mkdir 0 [97] 0 0 (.ok []) true) := trivial
  have hmade : Reachable Untouched (Avoiding succeeds fun s call => ¬call.Replaces s) s :=
    .next (.start (s := {}) ⟨List.forall_mem_nil _, rfl, rfl⟩)
      ⟨succeeds_run {} (.mkdir 0 [97] 0 0 (.ok []) true) (by decide), not_not.mpr hreplaces⟩
  refine restart_leaves_overlay (.next hmade
    ⟨succeeds_run s (.rename ⟨0, [97], permAll, 0, 0⟩ ⟨0, [98], permAll, 0, 0⟩ false true) (by decide), not_not.mpr fun _ => ?_⟩)
  exact .inr ⟨by decide, .inl rfl⟩

/-- A new folder that is renamed to the name of another one is beside it until a restart. -/
theorem restart_drops_replaced : ¬∀ s : State, Reachable Untouched succeeds s → ∀ folderid,
    ((fstaskInit s.db).get folderid).Agrees (s.overlay.get folderid) := by
  intro hall
  let path (name : Name) : FsPath := ⟨0, name, permAll, 0, 0⟩
  have h0 : Reachable Untouched succeeds {} := .start ⟨List.forall_mem_nil _, rfl, rfl⟩
  have h1 := h0.next (succeeds_run _ (.mkdir 0 [97] 0 0 (.ok []) true) (by decide))
  have h2 := h1.next (succeeds_run _ (.mkdir 0 [98] 0 0 (.ok []) true) (by decide))
  have h3 := h2.next (succeeds_run _ (.rename (path [97]) (path [98]) false true) (by decide))
  exact absurd (hall _ h3 0).mkdirs (by decide)

end Pclsync.Tasks
