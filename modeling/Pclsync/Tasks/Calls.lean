import Pclsync.Tasks.Records

/-! The calls on the task overlay, from `pfstasks.c`, and `psync_fs_rename` from `pfs.c`.
Each stores a task and edits the overlay. -/
namespace Pclsync.Tasks

/-! ### The database -/

/-- A row of `folder` or of `file`. -/
structure Row where
  id : ℤ
  parentfolderid : ℤ
  name : Name
deriving DecidableEq, Repr

/-- `PSYNC_FS_TASK_*`. -/
inductive TaskType where
  | mkdir
  | rmdir
  | creat
  | unlink
  | renfileFrom
  | renfileTo
  | renfolderFrom
  | renfolderTo
  | modify
  | unSetRev
deriving DecidableEq, Repr

/-- A row of `fstask`. A column that is null is zero. -/
structure Task where
  id : ℕ
  type : TaskType
  status : ℕ
  folderid : ℤ
  sfolderid : ℤ := 0
  fileid : ℤ := 0
  text1 : Name
  text2 : Option (List UInt8) := none
  int1 : ℤ := 0
  int2 : ℤ := 0
deriving DecidableEq, Repr

/-- The tables of remote rows and of tasks. `fstask` is in the order of ids. -/
structure Database where
  folder : List Row := []
  file : List Row := []
  fstask : List Task := []
  fstaskdepend : List (ℕ × ℕ) := []
deriving DecidableEq, Repr

/-- `SELECT id FROM folder WHERE parentfolderid=? AND name=?`. -/
def Database.folderNamed (db : Database) (folderid : ℤ) (name : Name) : Option Row :=
  db.folder.find? fun row => row.parentfolderid = folderid ∧ row.name = name

/-- `SELECT id FROM file WHERE parentfolderid=? AND name=?`. -/
def Database.fileNamed (db : Database) (folderid : ℤ) (name : Name) : Option Row :=
  db.file.find? fun row => row.parentfolderid = folderid ∧ row.name = name

/-- The id that the next row of `fstask` gets. -/
def Database.nextTaskid (db : Database) : ℕ := (db.fstask.map Task.id).foldr max 0 + 1

/-- `INSERT INTO fstask`. -/
def Database.insertTask (db : Database) (task : Task) : Database := { db with fstask := db.fstask ++ [task] }

/-- `psync_fstask_depend`. -/
def Database.depend (db : Database) (taskid dependontaskid : ℕ) : Database :=
  { db with fstaskdepend := db.fstaskdepend.insert (taskid, dependontaskid) }

def Database.dependOnAll (db : Database) (taskid : ℕ) (tasks : List Task) : Database :=
  tasks.foldl (fun db task => db.depend taskid task.id) db

/-- `psync_fstask_depend_on_name2`. -/
def Database.dependOnName2 (db : Database) (taskid taskid2 : ℕ) (folderid : ℤ) (name : Name) : Database :=
  db.dependOnAll taskid
    (db.fstask.filter fun task => task.folderid = folderid ∧ task.text1 = name ∧ task.id ≠ taskid ∧ task.id ≠ taskid2)

/-- `psync_fstask_depend_on_name`. -/
def Database.dependOnName (db : Database) (taskid : ℕ) (folderid : ℤ) (name : Name) : Database :=
  db.dependOnName2 taskid taskid folderid name

/-- A dependency, where there is a task to depend on. -/
def Database.dependOnTask (db : Database) (taskid dependontaskid : ℕ) : Database :=
  if dependontaskid ≠ 0 then db.depend taskid dependontaskid else db

/-- A dependency on the task of a record, where one is found. -/
def Database.dependOnRecord (db : Database) (taskid : ℕ) : Option Record → Database
  | some r => db.depend taskid r.taskid
  | none => db

/-- A dependency on the task that makes a folder or a file, where its id is not remote yet. -/
def Database.dependOnId (db : Database) (taskid : ℕ) (id : ℤ) : Database :=
  if id < 0 then db.depend taskid (-id).toNat else db

/-- A dependency on the folder that a rename goes to, where it is another one. -/
def Database.dependOnTarget (db : Database) (taskid : ℕ) (parentfolderid to_folderid : ℤ) : Database :=
  if to_folderid ≠ parentfolderid then db.dependOnId taskid to_folderid else db

/-- `UPDATE fstask SET sfolderid=? WHERE id=?`. -/
def Database.setSfolderid (db : Database) (taskid : ℕ) (folderid : ℤ) : Database :=
  { db with fstask := db.fstask.map fun task => if task.id = taskid then { task with sfolderid := folderid } else task }

/-- `psync_fstask_stop_and_delete_file`, for the rows. `batched` is that the file is in the
current batch of small uploads. -/
def Database.stopAndDeleteFile (db : Database) (fileid : ℤ) (batched : Bool) : Database :=
  if batched then db
  else { db with fstask := db.fstask.map fun task =>
    if (task.id : ℤ) = -fileid ∨ task.fileid = fileid ∧ task.status ≠ 10 then { task with status := 11 } else task }

/-- The upload of a file that a rename replaces is stopped. -/
def Database.stopReplaced (db : Database) (replaced : Option Record) (batched : Bool) : Database :=
  match replaced with
  | some cr => if cr.id < 0 then db.stopAndDeleteFile cr.id batched else db
  | none => db

/-- The task that makes what is renamed is told the folder it goes to. -/
def Database.moveCreation (db : Database) (taskid : ℕ) (id to_folderid : ℤ) : Database :=
  if id < 0 then (db.setSfolderid (-id).toNat to_folderid).depend taskid (-id).toNat else db

structure State where
  db : Database := {}
  overlay : Overlay := {}
deriving DecidableEq, Repr

/-! ### What the database functions leave -/

/-- The remote rows are the same, and no task id is given out again. -/
structure Database.Extends (db db' : Database) : Prop where
  folder : db'.folder = db.folder
  file : db'.file = db.file
  nextTaskid : db.nextTaskid ≤ db'.nextTaskid

variable {db db' db'' : Database} {taskid : ℕ}

theorem Database.Extends.refl (db : Database) : db.Extends db := ⟨rfl, rfl, le_rfl⟩

theorem Database.Extends.trans (h : db.Extends db') (h' : db'.Extends db'') : db.Extends db'' :=
  ⟨h'.folder.trans h.folder, h'.file.trans h.file, h.nextTaskid.trans h'.nextTaskid⟩

theorem foldr_max (ids : List ℕ) (id : ℕ) : ids.foldr max id = max (ids.foldr max 0) id := by
  induction ids with
  | nil => simp
  | cons x rest ih => rw [List.foldr_cons, List.foldr_cons, ih, max_assoc]

theorem Database.nextTaskid_insertTask (db : Database) (task : Task) :
    (db.insertTask task).nextTaskid = max db.nextTaskid (task.id + 1) := by
  rw [nextTaskid, nextTaskid, insertTask, List.map_append, List.foldr_append, List.map_cons, List.map_nil, List.foldr_cons,
    List.foldr_nil, foldr_max, Nat.max_zero, Nat.add_max_add_right]

/-- A task is stored under the next id. -/
theorem Database.extends_insertTask (db : Database) (task : Task) : db.Extends (db.insertTask task) :=
  ⟨rfl, rfl, by rw [nextTaskid_insertTask]; exact le_max_left ..⟩

theorem Database.extends_depend (db : Database) (taskid dependontaskid : ℕ) : db.Extends (db.depend taskid dependontaskid) :=
  ⟨rfl, rfl, le_rfl⟩

theorem Database.extends_dependOnAll (db : Database) (taskid : ℕ) (tasks : List Task) :
    db.Extends (db.dependOnAll taskid tasks) := by
  rw [dependOnAll]
  induction tasks generalizing db with
  | nil => exact .refl db
  | cons task rest ih => exact (db.extends_depend taskid task.id).trans (ih _)

theorem Database.extends_dependOnName (db : Database) (taskid : ℕ) (folderid : ℤ) (name : Name) :
    db.Extends (db.dependOnName taskid folderid name) := db.extends_dependOnAll ..

theorem Database.extends_dependOnName2 (db : Database) (taskid taskid2 : ℕ) (folderid : ℤ) (name : Name) :
    db.Extends (db.dependOnName2 taskid taskid2 folderid name) := db.extends_dependOnAll ..

theorem Database.extends_dependOnTask (db : Database) (taskid dependontaskid : ℕ) :
    db.Extends (db.dependOnTask taskid dependontaskid) := by
  rw [dependOnTask]
  split_ifs
  · exact db.extends_depend ..
  · exact .refl db

theorem Database.extends_dependOnRecord (db : Database) (taskid : ℕ) (found : Option Record) :
    db.Extends (db.dependOnRecord taskid found) := by
  cases found with
  | some r => exact db.extends_depend ..
  | none => exact .refl db

theorem Database.extends_dependOnId (db : Database) (taskid : ℕ) (id : ℤ) : db.Extends (db.dependOnId taskid id) := by
  rw [dependOnId]
  split_ifs
  · exact db.extends_depend ..
  · exact .refl db

theorem Database.extends_dependOnTarget (db : Database) (taskid : ℕ) (parentfolderid to_folderid : ℤ) :
    db.Extends (db.dependOnTarget taskid parentfolderid to_folderid) := by
  rw [dependOnTarget]
  split_ifs
  · exact db.extends_dependOnId ..
  · exact .refl db

theorem Database.nextTaskid_map (db : Database) {edit : Task → Task} (h : ∀ task, (edit task).id = task.id) :
    Database.nextTaskid { db with fstask := db.fstask.map edit } = db.nextTaskid := by
  have hids : Task.id ∘ edit = Task.id := funext h
  rw [nextTaskid, nextTaskid, List.map_map, hids]

/-- Changes of rows that keep their ids. -/
theorem Database.extends_map (db : Database) {edit : Task → Task} (h : ∀ task, (edit task).id = task.id) :
    db.Extends { db with fstask := db.fstask.map edit } := ⟨rfl, rfl, (db.nextTaskid_map h).ge⟩

theorem Database.extends_stopAndDeleteFile (db : Database) (fileid : ℤ) (batched : Bool) :
    db.Extends (db.stopAndDeleteFile fileid batched) := by
  rw [stopAndDeleteFile]
  split_ifs
  · exact .refl db
  · exact db.extends_map fun task => by split_ifs <;> rfl

theorem Database.nextTaskid_stopAndDeleteFile (db : Database) (fileid : ℤ) (batched : Bool) :
    (db.stopAndDeleteFile fileid batched).nextTaskid = db.nextTaskid := by
  rw [stopAndDeleteFile]
  split_ifs
  · rfl
  · exact db.nextTaskid_map fun task => by split_ifs <;> rfl

theorem Database.extends_stopReplaced (db : Database) (replaced : Option Record) (batched : Bool) :
    db.Extends (db.stopReplaced replaced batched) := by
  cases replaced with
  | none => exact .refl db
  | some cr =>
    rw [stopReplaced]
    split_ifs
    · exact db.extends_stopAndDeleteFile ..
    · exact .refl db

theorem Database.extends_moveCreation (db : Database) (taskid : ℕ) (id to_folderid : ℤ) :
    db.Extends (db.moveCreation taskid id to_folderid) := by
  rw [moveCreation]
  split_ifs
  · exact (db.extends_map fun task => by split_ifs <;> rfl).trans (Database.extends_depend ..)
  · exact .refl db

/-! ### What they store -/
@[simp] theorem Database.fstask_depend (db : Database) (taskid dependontaskid : ℕ) :
    (db.depend taskid dependontaskid).fstask = db.fstask := rfl

@[simp] theorem Database.fstask_dependOnAll (db : Database) (taskid : ℕ) (tasks : List Task) :
    (db.dependOnAll taskid tasks).fstask = db.fstask := by
  rw [dependOnAll]
  induction tasks generalizing db with
  | nil => rfl
  | cons task rest ih => exact ih _

@[simp] theorem Database.fstask_dependOnName2 (db : Database) (taskid taskid2 : ℕ) (folderid : ℤ) (name : Name) :
    (db.dependOnName2 taskid taskid2 folderid name).fstask = db.fstask := db.fstask_dependOnAll ..

@[simp] theorem Database.fstask_dependOnName (db : Database) (taskid : ℕ) (folderid : ℤ) (name : Name) :
    (db.dependOnName taskid folderid name).fstask = db.fstask := db.fstask_dependOnAll ..

@[simp] theorem Database.fstask_dependOnTask (db : Database) (taskid dependontaskid : ℕ) :
    (db.dependOnTask taskid dependontaskid).fstask = db.fstask := by
  rw [dependOnTask]
  split_ifs <;> rfl

@[simp] theorem Database.fstask_dependOnRecord (db : Database) (taskid : ℕ) (found : Option Record) :
    (db.dependOnRecord taskid found).fstask = db.fstask := by
  cases found with
  | some r => rfl
  | none => rfl

@[simp] theorem Database.fstask_dependOnId (db : Database) (taskid : ℕ) (id : ℤ) :
    (db.dependOnId taskid id).fstask = db.fstask := by
  rw [dependOnId]
  split_ifs <;> rfl

@[simp] theorem Database.fstask_dependOnTarget (db : Database) (taskid : ℕ) (parentfolderid to_folderid : ℤ) :
    (db.dependOnTarget taskid parentfolderid to_folderid).fstask = db.fstask := by
  rw [dependOnTarget]
  split_ifs
  · exact db.fstask_dependOnId ..
  · rfl

theorem foldr_max_le {ids : List ℕ} {id : ℕ} (h : id ∈ ids) : id ≤ ids.foldr max 0 := by
  induction ids with
  | nil => cases h
  | cons x rest ih =>
    rcases List.mem_cons.mp h with rfl | hrest
    · exact le_max_left ..
    · exact (ih hrest).trans (le_max_right ..)

theorem Database.lt_nextTaskid {task : Task} (h : task ∈ db.fstask) : task.id < db.nextTaskid :=
  Nat.lt_succ_of_le (foldr_max_le (List.mem_map_of_mem h))

/-! ### Errors and flags -/

def enoent : ℤ := 2

/-- `EIO`. -/
def eio : ℤ := 5

def eacces : ℤ := 13

def eexist : ℤ := 17

def enotdir : ℤ := 20

def eisdir : ℤ := 21

def enotempty : ℤ := 39

/-- `PSYNC_FS_ERR_MOVE_ACROSS_CRYPTO`. -/
def moveAcrossCrypto : ℤ := 18

/-- `PSYNC_FOLDER_FLAG_ENCRYPTED`. -/
def flagEncrypted : ℕ := 1

/-- `PSYNC_FOLDER_FLAG_INVISIBLE`. -/
def flagInvisible : ℕ := 2

/-- `PSYNC_PERM_CREATE`. -/
def permCreate : ℕ := 2

/-- `PSYNC_PERM_MODIFY`. -/
def permModify : ℕ := 4

/-- `PSYNC_PERM_DELETE`. -/
def permDelete : ℕ := 8

/-- `PSYNC_PERM_ALL`. -/
def permAll : ℕ := 15

/-! ### Folders -/

/-- What `psync_fstask_rmdir` and `psync_fs_is_folder_nonempty` look at. -/
def State.isFolderNonempty (s : State) (folderid : ℤ) : Bool :=
  let folder := s.overlay.get folderid
  folder.creats ≠ [] ∨ folder.mkdirs ≠ [] ∨ 0 ≤ folderid ∧
    ((∃ row ∈ s.db.file, row.parentfolderid = folderid ∧ ¬Has folder.unlinks row.name) ∨
      ∃ row ∈ s.db.folder, row.parentfolderid = folderid ∧ ¬Has folder.rmdirs row.name)

/-- `psync_fstask_mkdir`. `key` is what `psync_cloud_crypto_get_new_encoded_key` returns, and
`commits` is that the transaction does. -/
def State.mkdir (s : State) (folderid : ℤ) (name : Name) (folderflags : ℕ) (ctime : ℤ)
    (key : Except ℤ (List UInt8)) (commits : Bool) : State × ℤ :=
  let folder := s.overlay.get folderid
  if 0 ≤ folderid ∧ (s.db.folderNamed folderid name).isSome ∧ ¬Has folder.rmdirs name then (s, -eexist)
  else match searchTree folder.mkdirs name 0 with
    | some task => (s, if task.flags &&& flagInvisible ≠ 0 then -eacces else -eexist)
    | none =>
      match if folderflags &&& flagEncrypted ≠ 0 then key.map some else .ok none with
      | .error error => (s, -error)
      | .ok key =>
        let taskid := s.db.nextTaskid
        let db := s.db.insertTask { id := taskid, type := .mkdir, status := 0, folderid := folderid, sfolderid := folderid,
                                    text1 := name, text2 := key, int1 := ctime }
        let db := (db.dependOnId taskid folderid).dependOnName taskid folderid name
        if ¬commits then (s, -eio)
        else ({ db := db, overlay := s.overlay.update folderid (·.insertMkdir ⟨name, taskid, -taskid, folderflags &&& flagEncrypted⟩) },
          0)

/-- `psync_fstask_rmdir`, once the folder is found and its mkdir deleted. -/
def State.rmdirFound (s : State) (folderid : ℤ) (name : Name) (depend : ℕ) (cfolderid : ℤ) (commits : Bool) : State × ℤ :=
  if s.isFolderNonempty cfolderid then (s, -enotempty)
  else
    let taskid := s.db.nextTaskid
    let db := s.db.insertTask { id := taskid, type := .rmdir, status := 0, folderid := folderid, sfolderid := cfolderid,
                                text1 := name }
    let db := db.dependOnTask taskid depend
    let db := db.dependOnAll taskid (db.fstask.filter fun task => task.folderid = cfolderid)
    let db := db.dependOnName taskid folderid name
    if ¬commits then (s, -eio)
    else ({ db := db, overlay := s.overlay.update folderid (·.insertRmdir ⟨name, taskid, cfolderid, 0⟩) }, 0)

/-- `psync_fstask_rmdir`. -/
def State.rmdir (s : State) (folderid : ℤ) (name : Name) (commits : Bool) : State × ℤ :=
  let folder := s.overlay.get folderid
  match searchTree folder.mkdirs name 0 with
  | some mkdir =>
    -- the mkdir is gone also when the folder turns out not to be empty
    { s with overlay := s.overlay.update folderid (·.deleteMkdir name 0) }.rmdirFound folderid name mkdir.taskid mkdir.id
      commits
  | none =>
    match s.db.folderNamed folderid name with
    | none => (s, -enoent)
    | some row =>
      if Has folder.rmdirs name then (s, -enoent) else s.rmdirFound folderid name 0 row.id commits

/-! ### Files -/

/-- `psync_fstask_add_creat`. -/
def State.addCreat (s : State) (folderid : ℤ) (name : Name) (encsymkey : Option (List UInt8)) (commits : Bool) :
    State × Option Record :=
  let taskid := s.db.nextTaskid
  let db := s.db.insertTask { id := taskid, type := .creat, status := 1, folderid := folderid, sfolderid := folderid,
                              text1 := name, text2 := encsymkey }
  let db := (db.dependOnId taskid folderid).dependOnName taskid folderid name
  if ¬commits then (s, none)
  else
    let task : Record := ⟨name, taskid, -taskid, 0⟩
    ({ db := db
       overlay := s.overlay.update folderid fun folder => (folder.insertUnlink ⟨name, taskid, -taskid, 0⟩).insertCreat task },
      some task)

/-- `psync_fstask_add_modified_file`. -/
def State.addModifiedFile (s : State) (folderid : ℤ) (name : Name) (fileid hash : ℤ) (encsymkey : Option (List UInt8))
    (commits : Bool) : State × Option Record :=
  let taskid := s.db.nextTaskid
  let db := s.db.insertTask { id := taskid, type := .modify, status := 1, folderid := folderid, fileid := fileid,
                              sfolderid := folderid, text1 := name, text2 := encsymkey, int2 := hash }
  let db := (db.dependOnId taskid folderid).dependOnName taskid folderid name
  let db := db.dependOnRecord taskid (searchTree (s.overlay.get folderid).creats name 0)
  let overlay := s.overlay.update folderid (·.deleteCreat name 0)
  if ¬commits then ({ s with overlay := overlay }, none)
  else
    let task : Record := ⟨name, taskid, -taskid, 0⟩
    ({ db := db
       overlay := overlay.update folderid fun folder => (folder.insertUnlink ⟨name, taskid, fileid, 0⟩).insertCreat task },
      some task)

/-- `get_file_at_old_location`. `rec` is the record of the file in the cache. -/
def State.fileAtOldLocation (s : State) (fileid : ℤ) (rec : Option (ℤ × Name)) : ℤ :=
  if fileid < 0 then 0
  else match rec with
    | none => 0
    | some (folderid, name) =>
      let folder := s.overlay.get folderid
      match searchTree folder.creats name 0 with
      | some cr => cr.id
      | none => if Has folder.unlinks name then 0 else ((s.db.fileNamed folderid name).map Row.id).getD 0

/-- `psync_fstask_unlink`, once the file is found and its creat deleted. -/
def State.unlinkFound (s : State) (folderid : ℤ) (name : Name) (depend : ℕ) (fileid : ℤ) (rec : Option (ℤ × Name))
    (batched commits : Bool) : State × ℤ :=
  let revoffileid := s.fileAtOldLocation fileid rec
  let taskid := s.db.nextTaskid
  let db := if fileid < 0 then s.db.stopAndDeleteFile fileid batched else s.db
  let db := db.insertTask
    (if revoffileid ≠ 0 then
      { id := taskid, type := .unSetRev, status := 0, folderid := folderid, fileid := revoffileid, int1 := fileid,
        text1 := name }
    else { id := taskid, type := .unlink, status := 0, folderid := folderid, fileid := fileid, text1 := name })
  let db := db.dependOnTask taskid depend
  let db := db.dependOnId taskid revoffileid
  let db := if -fileid ≠ depend then db.dependOnId taskid fileid else db
  let db := db.dependOnName taskid folderid name
  if ¬commits then (s, -eio)
  else ({ db := db, overlay := s.overlay.update folderid (·.insertUnlink ⟨name, taskid, fileid, 0⟩) }, 0)

/-- `psync_fstask_unlink`. A creat without an id is of a static file. -/
def State.unlink (s : State) (folderid : ℤ) (name : Name) (rec : Option (ℤ × Name)) (batched commits : Bool) : State × ℤ :=
  let folder := s.overlay.get folderid
  match searchTree folder.creats name 0 with
  | some cr =>
    if cr.id = 0 then
      ({ s with overlay := s.overlay.update folderid fun folder => (folder.deleteUnlink cr.name cr.taskid).deleteCreat name 0 }, 0)
    else
      { s with overlay := s.overlay.update folderid (·.deleteCreat name 0) }.unlinkFound folderid name cr.taskid cr.id rec
        batched commits
  | none =>
    match s.db.fileNamed folderid name with
    | none => (s, -enoent)
    | some row =>
      if Has folder.unlinks name then (s, -enoent) else s.unlinkFound folderid name 0 row.id rec batched commits

/-! ### Renames -/

/-- `psync_fstask_rename_file`. -/
def State.renameFile (s : State) (fileid parentfolderid : ℤ) (name : Name) (to_folderid : ℤ) (new_name : Name)
    (batched commits : Bool) : State × ℤ :=
  let ftaskid := s.db.nextTaskid
  let db := s.db.insertTask { id := ftaskid, type := .renfileFrom, status := 10, folderid := parentfolderid, fileid := fileid,
                              text1 := name }
  let ttaskid := db.nextTaskid
  let db := db.insertTask { id := ttaskid, type := .renfileTo, status := 0, folderid := to_folderid, fileid := fileid,
                            text1 := new_name, int1 := ftaskid }
  let db := db.moveCreation ttaskid fileid to_folderid
  let db := db.dependOnId ttaskid parentfolderid
  let db := db.dependOnTarget ttaskid parentfolderid to_folderid
  let db := db.dependOnName2 ttaskid ftaskid parentfolderid name
  let db := db.dependOnName ttaskid to_folderid new_name
  let db := db.dependOnRecord ttaskid (searchTree (s.overlay.get parentfolderid).creats name 0)
  if ¬commits then (s, -eio)
  else
    let overlay := s.overlay.update parentfolderid fun folder =>
      (folder.deleteCreat name 0).insertUnlink ⟨name, ftaskid, fileid, 0⟩
    let db := db.stopReplaced (searchTree (overlay.get to_folderid).creats new_name 0) batched
    let overlay := overlay.update to_folderid fun folder =>
      ((folder.deleteCreat new_name 0).insertUnlink ⟨new_name, ttaskid, fileid, 0⟩).insertCreat ⟨new_name, ttaskid, fileid, 0⟩
    ({ db := db, overlay := overlay }, 0)

/-- The folder that `psync_fstask_delete_folder_if_ex` finds, and the task to depend on. -/
def State.folderIfEx (s : State) (folderid : ℤ) (name : Name) : Option (ℤ × ℕ) := do
  let folder := s.overlay.get folderid
  let (cfolderid, depend) ← match searchTree folder.mkdirs name 0 with
    | some mkdir => some (mkdir.id, mkdir.taskid)
    | none => if Has folder.rmdirs name then none else some (0, 0)
  if cfolderid ≠ 0 then some (cfolderid, depend)
  else if folderid < 0 then none
  else
    let row ← s.db.folderNamed folderid name
    if row.id = 0 then none else some (row.id, depend)

/-- `psync_fstask_delete_folder_if_ex`. The task id is zero where there is no folder. -/
def State.deleteFolderIfEx (s : State) (folderid : ℤ) (name : Name) : Database × ℕ :=
  match s.folderIfEx folderid name with
  | none => (s.db, 0)
  | some (cfolderid, depend) =>
    let taskid := s.db.nextTaskid
    let db := s.db.insertTask { id := taskid, type := .rmdir, status := 0, folderid := folderid, sfolderid := cfolderid,
                                text1 := name }
    ((db.dependOnTask taskid depend).dependOnId taskid cfolderid, taskid)

/-- `psync_fstask_rename_folder`. In the folder that it goes to, the mkdir of the old name
is deleted. -/
def State.renameFolder (s : State) (folderid parentfolderid : ℤ) (name : Name) (to_folderid : ℤ) (new_name : Name)
    (targetflags : ℕ) (commits : Bool) : State × ℤ :=
  let (db, rmtask) := s.deleteFolderIfEx to_folderid new_name
  let ftaskid := db.nextTaskid
  let db := db.insertTask { id := ftaskid, type := .renfolderFrom, status := 10, folderid := parentfolderid,
                            sfolderid := folderid, text1 := name }
  let ttaskid := db.nextTaskid
  let db := db.insertTask { id := ttaskid, type := .renfolderTo, status := 0, folderid := to_folderid, sfolderid := folderid,
                            text1 := new_name, int1 := ftaskid, int2 := targetflags }
  let db := db.moveCreation ttaskid folderid to_folderid
  let db := db.dependOnTask ttaskid rmtask
  let db := db.dependOnId ttaskid parentfolderid
  let db := db.dependOnTarget ttaskid parentfolderid to_folderid
  let db := db.dependOnName2 ttaskid ftaskid parentfolderid name
  let db := db.dependOnName ttaskid folderid new_name
  let db := db.dependOnRecord ttaskid (searchTree (s.overlay.get parentfolderid).mkdirs name 0)
  if ¬commits then (s, -eio)
  else
    let overlay := s.overlay.update parentfolderid fun folder =>
      (folder.deleteMkdir name 0).insertRmdir ⟨name, ftaskid, folderid, 0⟩
    let overlay := overlay.update to_folderid fun folder =>
      ((folder.deleteMkdir name 0).insertRmdir ⟨new_name, ttaskid, folderid, 0⟩).insertMkdir
        ⟨new_name, ttaskid, folderid, targetflags⟩
    ({ db := db, overlay := overlay }, 0)

/-- `psync_fspath_t`. -/
structure FsPath where
  folderid : ℤ
  name : Name
  permissions : ℕ
  flags : ℕ
  shareid : ℕ
deriving DecidableEq, Repr

/-- `psync_fs_can_move`. -/
def canMove (fromfolderid : ℤ) (frompermissions : ℕ) (tofolderid : ℤ) (topermissions : ℕ) (sameshare : Bool) : Bool :=
  if fromfolderid = tofolderid then frompermissions &&& permModify = permModify
  else if frompermissions &&& permAll = permAll ∧ topermissions &&& permAll = permAll then true
  else if frompermissions &&& (permDelete ||| permModify) = 0 ∨ topermissions &&& (permCreate ||| permModify) = 0 then false
  else if sameshare then frompermissions &&& permModify ≠ 0
  else frompermissions &&& permDelete ≠ 0 ∧ topermissions &&& permCreate ≠ 0

/-- `psync_fs_is_file`. -/
def State.isFile (s : State) (folderid : ℤ) (name : Name) : Bool :=
  let folder := s.overlay.get folderid
  if Has folder.creats name then true
  else if Has folder.unlinks name then false
  else (s.db.fileNamed folderid name).isSome

/-- `psync_fs_is_folder`. -/
def State.isFolder (s : State) (folderid : ℤ) (name : Name) : Bool :=
  let folder := s.overlay.get folderid
  if Has folder.mkdirs name then true
  else if Has folder.rmdirs name then false
  else (s.db.folderNamed folderid name).isSome

/-- `psync_fs_is_nonempty_folder`. -/
def State.isNonemptyFolder (s : State) (folderid : ℤ) (name : Name) : Bool :=
  let folder := s.overlay.get folderid
  match searchTree folder.mkdirs name 0 with
  | some mkdir => s.isFolderNonempty mkdir.id
  | none =>
    if Has folder.rmdirs name then false
    else match s.db.folderNamed folderid name with
      | some row => s.isFolderNonempty row.id
      | none => false

/-- `psync_fs_rename_static_file`. -/
def State.renameStaticFile (s : State) (srcfolderid : ℤ) (srccr : Record) (to_folderid : ℤ) (new_name : Name) : State × ℤ :=
  let overlay := match searchTree (s.overlay.get to_folderid).creats new_name 0 with
    | some cr =>
      s.overlay.update to_folderid fun folder => (folder.deleteUnlink new_name cr.taskid).deleteCreat new_name 0
    | none => s.overlay
  let overlay := overlay.update to_folderid fun folder =>
    (folder.insertUnlink ⟨new_name, srccr.taskid, 0, 0⟩).insertCreat ⟨new_name, srccr.taskid, 0, 0⟩
  let overlay := overlay.update srcfolderid fun folder =>
    (folder.deleteUnlink srccr.name srccr.taskid).deleteCreat srccr.name srccr.taskid
  ({ s with overlay := overlay }, 0)

/-- A folder that `psync_fs_rename` has found. -/
def State.renameFoundFolder (s : State) (folderid : ℤ) (old new : FsPath) (commits : Bool) : State × ℤ :=
  if s.isFile new.folderid new.name then (s, -enotdir)
  else if s.isNonemptyFolder new.folderid new.name then (s, -enotempty)
  else if ¬canMove folderid old.permissions new.folderid new.permissions (old.shareid = new.shareid) then (s, -eacces)
  else s.renameFolder folderid old.folderid old.name new.folderid new.name new.flags commits

/-- A file that `psync_fs_rename` has found. -/
def State.renameFoundFile (s : State) (fileid : ℤ) (old new : FsPath) (batched commits : Bool) : State × ℤ :=
  if s.isFolder new.folderid new.name then (s, -eisdir)
  else if ¬canMove old.folderid old.permissions new.folderid new.permissions (old.shareid = new.shareid) then (s, -eacces)
  else s.renameFile fileid old.folderid old.name new.folderid new.name batched commits

/-- `psync_fs_rename`, of paths that are resolved. -/
def State.rename (s : State) (old new : FsPath) (batched commits : Bool) : State × ℤ :=
  if old.flags &&& flagEncrypted ≠ new.flags &&& flagEncrypted then (s, -moveAcrossCrypto)
  else
    let folder := s.overlay.get old.folderid
    match searchTree folder.mkdirs old.name 0, searchTree folder.creats old.name 0 with
    | some mkdir, _ => s.renameFoundFolder mkdir.id old new commits
    | none, some creat =>
      if s.isFolder new.folderid new.name then (s, -eisdir)
      else if creat.id = 0 then s.renameStaticFile old.folderid creat new.folderid new.name
      else s.renameFoundFile creat.id old new batched commits
    | none, none =>
      match if Has folder.rmdirs old.name then none else s.db.folderNamed old.folderid old.name with
      | some row => s.renameFoundFolder row.id old new commits
      | none =>
        match if Has folder.unlinks old.name then none else s.db.fileNamed old.folderid old.name with
        | some row => s.renameFoundFile row.id old new batched commits
        | none => (s, -enoent)

/-! ### Calls -/

/-- A call of the file system, and how what it uses goes. -/
inductive Call where
  | mkdir (folderid : ℤ) (name : Name) (folderflags : ℕ) (ctime : ℤ) (key : Except ℤ (List UInt8)) (commits : Bool)
  | rmdir (folderid : ℤ) (name : Name) (commits : Bool)
  | addCreat (folderid : ℤ) (name : Name) (encsymkey : Option (List UInt8)) (commits : Bool)
  | addModifiedFile (folderid : ℤ) (name : Name) (fileid hash : ℤ) (encsymkey : Option (List UInt8)) (commits : Bool)
  | unlink (folderid : ℤ) (name : Name) (rec : Option (ℤ × Name)) (batched commits : Bool)
  | rename (old new : FsPath) (batched commits : Bool)

def Call.run (s : State) : Call → State × ℤ
  | .mkdir folderid name folderflags ctime key commits => s.mkdir folderid name folderflags ctime key commits
  | .rmdir folderid name commits => s.rmdir folderid name commits
  | .addCreat folderid name encsymkey commits =>
    let (s, task) := s.addCreat folderid name encsymkey commits
    (s, if task.isSome then 0 else -eio)
  | .addModifiedFile folderid name fileid hash encsymkey commits =>
    let (s, task) := s.addModifiedFile folderid name fileid hash encsymkey commits
    (s, if task.isSome then 0 else -eio)
  | .unlink folderid name rec batched commits => s.unlink folderid name rec batched commits
  | .rename old new batched commits => s.rename old new batched commits

end Pclsync.Tasks
